import Tenyr.Isa.Word

/-!
# Objects

What an object file holds: records of words, the symbols it defines and the relocations it asks for.
Names are cut to fit their fields.
-/

namespace Tenyr.Obj

open Isa

/-- Symbol names, as the characters of a C string. -/
abbrev Name := List Char

/-- `SYMBOL_LEN` -/
def symbolLen : ℕ := 32

/-- What `strcopy` keeps of a name in a field of `SYMBOL_LEN` characters. -/
def strcopy (name : Name) : Name := name.take (symbolLen - 1)

@[simp]
theorem strcopy_nil : strcopy [] = [] := rfl

@[simp]
theorem strcopy_strcopy (name : Name) : strcopy (strcopy name) = strcopy name := by
  simp [strcopy, List.take_take]

theorem strcopy_of_length_lt {name : Name} (h : name.length < symbolLen) :
    strcopy name = name := by
  apply List.take_of_length_le
  omega

def rlcNegate : Word := 1#32
def rlcAbsolute : Word := 4#32

/-- `struct objrec` -/
structure ObjRec where
  addr : Word
  data : List Word
  deriving DecidableEq, Repr

/-- The length of a record in words. -/
def ObjRec.size (rec : ObjRec) : Word := BitVec.ofNat 32 rec.data.length

/-- `struct objsym` -/
structure ObjSym where
  flags : Word
  name : Name
  value : Word
  size : Word
  deriving DecidableEq, Repr

/-- `struct objrlc` -/
structure ObjRlc where
  flags : Word
  name : Name
  addr : Word
  width : Word
  deriving DecidableEq, Repr

/-- `struct obj` -/
structure Object where
  records : List ObjRec
  symbols : List ObjSym
  relocs : List ObjRlc
  deriving DecidableEq, Repr

end Tenyr.Obj
