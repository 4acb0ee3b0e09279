import Tenyr.Obj.Object

/-!
# The linker

`tld` packs the records of its objects one after another, adds the values of symbols and the offsets
of objects to the words that relocations name, and emits the records. Its search trees are the finite
maps they stand for: offsets by position of the object, definitions by name.
-/

namespace Tenyr.Link

open Isa Obj

/-- Why the linker ends without a result: a reported error, or a write outside of a record. -/
inductive LinkStop where
  | fatal | outOfBounds
  deriving DecidableEq, Repr

/-- `struct defn`; the object is given by its position. -/
structure Defn where
  name : Name
  obj : ℕ
  reladdr : Word
  flags : Word

/-! ## Building the state -/

/-- The size of the only record that is used. -/
def linkedSize (o : Object) : Word := (o.records.head?.map ObjRec.size).getD 0#32

/-- Where `do_link_build_state` packs the objects, the running offset being `running`. -/
def offsetsFrom (running : Word) : List Object → List Word
  | [] => []
  | o :: rest => running :: offsetsFrom (running + linkedSize o) rest

/-- The definitions of one object. -/
def addDefns (obj : ℕ) : List Defn → List ObjSym → Except LinkStop (List Defn)
  | defns, [] => .ok defns
  | defns, sym :: rest =>
      let name := strcopy sym.name
      if defns.any fun d ↦ d.name == name then .error .fatal  -- duplicate definition
      else addDefns obj ({ name, obj, reladdr := sym.value, flags := sym.flags } :: defns) rest

/-- The definitions of the objects from position `obj` on; objects without records are skipped. -/
def defnsFrom (obj : ℕ) (defns : List Defn) : List Object → Except LinkStop (List Defn)
  | [] => .ok defns
  | o :: rest =>
      if o.records.isEmpty then defnsFrom (obj + 1) defns rest
      else do
        let defns ← addDefns obj defns o.symbols
        defnsFrom (obj + 1) defns rest

/-! ## Relocating -/

section Relocate

variable (undef : UndefinedShifts) (offsets : List Word) (defns : List Defn)

/-- What a relocation of the object at offset `own` adds. -/
def displacement (own : Word) (rlc : ObjRlc) : Except LinkStop Word :=
  if rlc.name.isEmpty then
    .ok (if rlc.flags &&& rlcNegate = 0#32 then own else -own)
  else
    match defns.find? fun d ↦ d.name == strcopy rlc.name with
    | none => .error .fatal  -- missing definition
    | some d =>
        .ok (d.reladdr + if d.flags &&& rlcAbsolute = 0#32 then offsets.getD d.obj 0#32 else 0#32)

/-- The bits that a relocation of some width updates. -/
def relocMask (width : Word) : Word :=
  undef.shl (undef.shl 1#32 (width - 1#32)) 1#32 - 1#32

/-- The update of a word, trimmed to the right width. -/
def relocateWord (mask reladdr dest : Word) : Word :=
  (dest &&& ~~~mask) ||| ((dest + reladdr) &&& mask)

/-- `do_link_relocate_obj_reloc` on the only record of an object. -/
def relocate (own : Word) (r : ObjRec) (rlc : ObjRlc) : Except LinkStop ObjRec :=
  if rlc.addr < r.addr ∨ r.size < rlc.addr - r.addr then .ok r  -- reported, and ignored
  else do
    let reladdr ← displacement offsets defns own rlc
    let index := (rlc.addr - r.addr).toNat
    if index < r.data.length then
      .ok { r with data := r.data.modify index (relocateWord (relocMask undef rlc.width) reladdr) }
    else .error .outOfBounds

/-- `do_link_relocate_obj`, and its skipping of objects without records. -/
def relocateObj (own : Word) (o : Object) : Except LinkStop Object :=
  match o.records with
  | [] => .ok o
  | [r] => do
    let r ← o.relocs.foldlM (relocate undef offsets defns own) r
    .ok { o with records := [r] }
  | _ :: _ :: _ => if o.relocs.isEmpty then .ok o else .error .fatal

/-- `do_link_relocate` -/
def relocateAll : List Word → List Object → Except LinkStop (List Object)
  | own :: owns, o :: rest => do
    let o ← relocateObj undef offsets defns own o
    let rest ← relocateAll owns rest
    .ok (o :: rest)
  | _, _ => .ok []

end Relocate

/-! ## Emitting -/

/-- The records of `do_link_emit` from an address on. -/
def emitFrom (addr : Word) : List ObjRec → List ObjRec
  | [] => []
  | r :: rest => { r with addr } :: emitFrom (addr + r.size) rest

/-- `do_link`: the records of the output. -/
def link (undef : UndefinedShifts) (objs : List Object) : Except LinkStop (List ObjRec) := do
  let offsets := offsetsFrom 0#32 objs
  let defns ← defnsFrom 0 [] objs
  let objs ← relocateAll undef offsets defns offsets objs
  .ok (emitFrom 0#32 (objs.flatMap Object.records))

end Tenyr.Link
