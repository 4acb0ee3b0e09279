import Tenyr.Asm.Program
import Tenyr.Obj.Object

/-!
# Output formats of the assembler

The `obj`, `raw` and `text` writers, which each keep their own position in the output, and the object
that `assembly_inner` emits through the first of them.
-/

namespace Tenyr.Asm

open Isa Obj

/-- What a writer sees of an element. -/
structure Insn where
  reladdr : Word
  word : Word
  size : Word
  deriving DecidableEq, Repr

/-- The elements in the order in which they are written. -/
def Assembled.insns (a : Assembled) : List Insn :=
  List.zipWith (fun reladdr (word, elem) ↦ { reladdr, word, size := Elem.size elem })
    a.reladdrs (a.words.zip a.elems)

/-- Sizes are signed; an element with nothing to write has size 0 or less. -/
def emittedSize (size : Word) : ℕ := size.toInt.toNat

/-! ## The object format -/

/-- The first record under construction. Memory that was never written has the contents `data` has
from the start. -/
structure ObjFdata where
  size : Word
  data : ℕ → Word
  pos : Word

/-- `obj_init`: 1024 cleared words; what `realloc` adds is not cleared. -/
def objInit (fresh : ℕ → Word) : ObjFdata where
  size := 1024#32
  data index := if index < 1024 then 0#32 else fresh index
  pos := 0#32

/-- The loop that doubles the size until it suffices. From 1024 on the size is 0 after 22 rounds, so
a loop of 32 rounds never ends. -/
def growSize : ℕ → Word → Word → Option Word
  | 0, _, _ => none
  | rounds + 1, size, need =>
      if size < need then growSize rounds (size * 2#32) need else some size

/-- `memset` to zero of `count` bytes from the word at `start` on. -/
def clearBytes (data : ℕ → Word) (start count : ℕ) : ℕ → Word := fun index ↦
  if index < start then data index
  else
    let bits := 8 * min 4 (count - 4 * (index - start))
    (data index >>> bits) <<< bits

/-- `obj_out_insn` -/
def objOutInsn (u : ObjFdata) (i : Insn) : Except Stop ObjFdata :=
  if i.size.toInt ≤ 0 then .ok u
  else
    match growSize 32 u.size (u.pos + i.size) with
    | none => .error .hang
    | some size =>
        let cleared := clearBytes u.data u.pos.toNat i.size.toNat  -- counts bytes, not words
        .ok
          { size
            data := fun index ↦ if index = u.pos.toNat then i.word else cleared index
            pos := u.pos + i.size }

/-- `obj_out` for a list of elements. -/
def objOut (fresh : ℕ → Word) (insns : List Insn) : Except Stop ObjFdata :=
  insns.foldlM objOutInsn (objInit fresh)

/-- `obj_sym` for a global symbol. -/
def objSym (s : Symbol) : Except Stop ObjSym :=
  if s.resolved then
    .ok
      { flags := if s.ce.any fun ce ↦ !ce.flags.isDeferred then rlcAbsolute else 0#32
        name := strcopy s.name
        value := s.reladdr
        size := 0#32 }
  else .error .assertFailed

/-- `obj_reloc`, given the address of the element to relocate. -/
def objReloc (reloc : RelocNode) (reladdr : Word) : ObjRlc where
  flags := if reloc.negate then rlcNegate else 0#32
  name := strcopy reloc.name
  addr := reladdr
  width := BitVec.ofNat 32 reloc.width

/-- The relocations that have an element. -/
def objRelocs (reladdrs : List Word) (relocs : List RelocNode) : List ObjRlc :=
  relocs.filterMap fun reloc ↦
    reloc.insn.map fun k ↦ objReloc reloc (reladdrs.getD k 0#32)

/-- The object that is emitted. Symbols are written the latest first. -/
def Assembled.object (fresh : ℕ → Word) (a : Assembled) : Except Stop Object := do
  let u ← objOut fresh a.insns
  let symbols ← (a.symbols.reverse.filter Symbol.global).mapM objSym
  .ok
    { records := [{ addr := 0#32, data := (List.range u.pos.toNat).map u.data }]
      symbols
      relocs := objRelocs a.reladdrs a.relocs }

/-! ## The raw and text formats -/

/-- The word and the zeros that follow it. -/
def emitWords (i : Insn) : List Word :=
  match emittedSize i.size with
  | 0 => []
  | zeros + 1 => i.word :: List.replicate zeros 0#32

/-- How many zeros `raw_out` writes to reach an address. -/
def rawGap (offset reladdr : Word) : ℕ := (reladdr.toInt - offset.toInt).toNat

/-- `raw_out`: the words written, and the offset after them. -/
def rawOut (offset : Word) (i : Insn) : List Word × Word :=
  let words := List.replicate (rawGap offset i.reladdr) 0#32 ++ emitWords i
  (words, offset + BitVec.ofNat 32 words.length)

/-- `raw_out` for a list of elements. -/
def rawOutFrom (offset : Word) : List Insn → List Word × Word
  | [] => ([], offset)
  | i :: rest =>
      let (words, offset) := rawOut offset i
      let (words', offset) := rawOutFrom offset rest
      (words ++ words', offset)

/-- `text_out` for a list of elements. -/
def textOut (insns : List Insn) : List Word := insns.flatMap emitWords

end Tenyr.Asm
