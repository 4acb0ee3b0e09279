import Tenyr.Lib.Pulling
import Tenyr.Lib.Scan
import Tenyr.Obj.Codec

/-!
# Reading programs

The `in` functions of the four formats. Each is a source: it answers with an element, with nothing for
this time, or with the end, and keeps its place in the file.
-/

namespace Tenyr.Fmt

open Isa Obj Lib.Pulling Lib.Scan

/-- The parts of `struct element` that reading fills in. -/
structure Element where
  reladdr : Word
  word : Word
  deriving DecidableEq, Repr

/-- `struct memh_state`, without what only writing uses, and the text that is left. -/
structure MemhState where
  written : Word
  marked : Word
  chars : List Char
  deriving DecidableEq, Repr

/-- An open file: the state of its format and what is left of its stream. -/
inductive FileState where
  | obj (records : List ObjRec) (pos : ℕ)
  | raw (offset : Word) (bytes : List Byte)
  | text (offset : Word) (chars : List Char)
  | memh (state : MemhState)
  deriving DecidableEq

/-- `obj_in`, at position `pos` of the first record. -/
def objIn : List ObjRec → ℕ → Answer Element × FileState
  | [], pos => (.done, .obj [] pos)
  | rec :: records, pos =>
    if h : pos < rec.data.length then
      (.item { reladdr := rec.addr + BitVec.ofNat 32 pos, word := rec.data[pos] },
        .obj (rec :: records) (pos + 1))
    else objIn records 0

/-- `raw_in`, where words are little-endian. -/
def rawIn (offset : Word) (bytes : List Byte) : Answer Element × FileState :=
  if h : (bytes.take 4).length = 4 then
    (.item { reladdr := offset, word := wordBytes ⟨bytes.take 4, h⟩ },
      .raw (offset + 1#32) (bytes.drop 4))
  else (.done, .raw (offset + 1#32) [])

/-- The two conversions of `text_in`, the second only where the first finds no number. -/
def scanText (chars : List Char) : Option Word × List Char :=
  match scanHex chars with
  | (some w, rest) => (some w, rest)
  | (none, rest) =>
    match scanLiteral ['0', 'x'] (skipSpace rest) with
    | (true, rest) => scanHex rest
    | (false, rest) => (none, rest)

/-- `text_in`. The character after a number is taken, and has to be white space. -/
def textIn (offset : Word) (chars : List Char) : Answer Element × FileState :=
  let (result, rest) := scanText chars
  let state := FileState.text (offset + 1#32) rest.tail
  if rest.head?.all isSpace then
    match result with
    | some word => (.item { reladdr := offset, word }, state)
    | none => (.done, state)
  else (.done, state)

/-- The address mark of `memh_in`. -/
def scanMark (chars : List Char) : Option Word × List Char :=
  match scanLiteral ['@'] (skipSpace chars) with
  | (true, rest) => scanHex rest
  | (false, rest) => (none, rest)

/-- `memh_in`. Between what is written and an address mark there are zeros, and at the address mark
itself there is nothing. -/
def memhIn (s : MemhState) : Answer Element × MemhState :=
  if s.written.slt s.marked then
    (.item { reladdr := s.written, word := 0#32 }, { s with written := s.written + 1#32 })
  else if s.marked = s.written then
    match scanMark s.chars with
    | (some marked, rest) => (.nothing, { s with marked, chars := rest })
    | (none, rest) =>
      match scanHex rest with
      | (some word, rest) =>
        (.item { reladdr := s.written, word },
          { written := s.written + 1#32, marked := s.written + 1#32, chars := rest })
      | (none, rest) => (.done, { s with chars := rest })
  else (.done, s)

/-- The `in` function of the format a file is open in. -/
def input : FileState → Answer Element × FileState
  | .obj records pos => objIn records pos
  | .raw offset bytes => rawIn offset bytes
  | .text offset chars => textIn offset chars
  | .memh state => Prod.map id FileState.memh (memhIn state)

/-! ## Opening a file -/

/-- `tenyr_asm_formats`, with `format.memh.offset`. -/
inductive Format where
  | obj
  | raw
  | text
  | memh (offset : Word)
  deriving DecidableEq, Repr

/-- The text that a file holds. -/
def fileText (bytes : List Byte) : List Char := bytes.map fun b ↦ Char.ofNat b.toNat

/-- `memh_init` -/
def memhInit (offset : Word) (chars : List Char) : MemhState :=
  { written := offset, marked := offset, chars }

/-- The `init` functions. Only objects are read here, and can be refused. -/
def openFile (filesize : Option ℕ) (bytes : List Byte) : Format → Option FileState
  | .obj =>
    match objRead filesize { pos := 0, rest := bytes } with
    | .ok (o, _) => some (.obj o.records 0)
    | .error _ => none
  | .raw => some (.raw 0#32 bytes)
  | .text => some (.text 0#32 (fileText bytes))
  | .memh offset => some (.memh (memhInit offset (fileText bytes)))

/-! ## The end of a file -/

theorem length_scanMark_le (chars : List Char) : (scanMark chars).2.length ≤ chars.length := by
  have hliteral := (length_scanLiteral_le ['@'] (skipSpace chars)).trans (length_skipSpace_le chars)
  rcases hmatch : scanLiteral ['@'] (skipSpace chars) with ⟨found, rest⟩
  rw [hmatch] at hliteral
  rw [scanMark, hmatch]
  cases found with
  | true => exact (length_scanHex_le rest).trans hliteral
  | false => exact hliteral

theorem length_scanMark_lt {chars : List Char} {w : Word} (h : (scanMark chars).1 = some w) :
    (scanMark chars).2.length < chars.length := by
  have hliteral := (length_scanLiteral_le ['@'] (skipSpace chars)).trans (length_skipSpace_le chars)
  rcases hmatch : scanLiteral ['@'] (skipSpace chars) with ⟨found, rest⟩
  rw [hmatch] at hliteral
  rw [scanMark, hmatch] at h ⊢
  cases found with
  | true => exact (length_scanHex_lt h).trans_le hliteral
  | false => cases h

theorem length_scanText_lt {chars : List Char} {w : Word} (h : (scanText chars).1 = some w) :
    (scanText chars).2.length < chars.length := by
  have hfirst := length_scanHex_le chars
  rcases hmatch : scanHex chars with ⟨number, rest⟩
  rw [hmatch] at hfirst
  rw [scanText, hmatch] at h ⊢
  cases number with
  | some w' =>
    have hlt : (scanHex chars).2.length < chars.length :=
      length_scanHex_lt (w := w') (by rw [hmatch])
    rwa [hmatch] at hlt
  | none =>
    have hliteral :=
      (length_scanLiteral_le ['0', 'x'] (skipSpace rest)).trans (length_skipSpace_le rest)
    rcases hmatch' : scanLiteral ['0', 'x'] (skipSpace rest) with ⟨found, rest'⟩
    rw [hmatch'] at hliteral
    simp only [hmatch'] at h ⊢
    cases found with
    | true => exact (length_scanHex_lt h).trans_le (hliteral.trans hfirst)
    | false => cases h

/-- The words in records from a position of the first. -/
def objSize : List ObjRec → ℕ → ℕ
  | [], _ => 0
  | rec :: records, pos => rec.data.length - pos + (records.map fun rec ↦ rec.data.length).sum

/-- How much is left of a file: what its stream holds, and before that the zeros up to an address
mark. -/
def FileState.size : FileState → ℕ
  | .obj records pos => objSize records pos
  | .raw _ bytes => bytes.length
  | .text _ chars => chars.length
  | .memh s => 2 ^ 32 * s.chars.length + (s.marked.toInt - s.written.toInt).toNat

theorem objIn_size_lt {records : List ObjRec} {pos : ℕ} (h : (objIn records pos).1 ≠ .done) :
    (objIn records pos).2.size < objSize records pos := by
  induction records generalizing pos with
  | nil => exact absurd rfl h
  | cons rec records ih =>
    rw [objIn] at h ⊢
    split at h
    · rename_i hpos
      rw [dif_pos hpos]
      change objSize (rec :: records) (pos + 1) < objSize (rec :: records) pos
      simp only [objSize]
      omega
    · rename_i hpos
      rw [dif_neg hpos]
      have hrest : objSize records 0 ≤ objSize (rec :: records) pos := by
        cases records <;> simp [objSize]
      exact (ih h).trans_le hrest

theorem rawIn_size_lt {offset : Word} {bytes : List Byte} (h : (rawIn offset bytes).1 ≠ .done) :
    (rawIn offset bytes).2.size < bytes.length := by
  rw [rawIn] at h ⊢
  split at h
  · rename_i hlength
    rw [dif_pos hlength]
    change (bytes.drop 4).length < bytes.length
    rw [List.length_take] at hlength
    rw [List.length_drop]
    omega
  · exact absurd rfl h

/-- A number, and white space or the end after it. -/
theorem textIn_of_ne_done {offset : Word} {chars : List Char}
    (h : (textIn offset chars).1 ≠ .done) :
    ∃ word rest, scanText chars = (some word, rest) ∧
      textIn offset chars =
        (.item { reladdr := offset, word }, .text (offset + 1#32) rest.tail) := by
  rcases hscan : scanText chars with ⟨result, rest⟩
  simp only [textIn, hscan] at h ⊢
  by_cases hspace : rest.head?.all isSpace
  · rw [if_pos hspace] at h ⊢
    cases result with
    | none => exact absurd rfl h
    | some word => exact ⟨word, rest, rfl, rfl⟩
  · rw [if_neg hspace] at h
    exact absurd rfl h

theorem textIn_size_lt {offset : Word} {chars : List Char} (h : (textIn offset chars).1 ≠ .done) :
    (textIn offset chars).2.size < chars.length := by
  obtain ⟨word, rest, hscan, htext⟩ := textIn_of_ne_done h
  have hlt : (scanText chars).2.length < chars.length :=
    length_scanText_lt (w := word) (by rw [hscan])
  rw [hscan] at hlt
  rw [htext]
  change rest.tail.length < chars.length
  rw [List.length_tail]
  exact (Nat.sub_le _ _).trans_lt hlt

section Memh

variable {s : MemhState}

theorem memhIn_fill (h : s.written.slt s.marked = true) :
    memhIn s = (.item { reladdr := s.written, word := 0#32 },
      { s with written := s.written + 1#32 }) := if_pos h

theorem memhIn_backward (h : s.marked.slt s.written = true) : memhIn s = (.done, s) := by
  have hlt : s.marked.toInt < s.written.toInt := by simpa [BitVec.slt] using h
  have hfill : ¬ s.written.slt s.marked = true := by
    simp [BitVec.slt]
    omega
  have hne : s.marked ≠ s.written := by
    intro heq
    rw [heq] at hlt
    exact lt_irrefl _ hlt
  rw [memhIn, if_neg hfill, if_neg hne]

theorem not_slt_self (w : Word) : ¬ w.slt w = true := by
  simp [BitVec.slt]

theorem memhIn_mark {marked : Word} {rest : List Char} (h : s.marked = s.written)
    (hmark : scanMark s.chars = (some marked, rest)) :
    memhIn s = (.nothing, { s with marked, chars := rest }) := by
  rw [memhIn, h, if_neg (not_slt_self _), if_pos rfl, hmark]

theorem memhIn_word {word : Word} {rest rest' : List Char} (h : s.marked = s.written)
    (hmark : scanMark s.chars = (none, rest)) (hword : scanHex rest = (some word, rest')) :
    memhIn s = (.item { reladdr := s.written, word },
      { written := s.written + 1#32, marked := s.written + 1#32, chars := rest' }) := by
  rw [memhIn, h, if_neg (not_slt_self _), if_pos rfl, hmark]
  simp only [hword]

theorem memhIn_end {rest : List Char} (h : s.marked = s.written)
    (hmark : scanMark s.chars = (none, rest)) (hword : (scanHex rest).1 = none) :
    memhIn s = (.done, { s with chars := (scanHex rest).2 }) := by
  rcases hscan : scanHex rest with ⟨number, rest'⟩
  rw [hscan] at hword
  cases hword
  rw [memhIn, h, if_neg (not_slt_self _), if_pos rfl, hmark]
  simp only [hscan]

end Memh

theorem toInt_add_one {a b : Word} (h : a.slt b = true) : (a + 1#32).toInt = a.toInt + 1 := by
  have hlt : a.toInt < b.toInt := by simpa [BitVec.slt] using h
  have hb := b.toInt_lt
  have ha := a.le_toInt
  rw [BitVec.toInt_add]
  have hone : (1#32 : Word).toInt = 1 := by decide
  rw [hone]
  apply Int.bmod_eq_of_le <;> omega

/-- Every answer of a memh file but the last uses up text or zeros. -/
theorem memhIn_size_lt {s : MemhState} (h : (memhIn s).1 ≠ .done) :
    (FileState.memh (memhIn s).2).size < (FileState.memh s).size := by
  have hbounds : ∀ a b : Word, a.toInt - b.toInt < 2 ^ 32 := by
    intro a b
    have ha := a.toInt_lt
    have hb := b.le_toInt
    omega
  rcases lt_trichotomy s.written.toInt s.marked.toInt with hlt | heq | hgt
  · have hslt : s.written.slt s.marked = true := by simpa [BitVec.slt] using hlt
    rw [memhIn_fill hslt]
    simp only [FileState.size, toInt_add_one hslt]
    omega
  · have hmarked : s.marked = s.written := (BitVec.eq_of_toInt_eq heq).symm
    rcases hmark : scanMark s.chars with ⟨_ | marked, rest⟩
    · have hle := length_scanMark_le s.chars
      rw [hmark] at hle
      rcases hword : scanHex rest with ⟨_ | word, rest'⟩
      · rw [memhIn_end hmarked hmark (by rw [hword])] at h
        exact absurd rfl h
      · have hchars : (scanHex rest).2.length < rest.length :=
          length_scanHex_lt (w := word) (by rw [hword])
        rw [hword] at hchars
        rw [memhIn_word hmarked hmark hword]
        simp only [FileState.size, sub_self, heq]
        dsimp only at hchars hle
        omega
    · have hlt : (scanMark s.chars).2.length < s.chars.length :=
        length_scanMark_lt (w := marked) (by rw [hmark])
      rw [hmark] at hlt
      rw [memhIn_mark hmarked hmark]
      simp only [FileState.size, heq]
      have := hbounds marked s.written
      dsimp only at hlt
      omega
  · have hslt : s.marked.slt s.written = true := by simpa [BitVec.slt] using hgt
    rw [memhIn_backward hslt] at h
    exact absurd rfl h

theorem input_size_lt (state : FileState) (h : (input state).1 ≠ .done) :
    (input state).2.size < state.size := by
  cases state with
  | obj records pos => exact objIn_size_lt h
  | raw offset bytes => exact rawIn_size_lt h
  | text offset chars => exact textIn_size_lt h
  | memh s => exact memhIn_size_lt h

/-- Every file comes to an end. -/
theorem exists_pulls_input (state : FileState) : ∃ answers, Pulls input state answers :=
  exists_pulls FileState.size input_size_lt state

end Tenyr.Fmt
