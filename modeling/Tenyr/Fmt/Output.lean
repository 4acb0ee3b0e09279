import Tenyr.Asm.Emission
import Tenyr.Asm.Growth
import Tenyr.Asm.Disassembly
import Tenyr.Fmt.RoundTrip

/-!
# Writing programs

The files that the assembler writes for a program. What the readers make of them are the words that the
program has, at consecutive addresses, in each of the formats in its own way.
-/

namespace Tenyr.Fmt

open Isa Obj Asm Lib.Pulling Lib.Scan

/-! ## Files -/

/-- A text as the bytes of its file. -/
def textBytes (chars : List Char) : List Byte := chars.map fun c ↦ BitVec.ofNat 8 c.toNat

/-- A line of `text_out`. -/
def textLine (w : Word) : List Char := printHexWord w ++ ['\n']

/-- What `assembly_inner` writes in a format, where `emitZeros` is `format.memh.explicit`. -/
def outFile (heap : Heap) (emitZeros : Bool) (a : Assembled) : Format → Except Stop (List Byte)
  | .obj => objEmit heap a
  | .raw => .ok ((rawOutFrom 0#32 a.insns).1.flatMap putWord)
  | .text => .ok (textBytes ((textOut a.insns).flatMap textLine))
  | .memh offset => .ok (textBytes (memhText offset emitZeros a.insns))

/-- Characters of one byte. -/
def SingleByte (chars : List Char) : Prop := ∀ c ∈ chars, c.toNat < 256

theorem fileText_textBytes {chars : List Char} (h : SingleByte chars) : fileText (textBytes chars) = chars := by
  rw [fileText, textBytes, List.map_map]
  calc
    chars.map _ = chars.map id := by
      apply List.map_congr_left
      intro c hc
      simp only [Function.comp_apply, BitVec.toNat_ofNat]
      rw [Nat.mod_eq_of_lt (h c hc)]
      exact Char.ofNat_toNat c
    _ = chars := List.map_id chars

theorem singleByte_append {chars chars' : List Char} (h : SingleByte chars) (h' : SingleByte chars') :
    SingleByte (chars ++ chars') := List.forall_mem_append.mpr ⟨h, h'⟩

theorem singleByte_of_allHex {chars : List Char} (h : AllHex chars) : SingleByte chars := by
  intro c hc
  have hhex := h c hc
  unfold hexVal at hhex
  have hle : ∀ d : Char, d.toNat < 256 → c ≤ d → c.toNat < 256 := fun d hd hcd ↦ lt_of_le_of_lt hcd hd
  split at hhex
  · rename_i hrange
    exact hle '9' (by decide) hrange.2
  · split at hhex
    · rename_i hrange
      exact hle 'f' (by decide) hrange.2
    · split at hhex
      · rename_i hrange
        exact hle 'F' (by decide) hrange.2
      · cases hhex

theorem singleByte_flatMap {α : Type} {f : α → List Char} (h : ∀ x, SingleByte (f x)) (l : List α) :
    SingleByte (l.flatMap f) := by
  intro c hc
  obtain ⟨x, -, hx⟩ := List.mem_flatMap.mp hc
  exact h x c hx

theorem singleByte_textLine (w : Word) : SingleByte (textLine w) :=
  singleByte_append (List.forall_mem_cons.mpr ⟨by decide, List.forall_mem_cons.mpr
    ⟨by decide, singleByte_of_allHex (allHex_printHex8 w)⟩⟩) (List.forall_mem_singleton.mpr (by decide))

theorem singleByte_line (line : Line) : SingleByte line.text := by
  obtain ⟨marked, word⟩ := line
  have hword : SingleByte (printHex8 word ++ ['\n']) :=
    singleByte_append (singleByte_of_allHex (allHex_printHex8 word))
      (List.forall_mem_singleton.mpr (by decide))
  cases marked with
  | none => exact hword
  | some addr =>
    have haddr : SingleByte ('@' :: printHex addr ++ [' ']) :=
      singleByte_append (List.forall_mem_cons.mpr ⟨by decide, singleByte_of_allHex (allHex_toDigits _)⟩)
        (List.forall_mem_singleton.mpr (by decide))
    rw [Line.text, List.append_assoc]
    exact singleByte_append haddr hword

/-! ## Raw files -/

/-- Where addresses are the numbers of words before them, no zeros are needed to reach them. -/
theorem rawOutFrom_laid {p : ℕ} {insns : List Insn} (h : Laid p insns) :
    (rawOutFrom (BitVec.ofNat 32 p) insns).1 = textOut insns := by
  induction insns generalizing p with
  | nil => rfl
  | cons i insns ih =>
    have hgap : rawGap (BitVec.ofNat 32 p) i.reladdr = 0 := by
      rw [rawGap, h.1, sub_self]
      rfl
    have hrest := ih h.2.2.2
    rw [BitVec.ofNat_add] at hrest
    simp only [rawOutFrom, rawOut, hgap, List.replicate_zero, List.nil_append, length_emitWords, hrest]
    rfl

theorem pulls_raw (offset : Word) (words : List Word) :
    Pulls input (.raw offset (words.flatMap putWord)) ((elementsAt offset words).map some) := by
  induction words generalizing offset with
  | nil => exact .done rfl
  | cons word words ih =>
    have hlength : ((putWord word ++ words.flatMap putWord).take 4).length = 4 := by
      simp [length_putWord]
    have htake : (putWord word ++ words.flatMap putWord).take 4 = putWord word :=
      List.take_left' (length_putWord word)
    have hdrop : (putWord word ++ words.flatMap putWord).drop 4 = words.flatMap putWord :=
      List.drop_left' (length_putWord word)
    have hword : wordBytes ⟨(putWord word ++ words.flatMap putWord).take 4, hlength⟩ = word := by
      have hsymm : (⟨(putWord word ++ words.flatMap putWord).take 4, hlength⟩ : List.Vector Byte 4) =
          wordBytes.symm word := Subtype.ext htake
      rw [hsymm, Equiv.apply_symm_apply]
    have hin : input (.raw offset ((word :: words).flatMap putWord)) =
        (.item { reladdr := offset, word }, .raw (offset + 1#32) (words.flatMap putWord)) := by
      rw [List.flatMap_cons]
      change rawIn offset _ = _
      rw [rawIn, dif_pos hlength, hword, hdrop]
    apply Pulls.more
    · rw [hin]
      rfl
    · rw [hin]
      exact ih _

/-! ## Text files -/

theorem scanText_textLine (word : Word) (rest : List Char) :
    scanText (textLine word ++ rest) = (some word, '\n' :: rest) := by
  have hline : textLine word ++ rest = '0' :: 'x' :: (printHex8 word ++ '\n' :: rest) := by
    simp [textLine, printHexWord]
  have hne : printHex8 word ≠ [] := List.append_ne_nil_of_right_ne_nil _ Nat.toDigits_ne_nil
  rw [hline, scanText, scanHex_radix (allHex_printHex8 word) hne rfl, scanHex_printHex8 word rfl]

theorem pulls_text (offset : Word) (words : List Word) :
    Pulls input (.text offset (words.flatMap textLine)) ((elementsAt offset words).map some) := by
  induction words generalizing offset with
  | nil => exact .done rfl
  | cons word words ih =>
    have hin : input (.text offset ((word :: words).flatMap textLine)) =
        (.item { reladdr := offset, word }, .text (offset + 1#32) (words.flatMap textLine)) := by
      rw [List.flatMap_cons]
      change textIn offset _ = _
      simp only [textIn, scanText_textLine]
      rfl
    apply Pulls.more
    · rw [hin]
      rfl
    · rw [hin]
      exact ih _

/-! ## Object files -/

theorem record_words {u : ObjFdata} {insns : List Insn} (h : GrowsFrom u insns) :
    ∃ u', insns.foldlM objOutInsn u = .ok u' ∧
      (List.range u'.pos.toNat).map u'.data = (List.range u.pos.toNat).map u.data ++ textOut insns := by
  induction insns generalizing u with
  | nil => exact ⟨u, rfl, (List.append_nil _).symm⟩
  | cons i insns ih =>
    obtain ⟨u₁, hstep, hgrows, hrest⟩ := h
    obtain ⟨u', hfold, hwords⟩ := ih hrest
    have hbefore : (List.range u.pos.toNat).map u₁.data = (List.range u.pos.toNat).map u.data := by
      apply List.map_congr_left
      intro index hindex
      exact hgrows.before index (List.mem_range.mp hindex)
    refine ⟨u', by rw [List.foldlM_cons, hstep]; exact hfold, ?_⟩
    calc
      _ = (List.range (u.pos.toNat + emittedSize i.size)).map u₁.data ++ textOut insns := by
        rw [hwords, hgrows.pos]
      _ = (List.range u.pos.toNat).map u.data ++ emitWords i ++ textOut insns := by
        rw [List.range_add, List.map_append, List.map_map, hbefore, ← hgrows.words]
        rfl
      _ = (List.range u.pos.toNat).map u.data ++ textOut (i :: insns) := by
        rw [List.append_assoc]
        rfl

theorem recWords_eq (rec : ObjRec) : recWords rec = elementsAt rec.addr rec.data := by
  apply List.ext_getElem?
  intro k
  rw [elementsAt_getElem?, recWords, List.getElem?_mapIdx]

/-- What `obj_v0_read` demands of a program, and that no zeros are where memory is not cleared. -/
structure FitsObject (heap : Heap) (a : Assembled) : Prop where
  cleared : ZerosCleared 0 a.insns
  words : (textOut a.insns).length ≤ objMaxRecSize
  symbols : a.exports.length ≤ objMaxCount
  relocs : (a.relocs.filterMap fun reloc ↦ reloc.insn.map (objRlcEntry heap a.env reloc)).length ≤ objMaxCount
  resolved : ∀ s ∈ a.exports, s.1.resolved = true

theorem FitsObject.objEmit_eq {heap : Heap} {a : Assembled} (h : FitsObject heap a) :
    ∃ u, (List.range u.pos.toNat).map u.data = textOut a.insns ∧
      objEmit heap a = .ok (objV0Write (a.objFileOf heap u)) := by
  have hsmall : emitted (a.insns.map Insn.size) ≤ 2 ^ 31 := by
    have hwords := h.words
    rw [length_textOut] at hwords
    exact hwords.trans (by decide)
  have hgrows : GrowsFrom (objInit heap.fresh) a.insns :=
    (growing_init _).growsFrom (by rwa [Nat.zero_add]) h.cleared
  obtain ⟨u, hout, hwords⟩ := record_words hgrows
  exact ⟨u, hwords, Asm.objEmit_eq hout h.resolved⟩

/-- The object of a program is accepted from a pipe, and from a file of less than 4 GiB. -/
theorem FitsObject.openFile {heap : Heap} {a : Assembled} (h : FitsObject heap a) {u : ObjFdata}
    (hwords : (List.range u.pos.toNat).map u.data = textOut a.insns) {filesize : Option ℕ}
    (hfile : ∀ size, filesize = some size →
      size < 2 ^ 32 ∧ (objV0Write (a.objFileOf heap u)).length ≤ size) :
    openFile filesize (objV0Write (a.objFileOf heap u)) .obj =
      some (.obj [{ addr := 0#32, data := textOut a.insns }] 0) := by
  set o := a.objFileOf heap u with ho
  have hcount : ∀ n ≤ objMaxCount, (BitVec.ofNat 32 n : Word).toNat = n := by
    intro n hn
    rw [BitVec.toNat_ofNat]
    exact Nat.mod_eq_of_lt (hn.trans_lt (by decide))
  have hrecords : o.records = [{ addr := 0#32, data := textOut a.insns }] := by
    rw [← hwords]
    rfl
  have hcounted : o.Counted :=
    { records := by rw [hrecords]; rfl
      symbols := by
        change (a.exports.map _).length = _
        rw [List.length_map]
        exact (hcount _ h.symbols).symm
      relocs := (hcount _ h.relocs).symm }
  have hlimits : o.WithinLimits :=
    { recCount := (by decide : (1#32 : Word).toNat ≤ objMaxCount)
      symCount := by
        change (BitVec.ofNat 32 _).toNat ≤ _
        rw [hcount _ h.symbols]
        exact h.symbols
      rlcCount := by
        change (BitVec.ofNat 32 _).toNat ≤ _
        rw [hcount _ h.relocs]
        exact h.relocs
      recSize := by
        rw [hrecords]
        exact List.forall_mem_singleton.mpr h.words }
  have hread : objRead filesize { pos := 0, rest := objV0Write o ++ [] } =
      .ok (o, { pos := 0 + (objV0Write o).length, rest := [] }) := by
    apply (objRead_inverts filesize).complete
    refine ⟨rfl, hcounted, hlimits, goodFrom_recFits hlimits.recSize ?_⟩
    intro size hsize
    obtain ⟨hlt, hle⟩ := hfile size hsize
    have hlength : 12 + (o.records.flatMap putRec).length ≤ (objV0Write o).length := by
      rw [← countedPut_of_length hcounted.records]
      simp only [objV0Write, magicBytes, List.length_append, List.length_cons, List.length_nil, length_putWord]
      omega
    exact ⟨hlt, by omega⟩
  rw [List.append_nil] at hread
  simp only [Fmt.openFile, hread, hrecords]

/-! ## Programs of words -/

/-- A program of words, one element for each. -/
def unitsAt (p : ℕ) : List Word → List Insn
  | [] => []
  | word :: words => { reladdr := BitVec.ofNat 32 p, word, size := 1#32 } :: unitsAt (p + 1) words

theorem laid_unitsAt (p : ℕ) (words : List Word) : Laid p (unitsAt p words) := by
  induction words generalizing p with
  | nil => trivial
  | cons word words ih =>
    exact ⟨rfl, (by decide : 0 ≤ (1#32 : Word).toInt), fun h ↦ absurd rfl h, ih (p + 1)⟩

theorem textOut_unitsAt (p : ℕ) (words : List Word) : textOut (unitsAt p words) = words := by
  induction words generalizing p with
  | nil => rfl
  | cons word words ih => exact congrArg (word :: ·) (ih (p + 1))

theorem zerosCleared_unitsAt (count p : ℕ) (words : List Word) : ZerosCleared count (unitsAt p words) := by
  induction words generalizing count p with
  | nil =>
    intro k i hi
    cases hi
  | cons word words ih =>
    rw [unitsAt, zerosCleared_cons]
    exact ⟨fun h ↦ absurd h (by decide : ¬ 1 < emittedSize 1#32), ih _ _⟩

theorem wordsAt_zeros (count k : ℕ) (words : List Word) :
    wordsAt false count (unitsAt count (List.replicate k 0#32 ++ words)) =
      wordsAt false (count + k) (unitsAt (count + k) words) := by
  induction k generalizing count with
  | zero => rfl
  | succ k ih =>
    have hstep := ih (count + 1)
    rw [Nat.add_assoc, Nat.add_comm 1] at hstep
    rw [List.replicate_succ, List.cons_append, unitsAt, wordsAt, if_pos ⟨rfl, rfl⟩]
    exact hstep

/-- Words other than zero that are read from their lines are printed on the same lines again. -/
theorem wordsAt_readWords {offset : Word} {count : ℕ} {prev : Option ℕ} {words : List (ℕ × Word)}
    (h : KeepsCount offset count prev words) (hne : ∀ b ∈ words, b.2 ≠ 0#32) :
    wordsAt false count (unitsAt count (readWords offset count prev words)) = words := by
  induction words generalizing count prev with
  | nil => rfl
  | cons b words ih =>
    obtain ⟨p, w⟩ := b
    obtain ⟨hw, hrest⟩ := List.forall_mem_cons.mp hne
    rw [KeepsCount] at h
    cases hplace : place offset count prev p with
    | none =>
      rw [hplace] at h
      exact absurd (h _ List.mem_cons_self).1 hw
    | some r =>
      rw [hplace] at h
      obtain ⟨hr, hkeeps⟩ := h
      obtain rfl := hr hw
      have hle := le_of_place hplace
      have hwords := ih hkeeps hrest
      rw [readWords_of_some w words hplace, wordsAt_zeros, Nat.add_sub_cancel' hle, unitsAt, wordsAt,
        if_neg fun hzero ↦ hw hzero.1]
      exact congrArg ((r, w) :: ·) hwords

end Tenyr.Fmt
