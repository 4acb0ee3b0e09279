import Mathlib.Data.List.GetD
import Tenyr.Asm.Fixup
import Tenyr.Asm.Placement
import Tenyr.Fmt.Memh

/-!
# The memh round trip

Lines are considered with the addresses that their words have in the program, as natural numbers. The
reader gives each line the address that its own count has then. What is read back is the program as
long as every line with a word other than zero is given the address it was written for.
-/

namespace Tenyr.Fmt

open Isa Asm Lib.Pulling Lib.Scan

/-! ## Programs -/

/-- Elements from an address on, as the assembler places them: sizes are not negative, and only `.zero`
areas have other sizes than 1. -/
def Laid (p : ℕ) : List Insn → Prop
  | [] => True
  | i :: insns =>
    i.reladdr = BitVec.ofNat 32 p ∧ 0 ≤ i.size.toInt ∧ (i.size ≠ 1#32 → i.word = 0#32) ∧
      Laid (p + emittedSize i.size) insns

/-- The word that a program has at an address. -/
def programWord (insns : List Insn) (a : ℕ) : Word := (insns.flatMap emitWords).getD a 0#32

/-- The words for which lines are printed, with their addresses in the program. -/
def wordsAt (emitZeros : Bool) (p : ℕ) : List Insn → List (ℕ × Word)
  | [] => []
  | i :: insns =>
    if i.word = 0#32 ∧ emitZeros = false then wordsAt emitZeros (p + emittedSize i.size) insns
    else (p, i.word) :: wordsAt emitZeros (p + emittedSize i.size) insns

/-- Later words have later addresses, unless nothing comes between them but elements of size 0. -/
def Ordered (words : List (ℕ × Word)) : Prop :=
  words.Pairwise fun a b ↦ a.1 ≤ b.1 ∧ (a.2 ≠ 0#32 → a.1 < b.1)

theorem le_of_mem_wordsAt {emitZeros : Bool} {p : ℕ} {insns : List Insn} {a : ℕ × Word}
    (ha : a ∈ wordsAt emitZeros p insns) : p ≤ a.1 := by
  induction insns generalizing p with
  | nil => cases ha
  | cons i insns ih =>
    rw [wordsAt] at ha
    split at ha
    · exact (Nat.le_add_right _ _).trans (ih ha)
    · rcases List.mem_cons.mp ha with rfl | ha
      · exact le_rfl
      · exact (Nat.le_add_right _ _).trans (ih ha)

theorem ne_zero_of_mem_wordsAt {p : ℕ} {insns : List Insn} :
    ∀ a ∈ wordsAt false p insns, a.2 ≠ 0#32 := by
  induction insns generalizing p with
  | nil =>
    intro a ha
    cases ha
  | cons i insns ih =>
    intro a ha
    rw [wordsAt] at ha
    split at ha
    · exact ih a ha
    · rename_i hword
      rcases List.mem_cons.mp ha with rfl | ha
      · exact fun hzero ↦ hword ⟨hzero, rfl⟩
      · exact ih a ha

theorem Laid.size_eq_one {p : ℕ} {i : Insn} {insns : List Insn} (h : Laid p (i :: insns))
    (hword : i.word ≠ 0#32) : emittedSize i.size = 1 := by
  have hone : i.size = 1#32 := by
    by_contra hne
    exact hword (h.2.2.1 hne)
  rw [hone]
  rfl

theorem ordered_wordsAt {emitZeros : Bool} {p : ℕ} {insns : List Insn} (h : Laid p insns) :
    Ordered (wordsAt emitZeros p insns) := by
  induction insns generalizing p with
  | nil => exact .nil
  | cons i insns ih =>
    have hrest := ih h.2.2.2
    rw [wordsAt]
    split
    · exact hrest
    · apply List.Pairwise.cons _ hrest
      intro b hb
      have hle := le_of_mem_wordsAt hb
      refine ⟨by omega, ?_⟩
      intro hword
      rw [h.size_eq_one hword] at hle
      exact hle

/-- What words amount to: those that are not zero, with zeros in all other places. -/
def imageOf : List (ℕ × Word) → ℕ → Word
  | [], _ => 0#32
  | (p, w) :: words, a => if a = p ∧ w ≠ 0#32 then w else imageOf words a

theorem imageOf_of_lt {words : List (ℕ × Word)} {a : ℕ}
    (h : ∀ b ∈ words, b.2 ≠ 0#32 → a ≠ b.1) : imageOf words a = 0#32 := by
  induction words with
  | nil => rfl
  | cons b words ih =>
    have hb : ¬ (a = b.1 ∧ b.2 ≠ 0#32) := fun heq ↦ h b List.mem_cons_self heq.2 heq.1
    rw [imageOf, if_neg hb]
    exact ih fun b hb ↦ h b (List.mem_cons_of_mem _ hb)

theorem imageOf_cons_self {p : ℕ} {w : Word} {words : List (ℕ × Word)} (hw : w ≠ 0#32) :
    imageOf ((p, w) :: words) p = w := if_pos ⟨rfl, hw⟩

theorem imageOf_cons_zero {p a : ℕ} {words : List (ℕ × Word)} :
    imageOf ((p, 0#32) :: words) a = imageOf words a := if_neg fun h ↦ h.2 rfl

theorem imageOf_cons_of_ne {p a : ℕ} {w : Word} {words : List (ℕ × Word)} (ha : a ≠ p) :
    imageOf ((p, w) :: words) a = imageOf words a := if_neg fun h ↦ ha h.1

theorem imageOf_of_mem {words : List (ℕ × Word)} (h : Ordered words) {b : ℕ × Word} (hb : b ∈ words)
    (hword : b.2 ≠ 0#32) : imageOf words b.1 = b.2 := by
  induction words with
  | nil => cases hb
  | cons c words ih =>
    obtain ⟨hc, hrest⟩ := List.pairwise_cons.mp h
    rcases List.mem_cons.mp hb with rfl | hb
    · exact imageOf_cons_self hword
    · by_cases hzero : c.2 = 0#32
      · have hcons : imageOf (c :: words) b.1 = imageOf words b.1 := if_neg fun h ↦ h.2 hzero
        rw [hcons]
        exact ih hrest hb
      · have hlt := (hc b hb).2 hzero
        have hcons : imageOf (c :: words) b.1 = imageOf words b.1 := imageOf_cons_of_ne (by omega)
        rw [hcons]
        exact ih hrest hb

theorem getD_emitWords {a : ℕ} {i : Insn} (ha : a < emittedSize i.size) :
    (emitWords i).getD a 0#32 = if a = 0 then i.word else 0#32 := by
  unfold emitWords
  split
  · rename_i hsize
    omega
  · rename_i zeros hsize
    cases a with
    | zero => rfl
    | succ a =>
      rw [List.getD_cons_succ, if_neg (Nat.succ_ne_zero a)]
      rw [List.getD_eq_getElem?_getD, List.getElem?_replicate]
      split <;> rfl

/-- The printed words amount to the program. -/
theorem imageOf_wordsAt {emitZeros : Bool} {p : ℕ} {insns : List Insn} (h : Laid p insns) (a : ℕ) :
    imageOf (wordsAt emitZeros p insns) (p + a) = programWord insns a := by
  induction insns generalizing p a with
  | nil => rfl
  | cons i insns ih =>
    have hcons : imageOf (wordsAt emitZeros p (i :: insns)) (p + a) =
        imageOf ((p, i.word) :: wordsAt emitZeros (p + emittedSize i.size) insns) (p + a) := by
      rw [wordsAt]
      split
      · rename_i hzero
        rw [hzero.1, imageOf_cons_zero]
      · rfl
    have hlength : (emitWords i).length = emittedSize i.size := length_emitWords i
    rw [hcons, programWord, List.flatMap_cons]
    by_cases hlt : a < emittedSize i.size
    · have hrest : imageOf (wordsAt emitZeros (p + emittedSize i.size) insns) (p + a) = 0#32 := by
        apply imageOf_of_lt
        intro b hb _
        have := le_of_mem_wordsAt hb
        omega
      rw [List.getD_append _ _ _ _ (by omega), getD_emitWords hlt]
      by_cases ha : a = 0 ∧ i.word ≠ 0#32
      · obtain ⟨rfl, hword⟩ := ha
        rw [Nat.add_zero, imageOf_cons_self hword, if_pos rfl]
      · have hskip : ¬ (p + a = p ∧ i.word ≠ 0#32) := fun heq ↦ ha ⟨by omega, heq.2⟩
        rw [imageOf, if_neg hskip, hrest]
        split
        · rename_i hzero
          exact (not_not.mp fun hword ↦ ha ⟨hzero, hword⟩).symm
        · rfl
    · have hword : i.word ≠ 0#32 → p + a ≠ p := by
        intro hword
        have := h.size_eq_one hword
        omega
      have hskip : ¬ (p + a = p ∧ i.word ≠ 0#32) := fun heq ↦ hword heq.2 heq.1
      have haddr : p + a = p + emittedSize i.size + (a - emittedSize i.size) := by omega
      rw [imageOf, if_neg hskip, List.getD_append_right _ _ _ _ (by omega), hlength, haddr]
      exact ih h.2.2.2 _

/-! ## Lines -/

section Lines

variable (offset : Word)

/-- A line is marked if it is the first, or if its address is more than one above that of the line
before. -/
def needsMark : Option ℕ → ℕ → Bool
  | none, _ => true
  | some q, p => (1#32).slt (BitVec.ofNat 32 p - BitVec.ofNat 32 q)

/-- The lines for words, after one for the address `prev`. -/
def linesFor : Option ℕ → List (ℕ × Word) → List Line
  | _, [] => []
  | prev, (p, w) :: words =>
    (if needsMark prev p then some (BitVec.ofNat 32 p + offset) else none, w) ::
      linesFor (some p) words

/-- The state of the writer after a line for the address `prev`. -/
def writerAt : Option ℕ → MemhWriter
  | none => { written := offset, firstDone := false }
  | some q => { written := BitVec.ofNat 32 q + offset, firstDone := true }

/-- What is printed are the lines for the words that are not left out. -/
theorem memhOutFrom_eq {emitZeros : Bool} {p : ℕ} {insns : List Insn} (h : Laid p insns)
    (prev : Option ℕ) :
    memhOutFrom offset emitZeros (writerAt offset prev) insns =
      linesFor offset prev (wordsAt emitZeros p insns) := by
  induction insns generalizing p prev with
  | nil => rfl
  | cons i insns ih =>
    rw [memhOutFrom, wordsAt, memhOut]
    dsimp only
    split
    · exact ih h.2.2.2 prev
    · have hmark : ((1#32).slt (BitVec.ofNat 32 p + offset - (writerAt offset prev).written) ∨
          (writerAt offset prev).firstDone = false) ↔ needsMark prev p = true := by
        cases prev with
        | none => simp [writerAt, needsMark]
        | some q =>
          have hdiff : BitVec.ofNat 32 p + offset - (BitVec.ofNat 32 q + offset) =
              BitVec.ofNat 32 p - BitVec.ofNat 32 q := add_sub_add_right_eq_sub ..
          simp [writerAt, needsMark, hdiff]
      have hrest := ih h.2.2.2 (some p)
      rw [linesFor, ← hrest, h.1, if_congr hmark rfl rfl]
      rfl

/-! ## Counting -/

/-- The address that the reader gives to the word of a line, counted from the offset, where it has given
`count` addresses so far. There is none if an address mark is behind the count. -/
def place (count : ℕ) (prev : Option ℕ) (p : ℕ) : Option ℕ :=
  let written := BitVec.ofNat 32 count + offset
  let marked := BitVec.ofNat 32 p + offset
  if needsMark prev p then
    if written.toInt ≤ marked.toInt then some (count + (marked.toInt - written.toInt).toNat) else none
  else some count

/-- A word zero is only printed for an element that directly follows the one before it, or is the
first. -/
def Close : Option ℕ → List (ℕ × Word) → Prop
  | _, [] => True
  | prev, (p, w) :: words =>
    (w = 0#32 → prev.elim (p = 0) fun q ↦ p < q + 2 ^ 31) ∧ Close (some p) words

/-- The reader keeps count: words other than zero get the addresses that they were written for, and an
address mark behind the count is only found when there is nothing to come but zeros that have been
counted already. -/
def KeepsCount : ℕ → Option ℕ → List (ℕ × Word) → Prop
  | _, _, [] => True
  | count, prev, (p, w) :: words =>
    match place offset count prev p with
    | some r => (w ≠ 0#32 → r = p) ∧ KeepsCount (r + 1) (some p) words
    | none => ∀ a ∈ (p, w) :: words, a.2 = 0#32 ∧ a.1 < count

/-- The words that are read from lines for words. -/
def readWords (count : ℕ) (prev : Option ℕ) (words : List (ℕ × Word)) : List Word :=
  lineWords (BitVec.ofNat 32 count + offset) (linesFor offset prev words)

variable {offset}

theorem le_of_place {count p r : ℕ} {prev : Option ℕ} (h : place offset count prev p = some r) :
    count ≤ r := by
  simp only [place] at h
  split at h
  · split at h
    · cases h
      exact Nat.le_add_right _ _
    · cases h
  · cases h
    exact le_rfl

/-- Zeros up to the place of a line, and its word. -/
theorem readWords_of_some {count p r : ℕ} {prev : Option ℕ} (w : Word) (words : List (ℕ × Word))
    (h : place offset count prev p = some r) :
    readWords offset count prev ((p, w) :: words) =
      List.replicate (r - count) 0#32 ++ w :: readWords offset (r + 1) (some p) words := by
  have hnext : ∀ k, BitVec.ofNat 32 k + offset + 1#32 = BitVec.ofNat 32 (k + 1) + offset := by
    intro k
    rw [BitVec.ofNat_add, BitVec.add_assoc, BitVec.add_assoc, BitVec.add_comm offset]
  simp only [place] at h
  rw [readWords, linesFor]
  by_cases hmark : needsMark prev p = true
  · rw [if_pos hmark] at h ⊢
    split at h
    · rename_i hle
      have haddr := add_toInt_sub hle
      cases h
      generalize hahead : ((BitVec.ofNat 32 p + offset).toInt -
        (BitVec.ofNat 32 count + offset).toInt).toNat = ahead at haddr ⊢
      have hplace : BitVec.ofNat 32 (count + ahead) + offset = BitVec.ofNat 32 p + offset := by
        rw [← haddr, BitVec.ofNat_add, add_right_comm]
      rw [lineWords, if_pos hle, hahead, Nat.add_sub_cancel_left, readWords, ← hnext, hplace]
    · cases h
  · rw [if_neg hmark] at h ⊢
    cases h
    rw [lineWords, hnext, Nat.sub_self]
    rfl

theorem readWords_of_none {count p : ℕ} {prev : Option ℕ} (w : Word) (words : List (ℕ × Word))
    (h : place offset count prev p = none) : readWords offset count prev ((p, w) :: words) = [] := by
  simp only [place] at h
  rw [readWords, linesFor]
  split at h
  · rename_i hmark
    split at h
    · cases h
    · rename_i hle
      rw [if_pos hmark, lineWords, if_neg hle]
  · cases h

/-- Lines for words are read as what the words amount to, from a count on. -/
def ReadsBack (count : ℕ) (words : List (ℕ × Word)) (read : List Word) : Prop :=
  ∀ a, count ≤ a → (∃ b ∈ words, a ≤ b.1) → read[a - count]? = some (imageOf words a)

/-- No word other than zero has an address that was given away before. -/
def InTime (count : ℕ) (words : List (ℕ × Word)) : Prop := ∀ b ∈ words, b.2 ≠ 0#32 → count ≤ b.1

theorem Ordered.le_of_mem {p : ℕ} {w : Word} {words : List (ℕ × Word)}
    (h : Ordered ((p, w) :: words)) {b : ℕ × Word} (hb : b ∈ (p, w) :: words) : p ≤ b.1 := by
  rcases List.mem_cons.mp hb with rfl | hb
  · exact le_rfl
  · exact ((List.pairwise_cons.mp h).1 b hb).1

/-- What is in front of the lines is zero. -/
theorem imageOf_of_lt_head {p a : ℕ} {w : Word} {words : List (ℕ × Word)}
    (h : Ordered ((p, w) :: words)) (ha : a < p) : imageOf ((p, w) :: words) a = 0#32 := by
  apply imageOf_of_lt
  intro b hb _
  have := h.le_of_mem hb
  omega

section Placed

variable {count r : ℕ} (w : Word) (read : List Word)

theorem placed_self : (List.replicate (r - count) 0#32 ++ w :: read)[r - count]? = some w := by
  rw [List.getElem?_append_right (by rw [List.length_replicate]), List.length_replicate, Nat.sub_self]
  rfl

variable (hr : count ≤ r)
include hr

theorem placed_of_lt {a : ℕ} (ha : count ≤ a) (hlt : a < r) :
    (List.replicate (r - count) 0#32 ++ w :: read)[a - count]? = some 0#32 := by
  rw [List.getElem?_append_left (by rw [List.length_replicate]; omega), List.getElem?_replicate,
    if_pos (by omega)]

theorem placed_of_gt {a : ℕ} (hlt : r < a) :
    (List.replicate (r - count) 0#32 ++ w :: read)[a - count]? = read[a - (r + 1)]? := by
  rw [List.getElem?_append_right (by rw [List.length_replicate]; omega), List.length_replicate]
  have hindex : a - count - (r - count) = a - (r + 1) + 1 := by omega
  rw [hindex, List.getElem?_cons_succ]

end Placed

/-- A line at its place, if that matters, and the lines after it. -/
theorem readsBack_cons_iff {count p r : ℕ} {w : Word} {words : List (ℕ × Word)} {read : List Word}
    (h : Ordered ((p, w) :: words)) (hr : count ≤ r) (hzero : w = 0#32 → p ≤ r) :
    InTime count ((p, w) :: words) ∧
        ReadsBack count ((p, w) :: words) (List.replicate (r - count) 0#32 ++ w :: read) ↔
      (w ≠ 0#32 → r = p) ∧ InTime (r + 1) words ∧ ReadsBack (r + 1) words read := by
  constructor
  · rintro ⟨htime, hread⟩
    have hplace : w ≠ 0#32 → r = p := by
      intro hword
      have hcount : count ≤ p := htime (p, w) List.mem_cons_self hword
      rcases lt_trichotomy r p with hlt | heq | hgt
      · have hself := hread r hr ⟨(p, w), List.mem_cons_self, hlt.le⟩
        rw [placed_self w read, imageOf_of_lt_head h hlt] at hself
        exact absurd (Option.some.inj hself) hword
      · exact heq
      · have hself := hread p hcount ⟨(p, w), List.mem_cons_self, le_rfl⟩
        rw [placed_of_lt w read hr hcount hgt, imageOf_cons_self hword] at hself
        exact absurd (Option.some.inj hself).symm hword
    refine ⟨hplace, ?_, ?_⟩
    · intro b hb hword
      by_contra hle
      have hmem : b ∈ (p, w) :: words := List.mem_cons_of_mem _ hb
      have hcount := htime b hmem hword
      have hself := hread b.1 hcount ⟨b, hmem, le_rfl⟩
      rw [imageOf_of_mem h hmem hword] at hself
      rcases (Nat.lt_succ_iff.mp (not_le.mp hle)).lt_or_eq with hlt | heq
      · rw [placed_of_lt w read hr hcount hlt] at hself
        exact hword (Option.some.inj hself).symm
      · rw [heq, placed_self w read] at hself
        have hw : w ≠ 0#32 := by rwa [Option.some.inj hself]
        have hlt : p < b.1 := ((List.pairwise_cons.mp h).1 b hb).2 hw
        have := hplace hw
        omega
    · rintro a hcount ⟨b, hb, hle⟩
      have hself := hread a (by omega) ⟨b, List.mem_cons_of_mem _ hb, hle⟩
      rw [placed_of_gt w read hr hcount] at hself
      rw [hself]
      by_cases hw : w = 0#32
      · rw [hw, imageOf_cons_zero]
      · have := hplace hw
        rw [imageOf_cons_of_ne (by omega)]
  · rintro ⟨hplace, htime, hread⟩
    constructor
    · intro b hb hword
      rcases List.mem_cons.mp hb with rfl | hb
      · exact hr.trans (hplace hword).le
      · have := htime b hb hword
        omega
    · rintro a hcount ⟨b, hb, hle⟩
      rcases lt_trichotomy a r with hlt | rfl | hgt
      · rw [placed_of_lt w read hr hcount hlt, imageOf_of_lt]
        intro c hc hword
        rcases List.mem_cons.mp hc with rfl | hc
        · have := hplace hword
          dsimp only
          omega
        · have := htime c hc hword
          omega
      · rw [placed_self w read]
        by_cases hw : w = 0#32
        · rw [hw, imageOf_cons_zero, imageOf_of_lt]
          intro c hc hword
          have := htime c hc hword
          omega
        · rw [hplace hw, imageOf_cons_self hw]
      · have hpr : p ≤ r := by
          by_cases hw : w = 0#32
          · exact hzero hw
          · exact (hplace hw).ge
        have hrest : b ∈ words := by
          rcases List.mem_cons.mp hb with rfl | hb
          · dsimp only at hle
            omega
          · exact hb
        rw [placed_of_gt w read hr hgt, imageOf_cons_of_ne (by omega)]
        exact hread a hgt ⟨b, hrest, hle⟩

/-- A file that ends in front of lines. -/
theorem readsBack_nil_iff {count : ℕ} {words : List (ℕ × Word)} :
    InTime count words ∧ ReadsBack count words [] ↔ ∀ a ∈ words, a.2 = 0#32 ∧ a.1 < count := by
  constructor
  · rintro ⟨htime, hread⟩
    have hlt : ∀ a ∈ words, a.1 < count := by
      intro a ha
      by_contra hle
      have hnone := hread count le_rfl ⟨a, ha, not_lt.mp hle⟩
      cases hnone
    intro a ha
    refine ⟨?_, hlt a ha⟩
    by_contra hword
    exact absurd (htime a ha hword) (not_le.mpr (hlt a ha))
  · intro hzero
    constructor
    · intro b hb hword
      exact absurd (hzero b hb).1 hword
    · rintro a hcount ⟨b, hb, hle⟩
      have := (hzero b hb).2
      omega

theorem toInt_ofNat_of_lt {d : ℕ} (hd : d < 2 ^ 31) : (BitVec.ofNat 32 d).toInt = d := by
  rw [← BitVec.ofInt_natCast, BitVec.toInt_ofInt]
  apply Int.bmod_eq_of_le <;> omega

/-- Signed addresses wrap around at most once over fewer than `2 ^ 31` words. -/
theorem toInt_add_ofNat (w : Word) {d : ℕ} (hd : d < 2 ^ 31) :
    (w + BitVec.ofNat 32 d).toInt =
      if w.toInt + d < 2 ^ 31 then w.toInt + d else w.toInt + d - 2 ^ 32 := by
  have hlt := w.toInt_lt
  have hle := w.le_toInt
  have hofNat := toInt_ofNat_of_lt hd
  rw [BitVec.toInt_add, hofNat, Int.bmod_def]
  split <;> split <;> omega

/-- A line is not marked if its address is at most one above that of the line before. -/
theorem needsMark_some {p q : ℕ} (hqp : q ≤ p) (hlt : p < q + 2 ^ 31) :
    needsMark (some q) p = true ↔ q + 1 < p := by
  obtain ⟨d, rfl⟩ := Nat.exists_eq_add_of_le hqp
  have hdiff : BitVec.ofNat 32 (q + d) - BitVec.ofNat 32 q = BitVec.ofNat 32 d := by
    rw [BitVec.ofNat_add, add_sub_cancel_left]
  have hofNat := toInt_ofNat_of_lt (d := d) (by omega)
  have hone : (1#32 : Word).toInt = 1 := by decide
  rw [needsMark, hdiff, BitVec.slt, decide_eq_true_eq, hofNat, hone]
  omega

/-- An address mark that is less than `2 ^ 31` ahead is reached where it does not wrap around. -/
theorem place_ahead {count p : ℕ} {prev : Option ℕ} (hmark : needsMark prev p = true) (hle : count ≤ p)
    (hlt : p < count + 2 ^ 31) :
    place offset count prev p =
      if (BitVec.ofNat 32 count + offset).toInt + (p - count : ℕ) < 2 ^ 31 then some p else none := by
  obtain ⟨d, rfl⟩ := Nat.exists_eq_add_of_le hle
  have haddr : BitVec.ofNat 32 (count + d) + offset =
      BitVec.ofNat 32 count + offset + BitVec.ofNat 32 d := by
    rw [BitVec.ofNat_add, add_right_comm]
  have hwrap := toInt_add_ofNat (BitVec.ofNat 32 count + offset) (d := d) (by omega)
  simp only [place]
  rw [if_pos hmark, haddr, hwrap, Nat.add_sub_cancel_left]
  generalize (BitVec.ofNat 32 count + offset).toInt = written
  by_cases hfits : written + d < 2 ^ 31
  · rw [if_pos hfits, if_pos hfits, if_pos (by omega)]
    congr 2
    omega
  · rw [if_neg hfits, if_neg hfits, if_neg (by omega)]

/-- Below `2 ^ 31` the reader does not give an address too early. -/
theorem le_place {count p r : ℕ} {prev : Option ℕ} (hclose : prev.elim (p = 0) fun q ↦ p < q + 2 ^ 31)
    (hcount : ∀ q ∈ prev, q < count) (h : place offset count prev p = some r) : p ≤ r := by
  have hle := le_of_place h
  by_cases hpc : p ≤ count
  · exact hpc.trans hle
  · cases prev with
    | none =>
      have hp : p = 0 := hclose
      omega
    | some q =>
      have hlt : p < q + 2 ^ 31 := hclose
      have hq : q < count := hcount q rfl
      have hmark : needsMark (some q) p = true := by
        rw [needsMark_some (by omega) hlt]
        omega
      rw [place_ahead hmark (by omega) (by omega)] at h
      split at h
      · cases h
        exact le_rfl
      · cases h

/-- Lines are read back from a count on just when the reader keeps count. -/
theorem keepsCount_iff {words : List (ℕ × Word)} (h : Ordered words) {count : ℕ}
    {prev : Option ℕ} (hclose : Close prev words) (hcount : ∀ q ∈ prev, q < count) :
    KeepsCount offset count prev words ↔
      InTime count words ∧ ReadsBack count words (readWords offset count prev words) := by
  induction words generalizing count prev with
  | nil =>
    constructor
    · intro _
      exact ⟨fun b hb ↦ (List.not_mem_nil hb).elim, fun _ _ ⟨b, hb, _⟩ ↦ (List.not_mem_nil hb).elim⟩
    · intro _
      trivial
  | cons a words ih =>
    obtain ⟨p, w⟩ := a
    rw [KeepsCount]
    cases hplace : place offset count prev p with
    | none =>
      rw [readWords_of_none w words hplace]
      exact readsBack_nil_iff.symm
    | some r =>
      have hzero : w = 0#32 → p ≤ r := fun hw ↦ le_place (hclose.1 hw) hcount hplace
      rw [readWords_of_some w words hplace]
      calc
        (w ≠ 0#32 → r = p) ∧ KeepsCount offset (r + 1) (some p) words ↔
            (w ≠ 0#32 → r = p) ∧ InTime (r + 1) words ∧
              ReadsBack (r + 1) words (readWords offset (r + 1) (some p) words) := by
          apply and_congr_right
          intro hself
          have hpr : p ≤ r := by
            by_cases hw : w = 0#32
            · exact hzero hw
            · exact (hself hw).ge
          apply ih (List.pairwise_cons.mp h).2 hclose.2
          rintro q hq
          cases hq
          exact Nat.lt_succ_of_le hpr
        _ ↔ _ := (readsBack_cons_iff h (le_of_place hplace) hzero).symm

/-! ## Words other than zero -/

/-- No signed address wraps around from a count up to an address. -/
def Reachable (offset : Word) (count p : ℕ) : Prop :=
  (BitVec.ofNat 32 count + offset).toInt + (p - count : ℕ) < 2 ^ 31

theorem place_eq_some_self_iff {count p : ℕ} {prev : Option ℕ} (hmark : needsMark prev p = true)
    (hle : count ≤ p) : place offset count prev p = some p ↔ Reachable offset count p := by
  obtain ⟨d, rfl⟩ := Nat.exists_eq_add_of_le hle
  have haddr : BitVec.ofNat 32 (count + d) + offset =
      BitVec.ofNat 32 count + offset + BitVec.ofNat 32 d := by
    rw [BitVec.ofNat_add, add_right_comm]
  have hsum : (BitVec.ofNat 32 (count + d) + offset).toInt =
      ((BitVec.ofNat 32 count + offset).toInt + d).bmod (2 ^ 32) := by
    rw [haddr, BitVec.toInt_add, ← BitVec.ofInt_natCast (n := d), BitVec.toInt_ofInt,
      Int.add_bmod_bmod]
  have hmarked := (BitVec.ofNat 32 (count + d) + offset).toInt_lt
  have hwritten := (BitVec.ofNat 32 count + offset).le_toInt
  simp only [place, Reachable]
  rw [if_pos hmark, Nat.add_sub_cancel_left]
  generalize (BitVec.ofNat 32 count + offset).toInt = written at *
  generalize (BitVec.ofNat 32 (count + d) + offset).toInt = marked at *
  constructor
  · intro hplace
    split at hplace
    · have := Option.some.inj hplace
      omega
    · cases hplace
  · intro hreach
    have hfits : marked = written + d := by
      rw [hsum]
      apply Int.bmod_eq_of_le <;> omega
    rw [if_pos (by omega)]
    congr 1
    omega

/-- How far apart two words can be, and where, if nothing is printed between them. -/
def Fits (offset : Word) (a b : ℕ × Word) : Prop :=
  b.1 = a.1 + 1 ∨ b.1 < a.1 + 2 ^ 31 ∧ Reachable offset (a.1 + 1) b.1

theorem place_next_iff {p q : ℕ} (hlt : q < p) :
    place offset (q + 1) (some q) p = some p ↔
      p = q + 1 ∨ p < q + 2 ^ 31 ∧ Reachable offset (q + 1) p := by
  by_cases hnext : p = q + 1
  · have hmark : ¬ needsMark (some q) p = true := by
      rw [needsMark_some hlt.le (by omega)]
      omega
    simp only [place]
    rw [if_neg hmark, hnext]
    exact ⟨fun _ ↦ .inl rfl, fun _ ↦ rfl⟩
  · by_cases hclose : p < q + 2 ^ 31
    · have hmark : needsMark (some q) p = true := by
        rw [needsMark_some hlt.le hclose]
        omega
      rw [place_eq_some_self_iff hmark hlt]
      exact ⟨fun h ↦ .inr ⟨hclose, h⟩, fun h ↦ (h.resolve_left hnext).2⟩
    · constructor
      · intro hplace
        have hmark : needsMark (some q) p = true := by
          by_contra hmark
          simp only [place] at hplace
          rw [if_neg hmark] at hplace
          exact hnext (Option.some.inj hplace).symm
        have hreach : Reachable offset (q + 1) p := (place_eq_some_self_iff hmark hlt).mp hplace
        have hwritten := (BitVec.ofNat 32 (q + 1) + offset).le_toInt
        rw [Reachable] at hreach
        obtain ⟨d, rfl⟩ := Nat.exists_eq_add_of_le hlt.le
        have hdiff : BitVec.ofNat 32 (q + d) - BitVec.ofNat 32 q = BitVec.ofNat 32 d := by
          rw [BitVec.ofNat_add, add_sub_cancel_left]
        have hone : (1#32 : Word).toInt = 1 := by decide
        have hbehind : (BitVec.ofNat 32 d).toInt ≤ 0 := by
          rw [← BitVec.ofInt_natCast, BitVec.toInt_ofInt, Int.bmod_def]
          split <;> omega
        rw [needsMark, hdiff, BitVec.slt, decide_eq_true_eq, hone] at hmark
        omega
      · rintro (h | h)
        · exact absurd h hnext
        · exact absurd h.1 hclose

theorem keepsCount_cons_iff {count p : ℕ} {prev : Option ℕ} {w : Word} {words : List (ℕ × Word)}
    (hword : w ≠ 0#32) :
    KeepsCount offset count prev ((p, w) :: words) ↔
      place offset count prev p = some p ∧ KeepsCount offset (p + 1) (some p) words := by
  rw [KeepsCount]
  cases hplace : place offset count prev p with
  | none =>
    constructor
    · intro hzero
      exact absurd (hzero _ List.mem_cons_self).1 hword
    · rintro ⟨h, _⟩
      cases h
  | some r =>
    constructor
    · rintro ⟨hself, hrest⟩
      obtain rfl := hself hword
      exact ⟨rfl, hrest⟩
    · rintro ⟨hself, hrest⟩
      obtain rfl := Option.some.inj hself
      exact ⟨fun _ ↦ rfl, hrest⟩

/-- Where zeros are left out, the reader keeps count just when all gaps between words can be marked. -/
theorem keepsCount_nonzero_iff {p : ℕ} {w : Word} {words : List (ℕ × Word)}
    (h : Ordered ((p, w) :: words)) (hnonzero : ∀ a ∈ (p, w) :: words, a.2 ≠ 0#32) :
    KeepsCount offset 0 none ((p, w) :: words) ↔
      Reachable offset 0 p ∧ ((p, w) :: words).IsChain (Fits offset) := by
  have hchain : ∀ (words : List (ℕ × Word)) (p : ℕ) (w : Word), Ordered ((p, w) :: words) →
      (∀ a ∈ (p, w) :: words, a.2 ≠ 0#32) →
        (KeepsCount offset (p + 1) (some p) words ↔ ((p, w) :: words).IsChain (Fits offset)) := by
    intro words
    induction words with
    | nil =>
      intro p w _ _
      exact ⟨fun _ ↦ .singleton _, fun _ ↦ trivial⟩
    | cons b words ih =>
      intro p w h hnonzero
      obtain ⟨hfirst, hrest⟩ := List.pairwise_cons.mp h
      have hlt : p < b.1 := (hfirst b List.mem_cons_self).2 (hnonzero _ List.mem_cons_self)
      have hnonzero' := fun a ha ↦ hnonzero a (List.mem_cons_of_mem _ ha)
      calc
        KeepsCount offset (p + 1) (some p) (b :: words) ↔
            place offset (p + 1) (some p) b.1 = some b.1 ∧
              KeepsCount offset (b.1 + 1) (some b.1) words :=
          keepsCount_cons_iff (hnonzero' b List.mem_cons_self)
        _ ↔ Fits offset (p, w) b ∧ (b :: words).IsChain (Fits offset) :=
          and_congr (place_next_iff hlt) (ih b.1 b.2 hrest hnonzero')
        _ ↔ _ := List.isChain_cons_cons.symm
  rw [keepsCount_cons_iff (hnonzero _ List.mem_cons_self),
    place_eq_some_self_iff rfl (Nat.zero_le p), hchain words p w h hnonzero]

end Lines

/-! ## The round trip -/

/-- Reading what was written, under the same offset, gives elements at consecutive addresses, and up to
the last word that was written each is what the program has at its address. -/
def RoundTrips (offset : Word) (emitZeros : Bool) (insns : List Insn) : Prop :=
  ∃ elements,
    Yields (.memh (memhInit offset (memhText offset emitZeros insns))) elements ∧
      (∀ k e, elements[k]? = some e → e.reladdr = offset + BitVec.ofNat 32 k) ∧
        ∀ a, (∃ b ∈ wordsAt emitZeros 0 insns, a ≤ b.1) →
          elements[a]?.map Element.word = some (programWord insns a)

theorem emittedSize_lt (size : Word) : emittedSize size < 2 ^ 31 := by
  have := size.toInt_lt
  simp only [emittedSize]
  omega

theorem close_wordsAt {emitZeros : Bool} {p : ℕ} {prev : Option ℕ} {insns : List Insn}
    (h : Laid p insns) (hprev : emitZeros = true → prev.elim (p = 0) fun q ↦ p < q + 2 ^ 31) :
    Close prev (wordsAt emitZeros p insns) := by
  induction insns generalizing p prev with
  | nil => trivial
  | cons i insns ih =>
    have hsize := emittedSize_lt i.size
    rw [wordsAt]
    split
    · rename_i hzero
      apply ih h.2.2.2
      intro hemit
      rw [hzero.2] at hemit
      cases hemit
    · rename_i hword
      refine ⟨?_, ?_⟩
      · intro hzero
        apply hprev
        cases emitZeros with
        | true => rfl
        | false => exact absurd ⟨hzero, rfl⟩ hword
      · apply ih h.2.2.2
        intro _
        change p + emittedSize i.size < p + 2 ^ 31
        omega

theorem memhText_eq {offset : Word} {emitZeros : Bool} {insns : List Insn} (h : Laid 0 insns) :
    FileState.memh (memhInit offset (memhText offset emitZeros insns)) =
      linesFrom offset [] (linesFor offset none (wordsAt emitZeros 0 insns)) := by
  rw [← memhOutFrom_eq offset h]
  rfl

theorem Yields.unique {state : FileState} {elements elements' : List Element}
    (h : Yields state elements) (h' : Yields state elements') : elements = elements' := by
  obtain ⟨answers, hpulls, rfl⟩ := h
  obtain ⟨answers', hpulls', rfl⟩ := h'
  rw [hpulls.unique hpulls']

section

variable (offset : Word) (emitZeros : Bool) {insns : List Insn}

/-- The lines for a program are read back just when the reader keeps count of them. -/
theorem keepsCount_wordsAt_iff (h : Laid 0 insns) :
    KeepsCount offset 0 none (wordsAt emitZeros 0 insns) ↔
      InTime 0 (wordsAt emitZeros 0 insns) ∧
        ReadsBack 0 (wordsAt emitZeros 0 insns) (readWords offset 0 none (wordsAt emitZeros 0 insns)) := by
  have hclose : Close none (wordsAt emitZeros 0 insns) := close_wordsAt h fun _ ↦ rfl
  exact keepsCount_iff (ordered_wordsAt h) hclose (fun q hq ↦ by cases hq)

/-- The words that are read are those of the program just when the lines are read back. -/
theorem roundTrips_iff_readsBack (h : Laid 0 insns) :
    RoundTrips offset emitZeros insns ↔
      InTime 0 (wordsAt emitZeros 0 insns) ∧
        ReadsBack 0 (wordsAt emitZeros 0 insns) (readWords offset 0 none (wordsAt emitZeros 0 insns)) := by
  have hspaces : AllSpace [] := fun c hc ↦ (List.not_mem_nil hc).elim
  have hyields := yields_lines (linesFor offset none (wordsAt emitZeros 0 insns)) offset hspaces
  rw [← memhText_eq h] at hyields
  have hread : lineWords offset (linesFor offset none (wordsAt emitZeros 0 insns)) =
      readWords offset 0 none (wordsAt emitZeros 0 insns) := by
    rw [readWords]
    congr 1
    exact (BitVec.zero_add offset).symm
  rw [hread] at hyields
  have hword : ∀ a : ℕ, (elementsAt offset
      (readWords offset 0 none (wordsAt emitZeros 0 insns)))[a]?.map Element.word =
        (readWords offset 0 none (wordsAt emitZeros 0 insns))[a]? := by
    intro a
    rw [elementsAt_getElem?, Option.map_map]
    exact congrFun Option.map_id _
  have himage : ∀ a, imageOf (wordsAt emitZeros 0 insns) a = programWord insns a := by
    intro a
    have himage : imageOf (wordsAt emitZeros 0 insns) (0 + a) = programWord insns a :=
      imageOf_wordsAt h a
    rwa [Nat.zero_add] at himage
  constructor
  · rintro ⟨elements, hyields', _, hprogram⟩
    obtain rfl := hyields'.unique hyields
    refine ⟨fun _ _ _ ↦ Nat.zero_le _, ?_⟩
    intro a _ hlast
    rw [himage, ← hprogram a hlast, hword]
    rfl
  · rintro ⟨_, hback⟩
    refine ⟨_, hyields, ?_, ?_⟩
    · intro k e hk
      rw [elementsAt_getElem?] at hk
      obtain ⟨word, _, rfl⟩ := Option.map_eq_some_iff.mp hk
      rfl
    · intro a hlast
      have hself := hback a (Nat.zero_le a) hlast
      rw [hword, ← himage]
      exact hself

/-- A program comes back from a memh file just when the reader keeps count of its lines. -/
theorem memh_roundTrip_iff (h : Laid 0 insns) :
    RoundTrips offset emitZeros insns ↔
      KeepsCount offset 0 none (wordsAt emitZeros 0 insns) := by
  rw [keepsCount_wordsAt_iff offset emitZeros h]
  exact roundTrips_iff_readsBack offset emitZeros h

end

/-- Without explicit zeros a program comes back just when no two words in a row are too far apart, and
no word is beyond the greatest signed address. -/
theorem memh_roundTrip_implicit_iff (offset : Word) {insns : List Insn} (h : Laid 0 insns) :
    RoundTrips offset false insns ↔
      (∀ b ∈ (wordsAt false 0 insns).head?, Reachable offset 0 b.1) ∧
        (wordsAt false 0 insns).IsChain (Fits offset) := by
  have hordered : Ordered (wordsAt false 0 insns) := ordered_wordsAt h
  have hnonzero : ∀ b ∈ wordsAt false 0 insns, b.2 ≠ 0#32 := ne_zero_of_mem_wordsAt
  rw [roundTrips_iff_readsBack offset false h, ← keepsCount_wordsAt_iff offset false h]
  cases hwords : wordsAt false 0 insns with
  | nil => exact ⟨fun _ ↦ ⟨fun b hb ↦ (by cases hb), .nil⟩, fun _ ↦ trivial⟩
  | cons b words =>
    rw [hwords] at hordered hnonzero
    rw [keepsCount_nonzero_iff hordered hnonzero]
    simp

/-- `.word 7`, `.zero 3`, `.word 9, 0` and `.word 8`. -/
def areaInsns : List Insn :=
  [{ reladdr := 0#32, word := 7#32, size := 1#32 }, { reladdr := 1#32, word := 0#32, size := 3#32 },
    { reladdr := 4#32, word := 9#32, size := 1#32 }, { reladdr := 5#32, word := 0#32, size := 1#32 },
    { reladdr := 6#32, word := 8#32, size := 1#32 }]

/-- An area of zeros and a zero by itself come back in both styles. -/
theorem memh_roundTrip_area : RoundTrips 5#32 false areaInsns ∧ RoundTrips 5#32 true areaInsns := by
  have hlaid : Laid 0 areaInsns :=
    ⟨rfl, by decide, fun h ↦ absurd rfl h, rfl, by decide, fun _ ↦ rfl, rfl, by decide,
      fun h ↦ absurd rfl h, rfl, by decide, fun _ ↦ rfl, rfl, by decide, fun h ↦ absurd rfl h, trivial⟩
  constructor
  · apply (memh_roundTrip_iff 5#32 false hlaid).mpr
    exact ⟨fun _ ↦ rfl, fun _ ↦ rfl, fun _ ↦ rfl, trivial⟩
  · apply (memh_roundTrip_iff 5#32 true hlaid).mpr
    exact ⟨fun _ ↦ rfl, fun h ↦ absurd rfl h, fun _ ↦ rfl, fun h ↦ absurd rfl h, fun _ ↦ rfl, trivial⟩

/-- With explicit zeros `.zero 0` has a line of its own, and `.word 5` after it comes one too late. -/
theorem not_memh_roundTrip_zero :
    ¬ RoundTrips 0#32 true
      [{ reladdr := 0#32, word := 0#32, size := 0#32 },
        { reladdr := 0#32, word := 5#32, size := 1#32 }] := by
  rintro ⟨elements, hyields, _, hprogram⟩
  have hspaces : AllSpace [] := fun c hc ↦ (List.not_mem_nil hc).elim
  have hlines : Yields (linesFrom 0#32 [] [(some 0#32, 0#32), (none, 5#32)])
      [⟨0#32, 0#32⟩, ⟨1#32, 5#32⟩] := yields_lines _ _ hspaces
  obtain rfl := hyields.unique hlines
  have hfirst := hprogram 0 ⟨(0, 5#32), by decide, le_rfl⟩
  cases hfirst

/-! ## Assembled programs -/

section Assembled

variable {undef : UndefinedShifts} {fuel : ℕ}

theorem parseElement_blank {env : Env} {e : Asm.Element}
    {result : List Elem × List Obj.Name × List Diagnostic}
    (h : parseElement undef fuel env e = .ok result) :
    ∀ e' ∈ result.1, e'.size ≠ 1#32 → e'.word = 0#32 := by
  have hdata : ∀ {env : Env} {exprs : List (ConstExpr Obj.Name)} {result},
      makeData undef fuel env exprs = .ok result → ∀ e' ∈ result.1, e'.size = 1#32 := by
    intro env exprs
    induction exprs with
    | nil =>
      intro result h
      obtain rfl := Except.ok.inj h
      simp
    | cons e rest ih =>
      intro result h
      rw [makeData, bind_eq_ok] at h
      obtain ⟨errors, _, h⟩ := h
      rw [bind_eq_ok] at h
      obtain ⟨tail, htail, h⟩ := h
      obtain rfl := Except.ok.inj h
      intro e' he'
      rcases List.mem_cons.mp he' with rfl | he'
      · rfl
      · exact ih htail e' he'
  induction e generalizing result with
  | word exprs =>
    rw [parseElement, bind_eq_ok] at h
    obtain ⟨data, hparsed, h⟩ := h
    obtain rfl := Except.ok.inj h
    intro e' he' hsize
    exact absurd (hdata hparsed e' he') hsize
  | zero size =>
    rw [parseElement, bind_eq_ok] at h
    obtain ⟨data, hparsed, h⟩ := h
    obtain rfl := Except.ok.inj h
    rw [makeZeros, bind_eq_ok] at hparsed
    obtain ⟨_, _, hparsed⟩ := hparsed
    obtain rfl := Except.ok.inj hparsed
    intro e' he' _
    obtain rfl := List.mem_singleton.mp he'
    rfl
  | utf32 chars =>
    obtain rfl := Except.ok.inj h
    intro e' he' hsize
    obtain ⟨c, _, rfl⟩ := List.mem_map.mp he'
    exact absurd rfl hsize
  | illegal =>
    obtain rfl := Except.ok.inj h
    intro e' he' hsize
    obtain rfl := List.mem_singleton.mp he'
    exact absurd rfl hsize
  | insn stmt =>
    rw [parseElement, bind_eq_ok] at h
    obtain ⟨parsed, _, h⟩ := h
    obtain rfl := Except.ok.inj h
    intro e' he' hsize
    obtain rfl := List.mem_singleton.mp he'
    exact absurd rfl hsize
  | labelled symbol inner ih =>
    rw [parseElement, bind_eq_ok] at h
    obtain ⟨⟨elems, labels, errors⟩, hinner, h⟩ := h
    dsimp only at h
    split at h
    · cases h
    · obtain rfl := Except.ok.inj h
      have hblank := ih hinner
      exact hblank

/-- Only `.zero` areas have other sizes than 1. -/
theorem parse_blank {source : Source} {pd : ParseData} (h : parse undef fuel source = .ok pd) :
    ∀ e ∈ pd.elems, e.size ≠ 1#32 → e.word = 0#32 := by
  apply foldlM_parseStatement_invariant undef fuel ?_ ?_ h
  · intro pd s pd' hpd hs
    cases s with
    | element e =>
      rw [parseStatement, bind_eq_ok] at hs
      obtain ⟨⟨elems, labels, errors⟩, helement, hs⟩ := hs
      obtain rfl := Except.ok.inj hs
      intro e' he'
      rcases List.mem_append.mp he' with he' | he'
      · exact hpd e' he'
      · exact parseElement_blank helement e' he'
    | global symbol =>
      obtain rfl := Except.ok.inj hs
      exact hpd
    | set symbol e =>
      rw [parseStatement, bind_eq_ok] at hs
      obtain ⟨errors, _, hs⟩ := hs
      obtain rfl := Except.ok.inj hs
      exact hpd
    | option =>
      obtain rfl := Except.ok.inj hs
      exact hpd
  · intro e he
    cases he

theorem laid_of_getElem? {p : ℕ} {insns : List Insn}
    (h : ∀ k i, insns[k]? = some i →
      i.reladdr = BitVec.ofNat 32 (p + emitted ((insns.take k).map Insn.size)) ∧
        0 ≤ i.size.toInt ∧ (i.size ≠ 1#32 → i.word = 0#32)) : Laid p insns := by
  induction insns generalizing p with
  | nil => trivial
  | cons i insns ih =>
    obtain ⟨haddr, hsize, hword⟩ := h 0 i rfl
    refine ⟨haddr, hsize, hword, ih ?_⟩
    intro k j hj
    obtain ⟨haddr', hrest⟩ := h (k + 1) j hj
    rw [List.take_succ_cons, List.map_cons, emitted_cons, ← Nat.add_assoc] at haddr'
    exact ⟨haddr', hrest⟩

/-- What the assembler hands to `memh_out`, where no size is negative. -/
theorem laid_insns {source : Source} {pd : ParseData} {a : Assembled}
    (hpd : parse undef fuel source = .ok pd) (p : Passes undef fuel pd a)
    (hsizes : ∀ e ∈ pd.elems, 0 ≤ e.size.toInt) : Laid 0 a.insns := by
  apply laid_of_getElem?
  intro k i hi
  have hk : k < pd.elems.length := by
    rw [← p.length_insns]
    exact (List.getElem?_eq_some_iff.mp hi).1
  have he : pd.elems[k]? = some pd.elems[k] := List.getElem?_eq_getElem hk
  have hmem : pd.elems[k] ∈ pd.elems := List.getElem_mem hk
  obtain ⟨word, hword, hinsn⟩ := p.insns_getElem? he
  rw [hinsn] at hi
  obtain rfl := Option.some.inj hi
  refine ⟨?_, hsizes _ hmem, ?_⟩
  · have hnone : shrunk (pd.sizes k) = 0 := by
      apply shrunk_eq_zero
      intro size hsize
      obtain ⟨e, he', rfl⟩ := List.mem_map.mp hsize
      exact hsizes e (List.mem_of_mem_take he')
    rw [p.take_insns_size, Nat.zero_add]
    change addrAfter (pd.sizes k) = _
    rw [addrAfter, sum_toInt_eq, hnone, Nat.cast_zero, sub_zero, BitVec.ofInt_natCast]
  · intro hsize
    have hfixup : pd.elems[k].fixup = none := by
      cases hfixup : pd.elems[k].fixup with
      | none => rfl
      | some d => exact absurd ((parse_valid undef fuel hpd).fixup _ hmem d hfixup).1 hsize
    have hself := p.word_of_fixup_none he hfixup
    rw [hword] at hself
    rw [Option.some.inj hself]
    exact parse_blank hpd _ hmem hsize

end Assembled

end Tenyr.Fmt
