import Tenyr.Fmt.RoundTrip

/-!
# Memh files with explicit zeros

Every element has a line of its own then, an area of zeros as well as one of no words at all. The reader
gives a line the address behind that of the line before, or that of its mark. So it is ahead of the
program where more lines than words have come, until a mark brings it back, or stops it.
-/

namespace Tenyr.Fmt

open Isa Asm

/-! ## Lines and words -/

/-- Where a line comes after `i` others, no run of lines in front of it is longer than the words between
its first one and an address. The count is that of a line in front of all of them. -/
def Counted (count : ℕ) (words : List (ℕ × Word)) (i p : ℕ) : Prop :=
  count + i ≤ p ∧ ∀ j a, j < i → words[j]? = some a → a.1 + (i - j) ≤ p

/-- What the reader does not stumble over: words other than zero come in time, and so do address marks,
unless nothing comes from there on but zeros that have been counted already. -/
structure KeepsUp (count : ℕ) (words : List (ℕ × Word)) : Prop where
  places : ∀ i b, words[i]? = some b → b.2 ≠ 0#32 → Counted count words i b.1
  marks : ∀ i a b, words[i]? = some a → words[i + 1]? = some b → a.1 + 1 < b.1 →
    Counted count words (i + 1) b.1 ∨
      ∀ l c, i < l → words[l]? = some c → c.2 = 0#32 ∧ ¬ Counted count words (i + 1) c.1

section

variable {count p r : ℕ} {w : Word} {words : List (ℕ × Word)}

theorem counted_zero_iff : Counted count words 0 p ↔ count ≤ p := by
  simp [Counted]

theorem counted_cons_iff (a : ℕ × Word) (i : ℕ) :
    Counted count (a :: words) (i + 1) p ↔ Counted (max count a.1 + 1) words i p := by
  constructor
  · rintro ⟨hcount, hlines⟩
    have hfirst := hlines 0 a (Nat.succ_pos i) rfl
    refine ⟨by omega, fun j b hj hb ↦ ?_⟩
    have := hlines (j + 1) b (by omega) hb
    omega
  · rintro ⟨hcount, hlines⟩
    refine ⟨by omega, fun j b hj hb ↦ ?_⟩
    cases j with
    | zero =>
      obtain rfl := Option.some.inj hb
      omega
    | succ j =>
      have := hlines j b (by omega) hb
      omega

/-- A line that is reached late is one that is reached at its place. -/
theorem keepsUp_max_iff (a : ℕ × Word) :
    KeepsUp (max count a.1) (a :: words) ↔ KeepsUp count (a :: words) := by
  have hlater : ∀ i p, Counted (max count a.1) (a :: words) (i + 1) p ↔
      Counted count (a :: words) (i + 1) p := by
    intro i p
    rw [counted_cons_iff, counted_cons_iff, max_assoc, max_self]
  have hwords : ∀ i b, (a :: words)[i]? = some b →
      (Counted (max count a.1) (a :: words) i b.1 ↔ Counted count (a :: words) i b.1) := by
    intro i b hb
    cases i with
    | zero =>
      obtain rfl := Option.some.inj hb
      rw [counted_zero_iff, counted_zero_iff]
      omega
    | succ i => exact hlater i b.1
  constructor
  · rintro ⟨hall, hmarks⟩
    refine ⟨fun i b hb hword ↦ (hwords i b hb).mp (hall i b hb hword), ?_⟩
    simpa only [hlater] using hmarks
  · rintro ⟨hall, hmarks⟩
    refine ⟨fun i b hb hword ↦ (hwords i b hb).mpr (hall i b hb hword), ?_⟩
    simpa only [hlater] using hmarks

/-- The line after one that was given an address not before its own. -/
theorem keepsUp_cons_cons_iff (hle : p ≤ r) (b : ℕ × Word) :
    KeepsUp r ((p, w) :: b :: words) ↔
      (w ≠ 0#32 → r = p) ∧
        (p + 1 < b.1 → r + 1 ≤ b.1 ∨ ∀ c ∈ b :: words, c.2 = 0#32 ∧ c.1 < r + 1) ∧
          KeepsUp (r + 1) (b :: words) := by
  have hnext : ∀ i q, Counted r ((p, w) :: b :: words) (i + 1) q ↔ Counted (r + 1) (b :: words) i q := by
    intro i q
    rw [counted_cons_iff, max_eq_left hle]
  constructor
  · rintro ⟨hall, hmarks⟩
    refine ⟨?_, ?_, ?_, ?_⟩
    · intro hword
      exact le_antisymm (counted_zero_iff.mp (hall 0 (p, w) rfl hword)) hle
    · intro hmark
      rcases hmarks 0 (p, w) b rfl rfl hmark with hcounted | hrest
      · exact .inl (counted_zero_iff.mp ((hnext 0 b.1).mp hcounted))
      · refine .inr fun c hc ↦ ?_
        obtain ⟨l, hl⟩ := List.mem_iff_getElem?.mp hc
        obtain ⟨hzero, hbehind⟩ := hrest (l + 1) c (Nat.succ_pos l) hl
        rw [hnext, counted_zero_iff, not_le] at hbehind
        exact ⟨hzero, hbehind⟩
    · intro i c hc hword
      exact (hnext i c.1).mp (hall (i + 1) c hc hword)
    · intro i a c ha hc hmark
      rcases hmarks (i + 1) a c ha hc hmark with hcounted | hrest
      · exact .inl ((hnext (i + 1) c.1).mp hcounted)
      · refine .inr fun l d hl hd ↦ ?_
        obtain ⟨hzero, hbehind⟩ := hrest (l + 1) d (Nat.succ_lt_succ hl) hd
        exact ⟨hzero, fun h ↦ hbehind ((hnext (i + 1) d.1).mpr h)⟩
  · rintro ⟨hplace, hmark, hall, hmarks⟩
    constructor
    · intro i c hc hword
      cases i with
      | zero =>
        obtain rfl := Option.some.inj hc
        exact counted_zero_iff.mpr (hplace hword).le
      | succ i => exact (hnext i c.1).mpr (hall i c hc hword)
    · intro i a c ha hc hfar
      cases i with
      | zero =>
        obtain rfl := Option.some.inj ha
        obtain rfl := Option.some.inj hc
        rcases hmark hfar with hle | hrest
        · exact .inl ((hnext 0 b.1).mpr (counted_zero_iff.mpr hle))
        · refine .inr fun l d hl hd ↦ ?_
          obtain ⟨l, rfl⟩ := Nat.exists_eq_add_of_lt hl
          have hmem : d ∈ b :: words := List.mem_of_getElem? (i := l) (by simpa using hd)
          obtain ⟨hzero, hbehind⟩ := hrest d hmem
          refine ⟨hzero, ?_⟩
          rw [hnext, counted_zero_iff, not_le]
          exact hbehind
      | succ i =>
        rcases hmarks i a c ha hc hfar with hcounted | hrest
        · exact .inl ((hnext (i + 1) c.1).mpr hcounted)
        · refine .inr fun l d hl hd ↦ ?_
          obtain ⟨l, rfl⟩ := Nat.exists_eq_add_of_lt (Nat.zero_lt_of_lt hl)
          rw [Nat.zero_add] at hd hl
          obtain ⟨hzero, hbehind⟩ := hrest l d (Nat.lt_of_succ_lt_succ hl) hd
          exact ⟨hzero, fun h ↦ hbehind ((hnext (i + 1) d.1).mp h)⟩

/-- Zeros that have been counted already are no matter. -/
theorem keepsUp_of_counted (h : ∀ c ∈ words, c.2 = 0#32 ∧ c.1 < count) : KeepsUp count words where
  places i b hb hword := absurd (h b (List.mem_of_getElem? hb)).1 hword
  marks i a b _ _ _ := by
    refine .inr fun l c _ hc ↦ ?_
    obtain ⟨hzero, hlt⟩ := h c (List.mem_of_getElem? hc)
    refine ⟨hzero, ?_⟩
    rintro ⟨hcount, _⟩
    omega

end

/-! ## The reader -/

section

variable {offset : Word} {p r : ℕ} {w : Word} {words : List (ℕ × Word)}

theorem toInt_ofNat_add {k : ℕ} (h : offset.toInt + k < 2 ^ 31) :
    (BitVec.ofNat 32 k + offset).toInt = offset.toInt + k := by
  have hle := offset.le_toInt
  rw [BitVec.add_comm, BitVec.toInt_add, ← BitVec.ofInt_natCast, BitVec.toInt_ofInt, Int.add_bmod_bmod]
  apply Int.bmod_eq_of_le <;> omega

/-- A line is an element, and no element has `2 ^ 31` words. -/
def Steps (words : List (ℕ × Word)) : Prop :=
  words.IsChain fun a b ↦ a.1 ≤ b.1 ∧ b.1 < a.1 + 2 ^ 31

/-- The address of a line after one that was given an address not before its own, where no signed address
wraps around. -/
theorem place_behind {q : ℕ} (hle : p ≤ r) (hpq : p ≤ q) (hlt : q < p + 2 ^ 31)
    (hr : offset.toInt + (r + 1 : ℕ) < 2 ^ 31) (hq : offset.toInt + q < 2 ^ 31) :
    place offset (r + 1) (some p) q =
      if p + 1 < q then if r + 1 ≤ q then some q else none else some (r + 1) := by
  by_cases hfar : p + 1 < q
  · have hmark : needsMark (some p) q = true := (needsMark_some hpq hlt).mpr hfar
    rw [if_pos hfar]
    by_cases hahead : r + 1 ≤ q
    · rw [if_pos hahead, place_ahead hmark hahead (by omega), toInt_ofNat_add hr, if_pos (by omega)]
    · simp only [place]
      rw [if_pos hmark, if_neg hahead, toInt_ofNat_add hr, toInt_ofNat_add hq, if_neg (by omega)]
  · have hmark : ¬ needsMark (some p) q = true := (needsMark_some hpq hlt).not.mpr hfar
    simp only [place]
    rw [if_neg hfar, if_neg hmark]

/-- The reader keeps count of the lines after one that was given an address not before its own just when
it keeps up with them. -/
theorem keepsUp_iff (hle : p ≤ r) (hsteps : Steps ((p, w) :: words))
    (hr : offset.toInt + (r + words.length : ℕ) < 2 ^ 31)
    (hrange : ∀ b ∈ words, offset.toInt + (b.1 + words.length : ℕ) < 2 ^ 31) :
    KeepsUp r ((p, w) :: words) ↔ (w ≠ 0#32 → r = p) ∧ KeepsCount offset (r + 1) (some p) words := by
  induction words generalizing p w r with
  | nil =>
    constructor
    · rintro ⟨hall, _⟩
      refine ⟨fun hword ↦ ?_, trivial⟩
      exact le_antisymm (counted_zero_iff.mp (hall 0 (p, w) rfl hword)) hle
    · rintro ⟨hplace, _⟩
      constructor
      · intro i b hb hword
        cases i with
        | zero =>
          obtain rfl := Option.some.inj hb
          exact counted_zero_iff.mpr (hplace hword).le
        | succ i => cases hb
      · intro i a b _ hb _
        cases hb
  | cons b words ih =>
    obtain ⟨q, w'⟩ := b
    obtain ⟨⟨hpq, hlt⟩, hsteps⟩ := List.isChain_cons_cons.mp hsteps
    have hq := hrange (q, w') List.mem_cons_self
    rw [List.length_cons] at hr hq
    have hrange' : ∀ b ∈ words, offset.toInt + (b.1 + words.length : ℕ) < 2 ^ 31 := by
      intro b hb
      have := hrange b (List.mem_cons_of_mem _ hb)
      rw [List.length_cons] at this
      omega
    have hplace : place offset (r + 1) (some p) q = _ :=
      place_behind hle hpq hlt (by omega) (by dsimp only at hq; omega)
    rw [keepsUp_cons_cons_iff hle]
    apply and_congr_right
    intro _
    rw [KeepsCount, hplace]
    by_cases hfar : p + 1 < q
    · rw [if_pos hfar]
      by_cases hahead : r + 1 ≤ q
      · rw [if_pos hahead]
        have hmax : max (r + 1) q = q := max_eq_right hahead
        rw [← keepsUp_max_iff, hmax, ih le_rfl hsteps (by dsimp only at hq; omega) hrange']
        exact and_iff_right fun _ ↦ .inl hahead
      · rw [if_neg hahead]
        constructor
        · rintro ⟨hmark, _⟩
          exact (hmark hfar).resolve_left hahead
        · intro hzeros
          exact ⟨fun _ ↦ .inr hzeros, keepsUp_of_counted hzeros⟩
    · rw [if_neg hfar]
      rw [ih (by omega) hsteps (by omega) hrange']
      exact and_iff_right fun h ↦ absurd h hfar

end

/-! ## The round trip -/

theorem wordsAt_explicit_cons (p : ℕ) (i : Insn) (insns : List Insn) :
    wordsAt true p (i :: insns) = (p, i.word) :: wordsAt true (p + emittedSize i.size) insns :=
  if_neg fun h ↦ Bool.noConfusion h.2

theorem length_wordsAt_explicit (p : ℕ) (insns : List Insn) : (wordsAt true p insns).length = insns.length := by
  induction insns generalizing p with
  | nil => rfl
  | cons i insns ih => rw [wordsAt_explicit_cons, List.length_cons, List.length_cons, ih]

theorem steps_wordsAt (p : ℕ) (insns : List Insn) : Steps (wordsAt true p insns) := by
  induction insns generalizing p with
  | nil => exact .nil
  | cons i insns ih =>
    have hrest := ih (p + emittedSize i.size)
    have hsize := emittedSize_lt i.size
    rw [wordsAt_explicit_cons]
    cases insns with
    | nil => exact .singleton _
    | cons j insns =>
      rw [wordsAt_explicit_cons] at hrest ⊢
      refine List.isChain_cons_cons.mpr ⟨⟨Nat.le_add_right _ _, ?_⟩, hrest⟩
      dsimp only
      omega

/-- With explicit zeros, where no signed address wraps around for the words and lines of a program, it
comes back just when the reader keeps up with its lines. -/
theorem memh_roundTrip_explicit_iff (offset : Word) {insns : List Insn} (h : Laid 0 insns)
    (hrange : ∀ b ∈ wordsAt true 0 insns, offset.toInt + (b.1 + insns.length : ℕ) < 2 ^ 31) :
    RoundTrips offset true insns ↔ KeepsUp 0 (wordsAt true 0 insns) := by
  have hsteps := steps_wordsAt 0 insns
  rw [roundTrips_iff_readsBack offset true h, ← keepsCount_wordsAt_iff offset true h]
  cases insns with
  | nil =>
    constructor
    · intro _
      exact keepsUp_of_counted (List.forall_mem_nil _)
    · intro _
      trivial
  | cons i insns =>
    rw [wordsAt_explicit_cons] at hsteps hrange ⊢
    have hlength := length_wordsAt_explicit (0 + emittedSize i.size) insns
    have hfirst : place offset 0 none 0 = some 0 := by
      simp [place, needsMark]
    rw [KeepsCount, hfirst]
    have hr := hrange _ List.mem_cons_self
    refine (keepsUp_iff le_rfl hsteps ?_ fun b hb ↦ ?_).symm
    · rw [hlength]
      rw [List.length_cons] at hr
      dsimp only at hr
      omega
    · have hb' := hrange b (List.mem_cons_of_mem _ hb)
      rw [hlength]
      rw [List.length_cons] at hb'
      omega

end Tenyr.Fmt
