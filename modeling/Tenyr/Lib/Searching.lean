import Mathlib.Data.Int.Notation
import Mathlib.Data.List.Pairwise
import Mathlib.Data.List.Perm.Basic
import Mathlib.Data.Nat.Notation

/-!
# Sorting and searching with comparison functions

What the C library promises for `qsort` and `bsearch`, whose comparison functions answer with the sign
of a number, and an implementation of each.
-/

namespace Tenyr.Lib.Searching

variable {α κ : Type}

/-! ## Contracts -/

/-- A comparison function that describes an order on the members of a list. -/
structure Consistent (cmp : α → α → ℤ) (l : List α) : Prop where
  antisymm : ∀ a ∈ l, ∀ b ∈ l, cmp a b < 0 ↔ 0 < cmp b a
  trans : ∀ a ∈ l, ∀ b ∈ l, ∀ c ∈ l, cmp a b ≤ 0 → cmp b c ≤ 0 → cmp a c ≤ 0

/-- Lists come back sorted where the comparison function is consistent. -/
def Sorts (qsort : (α → α → ℤ) → List α → List α) : Prop :=
  ∀ cmp l, Consistent cmp l →
    (qsort cmp l).Perm l ∧ (qsort cmp l).Pairwise fun a b ↦ cmp a b ≤ 0

/-- The members that a key is above come first, then those it is equal to, then those it is below. -/
def Partitioned (sign : α → ℤ) (l : List α) : Prop :=
  l.Pairwise fun a b ↦ (0 < sign b → 0 < sign a) ∧ (sign a < 0 → sign b < 0)

/-- In a partitioned list a member that is equal to the key is found if there is one. -/
def Finds (bsearch : (κ → α → ℤ) → κ → List α → Option α) : Prop :=
  ∀ cmp key l, Partitioned (cmp key) l →
    (∀ a, bsearch cmp key l = some a → a ∈ l ∧ cmp key a = 0) ∧
      (bsearch cmp key l = none → ∀ a ∈ l, cmp key a ≠ 0)

/-- Two members are related in the order in which they occur. -/
theorem rel_or_rel {r : α → α → Prop} {l : List α} (hl : l.Pairwise r) {a b : α} (ha : a ∈ l)
    (hb : b ∈ l) (hne : a ≠ b) : r a b ∨ r b a := by
  have hsymm : l.Pairwise fun a b ↦ r a b ∨ r b a := hl.imp fun h ↦ .inl h
  have : Std.Symm fun a b ↦ r a b ∨ r b a := ⟨fun _ _ h ↦ h.symm⟩
  exact hsymm.forall ha hb hne

/-! ## Insertion sort -/

section Sorting

variable (cmp : α → α → ℤ)

def insertBy (a : α) : List α → List α
  | [] => [a]
  | b :: l => if cmp a b ≤ 0 then a :: b :: l else b :: insertBy a l

def insertionSort : List α → List α
  | [] => []
  | a :: l => insertBy cmp a (insertionSort l)

theorem perm_insertBy (a : α) (l : List α) : (insertBy cmp a l).Perm (a :: l) := by
  induction l with
  | nil => exact .refl _
  | cons b l ih =>
    rw [insertBy]
    split
    · exact .refl _
    · exact (ih.cons b).trans (.swap a b l)

theorem perm_insertionSort (l : List α) : (insertionSort cmp l).Perm l := by
  induction l with
  | nil => exact .refl _
  | cons a l ih => exact (perm_insertBy cmp a _).trans (ih.cons a)

variable {cmp}

theorem Consistent.of_subset {l l' : List α} (h : Consistent cmp l) (hsub : l' ⊆ l) :
    Consistent cmp l' where
  antisymm a ha b hb := h.antisymm a (hsub ha) b (hsub hb)
  trans a ha b hb c hc := h.trans a (hsub ha) b (hsub hb) c (hsub hc)

/-- Two members are in one order or in the other. -/
theorem Consistent.le_of_not_le {l : List α} (h : Consistent cmp l) {a b : α} (ha : a ∈ l)
    (hb : b ∈ l) (hab : ¬ cmp a b ≤ 0) : cmp b a ≤ 0 := by
  have := (h.antisymm b hb a ha).mpr (by omega)
  omega

theorem Consistent.lt_of_lt_of_le {l : List α} (h : Consistent cmp l) {b c d : α} (hb : b ∈ l)
    (hc : c ∈ l) (hd : d ∈ l) (hbc : cmp b c < 0) (hcd : cmp c d ≤ 0) : cmp b d < 0 := by
  by_contra hnot
  have hdb : cmp d b ≤ 0 := by
    have hneg := h.antisymm b hb d hd
    have hpos := h.antisymm d hd b hb
    omega
  have hcb := h.trans c hc d hd b hb hcd hdb
  have hback := h.antisymm b hb c hc
  omega

theorem Consistent.lt_of_le_of_lt {l : List α} (h : Consistent cmp l) {b c d : α} (hb : b ∈ l)
    (hc : c ∈ l) (hd : d ∈ l) (hbc : cmp b c ≤ 0) (hcd : cmp c d < 0) : cmp b d < 0 := by
  by_contra hnot
  have hdb : cmp d b ≤ 0 := by
    have hneg := h.antisymm b hb d hd
    have hpos := h.antisymm d hd b hb
    omega
  have hdc := h.trans d hd b hb c hc hdb hbc
  have hback := h.antisymm c hc d hd
  omega

theorem pairwise_insertBy {a : α} {l : List α} (h : Consistent cmp (a :: l))
    (hl : l.Pairwise fun a b ↦ cmp a b ≤ 0) :
    (insertBy cmp a l).Pairwise fun a b ↦ cmp a b ≤ 0 := by
  induction l with
  | nil => exact List.pairwise_singleton _ _
  | cons b l ih =>
    obtain ⟨hb, hrest⟩ := List.pairwise_cons.mp hl
    have hmem_a : a ∈ a :: b :: l := List.mem_cons_self
    have hmem_b : b ∈ a :: b :: l := List.mem_cons_of_mem _ List.mem_cons_self
    rw [insertBy]
    split
    · rename_i hle
      apply List.pairwise_cons.mpr
      refine ⟨?_, hl⟩
      intro c hc
      rcases List.mem_cons.mp hc with rfl | hc
      · exact hle
      · exact h.trans a hmem_a b hmem_b c
          (List.mem_cons_of_mem _ (List.mem_cons_of_mem _ hc)) hle (hb c hc)
    · rename_i hgt
      have hsub : a :: l ⊆ a :: b :: l := List.cons_subset_cons _ (List.subset_cons_self _ _)
      apply List.pairwise_cons.mpr
      refine ⟨?_, ih (h.of_subset hsub) hrest⟩
      intro c hc
      rcases List.mem_cons.mp ((perm_insertBy cmp a l).mem_iff.mp hc) with rfl | hc
      · exact h.le_of_not_le hmem_a hmem_b hgt
      · exact hb c hc

theorem insertionSort_sorts : Sorts (insertionSort (α := α)) := by
  intro cmp l h
  refine ⟨perm_insertionSort cmp l, ?_⟩
  induction l with
  | nil => exact .nil
  | cons a l ih =>
    apply pairwise_insertBy
    · apply h.of_subset
      apply List.cons_subset_cons
      exact (perm_insertionSort cmp l).subset
    · exact ih (h.of_subset (List.subset_cons_self _ _))

end Sorting

/-! ## Binary search -/

section Bisection

variable (cmp : κ → α → ℤ) (key : κ) (l : List α)

/-- The search between two positions, for so many comparisons at most. -/
def searchBetween : ℕ → ℕ → ℕ → Option α
  | 0, _, _ => none
  | fuel + 1, lo, hi =>
      if lo < hi then
        let mid := (lo + hi) / 2
        match l[mid]? with
        | none => none
        | some a =>
            if cmp key a < 0 then searchBetween fuel lo mid
            else if 0 < cmp key a then searchBetween fuel (mid + 1) hi
            else some a
      else none

def binarySearch : Option α := searchBetween cmp key l l.length 0 l.length

variable {cmp key l}

theorem searchBetween_some {fuel lo hi : ℕ} {a : α}
    (h : searchBetween cmp key l fuel lo hi = some a) : a ∈ l ∧ cmp key a = 0 := by
  induction fuel generalizing lo hi with
  | zero => cases h
  | succ fuel ih =>
    rw [searchBetween] at h
    split at h
    · dsimp only at h
      split at h
      · cases h
      · rename_i b hb
        split at h
        · exact ih h
        · split at h
          · exact ih h
          · obtain rfl := Option.some.inj h
            exact ⟨List.mem_of_getElem? hb, by omega⟩
    · cases h

/-- What is not found is not between the positions. -/
theorem searchBetween_none (hl : Partitioned (cmp key) l) {fuel lo hi : ℕ} (hfuel : hi ≤ lo + fuel)
    (hhi : hi ≤ l.length) (h : searchBetween cmp key l fuel lo hi = none) {i : ℕ} {a : α}
    (ha : l[i]? = some a) (hlo : lo ≤ i) (hlt : i < hi) : cmp key a ≠ 0 := by
  have hpair := List.pairwise_iff_getElem.mp hl
  obtain ⟨hi_lt, rfl⟩ := List.getElem?_eq_some_iff.mp ha
  induction fuel generalizing lo hi with
  | zero => omega
  | succ fuel ih =>
    rw [searchBetween, if_pos (by omega)] at h
    have hmid : (lo + hi) / 2 < l.length := by omega
    dsimp only at h
    rw [List.getElem?_eq_getElem hmid] at h
    dsimp only at h
    split at h
    · rename_i hneg
      rcases Nat.lt_or_ge i ((lo + hi) / 2) with hbelow | habove
      · exact ih (by omega) (by omega) h hlo hbelow
      · rcases Nat.eq_or_lt_of_le habove with heq | hlt'
        · have : cmp key l[i] < 0 := by simpa [← heq] using hneg
          omega
        · have := (hpair _ _ hmid hi_lt hlt').2 hneg
          omega
    · split at h
      · rename_i hpos
        rcases Nat.lt_or_ge ((lo + hi) / 2) i with habove | hbelow
        · exact ih (by omega) hhi h (by omega) hlt
        · rcases Nat.eq_or_lt_of_le hbelow with heq | hlt'
          · have : 0 < cmp key l[i] := by simpa [heq] using hpos
            omega
          · have := (hpair _ _ hi_lt hmid hlt').1 hpos
            omega
      · cases h

theorem binarySearch_finds : Finds (binarySearch (α := α) (κ := κ)) := by
  intro cmp key l hl
  refine ⟨fun a h ↦ searchBetween_some h, ?_⟩
  intro h a ha
  obtain ⟨i, hi⟩ := List.mem_iff_getElem?.mp ha
  have hlt := (List.getElem?_eq_some_iff.mp hi).1
  exact searchBetween_none hl (by omega) (Nat.le_refl _) h hi (Nat.zero_le _) hlt

end Bisection

end Tenyr.Lib.Searching
