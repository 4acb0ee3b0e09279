import Mathlib.Algebra.BigOperators.Group.List.Basic
import Mathlib.Algebra.GroupWithZero.Nat
import Mathlib.Algebra.Order.BigOperators.Group.List

/-!
# Packed blocks

Blocks of given lengths that are laid out one after another from position 0. In a space that wraps
around they stay disjoint exactly as long as they fit into it.
-/

namespace Tenyr.Lib.Packing

variable {lengths : List ℕ}

/-- Where the block with index `i` starts. -/
def start (lengths : List ℕ) (i : ℕ) : ℕ := (lengths.take i).sum

@[simp]
theorem start_zero (lengths : List ℕ) : start lengths 0 = 0 := rfl

@[simp]
theorem start_cons_succ (l : ℕ) (lengths : List ℕ) (i : ℕ) :
    start (l :: lengths) (i + 1) = l + start lengths i := by
  simp [start]

theorem start_succ {i l : ℕ} (h : lengths[i]? = some l) :
    start lengths (i + 1) = start lengths i + l := by
  rw [start, start, List.take_add_one, List.sum_append, h]
  simp

theorem start_mono {i j : ℕ} (h : i ≤ j) : start lengths i ≤ start lengths j := by
  obtain ⟨k, rfl⟩ := Nat.exists_eq_add_of_le h
  rw [start, start, List.take_add, List.sum_append]
  exact Nat.le_add_right _ _

theorem start_le_sum (lengths : List ℕ) (i : ℕ) : start lengths i ≤ lengths.sum := by
  calc start lengths i ≤ start lengths i + (lengths.drop i).sum := Nat.le_add_right _ _
    _ = (lengths.take i ++ lengths.drop i).sum := (List.sum_append).symm
    _ = lengths.sum := by rw [List.take_append_drop]

/-- Blocks end where the next one starts, at the latest. -/
theorem start_add_le {i j l : ℕ} (h : lengths[i]? = some l) (hij : i < j) :
    start lengths i + l ≤ start lengths j := by
  rw [← start_succ h]
  exact start_mono hij

/-- Every position before the end is in some block. -/
theorem exists_block {p : ℕ} (h : p < lengths.sum) :
    ∃ i l, lengths[i]? = some l ∧ start lengths i ≤ p ∧ p < start lengths i + l := by
  induction lengths generalizing p with
  | nil => simp at h
  | cons l lengths ih =>
    by_cases hp : p < l
    · exact ⟨0, l, rfl, Nat.zero_le _, by simpa using hp⟩
    · rw [List.sum_cons] at h
      obtain ⟨i, l', hl', hle, hlt⟩ := ih (p := p - l) (by omega)
      refine ⟨i + 1, l', hl', ?_, ?_⟩
      · rw [start_cons_succ]
        omega
      · rw [start_cons_succ]
        omega

/-- No two blocks share a position modulo `m`. -/
def DisjointMod (m : ℕ) (lengths : List ℕ) : Prop :=
  ∀ i j li lj, lengths[i]? = some li → lengths[j]? = some lj → i ≠ j →
    ∀ k < li, ∀ l < lj, (start lengths i + k) % m ≠ (start lengths j + l) % m

theorem disjointMod_iff {m : ℕ} (hm : 0 < m) (hle : ∀ l ∈ lengths, l ≤ m) :
    DisjointMod m lengths ↔ lengths.sum ≤ m := by
  constructor
  · intro hdisjoint
    by_contra hsum
    rw [Nat.not_le] at hsum
    -- positions 0 and `m` are the same, and in different blocks
    obtain ⟨i, li, hi, hstart, hlt⟩ := exists_block (show 0 < lengths.sum by omega)
    obtain ⟨j, lj, hj, hstart', hlt'⟩ := exists_block hsum
    have hne : i ≠ j := by
      rintro rfl
      obtain rfl := Option.some.inj (hi.symm.trans hj)
      have := hle li (List.mem_of_getElem? hi)
      omega
    apply hdisjoint i j li lj hi hj hne 0 (by omega) (m - start lengths j) (by omega)
    rw [Nat.add_zero, Nat.le_zero.mp hstart, Nat.add_sub_cancel' hstart', Nat.mod_self,
      Nat.zero_mod]
  · intro hsum
    have hbelow : ∀ i li, lengths[i]? = some li → ∀ k < li,
        (start lengths i + k) % m = start lengths i + k := by
      intro i li hi k hk
      have hend := start_le_sum lengths (i + 1)
      rw [start_succ hi] at hend
      exact Nat.mod_eq_of_lt (by omega)
    intro i j li lj hi hj hne k hk l hl
    rw [hbelow i li hi k hk, hbelow j lj hj l hl]
    rcases Nat.lt_or_gt_of_ne hne with hij | hji
    · have := start_add_le hi hij
      omega
    · have := start_add_le hj hji
      omega

end Tenyr.Lib.Packing
