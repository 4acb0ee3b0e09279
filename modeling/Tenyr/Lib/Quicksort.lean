import Mathlib.Data.List.Nodup
import Mathlib.Data.List.Perm.Basic
import Mathlib.Data.Set.Defs
import Mathlib.Logic.Equiv.Basic

/-!
# Quicksort

The variant with one sweep: the pivot goes to the end, what does not come after it goes to the front, and
the pivot goes between. Elements are given by their indices, and all that moves them are exchanges.
-/

namespace Tenyr.Lib.Quicksort

variable {α : Type}

/-- Two elements change places. -/
def exchange (f : ℕ → α) (i j : ℕ) : ℕ → α := fun k ↦ f (Equiv.swap i j k)

/-- Some turns from `j` on, when `m` elements are at the front. -/
def sweep (le : α → α → Bool) (last : ℕ) : ℕ → ℕ → ℕ → (ℕ → α) → ℕ × (ℕ → α)
  | 0, _, m, f => (m, f)
  | turns + 1, j, m, f =>
    if le (f last) (f j) then sweep le last turns (j + 1) m f
    else sweep le last turns (j + 1) (m + 1) (exchange f j m)

/-- Where the pivot is in the end, and what is around it. -/
def partition (le : α → α → Bool) (n : ℕ) (f : ℕ → α) : ℕ × (ℕ → α) :=
  let swept := sweep le (n - 1) (n - 1) 0 0 (exchange f (n / 2) (n - 1))
  (swept.1, exchange swept.2 swept.1 (n - 1))

/-- The first elements, in order. -/
def segment (f : ℕ → α) (n : ℕ) : List α := (List.range n).map f

/-- The elements from some index on. -/
def behind (f : ℕ → α) (k : ℕ) : ℕ → α := fun i ↦ f (k + i)

section

variable {le : α → α → Bool} {f : ℕ → α} {i j k last m n turns : ℕ}

theorem exchange_left : exchange f i j i = f j := by
  rw [exchange, Equiv.swap_apply_left]

theorem exchange_right : exchange f i j j = f i := by
  rw [exchange, Equiv.swap_apply_right]

theorem exchange_of_ne (hi : k ≠ i) (hj : k ≠ j) : exchange f i j k = f k := by
  rw [exchange, Equiv.swap_apply_of_ne_of_ne hi hj]

theorem perm_segment_exchange (hi : i < n) (hj : j < n) :
    (segment (exchange f i j) n).Perm (segment f n) := by
  have hinside : ∀ k ∈ List.range n, Equiv.swap i j k ∈ List.range n := by
    intro k hk
    rw [List.mem_range] at hk ⊢
    rw [Equiv.swap_apply_def]
    split
    · exact hj
    · split
      · exact hi
      · exact hk
  have hswap : ((List.range n).map (Equiv.swap i j)).Perm (List.range n) := by
    rw [List.perm_ext_iff_of_nodup (List.Nodup.map (Equiv.swap i j).injective List.nodup_range)
      List.nodup_range]
    intro k
    rw [List.mem_map]
    constructor
    · rintro ⟨l, hl, rfl⟩
      exact hinside l hl
    · intro hk
      exact ⟨Equiv.swap i j k, hinside k hk, Equiv.swap_apply_self i j k⟩
  have hmap := hswap.map f
  rw [List.map_map] at hmap
  exact hmap

theorem segment_add (f : ℕ → α) (n k : ℕ) : segment f (n + k) = segment f n ++ segment (behind f n) k := by
  rw [segment, List.range_add, List.map_append, List.map_map]
  rfl

/-- Around an element. -/
theorem segment_around (hm : m < n) :
    segment f n = segment f m ++ f m :: segment (behind f (m + 1)) (n - 1 - m) := by
  have hn : n = m + 1 + (n - 1 - m) := by omega
  have hlast : segment f (m + 1) = segment f m ++ [f m] := segment_add f m 1
  conv_lhs => rw [hn, segment_add, hlast]
  exact List.append_assoc _ _ _

/-- What a sweep has done when it gets to `j`. -/
structure Swept (le : α → α → Bool) (last j m : ℕ) (f : ℕ → α) : Prop where
  le_turn : m ≤ j
  front : ∀ k < m, le (f last) (f k) = false
  rest : ∀ k, m ≤ k → k < j → le (f last) (f k) = true

theorem Swept.start (f : ℕ → α) : Swept le last 0 0 f :=
  ⟨Nat.le_refl 0, fun _ hk ↦ absurd hk (Nat.not_lt_zero _), fun _ _ hk ↦ absurd hk (Nat.not_lt_zero _)⟩

theorem Swept.stay (h : Swept le last j m f) (hle : le (f last) (f j) = true) :
    Swept le last (j + 1) m f where
  le_turn := Nat.le_succ_of_le h.le_turn
  front := h.front
  rest k hk hlt := by
    rcases Nat.lt_succ_iff_lt_or_eq.mp hlt with hbefore | rfl
    · exact h.rest k hk hbefore
    · exact hle

theorem Swept.move (h : Swept le last j m f) (hj : j < last) (hle : le (f last) (f j) = false) :
    Swept le last (j + 1) (m + 1) (exchange f j m) := by
  have hm := h.le_turn
  have hlast : exchange f j m last = f last := exchange_of_ne (by omega) (by omega)
  constructor
  · exact Nat.succ_le_succ hm
  · intro k hk
    rw [hlast]
    rcases Nat.lt_succ_iff_lt_or_eq.mp hk with hlt | rfl
    · rw [exchange_of_ne (by omega) (by omega)]
      exact h.front k hlt
    · rw [exchange_right]
      exact hle
  · intro k hk hlt
    rw [hlast]
    rcases Nat.lt_succ_iff_lt_or_eq.mp hlt with hbefore | rfl
    · rw [exchange_of_ne (by omega) (by omega)]
      exact h.rest k (by omega) hbefore
    · rw [exchange_left]
      exact h.rest m (Nat.le_refl m) (by omega)

theorem Swept.sweep (h : Swept le last j m f) (hturns : j + turns = last) :
    Swept le last last (sweep le last turns j m f).1 (sweep le last turns j m f).2 := by
  induction turns generalizing j m f with
  | zero =>
    obtain rfl : j = last := hturns
    exact h
  | succ turns ih =>
    rw [Quicksort.sweep]
    split
    · rename_i hle
      exact ih (h.stay hle) (by omega)
    · rename_i hle
      exact ih (h.move (by omega) (eq_false_of_ne_true hle)) (by omega)

theorem perm_segment_sweep (h : m ≤ j) (hturns : j + turns ≤ n) :
    (segment (sweep le last turns j m f).2 n).Perm (segment f n) := by
  induction turns generalizing j m f with
  | zero => exact .refl _
  | succ turns ih =>
    rw [sweep]
    split
    · exact ih (Nat.le_succ_of_le h) (by omega)
    · exact (ih (Nat.succ_le_succ h) (by omega)).trans (perm_segment_exchange (by omega) (by omega))

theorem swept_partition (le : α → α → Bool) (n : ℕ) (f : ℕ → α) :
    Swept le (n - 1) (n - 1) (partition le n f).1
      (sweep le (n - 1) (n - 1) 0 0 (exchange f (n / 2) (n - 1))).2 :=
  (Swept.start _).sweep (Nat.zero_add _)

theorem partition_lt (le : α → α → Bool) (f : ℕ → α) (hn : 0 < n) : (partition le n f).1 < n := by
  have hle := (swept_partition le n f).le_turn
  omega

theorem partition_front (hk : k < (partition le n f).1) :
    le ((partition le n f).2 (partition le n f).1) ((partition le n f).2 k) = false := by
  have hswept := swept_partition le n f
  have hle := hswept.le_turn
  have hpivot : (partition le n f).2 (partition le n f).1 = _ := exchange_left
  have hother : (partition le n f).2 k = _ := exchange_of_ne (Nat.ne_of_lt hk) (by omega)
  rw [hpivot, hother]
  exact hswept.front k hk

theorem partition_rest (hk : (partition le n f).1 < k) (hkn : k < n) :
    le ((partition le n f).2 (partition le n f).1) ((partition le n f).2 k) = true := by
  have hswept := swept_partition le n f
  have hpivot : (partition le n f).2 (partition le n f).1 = _ := exchange_left
  rw [hpivot]
  by_cases hlast : k = n - 1
  · obtain rfl := hlast
    have hother : (partition le n f).2 (n - 1) = _ := exchange_right
    rw [hother]
    exact hswept.rest _ (Nat.le_refl _) hk
  · have hother : (partition le n f).2 k = _ := exchange_of_ne (Nat.ne_of_gt hk) hlast
    rw [hother]
    exact hswept.rest k (Nat.le_of_lt hk) (by omega)

theorem perm_segment_partition (le : α → α → Bool) (f : ℕ → α) (hn : 0 < n) :
    (segment (partition le n f).2 n).Perm (segment f n) := by
  have hm := partition_lt le f hn
  calc
    (segment (partition le n f).2 n).Perm
        (segment (sweep le (n - 1) (n - 1) 0 0 (exchange f (n / 2) (n - 1))).2 n) :=
      perm_segment_exchange hm (by omega)
    (segment (sweep le (n - 1) (n - 1) 0 0 (exchange f (n / 2) (n - 1))).2 n).Perm
        (segment (exchange f (n / 2) (n - 1)) n) := perm_segment_sweep (Nat.le_refl 0) (by omega)
    (segment (exchange f (n / 2) (n - 1)) n).Perm (segment f n) :=
      perm_segment_exchange (by omega) (by omega)

end

/-- The first elements, sorted. -/
def quicksort (le : α → α → Bool) (n : ℕ) (f : ℕ → α) : List α :=
  if h : n < 2 then segment f n
  else
    let parted := partition le n f
    have hlt : parted.1 < n := partition_lt le f (by omega)
    quicksort le parted.1 parted.2 ++
      parted.2 parted.1 :: quicksort le (n - 1 - parted.1) (behind parted.2 (parted.1 + 1))
termination_by n
decreasing_by all_goals omega

/-- How many calls are inside one another. -/
def nesting (le : α → α → Bool) (n : ℕ) (f : ℕ → α) : ℕ :=
  if h : n < 2 then 0
  else
    let parted := partition le n f
    have hlt : parted.1 < n := partition_lt le f (by omega)
    1 + max (nesting le parted.1 parted.2) (nesting le (n - 1 - parted.1) (behind parted.2 (parted.1 + 1)))
termination_by n
decreasing_by all_goals omega

variable {le : α → α → Bool} {f : ℕ → α} {n : ℕ}

theorem quicksort_of_lt (hn : n < 2) : quicksort le n f = segment f n := by
  rw [quicksort, dif_pos hn]

theorem quicksort_of_ge (hn : 2 ≤ n) : quicksort le n f =
    quicksort le (partition le n f).1 (partition le n f).2 ++ (partition le n f).2 (partition le n f).1 ::
      quicksort le (n - 1 - (partition le n f).1)
        (behind (partition le n f).2 ((partition le n f).1 + 1)) := by
  rw [quicksort, dif_neg (Nat.not_lt.mpr hn)]

theorem nesting_of_ge (hn : 2 ≤ n) : nesting le n f =
    1 + max (nesting le (partition le n f).1 (partition le n f).2) (nesting le (n - 1 - (partition le n f).1)
      (behind (partition le n f).2 ((partition le n f).1 + 1))) := by
  rw [nesting, dif_neg (Nat.not_lt.mpr hn)]

theorem nesting_of_lt (hn : n < 2) : nesting le n f = 0 := by
  rw [nesting, dif_pos hn]

theorem nesting_le (le : α → α → Bool) (n : ℕ) (f : ℕ → α) : nesting le n f ≤ n := by
  induction n using Nat.strongRecOn generalizing f with
  | ind n ih =>
    rcases Nat.lt_or_ge n 2 with hlt | hge
    · rw [nesting_of_lt hlt]
      exact Nat.zero_le n
    · have hm := partition_lt le f (Nat.lt_of_lt_of_le Nat.two_pos hge)
      have hleft := ih _ hm (partition le n f).2
      have hright := ih (n - 1 - (partition le n f).1) (by omega)
        (behind (partition le n f).2 ((partition le n f).1 + 1))
      rw [nesting_of_ge hge]
      omega

theorem perm_quicksort (le : α → α → Bool) (n : ℕ) (f : ℕ → α) :
    (quicksort le n f).Perm (segment f n) := by
  induction n using Nat.strongRecOn generalizing f with
  | ind n ih =>
    rcases Nat.lt_or_ge n 2 with hlt | hge
    · rw [quicksort_of_lt hlt]
    · have hpos : 0 < n := Nat.lt_of_lt_of_le Nat.two_pos hge
      have hm := partition_lt le f hpos
      have hleft := ih _ hm (partition le n f).2
      have hright := ih (n - 1 - (partition le n f).1) (by omega)
        (behind (partition le n f).2 ((partition le n f).1 + 1))
      rw [quicksort_of_ge hge]
      apply (hleft.append (hright.cons _)).trans
      rw [← segment_around hm]
      exact perm_segment_partition le f hpos

theorem mem_segment {a : α} : a ∈ segment f n ↔ ∃ k < n, f k = a := by
  simp [segment]

/-- What moves is what was there. -/
theorem mem_of_perm_segment {values : Set α} {g : ℕ → α} (h : (segment g n).Perm (segment f n))
    (hf : ∀ k < n, f k ∈ values) : ∀ k < n, g k ∈ values := by
  intro k hk
  obtain ⟨j, hj, heq⟩ := mem_segment.mp (h.mem_iff.mp (mem_segment.mpr ⟨k, hk, rfl⟩))
  exact heq ▸ hf j hj

/-- With a total preorder on the elements the result is sorted. -/
theorem pairwise_quicksort {values : Set α}
    (htotal : ∀ a ∈ values, ∀ b ∈ values, le a b = true ∨ le b a = true)
    (htrans : ∀ a ∈ values, ∀ b ∈ values, ∀ c ∈ values, le a b = true → le b c = true → le a c = true)
    (hf : ∀ k < n, f k ∈ values) : (quicksort le n f).Pairwise fun a b ↦ le a b = true := by
  induction n using Nat.strongRecOn generalizing f with
  | ind n ih =>
    rcases Nat.lt_or_ge n 2 with hlt | hge
    · rw [quicksort_of_lt hlt]
      match n, hlt with
      | 0, _ => exact .nil
      | 1, _ => exact List.pairwise_singleton _ _
    · have hpos : 0 < n := Nat.lt_of_lt_of_le Nat.two_pos hge
      have hm := partition_lt le f hpos
      have hparted := mem_of_perm_segment (perm_segment_partition le f hpos) hf
      have hfirst : ∀ a ∈ quicksort le (partition le n f).1 (partition le n f).2, a ∈ values ∧
          le a ((partition le n f).2 (partition le n f).1) = true := by
        intro a ha
        obtain ⟨k, hk, rfl⟩ := mem_segment.mp ((perm_quicksort le _ _).mem_iff.mp ha)
        have hvalue := hparted k (Nat.lt_trans hk hm)
        refine ⟨hvalue, (htotal _ hvalue _ (hparted _ hm)).resolve_right ?_⟩
        rw [partition_front hk]
        exact Bool.false_ne_true
      have hlast : ∀ a ∈ quicksort le (n - 1 - (partition le n f).1)
          (behind (partition le n f).2 ((partition le n f).1 + 1)), a ∈ values ∧
          le ((partition le n f).2 (partition le n f).1) a = true := by
        intro a ha
        obtain ⟨k, hk, rfl⟩ := mem_segment.mp ((perm_quicksort le _ _).mem_iff.mp ha)
        exact ⟨hparted _ (by omega), partition_rest (by omega) (by omega)⟩
      rw [quicksort_of_ge hge, List.pairwise_append]
      refine ⟨ih _ hm fun k hk ↦ hparted k (Nat.lt_trans hk hm), List.pairwise_cons.mpr ⟨?_, ?_⟩, ?_⟩
      · exact fun a ha ↦ (hlast a ha).2
      · exact ih _ (by omega) fun k hk ↦ hparted _ (by omega)
      · intro a ha b hb
        obtain ⟨hvalue, hle⟩ := hfirst a ha
        rcases List.mem_cons.mp hb with rfl | hb
        · exact hle
        · obtain ⟨hvalue', hle'⟩ := hlast b hb
          exact htrans _ hvalue _ (hparted _ hm) _ hvalue' hle hle'

end Tenyr.Lib.Quicksort
