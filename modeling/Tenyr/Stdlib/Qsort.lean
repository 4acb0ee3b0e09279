import Tenyr.Lib.Quicksort
import Tenyr.Lib.Words
import Tenyr.Stdlib.Inteq
import Tenyr.Stdlib.Memcpy

/-!
# Sorting

`qsort` partitions with a sweep and calls itself for both sides. Elements change places through a copy
that `do_swap` makes on the stack.
-/

namespace Tenyr.Stdlib

open Isa Sim Lib.Words Lib.Quicksort

inductive QsortLabel where
  | doSwap | qsort | partition | noswap | partitionDone | done | memcpy
  deriving DecidableEq, Repr

/-- `elem(Dest, Base, Index)` -/
def elem {L : Type} (dest base index : Reg) : List (Line L) := [
  .insn (.assign dest (.regReg .e .multiply index)),
  .insn (.assign dest (.regReg dest .add base))]

/-- `swap(i0, i1)` -/
def swap (i0 i1 : Reg) : List (Line QsortLabel) :=
  pushall [.c, .d, .e, .f] ++ ([
  .insn (.assign .f (.reg i0)),
  .insn (.assign .g (.reg i1)),
  .call .doSwap] ++
  popall [.c, .d, .e, .f])

def recursiveCases : List (Line QsortLabel) := [
  .insn (.assign .h (.reg .m)),
  .insn (.assign .m (.reg .c)),
  .insn (.assign .j (.reg .e)),
  .insn (.assign .k (.reg .f)),
  .insn (.assign .d (.reg .h)),
  .call .qsort,
  .insn (.assign .c (.reg .m)),
  .insn (.assign .d (.regReg .i .subtract .h)),
  .insn (.assign .e (.reg .j)),
  .insn (.assign .f (.reg .k)),
  .insn (.assign .h (.regImm .h .add 1#12))] ++ elem .k .c .h ++ [
  .insn (.assign .c (.reg .k)),
  .call .qsort]

def qsortLines : QsortLabel → List (Line QsortLabel)
  | .doSwap => [
      .insn (.assign .l (.reg .c)),
      .insn (.assign .k (.reg .e)),
      .insn (.assign .o (.regReg .o .subtract .e)),
      .insn (.assign .c (.regImm .o .add 1#12))] ++ elem .d .l .f ++ [
      .call .memcpy] ++ elem .c .l .f ++ elem .d .l .g ++ [
      .insn (.assign .e (.reg .k)),
      .call .memcpy] ++ elem .c .l .g ++ [
      .insn (.assign .d (.regImm .o .add 1#12)),
      .insn (.assign .e (.reg .k)),
      .call .memcpy,
      .insn (.assign .o (.regReg .o .add .k))] ++ ret
  | .qsort => pushall [.g, .h, .i, .j, .k, .l, .m] ++ ([
      .insn (.assign .h (.regImm .d .compareLt 2#12)),
      .jnzrel .h .done,
      .insn (.assign .h (.regImm .d .shiftRightArith 1#12)),
      .insn (.assign .i (.regImm .d .add (-1#12)))] ++ (swap .h .i ++ [
      .insn (.assign .m (.imm 0#12)),
      .insn (.assign .j (.imm 0#12))]))
  | .partition => [
      .insn (.assign .k (.regReg .j .compareLt .i)),
      .jzrel .k .partitionDone] ++ (pushall [.c] ++ (elem .k .c .j ++ elem .d .c .i ++ [
      .insn (.assign .c (.reg .k)),
      .callr .f] ++ popall [.c] ++ [
      .insn (.assign .k (.regImm .b .compareLt 0#12)),
      .jzrel .k .noswap] ++ (swap .j .m ++ [
      .insn (.assign .m (.regImm .m .add 1#12))])))
  | .noswap => [
      .insn (.assign .j (.regImm .j .add 1#12)),
      .goto .partition]
  | .partitionDone => swap .m .i ++ recursiveCases
  | .done => popall [.g, .h, .i, .j, .k, .l, .m] ++ ret
  | .memcpy => []

def qsort : Code QsortLabel where
  labels := [.doSwap, .qsort, .partition, .noswap, .partitionDone, .done]
  lines := qsortLines

/-! ## Exchanged blocks -/

/-- Memory with two blocks exchanged. -/
def swapped (mem : Word → Word) (x y : Word) (size : ℕ) : Word → Word := fun a ↦
  if (a - y).toNat < size then mem (x + (a - y))
  else if (a - x).toNat < size then mem (y + (a - x)) else mem a

section

variable {x y o : Word} {size : ℕ}

theorem add_mem_block {a : Word} (ha : a ∈ block x size) : y + (a - x) ∈ block y size := by
  change (y + (a - x) - y).toNat < size
  rw [add_sub_cancel_left]
  exact ha

/-- Blocks that do not overlap, or are the same, are copied as they were. -/
theorem ahead_of_disjoint {dst src : Word} (h : src = dst ∨ Disjoint (block src size) (block dst size))
    (hsize : size < 2 ^ 32) (t : ℕ) (ht : t < size) : t ≤ (src + BitVec.ofNat 32 t - dst).toNat := by
  have hoffset : (src + BitVec.ofNat 32 t - src).toNat = t := by
    rw [add_sub_cancel_left, BitVec.toNat_ofNat]
    exact Nat.mod_eq_of_lt (by omega)
  rcases h with rfl | h
  · exact Nat.le_of_eq hoffset.symm
  · have hin : src + BitVec.ofNat 32 t ∈ block src size := by
      change (src + BitVec.ofNat 32 t - src).toNat < size
      rw [hoffset]
      exact ht
    have hout : ¬ (src + BitVec.ofNat 32 t - dst).toNat < size := Set.disjoint_left.mp h hin
    omega

/-- Three copies, the first one to a place of its own. -/
theorem eqOn_swapped {mem mem₁ mem₂ mem₃ : Word → Word} {tmp : Word} {away : Set Word}
    (h₁ : Set.EqOn mem₁ (copied mem tmp x size) awayᶜ) (h₂ : Set.EqOn mem₂ (copied mem₁ x y size) awayᶜ)
    (h₃ : Set.EqOn mem₃ (copied mem₂ y tmp size) awayᶜ) (htmp : Disjoint away (block tmp size))
    (hx : Disjoint (away ∪ block tmp size) (block x size))
    (hy : Disjoint (away ∪ block tmp size) (block y size)) :
    Set.EqOn mem₃ (swapped mem x y size) (away ∪ block tmp size)ᶜ := by
  have hkept : ∀ a, a ∉ away → a ∉ block tmp size → mem₁ a = mem a := by
    intro a haway ha
    rw [h₁ haway, copied_of_notMem ha]
  intro a ha
  rw [Set.mem_compl_iff, Set.mem_union, not_or] at ha
  rw [h₃ ha.1]
  by_cases hay : a ∈ block y size
  · have hcell : tmp + (a - y) ∈ block tmp size := add_mem_block hay
    have hcellAway : tmp + (a - y) ∉ away := Set.disjoint_right.mp htmp hcell
    have hcellX : tmp + (a - y) ∉ block x size := Set.disjoint_left.mp hx (.inr hcell)
    have hoffset : tmp + (a - y) - tmp = a - y := add_sub_cancel_left _ _
    rw [copied_of_mem hay, h₂ hcellAway, copied_of_notMem hcellX, h₁ hcellAway, copied_of_mem hcell, hoffset]
    exact (if_pos hay).symm
  · rw [copied_of_notMem hay, h₂ ha.1]
    by_cases hax : a ∈ block x size
    · have hcell := Set.disjoint_right.mp hy (add_mem_block (y := y) hax)
      rw [Set.mem_union, not_or] at hcell
      rw [copied_of_mem hax, hkept _ hcell.1 hcell.2]
      exact ((if_neg hay).trans (if_pos hax)).symm
    · rw [copied_of_notMem hax, hkept a ha.1 ha.2]
      exact ((if_neg hay).trans (if_neg hax)).symm

/-- The cells below the temporary element are not its cells. -/
theorem disjoint_below {e : Word} (hsize : e.toNat + 3 < 2 ^ 32) :
    Disjoint (stack (o - e) 3) (block (o - e + 1#32) e.toNat) := by
  rw [Set.disjoint_left]
  intro a ha hin
  have hbelow : (o - e - a).toNat < 3 := ha
  have habove : (a - (o - e + 1#32)).toNat < e.toNat := hin
  generalize o - e = p at hbelow habove
  bv_omega

theorem next_notMem_stack (hsize : size < 2 ^ 32) : o + 1#32 ∉ stack o size := by
  intro hin
  have hdistance : (o - (o + 1#32)).toNat < size := hin
  bv_omega

theorem below_union_subset {e : Word} :
    stack (o - e) 3 ∪ block (o - e + 1#32) e.toNat ⊆ stack o (e.toNat + 3) := by
  apply Set.union_subset
  · exact stack_sub_subset (Nat.le_refl _)
  · intro a ha
    have habove : (a - (o - e + 1#32)).toNat < e.toNat := ha
    change (o - a).toNat < e.toNat + 3
    bv_omega

end

/-! ## Arrays -/

/-- The words of a block. -/
def contents (mem : Word → Word) (base : Word) (size : ℕ) : Fin size → Word :=
  fun k ↦ mem (base + BitVec.ofNat 32 k)

/-- Where `elem` finds an element. -/
def elemAddr (size base : Word) (i : ℕ) : Word := size * BitVec.ofNat 32 i + base

def element (mem : Word → Word) (size base : Word) (i : ℕ) : Fin size.toNat → Word :=
  contents mem (elemAddr size base i) size.toNat

/-- An array and a stack, with a return address, that do not overlap. -/
structure Room (S : Setting) (size base o : Word) (n need : ℕ) : Prop where
  array : block base (n * size.toNat) ⊆ S.writable
  stack : Stdlib.stack o need ⊆ S.writable
  apart : Disjoint (Stdlib.stack (o + 1#32) (need + 1)) (block base (n * size.toNat))

section

variable {mem mem' : Word → Word} {base size : Word} {p q s s' i j k n m : ℕ}

theorem block_add_subset (h : p + s ≤ q) (hq : q < 2 ^ 32) :
    block (base + BitVec.ofNat 32 p) s ⊆ block base q := by
  intro a ha
  have hoffset : (a - (base + BitVec.ofNat 32 p)).toNat < s := ha
  change (a - base).toNat < q
  rw [← sub_sub, BitVec.toNat_sub, BitVec.toNat_ofNat] at hoffset
  have hlt := (a - base).isLt
  omega

theorem disjoint_block_add (h : p + s ≤ q) (hq : q + s' < 2 ^ 32) :
    Disjoint (block (base + BitVec.ofNat 32 p) s) (block (base + BitVec.ofNat 32 q) s') := by
  rw [Set.disjoint_left]
  intro a ha ha'
  have hp : (a - (base + BitVec.ofNat 32 p)).toNat < s := ha
  have hq' : (a - (base + BitVec.ofNat 32 q)).toNat < s' := ha'
  rw [← sub_sub, BitVec.toNat_sub, BitVec.toNat_ofNat] at hp hq'
  have hlt := (a - base).isLt
  omega

theorem elemAddr_eq (size base : Word) (i : ℕ) :
    elemAddr size base i = base + BitVec.ofNat 32 (i * size.toNat) := by
  rw [elemAddr, BitVec.ofNat_mul, BitVec.ofNat_toNat, BitVec.setWidth_eq, mul_comm]
  exact add_comm _ _

theorem elemAddr_zero (size base : Word) : elemAddr size base 0 = base := by
  rw [elemAddr, BitVec.mul_zero, BitVec.zero_add]

theorem elemAddr_add (size base : Word) (i j : ℕ) :
    elemAddr size (elemAddr size base i) j = elemAddr size base (i + j) := by
  rw [elemAddr_eq, elemAddr_eq, elemAddr_eq, Nat.add_mul, BitVec.ofNat_add, BitVec.add_assoc]

theorem elements_subset (h : i + m ≤ n) (hn : n * size.toNat < 2 ^ 32) :
    block (elemAddr size base i) (m * size.toNat) ⊆ block base (n * size.toNat) := by
  rw [elemAddr_eq]
  apply block_add_subset _ hn
  rw [← Nat.add_mul]
  exact Nat.mul_le_mul_right _ h

theorem elements_subset_first (h : m ≤ n) (hn : n * size.toNat < 2 ^ 32) :
    block base (m * size.toNat) ⊆ block base (n * size.toNat) := by
  have hpart : block (elemAddr size base 0) (m * size.toNat) ⊆ block base (n * size.toNat) :=
    elements_subset ((Nat.zero_add m).trans_le h) hn
  rwa [elemAddr_zero] at hpart

theorem element_subset (hi : i < n) (hn : n * size.toNat < 2 ^ 32) :
    block (elemAddr size base i) size.toNat ⊆ block base (n * size.toNat) := by
  have hone : block (elemAddr size base i) (1 * size.toNat) ⊆ block base (n * size.toNat) :=
    elements_subset hi hn
  rwa [Nat.one_mul] at hone

theorem disjoint_parts {m' : ℕ} (hij : i + m ≤ j) (hj : j + m' ≤ n) (hn : n * size.toNat < 2 ^ 32) :
    Disjoint (block (elemAddr size base i) (m * size.toNat))
      (block (elemAddr size base j) (m' * size.toNat)) := by
  rw [elemAddr_eq, elemAddr_eq]
  have hi : (i + m) * size.toNat ≤ j * size.toNat := Nat.mul_le_mul_right _ hij
  have hj' : (j + m') * size.toNat ≤ n * size.toNat := Nat.mul_le_mul_right _ hj
  rw [Nat.add_mul] at hi hj'
  exact disjoint_block_add hi (Nat.lt_of_le_of_lt hj' hn)

theorem disjoint_elements (hij : i < j) (hj : j < n) (hn : n * size.toNat < 2 ^ 32) :
    Disjoint (block (elemAddr size base i) size.toNat) (block (elemAddr size base j) size.toNat) := by
  have hones : Disjoint (block (elemAddr size base i) (1 * size.toNat))
      (block (elemAddr size base j) (1 * size.toNat)) := disjoint_parts hij hj hn
  rwa [Nat.one_mul] at hones

theorem disjoint_elements_of_ne (hij : i ≠ j) (hi : i < n) (hj : j < n) (hn : n * size.toNat < 2 ^ 32) :
    Disjoint (block (elemAddr size base i) size.toNat) (block (elemAddr size base j) size.toNat) := by
  rcases Nat.lt_or_gt_of_ne hij with hlt | hgt
  · exact disjoint_elements hlt hj hn
  · exact (disjoint_elements hgt hi hn).symm

theorem contents_eq {x y : Word} (h : ∀ a ∈ block x s, mem a = mem' (y + (a - x))) (hs : s < 2 ^ 32) :
    contents mem x s = contents mem' y s := by
  funext k
  have hoffset : x + BitVec.ofNat 32 k - x = BitVec.ofNat 32 k := add_sub_cancel_left _ _
  rw [contents, h, hoffset, contents]
  change (x + BitVec.ofNat 32 k - x).toNat < s
  rw [hoffset, BitVec.toNat_ofNat, Nat.mod_eq_of_lt (by omega)]
  exact k.isLt

theorem contents_congr {x : Word} (h : Set.EqOn mem mem' (block x s)) (hs : s < 2 ^ 32) :
    contents mem x s = contents mem' x s := by
  apply contents_eq _ hs
  intro a ha
  have hback : x + (a - x) = a := add_sub_cancel x a
  rw [hback, h ha]

theorem element_congr (h : Set.EqOn mem mem' (block base (n * size.toNat))) (hn : n * size.toNat < 2 ^ 32)
    (hk : k < n) : element mem size base k = element mem' size base k :=
  contents_congr (h.mono (element_subset hk hn)) size.isLt

theorem element_behind (mem : Word → Word) (size base : Word) (i : ℕ) :
    element mem size (elemAddr size base i) = behind (element mem size base) i := by
  funext t
  rw [element, elemAddr_add]
  rfl

/-- Elements outside a part that has changed. -/
theorem element_outside {away : Set Word} {t : ℕ}
    (h : Set.EqOn mem' mem (block (elemAddr size base i) (m * size.toNat) ∪ away)ᶜ)
    (haway : block base (n * size.toNat) ⊆ awayᶜ) (hi : i + m ≤ n) (hn : n * size.toNat < 2 ^ 32) (ht : t < n)
    (hout : t < i ∨ i + m ≤ t) : element mem' size base t = element mem size base t := by
  have hapart : Disjoint (block (elemAddr size base i) (m * size.toNat))
      (block (elemAddr size base t) (1 * size.toNat)) := by
    rcases hout with hbefore | hbehind
    · exact (disjoint_parts hbefore hi hn).symm
    · exact disjoint_parts hbehind ht hn
  rw [Nat.one_mul] at hapart
  apply contents_congr _ size.isLt
  intro a ha
  apply h
  rw [Set.mem_compl_iff, Set.mem_union, not_or]
  exact ⟨Set.disjoint_right.mp hapart ha, haway (element_subset ht hn ha)⟩

theorem segment_congr {α : Type} {f g : ℕ → α} (h : ∀ t < n, f t = g t) : segment f n = segment g n :=
  List.map_congr_left fun t ht ↦ h t (List.mem_range.mp ht)

theorem element_outside_first {away : Set Word} {t : ℕ}
    (h : Set.EqOn mem' mem (block base (m * size.toNat) ∪ away)ᶜ)
    (haway : block base (n * size.toNat) ⊆ awayᶜ) (hm : m ≤ n) (hn : n * size.toNat < 2 ^ 32) (ht : t < n)
    (hout : m ≤ t) : element mem' size base t = element mem size base t := by
  have hzero : elemAddr size base 0 = base := elemAddr_zero size base
  have hpart : Set.EqOn mem' mem (block (elemAddr size base 0) (m * size.toNat) ∪ away)ᶜ := by
    rw [hzero]
    exact h
  exact element_outside hpart haway (by omega) hn ht (.inr (by omega))

/-- The elements before some element, then those behind it, have been put into order. -/
theorem segment_sides {mem₁ mem₂ mem₃ : Word → Word} {away : Set Word} {left right : List (Fin size.toNat → Word)}
    (haway : block base (n * size.toNat) ⊆ awayᶜ) (hm : m < n) (hn : n * size.toNat < 2 ^ 32)
    (h₂ : Set.EqOn mem₂ mem₁ (block base (m * size.toNat) ∪ away)ᶜ)
    (h₃ : Set.EqOn mem₃ mem₂ (block (elemAddr size base (m + 1)) ((n - 1 - m) * size.toNat) ∪ away)ᶜ)
    (hleft : segment (element mem₂ size base) m = left)
    (hright : segment (element mem₃ size (elemAddr size base (m + 1))) (n - 1 - m) = right) :
    segment (element mem₃ size base) n = left ++ element mem₁ size base m :: right := by
  have hkept : ∀ t < m + 1, element mem₃ size base t = element mem₂ size base t :=
    fun t ht ↦ element_outside h₃ haway (by omega) hn (by omega) (.inl ht)
  have hmiddle : element mem₃ size base m = element mem₁ size base m :=
    (hkept m (Nat.lt_succ_self m)).trans (element_outside_first h₂ haway hm.le hn hm (Nat.le_refl m))
  have hfirst : segment (element mem₃ size base) m = left :=
    (segment_congr fun t ht ↦ hkept t (Nat.lt_succ_of_lt ht)).trans hleft
  rw [element_behind] at hright
  rw [segment_around hm, hfirst, hmiddle, hright]

/-- Exchanged blocks are exchanged elements. -/
theorem element_swapped (hi : i < n) (hj : j < n) (hn : n * size.toNat < 2 ^ 32)
    (h : Set.EqOn mem' (swapped mem (elemAddr size base i) (elemAddr size base j) size.toNat)
      (block base (n * size.toNat))) (hk : k < n) :
    element mem' size base k = exchange (element mem size base) i j k := by
  have hinside : block (elemAddr size base k) size.toNat ⊆ block base (n * size.toNat) :=
    element_subset hk hn
  by_cases hkj : k = j
  · obtain rfl := hkj
    rw [exchange_right]
    apply contents_eq _ size.isLt
    intro a ha
    rw [h (hinside ha)]
    exact if_pos ha
  · have hnotJ : ∀ a ∈ block (elemAddr size base k) size.toNat, a ∉ block (elemAddr size base j) size.toNat :=
      fun a ha ↦ Set.disjoint_left.mp (disjoint_elements_of_ne hkj hk hj hn) ha
    by_cases hki : k = i
    · obtain rfl := hki
      rw [exchange_left]
      apply contents_eq _ size.isLt
      intro a ha
      rw [h (hinside ha)]
      exact (if_neg (hnotJ a ha)).trans (if_pos ha)
    · rw [exchange_of_ne hki hkj]
      apply contents_congr _ size.isLt
      intro a ha
      have hnotI := Set.disjoint_left.mp (disjoint_elements_of_ne hki hk hi hn) ha
      rw [h (hinside ha)]
      exact (if_neg (hnotJ a ha)).trans (if_neg hnotI)

/-- Only the array changes when two of its elements are exchanged. -/
theorem eqOn_swapped_array (hi : i < n) (hj : j < n) (hn : n * size.toNat < 2 ^ 32) :
    Set.EqOn (swapped mem (elemAddr size base i) (elemAddr size base j) size.toNat) mem
      (block base (n * size.toNat))ᶜ := by
  intro a ha
  have hnotJ : ¬ (a - elemAddr size base j).toNat < size.toNat := fun hin ↦ ha (element_subset hj hn hin)
  have hnotI : ¬ (a - elemAddr size base i).toNat < size.toNat := fun hin ↦ ha (element_subset hi hn hin)
  exact (if_neg hnotJ).trans (if_neg hnotI)

/-- Both sides of an element have changed, and nothing else. -/
theorem eqOn_sides {mem₁ mem₂ mem₃ : Word → Word} {away : Set Word} (hm : m < n)
    (hn : n * size.toNat < 2 ^ 32) (h₂ : Set.EqOn mem₂ mem₁ (block base (m * size.toNat) ∪ away)ᶜ)
    (h₃ : Set.EqOn mem₃ mem₂ (block (elemAddr size base (m + 1)) ((n - 1 - m) * size.toNat) ∪ away)ᶜ) :
    Set.EqOn mem₃ mem₁ (block base (n * size.toNat) ∪ away)ᶜ := by
  have hfirst : block base (m * size.toNat) ⊆ block base (n * size.toNat) := elements_subset_first hm.le hn
  have hbehind : block (elemAddr size base (m + 1)) ((n - 1 - m) * size.toNat) ⊆ block base (n * size.toNat) :=
    elements_subset (by omega) hn
  apply (h₃.mono (Set.compl_subset_compl.mpr (Set.union_subset_union_left _ hbehind))).trans
  exact h₂.mono (Set.compl_subset_compl.mpr (Set.union_subset_union_left _ hfirst))

theorem exchange_congr {α : Type} {f g : ℕ → α} (hi : i < n) (hj : j < n) (h : ∀ k < n, f k = g k) (hk : k < n) :
    exchange f i j k = exchange g i j k := by
  apply h
  rw [Equiv.swap_apply_def]
  split
  · exact hj
  · split
    · exact hi
    · exact hk

end

section

variable {S : Setting} {Q : Cpu → Prop} {far : QsortLabel → ℤ} {start : Word} {cpu : Cpu}
  {far' : MemcpyLabel → ℤ} {start' : Word}

/-- `memcpy` is called, with blocks that are not on its stack. -/
theorem wp_memcpy (h' : Placed S memcpy far' start') {addr : QsortLabel → Word} {next : Word}
    {lines : List (Line QsortLabel)} (haddr : addr .memcpy = start')
    (hstack : stack cpu.o 3 ⊆ S.writable) (hdst : block cpu.c cpu.e.toNat ⊆ S.writable)
    (hdstApart : Disjoint (stack cpu.o 3) (block cpu.c cpu.e.toNat))
    (hsrcApart : Disjoint (stack cpu.o 3) (block cpu.d cpu.e.toNat))
    (hahead : ∀ t < cpu.e.toNat, t ≤ (cpu.d + BitVec.ofNat 32 t - cpu.c).toNat)
    (hQ : ∀ b mem p, Set.EqOn mem (copied cpu.mem cpu.c cpu.d cpu.e.toNat) (stack cpu.o 3)ᶜ →
      Wp S addr next Q lines { cpu with b, mem, p }) :
    Wp S addr next Q (.call .memcpy :: lines) cpu := by
  have hback : cpu.o - 1#32 + 1#32 = cpu.o := sub_add_cancel _ _
  refine ⟨hstack (top_mem_stack _ (by decide)), ?_⟩
  apply memcpy_run h'
  · exact haddr
  · exact (stack_sub_subset (by decide)).trans hstack
  · exact hdst
  · change Disjoint (stack (cpu.o - 1#32 + 1#32) 3) (block cpu.c cpu.e.toNat)
    rw [hback]
    exact hdstApart
  · exact hahead
  · apply Setting.Leads.here
    refine ⟨?_, ?_⟩
    · change Function.update cpu.mem cpu.o (cpu.p + 3#32) (cpu.o - 1#32 + 1#32) = _
      rw [hback, Function.update_self]
    · have hbelow : Set.EqOn (saved (Function.update cpu.mem cpu.o (cpu.p + 3#32)) (cpu.o - 1#32)
          [cpu.f, cpu.g]) cpu.mem (stack cpu.o 3)ᶜ := by
        intro a ha
        rw [saved_of_notMem fun hin ↦ ha (stack_sub_subset (Nat.le_refl 3) hin)]
        apply Function.update_of_ne
        rintro rfl
        exact ha (top_mem_stack _ (by decide))
      have hcopied : Set.EqOn (copied (saved (Function.update cpu.mem cpu.o (cpu.p + 3#32)) (cpu.o - 1#32)
          [cpu.f, cpu.g]) cpu.c cpu.d cpu.e.toNat) (copied cpu.mem cpu.c cpu.d cpu.e.toNat)
          (stack cpu.o 3)ᶜ := by
        intro a ha
        by_cases hin : a ∈ block cpu.c cpu.e.toNat
        · rw [copied_of_mem hin, copied_of_mem hin]
          apply hbelow
          exact Set.disjoint_right.mp hsrcApart (add_mem_block hin)
        · rw [copied_of_notMem hin, copied_of_notMem hin]
          exact hbelow ha
      have hrun := hQ cpu.c _ ((cpu.called start').mem (cpu.o - 1#32 + 1#32)) hcopied
      simpa [Cpu.called, hback] using hrun

/-- `do_swap` exchanges two elements that are not on its stack. -/
theorem doSwap_run (h : Placed S qsort far start) (h' : Placed S memcpy far' start')
    (haddr : qsort.addr far start .memcpy = start') {x y : Word} (hp : cpu.p = qsort.addr far start .doSwap)
    (hx : cpu.e * cpu.f + cpu.c = x) (hy : cpu.e * cpu.g + cpu.c = y)
    (hstack : stack cpu.o (cpu.e.toNat + 3) ⊆ S.writable) (hxIn : block x cpu.e.toNat ⊆ S.writable)
    (hyIn : block y cpu.e.toNat ⊆ S.writable)
    (hxApart : Disjoint (stack (cpu.o + 1#32) (cpu.e.toNat + 4)) (block x cpu.e.toNat))
    (hyApart : Disjoint (stack (cpu.o + 1#32) (cpu.e.toNat + 4)) (block y cpu.e.toNat))
    (hxy : x = y ∨ Disjoint (block x cpu.e.toNat) (block y cpu.e.toNat))
    (hQ : ∀ b c d k l mem, Set.EqOn mem (swapped cpu.mem x y cpu.e.toNat) (stack cpu.o (cpu.e.toNat + 3))ᶜ →
      S.Leads Q { cpu with b, c, d, k, l, mem, o := cpu.o + 1#32, p := cpu.mem (cpu.o + 1#32) }) :
    S.Leads Q cpu := by
  have hsize : cpu.e.toNat + 3 < 2 ^ 32 := Setting.stack_lt (h.holds 0 _ rfl) hstack
  have hsub := below_union_subset (o := cpu.o) (e := cpu.e)
  have hbelow : stack (cpu.o - cpu.e) 3 ⊆ S.writable := (Set.subset_union_left.trans hsub).trans hstack
  have htmp : Disjoint (stack (cpu.o - cpu.e) 3) (block (cpu.o - cpu.e + 1#32) cpu.e.toNat) :=
    disjoint_below hsize
  have htmpIn : block (cpu.o - cpu.e + 1#32) cpu.e.toNat ⊆ S.writable :=
    (Set.subset_union_right.trans hsub).trans hstack
  have hxUsed : Disjoint (stack (cpu.o - cpu.e) 3 ∪ block (cpu.o - cpu.e + 1#32) cpu.e.toNat)
      (block x cpu.e.toNat) := hxApart.mono_left (hsub.trans (stack_subset_succ _))
  have hyUsed : Disjoint (stack (cpu.o - cpu.e) 3 ∪ block (cpu.o - cpu.e + 1#32) cpu.e.toNat)
      (block y cpu.e.toNat) := hyApart.mono_left (hsub.trans (stack_subset_succ _))
  rw [Set.disjoint_union_left] at hxUsed hyUsed
  apply h.leads rfl hp
  change Wp _ _ _ _ (qsortLines .doSwap) _
  simp [qsortLines, elem, combine_eq, opValue, hx]
  apply wp_memcpy h' haddr
  · exact hbelow
  · exact htmpIn
  · exact htmp
  · exact hxUsed.1
  · exact ahead_of_disjoint (.inr hxUsed.2.symm) cpu.e.isLt
  intro b₁ mem₁ p₁ hmem₁
  simp [combine_eq, opValue, hx, hy]
  apply wp_memcpy h' haddr
  · exact hbelow
  · exact hxIn
  · exact hxUsed.1
  · exact hyUsed.1
  · exact ahead_of_disjoint (hxy.imp Eq.symm fun hd ↦ hd.symm) cpu.e.isLt
  intro b₂ mem₂ p₂ hmem₂
  simp [combine_eq, opValue, hy]
  apply wp_memcpy h' haddr
  · exact hbelow
  · exact hyIn
  · exact hyUsed.1
  · exact htmp
  · exact ahead_of_disjoint (.inr hyUsed.2) cpu.e.isLt
  intro b₃ mem₃ p₃ hmem₃
  have hmem := eqOn_swapped hmem₁ hmem₂ hmem₃ htmp
    (Set.disjoint_union_left.mpr hxUsed) (Set.disjoint_union_left.mpr hyUsed)
  have hreturn : mem₃ (cpu.o + 1#32) = cpu.mem (cpu.o + 1#32) := by
    have htop := top_mem_stack (cpu.o + 1#32) (Nat.succ_pos (cpu.e.toNat + 3))
    rw [hmem fun hin ↦ next_notMem_stack hsize (hsub hin)]
    exact (if_neg (Set.disjoint_left.mp hyApart htop)).trans (if_neg (Set.disjoint_left.mp hxApart htop))
  simp [ret, pop, combine_eq, opValue, hreturn]
  exact hQ _ _ _ _ _ _ (hmem.mono (Set.compl_subset_compl.mpr hsub))

theorem Room.lt {size base o a : Word} {n need : ℕ} {insn : Insn} (hroom : Room S size base o n need)
    (hat : S.insnAt a = some insn) : n * size.toNat < 2 ^ 32 := by
  have hcode : a ∉ block base (n * size.toNat) := by
    intro ha
    rw [S.apart a (hroom.array ha)] at hat
    cases hat
  exact Nat.lt_of_le_of_lt (Nat.not_lt.mp hcode) (a - base).isLt

theorem Room.sub {size base o x : Word} {n need need' : ℕ} (hroom : Room S size base o n need)
    (h : x.toNat + need' ≤ need) : Room S size base (o - x) n need' where
  array := hroom.array
  stack := (stack_sub_subset h).trans hroom.stack
  apart := by
    have hcells : Stdlib.stack (o - x + 1#32) (need' + 1) ⊆ Stdlib.stack (o + 1#32) (need + 1) := by
      rw [sub_add_eq_add_sub]
      exact stack_sub_subset (Nat.succ_le_succ h)
    exact hroom.apart.mono_left hcells

theorem Room.mono {size base o : Word} {n need need' : ℕ} (hroom : Room S size base o n need)
    (h : need' ≤ need) : Room S size base o n need' where
  array := hroom.array
  stack := (stack_subset h).trans hroom.stack
  apart := hroom.apart.mono_left (stack_subset (Nat.succ_le_succ h))

theorem Room.stored {size base o : Word} {n need : ℕ} (hroom : Room S size base o n need) :
    block base (n * size.toNat) ⊆ (Stdlib.stack o need)ᶜ :=
  fun _ ha hin ↦ Set.disjoint_right.mp hroom.apart ha (stack_subset_succ _ hin)

/-- The cells that were pushed are neither in the array nor in the stack of a callee. -/
theorem Room.pushed {size base o x y : Word} {n need size' : ℕ} (hroom : Room S size base o n need)
    (hx : (1#32 - x).toNat ≤ need) (hy : size' ≤ (-(y + x)).toNat) :
    o + x ∈ (block base (n * size.toNat) ∪ Stdlib.stack (o - y) size')ᶜ := by
  rw [Set.mem_compl_iff, Set.mem_union, not_or]
  constructor
  · apply Set.disjoint_left.mp hroom.apart
    change (o + 1#32 - (o + x)).toNat < need + 1
    rw [add_sub_add_left_eq_sub]
    exact Nat.lt_succ_of_le hx
  · exact notMem_stack hy

/-- Part of an array. -/
theorem Room.part {size base o : Word} {n need i m : ℕ} (hroom : Room S size base o n need) (h : i + m ≤ n)
    (hlt : n * size.toNat < 2 ^ 32) : Room S size (elemAddr size base i) o m need where
  array := (elements_subset h hlt).trans hroom.array
  stack := hroom.stack
  apart := hroom.apart.mono_right (elements_subset h hlt)

theorem Room.first {size base o : Word} {n need m : ℕ} (hroom : Room S size base o n need) (h : m ≤ n)
    (hlt : n * size.toNat < 2 ^ 32) : Room S size base o m need := by
  have hpart := hroom.part (i := 0) ((Nat.zero_add m).symm ▸ h) hlt
  rw [elemAddr_zero] at hpart
  exact hpart

/-- The comparator at `cmp` tells which of two elements comes first. It may use some of the stack. -/
def Compares (S : Setting) {size : Word} (values : Set (Fin size.toNat → Word))
    (le : (Fin size.toNat → Word) → (Fin size.toNat → Word) → Bool) (cmp base o : Word) (n need depth : ℕ)
    (mem : Word → Word) : Prop :=
  ∀ called : Cpu, ∀ i < n, ∀ j < n, called.p = cmp → called.c = elemAddr size base i →
    called.d = elemAddr size base j → called.e = size → element called.mem size base i ∈ values →
    element called.mem size base j ∈ values → stack called.o depth ⊆ stack o need →
      Set.EqOn called.mem mem (block base (n * size.toNat) ∪ stack o need)ᶜ →
        S.Leads (fun back ↦ Keeps depth called back ∧ back.b.slt 0#32 =
          !le (element called.mem size base j) (element called.mem size base i)) called

section

variable {size : Word} {values : Set (Fin size.toNat → Word)}
  {le : (Fin size.toNat → Word) → (Fin size.toNat → Word) → Bool}
  {cmp base o : Word} {n need depth : ℕ} {mem : Word → Word}

/-- Part of the array, later, with part of the stack. -/
theorem Compares.part (h : Compares S values le cmp base o n need depth mem) {i m need' : ℕ} {x : Word}
    {mem' : Word → Word} (hi : i + m ≤ n) (hlt : n * size.toNat < 2 ^ 32) (hx : x.toNat + need' ≤ need)
    (hmem : Set.EqOn mem' mem (block base (n * size.toNat) ∪ stack o need)ᶜ) :
    Compares S values le cmp (elemAddr size base i) (o - x) m need' depth mem' := by
  intro called j hj k hk hp hc hd he hvalue hvalue' hstack hkept
  rw [element_behind] at hvalue hvalue'
  have hsub : stack (o - x) need' ⊆ stack o need := stack_sub_subset hx
  have hregion : block (elemAddr size base i) (m * size.toNat) ∪ stack (o - x) need' ⊆
      block base (n * size.toNat) ∪ stack o need := Set.union_subset_union (elements_subset hi hlt) hsub
  have hrun := h called (i + j) (by omega) (i + k) (by omega) hp
  rw [← elemAddr_add, ← elemAddr_add] at hrun
  have hanswer := hrun hc hd he hvalue hvalue' (hstack.trans hsub)
    ((hkept.mono (Set.compl_subset_compl.mpr hregion)).trans hmem)
  rw [element, element, ← elemAddr_add, ← elemAddr_add] at hanswer
  exact hanswer

/-- The first elements. -/
theorem Compares.first (h : Compares S values le cmp base o n need depth mem) {m need' : ℕ} {x : Word}
    {mem' : Word → Word} (hm : m ≤ n) (hlt : n * size.toNat < 2 ^ 32) (hx : x.toNat + need' ≤ need)
    (hmem : Set.EqOn mem' mem (block base (n * size.toNat) ∪ stack o need)ᶜ) :
    Compares S values le cmp base (o - x) m need' depth mem' := by
  have hpart := h.part (i := 0) ((Nat.zero_add m).symm ▸ hm) hlt hx hmem
  rw [elemAddr_zero] at hpart
  exact hpart

/-- A call of the comparator, with something pushed since. -/
theorem Compares.call (h : Compares S values le cmp base o n need depth mem) {called : Cpu} {i j : ℕ}
    {mem' : Word → Word} (hi : i < n) (hj : j < n) (hlt : n * size.toNat < 2 ^ 32)
    (hroom : Room S size base o n need) (hp : called.p = cmp) (hc : called.c = elemAddr size base i)
    (hd : called.d = elemAddr size base j) (he : called.e = size)
    (hvalue : element mem' size base i ∈ values) (hvalue' : element mem' size base j ∈ values)
    (hstack : stack called.o depth ⊆ stack o need) (hpushed : Set.EqOn called.mem mem' (stack o need)ᶜ)
    (hmem : Set.EqOn mem' mem (block base (n * size.toNat) ∪ stack o need)ᶜ) :
    S.Leads (fun back ↦ Keeps depth called back ∧
      back.b.slt 0#32 = !le (element mem' size base j) (element mem' size base i)) called := by
  have hsame : ∀ t < n, element called.mem size base t = element mem' size base t :=
    fun t ht ↦ element_congr (hpushed.mono hroom.stored) hlt ht
  rw [← hsame i hi, ← hsame j hj]
  apply h called i hi j hj hp hc hd he
  · rw [hsame i hi]
    exact hvalue
  · rw [hsame j hj]
    exact hvalue'
  · exact hstack
  · exact (hpushed.mono (Set.compl_subset_compl.mpr Set.subset_union_right)).trans hmem

end

theorem wp_reg {L : Type} {addr : L → Word} {next value : Word} {lines : List (Line L)} {z x : Reg}
    (hz : z ≠ .p) (hx : Cpu.get { cpu with p := cpu.p + 1#32 } x = value)
    (h : Wp S addr next Q lines (({ cpu with p := cpu.p + 1#32 } : Cpu).set z value)) :
    Wp S addr next Q (.insn (.assign z (.reg x)) :: lines) cpu := by
  have hzero : opValue S.undef .bitwiseOr value 0#32 + 0#32 = value :=
    (BitVec.add_zero _).trans BitVec.or_zero
  rw [wp_assign hz, Insn.exec, Rhs.reg, Rhs.value, hx, combine_eq _ (by decide)]
  change Wp S addr next Q lines (Cpu.set _ z (opValue S.undef .bitwiseOr value 0#32 + 0#32))
  rw [hzero]
  exact h

/-- `swap` exchanges two elements of an array. -/
theorem wp_swap (h : Placed S qsort far start) (h' : Placed S memcpy far' start')
    (haddr : qsort.addr far start .memcpy = start') {i0 i1 : Reg} {i j n : ℕ} {next size : Word}
    {lines : List (Line QsortLabel)} (he : cpu.e = size)
    (hi0 : ∀ mem o p, Cpu.get { cpu with mem, o, p } i0 = BitVec.ofNat 32 i)
    (hi1 : ∀ f mem o p, Cpu.get { cpu with f, mem, o, p } i1 = BitVec.ofNat 32 j)
    (hi : i < n) (hj : j < n) (hroom : Room S size cpu.c cpu.o n (size.toNat + 8))
    (hQ : ∀ b g k l mem p,
      (∀ t < n, element mem size cpu.c t = exchange (element cpu.mem size cpu.c) i j t) →
        Set.EqOn mem cpu.mem (block cpu.c (n * size.toNat) ∪ stack cpu.o (size.toNat + 8))ᶜ →
          Wp S (qsort.addr far start) next Q lines { cpu with b, g, k, l, mem, p }) :
    Wp S (qsort.addr far start) next Q (swap i0 i1 ++ lines) cpu := by
  subst he
  have hlt : n * cpu.e.toNat < 2 ^ 32 := hroom.lt (h.holds 0 _ rfl)
  have hsize : cpu.e.toNat + 8 < 2 ^ 32 := Setting.stack_lt (h.holds 0 _ rfl) hroom.stack
  have hpushedRoom : Room S cpu.e cpu.c (cpu.o - 4#32) n (cpu.e.toNat + 4) := hroom.sub (by simp; omega)
  have hcalledRoom : Room S cpu.e cpu.c (cpu.o - 4#32 - 1#32) n (cpu.e.toNat + 3) :=
    hpushedRoom.sub (by simp; omega)
  have hapart : ∀ t < n, Disjoint (stack (cpu.o - 4#32 - 1#32 + 1#32) (cpu.e.toNat + 4))
      (block (elemAddr cpu.e cpu.c t) cpu.e.toNat) :=
    fun t ht ↦ hcalledRoom.apart.mono_right (element_subset ht hlt)
  rw [swap, List.append_assoc]
  apply wp_pushall (by decide) (by decide) (by decide)
  · exact (stack_subset (Nat.le_trans (by decide) (Nat.le_add_left 8 _))).trans hroom.stack
  change Wp _ _ _ _ (.insn _ :: .insn _ :: .call _ :: (popall _ ++ lines)) _
  apply wp_reg (by decide)
  · exact hi0 _ _ _
  apply wp_reg (by decide)
  · exact hi1 _ _ _ _
  refine ⟨?_, ?_⟩
  · exact hroom.stack (sub_mem_stack (by simp))
  apply doSwap_run h h' haddr
  · rfl
  · rfl
  · rfl
  · exact hcalledRoom.stack
  · exact (element_subset hi hlt).trans hroom.array
  · exact (element_subset hj hlt).trans hroom.array
  · exact hapart i hi
  · exact hapart j hj
  · by_cases hij : i = j
    · exact .inl (congrArg (elemAddr cpu.e cpu.c) hij)
    · exact .inr (disjoint_elements_of_ne hij hi hj hlt)
  · intro b c d k l mem hmem
    apply Setting.Leads.here
    simp only [Cpu.called, Cpu.set, List.map_cons, List.map_nil, List.length_cons, List.length_nil] at hmem ⊢
    have hback : cpu.o - 4#32 - 1#32 + 1#32 = cpu.o - 4#32 := sub_add_cancel _ _
    generalize hreturn : cpu.p + 1#32 + 4#32 + 1#32 + 1#32 + 3#32 = returned at hmem ⊢
    have hpushed : Function.update (saved cpu.mem cpu.o [cpu.c, cpu.d, cpu.e, cpu.f]) (cpu.o - 4#32) returned =
        saved cpu.mem cpu.o ([cpu.c, cpu.d, cpu.e, cpu.f] ++ [returned]) :=
      (saved_concat returned (by simp)).symm
    have hbelow : Set.EqOn mem (saved cpu.mem cpu.o ([cpu.c, cpu.d, cpu.e, cpu.f] ++ [returned]))
        (block cpu.c (n * cpu.e.toNat) ∪ stack (cpu.o - 5#32) (cpu.e.toNat + 3))ᶜ := by
      have hdeep : cpu.o - 4#32 - 1#32 = cpu.o - 5#32 := sub_sub _ _ _
      intro a ha
      rw [Set.mem_compl_iff, Set.mem_union, not_or, ← hdeep] at ha
      rw [← hpushed, hmem ha.2]
      exact eqOn_swapped_array hi hj hlt ha.1
    refine ⟨?_, ?_⟩
    · rw [hback]
      exact Function.update_self _ _ _
    · have hread : ∀ x : Word, (-x).toNat < 4 → mem (cpu.o + x) =
          ([cpu.c, cpu.d, cpu.e, cpu.f, returned][(-x).toNat]?).getD (cpu.mem (cpu.o + x)) := by
        intro x hx
        exact (hbelow (hroom.pushed (by bv_omega) (by bv_omega))).trans (saved_add x)
      have hc := hread 0#32 (by decide)
      have hd := hread (-1#32) (by decide)
      have he := hread (-2#32) (by decide)
      have hf := hread (-3#32) (by decide)
      have htop : cpu.o - 4#32 + 4#32 = cpu.o := sub_add_cancel _ _
      simp at hc hd he hf
      simp [popall, loadall, combine_eq, opValue, hback, htop, hc, hd, he, hf]
      apply hQ
      · intro t ht
        apply (element_swapped hi hj hlt (hmem.mono hcalledRoom.stored) ht).trans
        apply exchange_congr hi hj _ ht
        intro t ht
        apply element_congr _ hlt ht
        exact (eqOn_update_saved returned (by simp) (by simp)).mono hroom.stored
      · exact eqOn_union_of_saved hbelow (by simp; omega) (by simp)

theorem qsort_noswap (h : Placed S qsort far start) (hp : cpu.p = qsort.addr far start .noswap)
    (hQ : S.Leads Q { cpu with j := cpu.j + 1#32, p := qsort.addr far start .partition }) :
    S.Leads Q cpu := by
  apply h.leads rfl hp
  change Wp _ _ _ _ (qsortLines .noswap) _
  simp [qsortLines, combine_eq, opValue]
  exact hQ

/-- One turn of the loop. -/
theorem qsort_turn (h : Placed S qsort far start) (h' : Placed S memcpy far' start')
    (haddr : qsort.addr far start .memcpy = start') {size : Word}
    {values : Set (Fin size.toNat → Word)} {le : (Fin size.toNat → Word) → (Fin size.toNat → Word) → Bool}
    {last j m need depth : ℕ}
    {mem₀ : Word → Word} (hp : cpu.p = qsort.addr far start .partition) (he : cpu.e = size) (hj : j < last)
    (hm : m ≤ j) (hlast : last < 2 ^ 31) (hI : cpu.i = BitVec.ofNat 32 last)
    (hJ : cpu.j = BitVec.ofNat 32 j) (hM : cpu.m = BitVec.ofNat 32 m)
    (hroom : Room S size cpu.c cpu.o (last + 1) need) (hswap : size.toNat + 8 ≤ need)
    (hdepth : depth + 2 ≤ need) (hcompares : Compares S values le cpu.f cpu.c cpu.o (last + 1) need depth mem₀)
    (hmem : Set.EqOn cpu.mem mem₀ (block cpu.c ((last + 1) * size.toNat) ∪ stack cpu.o need)ᶜ)
    (hvalues : ∀ t < last + 1, element cpu.mem size cpu.c t ∈ values)
    (hstay : le (element cpu.mem size cpu.c last) (element cpu.mem size cpu.c j) = true → ∀ b d k mem,
      (∀ t < last + 1, element mem size cpu.c t = element cpu.mem size cpu.c t) →
        Set.EqOn mem mem₀ (block cpu.c ((last + 1) * size.toNat) ∪ stack cpu.o need)ᶜ →
          S.Leads Q { cpu with
            b, d, k, mem, j := BitVec.ofNat 32 (j + 1), p := qsort.addr far start .partition })
    (hmove : le (element cpu.mem size cpu.c last) (element cpu.mem size cpu.c j) = false →
      ∀ b d g k l mem,
        (∀ t < last + 1, element mem size cpu.c t = exchange (element cpu.mem size cpu.c) j m t) →
          Set.EqOn mem mem₀ (block cpu.c ((last + 1) * size.toNat) ∪ stack cpu.o need)ᶜ →
            S.Leads Q { cpu with
              b, d, g, k, l, mem, j := BitVec.ofNat 32 (j + 1), m := BitVec.ofNat 32 (m + 1)
              p := qsort.addr far start .partition }) : S.Leads Q cpu := by
  have hlt : (last + 1) * size.toNat < 2 ^ 32 := hroom.lt (h.holds 0 _ rfl)
  have hneed : need < 2 ^ 32 := Setting.stack_lt (h.holds 0 _ rfl) hroom.stack
  have hnext : cpu.j + 1#32 = BitVec.ofNat 32 (j + 1) := by
    rw [hJ, BitVec.ofNat_add]
  apply h.leads rfl hp
  change Wp _ _ _ _ (qsortLines .partition) _
  simp [qsortLines, combine_eq, opValue]
  rw [wp_jzrel rfl, if_pos (by rw [hI, hJ, slt_ofNat (by omega) hlast]; exact decide_eq_true hj)]
  apply wp_pushall (by decide) (by decide) (by decide)
  · exact (stack_subset (by simp; omega)).trans hroom.stack
  simp [elem, combine_eq, opValue]
  apply @wp_callr _ S _ _ Q _ _ _ _ depth
    (fun b ↦ b.slt 0#32 = !le (element cpu.mem size cpu.c last) (element cpu.mem size cpu.c j)) rfl
  · exact hroom.stack (sub_mem_stack (by simp; omega))
  · apply hcompares.call (by omega) (by omega) hlt hroom
    · rfl
    · exact congrArg₂ (fun e j ↦ e * j + cpu.c) he hJ
    · exact congrArg₂ (fun e i ↦ e * i + cpu.c) he hI
    · exact he
    · exact hvalues j (by omega)
    · exact hvalues last (by omega)
    · change stack (cpu.o - 1#32 - 1#32) depth ⊆ stack cpu.o need
      rw [sub_sub]
      exact stack_sub_subset (by simp; omega)
    · exact eqOn_update_saved _ (by simp; omega) (by simp; omega)
    · exact hmem
  · intro b c d mem hanswer hkept
    have hread : mem cpu.o = cpu.c := by
      have htop : cpu.o + 0#32 ∉ stack (cpu.o - 1#32) (depth + 1) := notMem_stack (by simp; omega)
      rw [BitVec.add_zero] at htop
      rw [hkept htop]
      exact saved_top
    have hneedFrame : Set.EqOn mem cpu.mem (stack cpu.o need)ᶜ :=
      eqOn_of_saved hkept (by simp; omega) (by simp; omega)
    have hmem' : Set.EqOn mem mem₀ (block cpu.c ((last + 1) * size.toNat) ∪ stack cpu.o need)ᶜ :=
      (hneedFrame.mono (Set.compl_subset_compl.mpr Set.subset_union_right)).trans hmem
    have hsame : ∀ t < last + 1, element mem size cpu.c t = element cpu.mem size cpu.c t :=
      fun t ht ↦ element_congr (hneedFrame.mono hroom.stored) hlt ht
    have hback : cpu.o - 1#32 + 1#32 = cpu.o := sub_add_cancel _ _
    simp [popall, loadall, combine_eq, opValue, hback, hread]
    rw [wp_jzrel rfl]
    split
    · rename_i hneg
      rw [hneg, eq_comm, Bool.not_eq_true'] at hanswer
      apply wp_swap (i := j) (j := m) (n := last + 1) h h' haddr
      · exact he
      · exact fun _ _ _ ↦ hJ
      · exact fun _ _ _ _ ↦ hM
      · omega
      · omega
      · exact hroom.mono hswap
      intro b' g k l mem' p hmoved hkept'
      simp [combine_eq, opValue]
      apply qsort_noswap h rfl
      have hnextM : cpu.m + 1#32 = BitVec.ofNat 32 (m + 1) := by
        rw [hM, BitVec.ofNat_add]
      have hmoved' : ∀ t < last + 1,
          element mem' size cpu.c t = exchange (element cpu.mem size cpu.c) j m t :=
        fun t ht ↦ (hmoved t ht).trans (exchange_congr (by omega) (by omega) hsame ht)
      have hkept'' : Set.EqOn mem' mem₀ (block cpu.c ((last + 1) * size.toNat) ∪ stack cpu.o need)ᶜ := by
        apply (hkept'.mono (Set.compl_subset_compl.mpr _)).trans hmem'
        exact Set.union_subset_union_right _ (stack_subset hswap)
      have hrun := hmove hanswer b' d g k l mem' hmoved' hkept''
      rw [← hnext, ← hnextM] at hrun
      exact hrun
    · rename_i hpos
      rw [Bool.not_eq_true] at hpos
      rw [hpos, eq_comm, Bool.not_eq_false'] at hanswer
      apply qsort_noswap h rfl
      have hrun := hstay hanswer b d (negBool (b.slt 0#32)) mem hsame hmem'
      rw [← hnext] at hrun
      exact hrun

/-- The loop ends with what the sweep makes of the array. -/
theorem qsort_sweep (h : Placed S qsort far start) (h' : Placed S memcpy far' start')
    (haddr : qsort.addr far start .memcpy = start') {size : Word}
    {values : Set (Fin size.toNat → Word)} {le : (Fin size.toNat → Word) → (Fin size.toNat → Word) → Bool}
    {turns last j m need depth : ℕ}
    {mem₀ : Word → Word} {xs : ℕ → Fin size.toNat → Word} (hp : cpu.p = qsort.addr far start .partition)
    (he : cpu.e = size) (hj : j + turns = last) (hm : m ≤ j) (hlast : last < 2 ^ 31)
    (hI : cpu.i = BitVec.ofNat 32 last) (hJ : cpu.j = BitVec.ofNat 32 j) (hM : cpu.m = BitVec.ofNat 32 m)
    (hroom : Room S size cpu.c cpu.o (last + 1) need) (hswap : size.toNat + 8 ≤ need)
    (hdepth : depth + 2 ≤ need) (hcompares : Compares S values le cpu.f cpu.c cpu.o (last + 1) need depth mem₀)
    (hmem : Set.EqOn cpu.mem mem₀ (block cpu.c ((last + 1) * size.toNat) ∪ stack cpu.o need)ᶜ)
    (hxs : ∀ t < last + 1, element cpu.mem size cpu.c t = xs t) (hvalues : ∀ t < last + 1, xs t ∈ values)
    (hQ : ∀ b d g j' k l mem,
      (∀ t < last + 1, element mem size cpu.c t = (sweep le last turns j m xs).2 t) →
        Set.EqOn mem mem₀ (block cpu.c ((last + 1) * size.toNat) ∪ stack cpu.o need)ᶜ →
          S.Leads Q { cpu with
            b, d, g, j := j', k, l, mem, m := BitVec.ofNat 32 (sweep le last turns j m xs).1
            p := qsort.addr far start .partitionDone }) : S.Leads Q cpu := by
  induction turns generalizing j m xs cpu with
  | zero =>
    apply h.leads rfl hp
    change Wp _ _ _ _ (qsortLines .partition) _
    simp [qsortLines, combine_eq, opValue]
    obtain rfl : j = last := hj
    rw [wp_jzrel rfl, if_neg (by rw [hI, hJ, slt_ofNat hlast hlast]; simp)]
    have hrun := hQ cpu.b cpu.d cpu.g cpu.j (negBool (cpu.j.slt cpu.i)) cpu.l cpu.mem hxs hmem
    rw [sweep, ← hM] at hrun
    exact hrun
  | succ turns ih =>
    rw [sweep] at hQ
    apply qsort_turn h h' haddr hp he (by omega) hm hlast hI hJ hM hroom hswap hdepth hcompares hmem
    · exact fun t ht ↦ (hxs t ht).symm ▸ hvalues t ht
    · intro hle b d k mem hsame hmem'
      rw [hxs last (by omega), hxs j (by omega)] at hle
      rw [if_pos hle] at hQ
      apply ih (j := j + 1) (m := m)
      · rfl
      · exact he
      · omega
      · exact Nat.le_succ_of_le hm
      · exact hI
      · rfl
      · exact hM
      · exact hroom
      · exact hcompares
      · exact hmem'
      · exact fun t ht ↦ (hsame t ht).trans (hxs t ht)
      · exact hvalues
      · exact hQ
    · intro hle b d g k l mem hmoved hmem'
      rw [hxs last (by omega), hxs j (by omega)] at hle
      rw [if_neg (by rw [hle]; exact Bool.false_ne_true)] at hQ
      apply ih (j := j + 1) (m := m + 1)
      · rfl
      · exact he
      · omega
      · exact Nat.succ_le_succ hm
      · exact hI
      · rfl
      · rfl
      · exact hroom
      · exact hcompares
      · exact hmem'
      · exact fun t ht ↦ (hmoved t ht).trans (exchange_congr (by omega) (by omega) hxs ht)
      · exact mem_of_perm_segment (perm_segment_exchange (by omega) (by omega)) hvalues
      · exact hQ

/-- The registers are taken back from the stack, and the run ends. -/
theorem qsort_done (h : Placed S qsort far start) (entry : Cpu) {size : Word} {n need : ℕ} (need' : ℕ)
    (hp : cpu.p = qsort.addr far start .done) (ho : cpu.o = entry.o - 7#32)
    (hroom : Room S size entry.c entry.o n need) (hneed : need' + 7 ≤ need)
    (hmem : Set.EqOn cpu.mem
      (saved entry.mem entry.o [entry.g, entry.h, entry.i, entry.j, entry.k, entry.l, entry.m])
      (block entry.c (n * size.toNat) ∪ stack (entry.o - 7#32) need')ᶜ)
    (hQ : S.Leads Q { cpu with
      g := entry.g, h := entry.h, i := entry.i, j := entry.j, k := entry.k, l := entry.l, m := entry.m
      o := entry.o + 1#32, p := entry.mem (entry.o + 1#32) }) : S.Leads Q cpu := by
  have hbound : need < 2 ^ 32 := Setting.stack_lt (h.holds 0 _ rfl) hroom.stack
  have hread : ∀ x : Word, (1#32 - x).toNat < 8 → cpu.mem (entry.o + x) =
      saved entry.mem entry.o [entry.g, entry.h, entry.i, entry.j, entry.k, entry.l, entry.m]
        (entry.o + x) := by
    intro x hx
    apply hmem
    exact hroom.pushed (by omega) (by bv_omega)
  have hg := hread 0#32 (by decide)
  have hh := hread (-1#32) (by decide)
  have hi := hread (-2#32) (by decide)
  have hj := hread (-3#32) (by decide)
  have hk := hread (-4#32) (by decide)
  have hl := hread (-5#32) (by decide)
  have hm := hread (-6#32) (by decide)
  have hreturn := hread 1#32 (by decide)
  have htop : entry.o - 7#32 + 7#32 = entry.o := sub_add_cancel _ _
  simp at hg hh hi hj hk hl hm hreturn
  apply h.leads rfl hp
  change Wp _ _ _ _ (qsortLines .done) _
  simpa [qsortLines, popall, loadall, ret, pop, combine_eq, opValue, ho, htop, hg, hh, hi, hj, hk, hl, hm,
    hreturn] using hQ

/-- Stack that `qsort` needs when calls are inside one another: with comparators that need `depth`. -/
def qsortNeed (size depth : ℕ) : ℕ → ℕ
  | 0 => 7
  | calls + 1 => 8 * calls + max (size + 15) (depth + 9)

/-- What is different when `qsort` ends. -/
structure Sorts {size : Word} (le : (Fin size.toNat → Word) → (Fin size.toNat → Word) → Bool) (n need : ℕ)
    (xs : ℕ → Fin size.toNat → Word) (cpu next : Cpu) : Prop extends Returns cpu next where
  g : next.g = cpu.g
  h : next.h = cpu.h
  i : next.i = cpu.i
  j : next.j = cpu.j
  k : next.k = cpu.k
  l : next.l = cpu.l
  m : next.m = cpu.m
  sorted : segment (element next.mem size cpu.c) n = quicksort le n xs
  mem : Set.EqOn next.mem cpu.mem (block cpu.c (n * size.toNat) ∪ stack cpu.o need)ᶜ

theorem qsort_small (h : Placed S qsort far start) {size : Word}
    {le : (Fin size.toNat → Word) → (Fin size.toNat → Word) → Bool} {n need : ℕ}
    {xs : ℕ → Fin size.toNat → Word} (hp : cpu.p = qsort.addr far start .qsort)
    (hd : cpu.d = BitVec.ofNat 32 n) (hn : n < 2) (hroom : Room S size cpu.c cpu.o n need) (hneed : 7 ≤ need)
    (hxs : ∀ t < n, element cpu.mem size cpu.c t = xs t) : S.Leads (Sorts le n need xs cpu) cpu := by
  have hlt : n * size.toNat < 2 ^ 32 := hroom.lt (h.holds 0 _ rfl)
  have hsmall : cpu.d.slt 2#32 = true := by
    rw [hd, slt_ofNat (by omega) (by decide)]
    exact decide_eq_true hn
  have hpushed : Set.EqOn (saved cpu.mem cpu.o [cpu.g, cpu.h, cpu.i, cpu.j, cpu.k, cpu.l, cpu.m]) cpu.mem
      (stack cpu.o need)ᶜ := eqOn_saved.mono (Set.compl_subset_compl.mpr (stack_subset hneed))
  apply h.leads rfl hp
  change Wp _ _ _ _ (qsortLines .qsort) _
  apply wp_pushall (by decide) (by decide) (by decide) ((stack_subset hneed).trans hroom.stack)
  simp [combine_eq, opValue]
  rw [wp_jnzrel rfl, if_pos hsmall]
  apply qsort_done h cpu 0 rfl rfl hroom hneed
  · exact fun _ _ ↦ rfl
  · apply Setting.Leads.here
    refine ⟨⟨rfl, rfl⟩, rfl, rfl, rfl, rfl, rfl, rfl, rfl, ?_, ?_⟩
    · rw [quicksort_of_lt hn]
      apply segment_congr
      intro t ht
      exact (element_congr (hpushed.mono hroom.stored) hlt ht).trans (hxs t ht)
    · exact hpushed.mono (Set.compl_subset_compl.mpr Set.subset_union_right)

/-- Up to the calls for the two sides. -/
theorem qsort_split (h : Placed S qsort far start) (h' : Placed S memcpy far' start')
    (haddr : qsort.addr far start .memcpy = start') {size : Word}
    {values : Set (Fin size.toNat → Word)} {le : (Fin size.toNat → Word) → (Fin size.toNat → Word) → Bool}
    {n need depth : ℕ}
    {xs : ℕ → Fin size.toNat → Word} (hp : cpu.p = qsort.addr far start .qsort) (he : cpu.e = size)
    (hd : cpu.d = BitVec.ofNat 32 n) (hn : n < 2 ^ 31) (hge : 2 ≤ n)
    (hroom : Room S size cpu.c cpu.o n need) (hswap : size.toNat + 15 ≤ need) (hdepth : depth + 9 ≤ need)
    (hcompares : Compares S values le cpu.f cpu.c cpu.o n need depth cpu.mem)
    (hxs : ∀ t < n, element cpu.mem size cpu.c t = xs t) (hvalues : ∀ t < n, xs t ∈ values)
    (hQ : ∀ b d g h j k l mem p,
      (∀ t < n, element mem size cpu.c t = (partition le n xs).2 t) →
        Set.EqOn mem (saved cpu.mem cpu.o [cpu.g, cpu.h, cpu.i, cpu.j, cpu.k, cpu.l, cpu.m])
          (block cpu.c (n * size.toNat) ∪ stack (cpu.o - 7#32) (need - 7))ᶜ →
            Wp S (qsort.addr far start) (qsort.endAddr far start .partitionDone) Q recursiveCases { cpu with
              b, d, g, h, i := BitVec.ofNat 32 (n - 1), j, k, l
              m := BitVec.ofNat 32 (partition le n xs).1, mem, o := cpu.o - 7#32, p }) :
    S.Leads Q cpu := by
  have hlt : n * size.toNat < 2 ^ 32 := hroom.lt (h.holds 0 _ rfl)
  have hlarge : cpu.d.slt 2#32 = false := by
    rw [hd, slt_ofNat hn (by decide)]
    exact decide_eq_false (Nat.not_lt.mpr hge)
  have hhalf : cpu.d.sshiftRight 1 = BitVec.ofNat 32 (n / 2) := by
    rw [hd, sshiftRight_ofNat hn, Nat.pow_one]
  obtain ⟨last, rfl⟩ : ∃ last, n = last + 1 := ⟨n - 1, by omega⟩
  have hlast : cpu.d + 4294967295#32 = BitVec.ofNat 32 last := by
    rw [hd]
    exact (BitVec.sub_eq_add_neg _ 1#32).symm.trans (ofNat_sub (Nat.succ_le_succ (Nat.zero_le last)))
  have hstack : stack cpu.o 7 ⊆ stack cpu.o need := stack_subset (by omega)
  have hpushed : Set.EqOn (saved cpu.mem cpu.o [cpu.g, cpu.h, cpu.i, cpu.j, cpu.k, cpu.l, cpu.m]) cpu.mem
      (stack cpu.o need)ᶜ := eqOn_saved.mono (Set.compl_subset_compl.mpr hstack)
  have hpushedXs : ∀ t < last + 1, element
      (saved cpu.mem cpu.o [cpu.g, cpu.h, cpu.i, cpu.j, cpu.k, cpu.l, cpu.m]) size cpu.c t = xs t :=
    fun t ht ↦ (element_congr (hpushed.mono hroom.stored) hlt ht).trans (hxs t ht)
  apply h.leads rfl hp
  change Wp _ _ _ _ (qsortLines .qsort) _
  apply wp_pushall (by decide) (by decide) (by decide) (hstack.trans hroom.stack)
  simp [combine_eq, opValue]
  rw [wp_jnzrel rfl, if_neg (by rw [hlarge]; exact Bool.false_ne_true)]
  simp [combine_eq, opValue, UndefinedShifts.sar_of_lt, hhalf, hlast]
  have hframe : Room S size cpu.c (cpu.o - 7#32) (last + 1) (need - 7) := hroom.sub (by simp; omega)
  apply wp_swap (i := (last + 1) / 2) (j := last) (n := last + 1) h h' haddr
  · exact he
  · exact fun _ _ _ ↦ rfl
  · exact fun _ _ _ _ ↦ rfl
  · omega
  · omega
  · exact hframe.mono (by omega)
  intro b g k l mem p hmoved hkept
  simp [combine_eq, opValue]
  apply qsort_sweep (j := 0) (m := 0) h h' haddr
  · rfl
  · exact he
  · exact Nat.zero_add last
  · exact Nat.le_refl 0
  · omega
  · rfl
  · rfl
  · rfl
  · exact hframe
  · omega
  · show depth + 2 ≤ need - 7
    omega
  · exact hcompares.first (Nat.le_refl _) hlt (by simp; omega)
      (hpushed.mono (Set.compl_subset_compl.mpr Set.subset_union_right))
  · apply hkept.mono (Set.compl_subset_compl.mpr _)
    exact Set.union_subset_union_right _ (stack_subset (by omega))
  · exact fun t ht ↦ (hmoved t ht).trans (exchange_congr (by omega) (by omega) hpushedXs ht)
  · exact mem_of_perm_segment (perm_segment_exchange (by omega) (by omega)) hvalues
  · intro b d g j k l mem' hswept hkept'
    have hle := (swept_partition le (last + 1) xs).le_turn
    apply h.leads rfl rfl
    change Wp _ _ _ _ (swap .m .i ++ recursiveCases) _
    apply wp_swap (i := (partition le (last + 1) xs).1) (j := last) (n := last + 1) h h' haddr
    · exact he
    · exact fun _ _ _ ↦ rfl
    · exact fun _ _ _ _ ↦ rfl
    · omega
    · omega
    · exact hframe.mono (by omega)
    intro b g k l mem'' p hmoved' hkept''
    apply hQ
    · intro t ht
      exact (hmoved' t ht).trans (exchange_congr (by omega) (by omega) hswept ht)
    · apply (hkept''.mono (Set.compl_subset_compl.mpr _)).trans hkept'
      exact Set.union_subset_union_right _ (stack_subset (by omega))

section

variable {size : Word} {values : Set (Fin size.toNat → Word)}
  {le : (Fin size.toNat → Word) → (Fin size.toNat → Word) → Bool} {n need depth : ℕ}
  {xs : ℕ → Fin size.toNat → Word} {next : Cpu} {calls calls' : ℕ}

theorem le_qsortNeed (size depth calls : ℕ) : 7 ≤ qsortNeed size depth calls := by
  cases calls with
  | zero => exact Nat.le_refl 7
  | succ calls =>
    rw [qsortNeed]
    omega

theorem qsortNeed_add_le (size depth : ℕ) (h : calls < calls') :
    qsortNeed size depth calls + 8 ≤ qsortNeed size depth calls' := by
  cases calls' with
  | zero => exact absurd h (Nat.not_lt_zero calls)
  | succ calls' =>
    cases calls with
    | zero =>
      rw [qsortNeed, qsortNeed]
      omega
    | succ calls =>
      rw [qsortNeed, qsortNeed]
      omega

theorem qsortNeed_mono (size depth : ℕ) (h : calls ≤ calls') :
    qsortNeed size depth calls ≤ qsortNeed size depth calls' := by
  rcases h.eq_or_lt with rfl | hlt
  · exact Nat.le_refl _
  · exact (Nat.le_add_right _ 8).trans (qsortNeed_add_le size depth hlt)

theorem Sorts.eqOn_called (h : Sorts le n need xs (cpu.called start) next) :
    Set.EqOn next.mem cpu.mem (block cpu.c (n * size.toNat) ∪ stack cpu.o (need + 1))ᶜ := by
  have hsub : stack (cpu.o - 1#32) need ⊆ stack cpu.o (need + 1) :=
    stack_sub_subset (Nat.le_of_eq (Nat.add_comm 1 need))
  intro a ha
  rw [Set.mem_compl_iff, Set.mem_union, not_or] at ha
  rw [h.mem fun hin ↦ hin.elim ha.1 fun hin ↦ ha.2 (hsub hin)]
  apply Function.update_of_ne
  rintro rfl
  exact ha.2 (top_mem_stack cpu.o (Nat.succ_pos need))

theorem Sorts.called_p (h : Sorts le n need xs (cpu.called start) next) : next.p = cpu.p + 3#32 := by
  have hback : cpu.o - 1#32 + 1#32 = cpu.o := sub_add_cancel _ _
  have hreturn : next.p = Function.update cpu.mem cpu.o (cpu.p + 3#32) (cpu.o - 1#32 + 1#32) := h.p
  rw [hreturn, hback, Function.update_self]

theorem Sorts.called_o (h : Sorts le n need xs (cpu.called start) next) : next.o = cpu.o :=
  h.o.trans (sub_add_cancel _ _)

/-- A call of `qsort` itself. -/
theorem wp_qsort {addr : QsortLabel → Word} {last : Word} {lines : List (Line QsortLabel)} (n need : ℕ)
    (xs : ℕ → Fin size.toNat → Word) (ho : cpu.o ∈ S.writable)
    (hcall : S.Leads (Sorts le n need xs (cpu.called (addr .qsort))) (cpu.called (addr .qsort)))
    (hQ : ∀ back, Sorts le n need xs (cpu.called (addr .qsort)) back → Wp S addr last Q lines back) :
    Wp S addr last Q (.call .qsort :: lines) cpu :=
  ⟨ho, hcall.mono fun back _ hsorts ↦ ⟨hsorts.called_p, hQ back hsorts⟩⟩

theorem wp_recursiveCases (n m need : ℕ) (ys zs : ℕ → Fin size.toNat → Word) {last : Word}
    (ho : cpu.o ∈ S.writable) (he : cpu.e = size) (hm : m < n) (hI : cpu.i = BitVec.ofNat 32 (n - 1))
    (hM : cpu.m = BitVec.ofNat 32 m)
    (hleft : ∀ called : Cpu, called.p = qsort.addr far start .qsort → called.c = cpu.c →
      called.d = BitVec.ofNat 32 m → called.e = size → called.f = cpu.f → called.o = cpu.o - 1#32 →
        Set.EqOn called.mem cpu.mem (stack cpu.o (need + 1))ᶜ → S.Leads (Sorts le m need ys called) called)
    (hright : ∀ called : Cpu, ∀ mem, called.p = qsort.addr far start .qsort →
      called.c = elemAddr size cpu.c (m + 1) → called.d = BitVec.ofNat 32 (n - 1 - m) → called.e = size →
        called.f = cpu.f → called.o = cpu.o - 1#32 →
          Set.EqOn called.mem mem (stack cpu.o (need + 1))ᶜ →
            Set.EqOn mem cpu.mem (block cpu.c (m * size.toNat) ∪ stack cpu.o (need + 1))ᶜ →
              S.Leads (Sorts le (n - 1 - m) need zs called) called)
    (hQ : ∀ b c d e f g h i j k l m' n' mem mem', segment (element mem size cpu.c) m = quicksort le m ys →
      Set.EqOn mem cpu.mem (block cpu.c (m * size.toNat) ∪ stack cpu.o (need + 1))ᶜ →
        segment (element mem' size (elemAddr size cpu.c (m + 1))) (n - 1 - m) = quicksort le (n - 1 - m) zs →
          Set.EqOn mem' mem
            (block (elemAddr size cpu.c (m + 1)) ((n - 1 - m) * size.toNat) ∪ stack cpu.o (need + 1))ᶜ →
              S.Leads Q { b, c, d, e, f, g, h, i, j, k, l, m := m', n := n', o := cpu.o, p := last, mem := mem' }) :
    Wp S (qsort.addr far start) last Q recursiveCases cpu := by
  subst he
  have hpushed : ∀ (mem : Word → Word) value,
      Set.EqOn (Function.update mem cpu.o value) mem (stack cpu.o (need + 1))ᶜ := by
    intro mem value a ha
    apply Function.update_of_ne
    rintro rfl
    exact ha (top_mem_stack _ (Nat.succ_pos need))
  have hnext : BitVec.ofNat 32 m + 1#32 = BitVec.ofNat 32 (m + 1) := (BitVec.ofNat_add m 1).symm
  have hrest : BitVec.ofNat 32 (n - 1) - BitVec.ofNat 32 m = BitVec.ofNat 32 (n - 1 - m) :=
    ofNat_sub (by omega)
  simp [recursiveCases, elem, combine_eq, opValue, hM]
  apply wp_qsort m need ys
  · exact ho
  · apply hleft
    · rfl
    · rfl
    · rfl
    · rfl
    · rfl
    · rfl
    · exact hpushed _ _
  intro back hback
  have hbackH : back.h = BitVec.ofNat 32 m := hback.h
  have hbackI : back.i = BitVec.ofNat 32 (n - 1) := hback.i.trans hI
  have hbackJ : back.j = cpu.e := hback.j
  have hbackK : back.k = cpu.f := hback.k
  have hbackM : back.m = cpu.c := hback.m
  have hbackO : back.o = cpu.o := hback.called_o
  have hframe : Set.EqOn back.mem cpu.mem (block cpu.c (m * cpu.e.toNat) ∪ stack cpu.o (need + 1))ᶜ :=
    hback.eqOn_called
  simp [combine_eq, opValue, hbackH, hbackI, hbackJ, hbackK, hbackM, hbackO, hnext, hrest]
  apply wp_qsort (n - 1 - m) need zs
  · exact ho
  · apply hright _ back.mem
    · rfl
    · rfl
    · rfl
    · rfl
    · rfl
    · rfl
    · exact hpushed _ _
    · exact hframe
  intro next hnext
  have hnextO : next.o = cpu.o := hnext.called_o
  have hrun := hQ next.b next.c next.d next.e next.f next.g next.h next.i next.j next.k next.l next.m next.n
    back.mem next.mem hback.sorted hframe hnext.sorted hnext.eqOn_called
  rw [← hnextO] at hrun
  exact hrun

/-- The stack is enough for the exchanges, for the comparator and for both calls. -/
theorem le_of_qsortNeed_nesting (hge : 2 ≤ n) (h : qsortNeed size.toNat depth (nesting le n xs) ≤ need) :
    size.toNat + 15 ≤ need ∧ depth + 9 ≤ need ∧
      qsortNeed size.toNat depth (nesting le (partition le n xs).1 (partition le n xs).2) + 8 ≤ need ∧
        qsortNeed size.toNat depth (nesting le (n - 1 - (partition le n xs).1)
          (behind (partition le n xs).2 ((partition le n xs).1 + 1))) + 8 ≤ need := by
  rw [nesting_of_ge hge] at h
  have hleft := (qsortNeed_add_le size.toNat depth (Nat.lt_one_add_iff.mpr (le_max_left _ _))).trans h
  have hright := (qsortNeed_add_le size.toNat depth (Nat.lt_one_add_iff.mpr (le_max_right _ _))).trans h
  rw [Nat.add_comm 1, qsortNeed] at h
  exact ⟨by omega, by omega, hleft, hright⟩

/-- The array is sorted as the abstract algorithm does it. -/
theorem qsort_run (h : Placed S qsort far start) (h' : Placed S memcpy far' start')
    (haddr : qsort.addr far start .memcpy = start') (hp : cpu.p = qsort.addr far start .qsort)
    (he : cpu.e = size) (hd : cpu.d = BitVec.ofNat 32 n) (hn : n < 2 ^ 31)
    (hneed : qsortNeed size.toNat depth (nesting le n xs) ≤ need) (hroom : Room S size cpu.c cpu.o n need)
    (hcompares : Compares S values le cpu.f cpu.c cpu.o n need depth cpu.mem)
    (hxs : ∀ t < n, element cpu.mem size cpu.c t = xs t) (hvalues : ∀ t < n, xs t ∈ values) :
    S.Leads (Sorts le n need xs cpu) cpu := by
  induction n using Nat.strongRecOn generalizing cpu need xs with
  | ind n ih =>
    rcases Nat.lt_or_ge n 2 with hsmall | hge
    · exact qsort_small h hp hd hsmall hroom ((le_qsortNeed _ _ _).trans hneed) hxs
    · have hlt : n * size.toNat < 2 ^ 32 := hroom.lt (h.holds 0 _ rfl)
      have hm : (partition le n xs).1 < n := partition_lt le xs (Nat.lt_of_lt_of_le Nat.two_pos hge)
      obtain ⟨hswap, hdepth, hleft, hright⟩ := le_of_qsortNeed_nesting hge hneed
      have hvalues' := mem_of_perm_segment
        (perm_segment_partition le xs (Nat.lt_of_lt_of_le Nat.two_pos hge)) hvalues
      have hsub : stack (cpu.o - 7#32) (need - 8 + 1) ⊆ stack cpu.o need := stack_sub_subset (by simp; omega)
      have hstored : block cpu.c (n * size.toNat) ⊆ (stack (cpu.o - 7#32) (need - 8 + 1))ᶜ :=
        hroom.stored.trans (Set.compl_subset_compl.mpr hsub)
      have hsucc : need - 8 + 1 = need - 7 := by omega
      have hdeep : cpu.o - 7#32 - 1#32 = cpu.o - 8#32 := sub_sub _ _ _
      have hroom' : Room S size cpu.c (cpu.o - 7#32 - 1#32) n (need - 8) :=
        hdeep ▸ hroom.sub (by simp; omega)
      apply qsort_split h h' haddr hp he hd hn hge hroom hswap hdepth hcompares hxs hvalues
      intro b d g hh j k l mem p hparted hkept
      rw [← hsucc] at hkept
      have hwhole : ∀ {mem' : Word → Word}, Set.EqOn mem' mem
          (block cpu.c (n * size.toNat) ∪ stack (cpu.o - 7#32) (need - 8 + 1))ᶜ →
          Set.EqOn mem' cpu.mem (block cpu.c (n * size.toNat) ∪ stack cpu.o need)ᶜ :=
        fun hmem' ↦ eqOn_union_of_saved (hmem'.trans hkept) (by simp; omega) (by simp; omega)
      apply wp_recursiveCases n (partition le n xs).1 (need - 8) (partition le n xs).2
        (behind (partition le n xs).2 ((partition le n xs).1 + 1))
      · exact hroom.stack (sub_mem_stack (by simp; omega))
      · exact he
      · exact hm
      · rfl
      · rfl
      · intro called hp hc hd he hf ho hmem
        apply ih _ hm hp he hd (by omega) (by omega)
        · rw [hc, ho]
          exact hroom'.first hm.le hlt
        · rw [hf, hc, ho]
          change Compares S values le cpu.f cpu.c (cpu.o - 7#32 - 1#32) _ _ _ _
          rw [hdeep]
          apply hcompares.first hm.le hlt (by simp; omega) (hwhole _)
          exact hmem.mono (Set.compl_subset_compl.mpr Set.subset_union_right)
        · intro t ht
          rw [hc]
          exact (element_congr (hmem.mono hstored) hlt (ht.trans hm)).trans (hparted t (ht.trans hm))
        · exact fun t ht ↦ hvalues' t (ht.trans hm)
      · intro called mem₂ hp hc hd he hf ho hmem hmem₂
        have hside : (partition le n xs).1 + 1 + (n - 1 - (partition le n xs).1) ≤ n := by omega
        apply ih _ (by omega) hp he hd (by omega) (by omega)
        · rw [hc, ho]
          exact hroom'.part hside hlt
        · rw [hf, hc, ho]
          change Compares S values le cpu.f (elemAddr size cpu.c _) (cpu.o - 7#32 - 1#32) _ _ _ _
          rw [hdeep]
          apply hcompares.part hside hlt (by simp; omega) (hwhole _)
          apply (hmem.mono (Set.compl_subset_compl.mpr Set.subset_union_right)).trans
          exact hmem₂.mono (Set.compl_subset_compl.mpr
            (Set.union_subset_union_left _ (elements_subset_first hm.le hlt)))
        · intro t ht
          rw [hc, element_behind]
          have hlater : (partition le n xs).1 + 1 + t < n := by omega
          calc
            element called.mem size cpu.c ((partition le n xs).1 + 1 + t) =
                element mem₂ size cpu.c ((partition le n xs).1 + 1 + t) :=
              element_congr (hmem.mono hstored) hlt hlater
            _ = element mem size cpu.c ((partition le n xs).1 + 1 + t) :=
              element_outside_first hmem₂ hstored hm.le hlt hlater (by omega)
            _ = _ := hparted _ hlater
        · exact fun t ht ↦ hvalues' _ (by omega)
      · intro b c d e f g hh i j k l m n' mem₂ mem₃ hsorted hmem₂ hsorted' hmem₃
        have hlast := eqOn_sides hm hlt hmem₂ hmem₃
        apply qsort_done h cpu (need - 8 + 1) rfl rfl hroom (by omega) (hlast.trans hkept)
        apply Setting.Leads.here
        refine ⟨⟨rfl, rfl⟩, rfl, rfl, rfl, rfl, rfl, rfl, rfl, ?_, ?_⟩
        · rw [quicksort_of_ge hge, ← hparted _ hm]
          exact segment_sides hstored hm hlt hmem₂ hmem₃ hsorted hsorted'
        · exact hwhole hlast

/-- With a comparator that is a total preorder on the elements, `qsort` sorts the array. -/
theorem qsort_sorts (h : Placed S qsort far start) (h' : Placed S memcpy far' start')
    (haddr : qsort.addr far start .memcpy = start') (hp : cpu.p = qsort.addr far start .qsort)
    (he : cpu.e = size) (hn : 0 ≤ cpu.d.toInt)
    (htotal : ∀ x ∈ values, ∀ y ∈ values, le x y = true ∨ le y x = true)
    (htrans : ∀ x ∈ values, ∀ y ∈ values, ∀ z ∈ values, le x y = true → le y z = true → le x z = true)
    (hvalues : ∀ t < cpu.d.toNat, element cpu.mem size cpu.c t ∈ values)
    (hneed : qsortNeed size.toNat depth (nesting le cpu.d.toNat (element cpu.mem size cpu.c)) ≤ need)
    (hroom : Room S size cpu.c cpu.o cpu.d.toNat need)
    (hcompares : Compares S values le cpu.f cpu.c cpu.o cpu.d.toNat need depth cpu.mem) :
    S.Leads (fun next ↦ Sorts le cpu.d.toNat need (element cpu.mem size cpu.c) cpu next ∧
      (segment (element next.mem size cpu.c) cpu.d.toNat).Perm
        (segment (element cpu.mem size cpu.c) cpu.d.toNat) ∧
      (segment (element next.mem size cpu.c) cpu.d.toNat).Pairwise fun x y ↦ le x y = true) cpu := by
  have hword : cpu.d = BitVec.ofNat 32 cpu.d.toNat := by
    rw [BitVec.ofNat_toNat, BitVec.setWidth_eq]
  have hbound : cpu.d.toNat < 2 ^ 31 := by
    have hsign : (0#32).sle cpu.d = true := decide_eq_true hn
    rw [zero_sle] at hsign
    exact of_decide_eq_true hsign
  apply (qsort_run h h' haddr hp he hword hbound hneed hroom hcompares (fun _ _ ↦ rfl) hvalues).mono
  intro next _ hsorts
  refine ⟨hsorts, ?_, ?_⟩
  · rw [hsorts.sorted]
    exact perm_quicksort le _ _
  · rw [hsorts.sorted]
    exact pairwise_quicksort htotal htrans hvalues

end

end

/-! ## A machine that sorts numbers -/

/-- `qsort`, then `memcpy` and `inteq`. -/
def sortInsns : List Insn :=
  insnsFrom (qsort.position fun _ ↦ 134) 0 qsort.allLines ++
    insnsFrom (memcpy.position fun _ ↦ 0) 0 memcpy.allLines ++
      insnsFrom (inteq.position fun _ ↦ 0) 0 inteq.allLines

theorem length_sortInsns : sortInsns.length = 155 := by
  decide +kernel

def sortSetting : Setting := .alone .masked sortInsns (by decide +kernel)

/-- The array follows the code. -/
def sortCpu (data : List Word) : Cpu :=
  { aloneCpu sortInsns data 0xf0000000#32 (BitVec.ofNat 32 sortInsns.length) (BitVec.ofNat 32 data.length) with
    e := 1#32
    f := 150#32
    p := qsort.addr (fun _ ↦ 134) 0#32 .qsort }

/-- Elements whose differences are right. -/
def smallNumbers : Set (Fin (1#32).toNat → Word) :=
  {x | ∀ k, -(2 ^ 30) ≤ (x k).toInt ∧ (x k).toInt < 2 ^ 30}

def leNumbers (x y : Fin (1#32).toNat → Word) : Bool := decide ((x ⟨0, by decide⟩).toInt ≤ (y ⟨0, by decide⟩).toInt)

theorem sort_placed : Placed sortSetting qsort (fun _ ↦ 134) 0#32 :=
  @Setting.alone_placed_append .masked _ _ _ _ qsort (fun _ ↦ 134) []
    (insnsFrom (memcpy.position fun _ ↦ 0) 0 memcpy.allLines ++
      insnsFrom (inteq.position fun _ ↦ 0) 0 inteq.allLines) (List.append_assoc _ _ _) (by decide +kernel)

theorem sort_memcpy_placed : Placed sortSetting memcpy (fun _ ↦ 0) 134#32 :=
  @Setting.alone_placed_append .masked _ _ _ _ memcpy (fun _ ↦ 0)
    (insnsFrom (qsort.position fun _ ↦ 134) 0 qsort.allLines)
    (insnsFrom (inteq.position fun _ ↦ 0) 0 inteq.allLines) rfl (by decide +kernel)

theorem sort_inteq_placed : Placed sortSetting inteq (fun _ ↦ 0) 150#32 :=
  @Setting.alone_placed_append .masked _ _ _ _ inteq (fun _ ↦ 0)
    (insnsFrom (qsort.position fun _ ↦ 134) 0 qsort.allLines ++
      insnsFrom (memcpy.position fun _ ↦ 0) 0 memcpy.allLines) [] (List.append_nil _).symm (by decide +kernel)

section

variable {data : List Word}

theorem slt_sub_zero {x y : Word} (hx : -(2 ^ 30) ≤ x.toInt) (hx' : x.toInt < 2 ^ 30)
    (hy : -(2 ^ 30) ≤ y.toInt) (hy' : y.toInt < 2 ^ 30) :
    (x - y).slt 0#32 = !decide (y.toInt ≤ x.toInt) := by
  have hdifference : (x - y).toInt = x.toInt - y.toInt := by
    rw [BitVec.toInt_sub]
    exact Int.bmod_eq_of_le (by omega) (by omega)
  have hzero : (0#32).toInt = 0 := rfl
  rw [BitVec.slt_eq_decide, hdifference, hzero, ← decide_not, decide_eq_decide]
  omega

theorem sortCpu_compares (base o : Word) (n need : ℕ) (mem : Word → Word) :
    Compares sortSetting smallNumbers leNumbers 150#32 base o n need 0 mem := by
  intro called i _ j _ hp hc hd _ hi hj _ _
  apply (inteq_leads sort_inteq_placed hp).mono
  rintro back - ⟨hkeeps, hb⟩
  refine ⟨hkeeps, ?_⟩
  have hfirst : ∀ t, element called.mem 1#32 base t ⟨0, by decide⟩ = called.mem (elemAddr 1#32 base t) :=
    fun t ↦ congrArg called.mem (BitVec.add_zero _)
  have hi' := hi ⟨0, by decide⟩
  have hj' := hj ⟨0, by decide⟩
  rw [leNumbers]
  rw [hfirst] at hi' hj' ⊢
  rw [hfirst, hb, hc, hd]
  exact slt_sub_zero hi'.1 hi'.2 hj'.1 hj'.2

theorem sortCpu_room (hdata : data.length ≤ 2 ^ 20) :
    Room sortSetting 1#32 (sortCpu data).c 0xf0000000#32 data.length (2 ^ 24) where
  array := by
    intro a ha
    have hlength := length_sortInsns
    have hoffset : (a - BitVec.ofNat 32 sortInsns.length).toNat < data.length * 1 := ha
    change sortInsns.length ≤ a.toNat
    rw [hlength] at hoffset ⊢
    bv_omega
  stack := by
    apply Setting.alone_stack
    rw [length_sortInsns]
    decide
  apart := by
    rw [Set.disjoint_left]
    intro a hstack ha
    have hlength := length_sortInsns
    have hoffset : (a - BitVec.ofNat 32 sortInsns.length).toNat < data.length * 1 := ha
    have hdistance : (0xf0000000#32 + 1#32 - a).toNat < 2 ^ 24 + 1 := hstack
    rw [hlength] at hoffset
    bv_omega

theorem sortCpu_element {t : ℕ} (ht : t < 2 ^ 20) (k : Fin (1#32).toNat) :
    element (sortCpu data).mem 1#32 (sortCpu data).c t k = (data[t]?).getD 0#32 := by
  have hmem : (sortCpu data).mem = aloneMem sortInsns data 0xf0000000#32 := rfl
  have hbase : (sortCpu data).c = BitVec.ofNat 32 sortInsns.length := rfl
  have hk : k = ⟨0, by decide⟩ := Subsingleton.elim (α := Fin 1) _ _
  have haddr : elemAddr 1#32 (sortCpu data).c t + BitVec.ofNat 32 0 =
      BitVec.ofNat 32 sortInsns.length + BitVec.ofNat 32 t := by
    have hone : t * (1#32).toNat = t := Nat.mul_one t
    rw [elemAddr_eq, hone, hbase]
    exact BitVec.add_zero _
  rw [hk, element, contents, haddr, hmem]
  apply aloneMem_data
  rw [length_sortInsns]
  change 155 + t < 0xf0000001
  omega

end

/-- Three numbers. -/
theorem qsort_sorts_three : sortSetting.Leads (fun next ↦
    Sorts leNumbers 3 (2 ^ 24) (element (sortCpu [3#32, 1#32, -2#32]).mem 1#32 (sortCpu [3#32, 1#32, -2#32]).c)
      (sortCpu [3#32, 1#32, -2#32]) next ∧
    (segment (element next.mem 1#32 (sortCpu [3#32, 1#32, -2#32]).c) 3).Perm
      (segment (element (sortCpu [3#32, 1#32, -2#32]).mem 1#32 (sortCpu [3#32, 1#32, -2#32]).c) 3) ∧
    (segment (element next.mem 1#32 (sortCpu [3#32, 1#32, -2#32]).c) 3).Pairwise
      fun x y ↦ leNumbers x y = true) (sortCpu [3#32, 1#32, -2#32]) := by
  have hcompares : Compares sortSetting smallNumbers leNumbers (sortCpu [3#32, 1#32, -2#32]).f
      (sortCpu [3#32, 1#32, -2#32]).c (sortCpu [3#32, 1#32, -2#32]).o 3 (2 ^ 24) 0
      (sortCpu [3#32, 1#32, -2#32]).mem := sortCpu_compares _ _ _ _ _
  refine qsort_sorts sort_placed sort_memcpy_placed rfl rfl rfl (by decide) ?_ ?_ ?_ ?_
    (sortCpu_room (by decide)) hcompares
  · intro x _ y _
    simp only [leNumbers, decide_eq_true_eq]
    exact Int.le_total _ _
  · intro x _ y _ z _ hxy hyz
    simp only [leNumbers, decide_eq_true_eq] at hxy hyz ⊢
    exact Int.le_trans hxy hyz
  · intro t (ht : t < 3) k
    rw [sortCpu_element (ht.trans (by decide))]
    match t, ht with
    | 0, _ => decide
    | 1, _ => decide
    | 2, _ => decide
  · apply (qsortNeed_mono _ _ (nesting_le _ _ _)).trans
    decide

end Tenyr.Stdlib
