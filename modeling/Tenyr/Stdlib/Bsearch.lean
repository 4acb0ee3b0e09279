import Tenyr.Lib.Words
import Tenyr.Stdlib.Inteq

/-!
# Binary search

`bsearch` keeps a first element and a count. On the right side the count is rounded up, so that the range
grows past the end of the array when it is odd.
-/

namespace Tenyr.Stdlib

open Isa Sim Lib.Words

inductive BsearchLabel where
  | bsearch | loop | less | notfound | done
  deriving DecidableEq, Repr

def bsearchLines : BsearchLabel → List (Line BsearchLabel)
  | .bsearch => pushall [.h, .i, .j]
  | .loop => [
      .insn (.assign .i (.regImm .e .compareEq 0#12)),
      .jnzrel .i .notfound] ++ (pushall [.c, .d, .e, .f] ++ [
      .insn (.assign .i (.regImm .e .shiftRightArith 1#12)),
      .insn (.assign .i (.regReg .i .multiply .f)),
      .insn (.assign .d (.regReg .d .add .i))] ++ (push (.reg .d) ++ [
      .callr .g,
      .insn (.assign .i (.reg .b))] ++ pop .b ++ popall [.c, .d, .e, .f] ++ [
      .insn (.assign .j (.regImm .i .compareEq 0#12)),
      .jnzrel .j .done,
      .insn (.assign .j (.regImm .i .compareLt 0#12)),
      .jnzrel .j .less,
      .insn (.assign .e (.regImm .e .add 1#12)),
      .insn (.assign .e (.regImm .e .shiftRightArith 1#12)),
      .insn (.assign .j (.regReg .e .multiply .f)),
      .insn (.assign .d (.regReg .d .add .j)),
      .goto .loop]))
  | .less => [.insn (.assign .e (.regImm .e .shiftRightArith 1#12)), .goto .loop]
  | .notfound => [.insn (.assign .b (.imm 0#12)), .goto .done]
  | .done => popall [.h, .i, .j] ++ ret

def bsearch : Code BsearchLabel where
  labels := [.bsearch, .loop, .less, .notfound, .done]
  lines := bsearchLines

/-! ## Ranges -/

/-- How the key compares with the elements, in order: it is above the first of them, equal to some, and
below the others. -/
structure SortedAround (outcome : ℕ → Ordering) (n : ℕ) : Prop where
  lt : ∀ i j, i ≤ j → j < n → outcome i = .lt → outcome j = .lt
  gt : ∀ i j, i ≤ j → j < n → outcome j = .gt → outcome i = .gt

/-- Searching in a range with the counts of the loop, every middle is an element. -/
inductive StaysInside (outcome : ℕ → Ordering) (n : ℕ) : ℕ → ℕ → Prop
  | empty (lo : ℕ) : StaysInside outcome n lo 0
  | found {lo e : ℕ} (hpos : 0 < e) (hmiddle : lo + e / 2 < n) (heq : outcome (lo + e / 2) = .eq) :
      StaysInside outcome n lo e
  | left {lo e : ℕ} (hpos : 0 < e) (hmiddle : lo + e / 2 < n) (hlt : outcome (lo + e / 2) = .lt)
      (hrest : StaysInside outcome n lo (e / 2)) : StaysInside outcome n lo e
  | right {lo e : ℕ} (hpos : 0 < e) (hmiddle : lo + e / 2 < n) (hgt : outcome (lo + e / 2) = .gt)
      (hword : e + 1 < 2 ^ 31) (hrest : StaysInside outcome n (lo + (e + 1) / 2) ((e + 1) / 2)) :
      StaysInside outcome n lo e

/-- The sign of an answer of the comparator. -/
def Agrees (b : Word) : Ordering → Prop
  | .lt => b.slt 0#32 = true
  | .eq => b = 0#32
  | .gt => b.slt 0#32 = false ∧ b ≠ 0#32

/-- A pointer to an element that is equal to the key, if there is one. -/
def SearchResult (outcome : ℕ → Ordering) (n : ℕ) (d f b : Word) : Prop :=
  (∃ i < n, outcome i = .eq ∧ b = d + BitVec.ofNat 32 i * f) ∨ (∀ i < n, outcome i ≠ .eq) ∧ b = 0#32

/-! ## The machine -/

section

variable {S : Setting} {Q : Cpu → Prop} {far : BsearchLabel → ℤ} {start : Word} {cpu : Cpu}
  (h : Placed S bsearch far start)

include h

theorem bsearch_start (hp : cpu.p = start) (hstack : stack cpu.o 3 ⊆ S.writable)
    (hQ : S.Leads Q { cpu with
      mem := saved cpu.mem cpu.o [cpu.h, cpu.i, cpu.j], o := cpu.o - 3#32
      p := bsearch.addr far start .loop }) : S.Leads Q cpu := by
  have hbegin : cpu.p = bsearch.addr far start .bsearch := hp.trans (BitVec.add_zero start).symm
  apply h.leads rfl hbegin
  change Wp _ _ _ _ (pushall [.h, .i, .j] ++ []) _
  exact wp_pushall (by decide) (by decide) (by decide) hstack hQ

theorem bsearch_done (hp : cpu.p = bsearch.addr far start .done) {top : Word} (ho : cpu.o = top - 3#32)
    (hQ : S.Leads Q { cpu with
      h := cpu.mem top, i := cpu.mem (top - 1#32), j := cpu.mem (top - 2#32), o := top + 1#32
      p := cpu.mem (top + 1#32) }) : S.Leads Q cpu := by
  apply h.leads rfl hp
  change Wp _ _ _ _ (bsearchLines .done) _
  have htop : cpu.o + 3#32 = top := by
    rw [ho]
    exact sub_add_cancel _ _
  simpa [bsearchLines, popall, loadall, ret, pop, combine_eq, opValue, htop, BitVec.sub_eq_add_neg]
    using hQ

theorem bsearch_less (hp : cpu.p = bsearch.addr far start .less)
    (hQ : S.Leads Q { cpu with e := cpu.e.sshiftRight 1, p := bsearch.addr far start .loop }) :
    S.Leads Q cpu := by
  apply h.leads rfl hp
  change Wp _ _ _ _ (bsearchLines .less) _
  simp [bsearchLines, combine_eq, opValue, UndefinedShifts.sar_of_lt]
  exact hQ

theorem bsearch_turn {size : ℕ} (hp : cpu.p = bsearch.addr far start .loop) (he : cpu.e ≠ 0#32)
    (hstack : stack cpu.o (size + 6) ⊆ S.writable) (Answers : Word → Prop)
    (hcall : ∀ called : Cpu, called.p = cpu.g → called.c = cpu.c →
      called.d = cpu.d + cpu.e.sshiftRight 1 * cpu.f → called.o = cpu.o - 6#32 →
        Set.EqOn called.mem cpu.mem (stack cpu.o 6)ᶜ →
          S.Leads (fun back ↦ Keeps size called back ∧ Answers back.b) called)
    (hdone : Answers 0#32 → ∀ i j mem, Set.EqOn mem cpu.mem (stack cpu.o (size + 6))ᶜ →
      S.Leads Q { cpu with
        b := cpu.d + cpu.e.sshiftRight 1 * cpu.f, i, j, mem, p := bsearch.addr far start .done })
    (hless : ∀ answer : Word, Answers answer → answer.slt 0#32 → ∀ b i j mem,
      Set.EqOn mem cpu.mem (stack cpu.o (size + 6))ᶜ → S.Leads Q { cpu with
        b, i, j, mem, e := cpu.e.sshiftRight 1, p := bsearch.addr far start .loop })
    (hmore : ∀ answer : Word, Answers answer → answer ≠ 0#32 → ¬ answer.slt 0#32 → ∀ b i j mem,
      Set.EqOn mem cpu.mem (stack cpu.o (size + 6))ᶜ → S.Leads Q { cpu with
        b, i, j, mem, d := cpu.d + (cpu.e + 1#32).sshiftRight 1 * cpu.f
        e := (cpu.e + 1#32).sshiftRight 1, p := bsearch.addr far start .loop }) : S.Leads Q cpu := by
  apply h.leads rfl hp
  change Wp _ _ _ _ (bsearchLines .loop) _
  have hsize : size + 6 < 2 ^ 32 := Setting.stack_lt (h.holds 0 _ rfl) hstack
  have hcell : ∀ x : Word, x.toNat < size + 6 → cpu.o - x ∈ S.writable :=
    fun x hx ↦ hstack (sub_mem_stack hx)
  simp [bsearchLines, combine_eq, opValue]
  rw [wp_jnzrel rfl, if_neg (by simpa using he)]
  apply wp_pushall (by decide) (by decide) (by decide)
  · exact (stack_subset (Nat.le_trans (by decide) (Nat.le_add_left 6 size))).trans hstack
  simp [combine_eq, opValue, UndefinedShifts.sar_of_lt]
  apply wp_push
  · exact hcell 4#32 (by simp)
  simp [combine_eq, opValue]
  generalize htest : cpu.d + cpu.e.sshiftRight 1 * cpu.f = test at hcall hdone ⊢
  have htop : cpu.o - 4#32 - 1#32 = cpu.o - 5#32 := sub_sub cpu.o 4#32 1#32
  have hpushed : Function.update (saved cpu.mem cpu.o [cpu.c, cpu.d, cpu.e, cpu.f]) (cpu.o - 4#32) test =
      saved cpu.mem cpu.o ([cpu.c, cpu.d, cpu.e, cpu.f] ++ [test]) := (saved_concat test (by simp)).symm
  rw [htop, hpushed]
  apply wp_callr rfl
  · exact hcell 5#32 (by simp)
  · apply hcall
    · rfl
    · rfl
    · rfl
    · exact sub_sub cpu.o 5#32 1#32
    · exact eqOn_update_saved _ (by decide) (by simp)
  · intro b c d mem' hanswer hkept
    have hframe : Set.EqOn mem' cpu.mem (stack cpu.o (size + 6))ᶜ :=
      eqOn_of_saved hkept (Nat.le_of_eq (Nat.add_comm 5 (size + 1))) (Nat.le_add_left 5 (size + 1))
    have hread : ∀ x : Word, size + 1 ≤ (-(5#32 + x)).toNat → mem' (cpu.o + x) =
        ([cpu.c, cpu.d, cpu.e, cpu.f, test][(-x).toNat]?).getD (cpu.mem (cpu.o + x)) :=
      fun x hx ↦ (hkept (notMem_stack hx)).trans (saved_add x)
    have hc := hread 0#32 (by simp; omega)
    have hd := hread (-1#32) (by simp; omega)
    have he' := hread (-2#32) (by simp; omega)
    have hf := hread (-3#32) (by simp; omega)
    have htest' := hread (-4#32) (by simp; omega)
    have hfirst : cpu.o - 5#32 + 1#32 = cpu.o + 4294967292#32 := by bv_omega
    have hsecond : cpu.o + 4294967292#32 + 4#32 = cpu.o := by bv_omega
    simp at hc hd he' hf htest'
    simp [popall, loadall, pop, combine_eq, opValue, hfirst, hsecond, hc, hd, he', hf, htest']
    rw [wp_jnzrel rfl]
    split
    · rename_i hzero
      have hb : b = 0#32 := by simpa using hzero
      exact hdone (hb ▸ hanswer) _ _ _ hframe
    · rename_i hne
      simp [combine_eq, opValue]
      rw [wp_jnzrel rfl]
      split
      · rename_i hneg
        apply bsearch_less h rfl
        exact hless b hanswer hneg _ _ _ _ hframe
      · rename_i hpos
        simp [combine_eq, opValue, UndefinedShifts.sar_of_lt]
        exact hmore b hanswer (by simpa using hne) hpos _ _ _ _ hframe

theorem bsearch_notfound (hp : cpu.p = bsearch.addr far start .loop) (he : cpu.e = 0#32)
    (hQ : ∀ i, S.Leads Q { cpu with b := 0#32, i, p := bsearch.addr far start .done }) :
    S.Leads Q cpu := by
  apply h.leads rfl hp
  change Wp _ _ _ _ (bsearchLines .loop) _
  simp [bsearchLines, combine_eq, opValue]
  rw [wp_jnzrel rfl, if_pos (by simpa using he)]
  apply h.leads rfl rfl
  change Wp _ _ _ _ (bsearchLines .notfound) _
  simp [bsearchLines, combine_eq, opValue]
  exact hQ _

omit h in
/-- Where the middle of a range is. -/
theorem middle_eq {lo e : ℕ} {d : Word} (hsmall : e < 2 ^ 31) (he : cpu.e = BitVec.ofNat 32 e)
    (hd : cpu.d = d + BitVec.ofNat 32 lo * cpu.f) :
    cpu.d + cpu.e.sshiftRight 1 * cpu.f = d + BitVec.ofNat 32 (lo + e / 2) * cpu.f := by
  rw [he, sshiftRight_ofNat hsmall, Nat.pow_one, hd, BitVec.ofNat_add, BitVec.add_mul, BitVec.add_assoc]

/-- One turn, at an element. -/
theorem bsearch_probe {outcome : Ordering} {size lo e : ℕ} {mem : Word → Word} {d : Word}
    (hpos : 0 < e) (hsmall : e < 2 ^ 31) (hp : cpu.p = bsearch.addr far start .loop)
    (he : cpu.e = BitVec.ofNat 32 e) (hd : cpu.d = d + BitVec.ofNat 32 lo * cpu.f)
    (hstack : stack cpu.o (size + 6) ⊆ S.writable)
    (hmem : Set.EqOn cpu.mem mem (stack cpu.o (size + 6))ᶜ)
    (hcall : ∀ called : Cpu, called.p = cpu.g → called.c = cpu.c →
      called.d = d + BitVec.ofNat 32 (lo + e / 2) * cpu.f → called.o = cpu.o - 6#32 →
        Set.EqOn called.mem mem (stack cpu.o (size + 6))ᶜ →
          S.Leads (fun back ↦ Keeps size called back ∧ Agrees back.b outcome) called)
    (hfound : outcome = .eq → ∀ i j mem', Set.EqOn mem' mem (stack cpu.o (size + 6))ᶜ → S.Leads Q { cpu with
      b := d + BitVec.ofNat 32 (lo + e / 2) * cpu.f, i, j, mem := mem'
      p := bsearch.addr far start .done })
    (hless : outcome = .lt → ∀ b i j mem', Set.EqOn mem' mem (stack cpu.o (size + 6))ᶜ → S.Leads Q { cpu with
      b, i, j, mem := mem', e := BitVec.ofNat 32 (e / 2), p := bsearch.addr far start .loop })
    (hmore : outcome = .gt → ∀ b i j mem', Set.EqOn mem' mem (stack cpu.o (size + 6))ᶜ → S.Leads Q { cpu with
      b, i, j, mem := mem', d := cpu.d + (cpu.e + 1#32).sshiftRight 1 * cpu.f
      e := (cpu.e + 1#32).sshiftRight 1, p := bsearch.addr far start .loop }) : S.Leads Q cpu := by
  have hhalf : cpu.e.sshiftRight 1 = BitVec.ofNat 32 (e / 2) := by
    rw [he, sshiftRight_ofNat hsmall, Nat.pow_one]
  have htest := middle_eq hsmall he hd
  have hnonzero : cpu.e ≠ 0#32 := he ▸ ofNat_ne_zero hpos hsmall
  apply bsearch_turn h hp hnonzero hstack fun b ↦ Agrees b outcome
  · intro called hp hc hd ho hkept
    apply hcall called hp hc (hd.trans htest) ho
    exact (hkept.mono (Set.compl_subset_compl.mpr (stack_subset (Nat.le_add_left 6 size)))).trans hmem
  · intro hagrees i j mem' hkept
    rw [htest]
    refine hfound ?_ i j mem' (hkept.trans hmem)
    cases outcome with
    | lt => exact absurd hagrees (by decide : ¬ (0#32).slt 0#32 = true)
    | eq => rfl
    | gt => exact absurd rfl hagrees.2
  · intro answer hagrees hneg b i j mem' hkept
    rw [hhalf]
    refine hless ?_ b i j mem' (hkept.trans hmem)
    cases outcome with
    | lt => rfl
    | eq =>
      rw [Agrees] at hagrees
      rw [hagrees] at hneg
      exact absurd hneg (by decide)
    | gt =>
      rw [hagrees.1] at hneg
      cases hneg
  · intro answer hagrees hne hpos b i j mem' hkept
    refine hmore ?_ b i j mem' (hkept.trans hmem)
    cases outcome with
    | lt => exact absurd hagrees hpos
    | eq => exact absurd hagrees hne
    | gt => rfl

/-- The loop ends, as long as it looks at elements, and has found what there is. -/
theorem bsearch_loop {outcome : ℕ → Ordering} {n size lo e : ℕ} {mem : Word → Word} {d : Word}
    (hinside : StaysInside outcome n lo e) (hsorted : SortedAround outcome n)
    (hrange : ∀ i < n, outcome i = .eq → lo ≤ i ∧ i < lo + e) (hsmall : e < 2 ^ 31)
    (hp : cpu.p = bsearch.addr far start .loop) (he : cpu.e = BitVec.ofNat 32 e)
    (hd : cpu.d = d + BitVec.ofNat 32 lo * cpu.f) (hstack : stack cpu.o (size + 6) ⊆ S.writable)
    (hmem : Set.EqOn cpu.mem mem (stack cpu.o (size + 6))ᶜ)
    (hcall : ∀ called : Cpu, ∀ i < n, called.p = cpu.g → called.c = cpu.c →
      called.d = d + BitVec.ofNat 32 i * cpu.f → called.o = cpu.o - 6#32 →
        Set.EqOn called.mem mem (stack cpu.o (size + 6))ᶜ →
          S.Leads (fun back ↦ Keeps size called back ∧ Agrees back.b (outcome i)) called)
    (hQ : ∀ b d' e i j mem', Set.EqOn mem' mem (stack cpu.o (size + 6))ᶜ →
      SearchResult outcome n d cpu.f b → S.Leads Q { cpu with
        b, d := d', e, i, j, mem := mem', p := bsearch.addr far start .done }) : S.Leads Q cpu := by
  induction hinside generalizing cpu with
  | empty lo =>
    apply bsearch_notfound h hp he
    intro i
    apply hQ _ _ _ _ _ _ hmem
    refine .inr ⟨?_, rfl⟩
    intro i hi heq
    obtain ⟨hle, hlt⟩ := hrange i hi heq
    omega
  | @found lo e hpos hmiddle heq =>
    apply bsearch_probe h hpos hsmall hp he hd hstack hmem (fun called ↦ hcall called _ hmiddle)
    · intro _ i j mem' hmem'
      exact hQ _ _ _ _ _ _ hmem' (.inl ⟨_, hmiddle, heq, rfl⟩)
    · exact fun hlt ↦ nomatch heq.symm.trans hlt
    · exact fun hgt ↦ nomatch heq.symm.trans hgt
  | @left lo e hpos hmiddle hlt hrest ih =>
    apply bsearch_probe h hpos hsmall hp he hd hstack hmem (fun called ↦ hcall called _ hmiddle)
    · exact fun heq ↦ nomatch hlt.symm.trans heq
    · intro _ b i j mem' hmem'
      apply ih
      · intro i hi heq
        refine ⟨(hrange i hi heq).1, ?_⟩
        by_contra hge
        have hafter := hsorted.lt _ i (Nat.not_lt.mp hge) hi hlt
        exact nomatch heq.symm.trans hafter
      · omega
      · rfl
      · rfl
      · exact hd
      · exact hstack
      · exact hmem'
      · exact hcall
      · exact hQ
    · exact fun hgt ↦ nomatch hlt.symm.trans hgt
  | @right lo e hpos hmiddle hgt hword hrest ih =>
    have hhalf : (cpu.e + 1#32).sshiftRight 1 = BitVec.ofNat 32 ((e + 1) / 2) := by
      rw [he, ← BitVec.ofNat_add, sshiftRight_ofNat hword, Nat.pow_one]
    apply bsearch_probe h hpos hsmall hp he hd hstack hmem (fun called ↦ hcall called _ hmiddle)
    · exact fun heq ↦ nomatch hgt.symm.trans heq
    · exact fun hlt ↦ nomatch hgt.symm.trans hlt
    · intro _ b i j mem' hmem'
      rw [hhalf]
      apply ih
      · intro i hi heq
        have hupper := (hrange i hi heq).2
        have hlower : lo + e / 2 < i := by
          by_contra hle
          have hbefore := hsorted.gt i _ (Nat.not_lt.mp hle) hmiddle hgt
          exact nomatch heq.symm.trans hbefore
        omega
      · omega
      · rfl
      · rfl
      · change cpu.d + _ * cpu.f = _
        rw [hd, BitVec.ofNat_add, BitVec.add_mul, BitVec.add_assoc]
      · exact hstack
      · exact hmem'
      · exact hcall
      · exact hQ

/-- A turn at a place that the comparator takes for the key. -/
theorem bsearch_beyond {size : ℕ} {mem : Word → Word} {test : Word}
    (hp : cpu.p = bsearch.addr far start .loop) (he : cpu.e ≠ 0#32)
    (htest : cpu.d + cpu.e.sshiftRight 1 * cpu.f = test) (hstack : stack cpu.o (size + 6) ⊆ S.writable)
    (hmem : Set.EqOn cpu.mem mem (stack cpu.o (size + 6))ᶜ)
    (hcall : ∀ called : Cpu, called.p = cpu.g → called.c = cpu.c → called.d = test →
      called.o = cpu.o - 6#32 → Set.EqOn called.mem mem (stack cpu.o (size + 6))ᶜ →
        S.Leads (fun back ↦ Keeps size called back ∧ back.b = 0#32) called)
    (hQ : ∀ i j mem', Set.EqOn mem' mem (stack cpu.o (size + 6))ᶜ → S.Leads Q { cpu with
      b := test, i, j, mem := mem', p := bsearch.addr far start .done }) : S.Leads Q cpu := by
  apply bsearch_turn h hp he hstack fun b ↦ b = 0#32
  · intro called hp hc hd ho hkept
    apply hcall called hp hc (hd.trans htest) ho
    exact (hkept.mono (Set.compl_subset_compl.mpr (stack_subset (Nat.le_add_left 6 size)))).trans hmem
  · intro _ i j mem' hkept
    rw [htest]
    exact hQ i j mem' (hkept.trans hmem)
  · intro answer hzero hneg
    rw [hzero] at hneg
    exact absurd hneg (by decide)
  · exact fun answer hzero hne ↦ absurd hzero hne

/-- With a comparator that takes what is beyond the array for the key, the search ends there once it
does not stay inside. -/
theorem bsearch_outside {outcome : ℕ → Ordering} {n size lo e : ℕ} {mem : Word → Word} {d : Word}
    (hn : n < 2 ^ 31) (hnot : ¬ StaysInside outcome n lo e) (hlo : lo ≤ n) (hle : e ≤ n)
    (hp : cpu.p = bsearch.addr far start .loop) (he : cpu.e = BitVec.ofNat 32 e)
    (hd : cpu.d = d + BitVec.ofNat 32 lo * cpu.f) (hstack : stack cpu.o (size + 6) ⊆ S.writable)
    (hmem : Set.EqOn cpu.mem mem (stack cpu.o (size + 6))ᶜ)
    (hcall : ∀ called : Cpu, ∀ i < n, called.p = cpu.g → called.c = cpu.c →
      called.d = d + BitVec.ofNat 32 i * cpu.f → called.o = cpu.o - 6#32 →
        Set.EqOn called.mem mem (stack cpu.o (size + 6))ᶜ →
          S.Leads (fun back ↦ Keeps size called back ∧ Agrees back.b (outcome i)) called)
    (hbeyond : ∀ called : Cpu, ∀ w : Word, n ≤ w.toNat → w.toNat < 0xe0000000 → called.p = cpu.g →
      called.c = cpu.c → called.d = d + w * cpu.f → called.o = cpu.o - 6#32 →
        Set.EqOn called.mem mem (stack cpu.o (size + 6))ᶜ →
          S.Leads (fun back ↦ Keeps size called back ∧ back.b = 0#32) called)
    (hQ : ∀ w : Word, n ≤ w.toNat → w.toNat < 0xe0000000 → ∀ d' e i j mem',
      Set.EqOn mem' mem (stack cpu.o (size + 6))ᶜ → S.Leads Q { cpu with
        b := d + w * cpu.f, d := d', e, i, j, mem := mem', p := bsearch.addr far start .done }) :
    S.Leads Q cpu := by
  induction hmeasure : n - lo + e using Nat.strongRecOn generalizing cpu lo e with
  | ind measure ih =>
    have hpos : 0 < e := by
      rw [Nat.pos_iff_ne_zero]
      rintro rfl
      exact hnot (.empty lo)
    have hsmall : e < 2 ^ 31 := by omega
    rcases Nat.lt_or_ge (lo + e / 2) n with hmiddle | hpast
    · apply bsearch_probe h hpos hsmall hp he hd hstack hmem (fun called ↦ hcall called _ hmiddle)
      · exact fun heq ↦ absurd (.found hpos hmiddle heq) hnot
      · intro hlt b i j mem' hmem'
        apply ih (n - lo + e / 2) (by omega)
        · exact fun hinside ↦ hnot (.left hpos hmiddle hlt hinside)
        · exact hlo
        · omega
        · rfl
        · rfl
        · exact hd
        · exact hstack
        · exact hmem'
        · exact hcall
        · exact hbeyond
        · exact hQ
        · rfl
      · intro hgt b i j mem' hmem'
        rcases Nat.lt_or_ge (e + 1) (2 ^ 31) with hword | hlarge
        · have hhalf : (cpu.e + 1#32).sshiftRight 1 = BitVec.ofNat 32 ((e + 1) / 2) := by
            rw [he, ← BitVec.ofNat_add, sshiftRight_ofNat hword, Nat.pow_one]
          rw [hhalf]
          apply ih (n - (lo + (e + 1) / 2) + (e + 1) / 2) (by omega)
          · exact fun hinside ↦ hnot (.right hpos hmiddle hgt hword hinside)
          · omega
          · omega
          · rfl
          · rfl
          · change cpu.d + _ * cpu.f = _
            rw [hd, BitVec.ofNat_add, BitVec.add_mul, BitVec.add_assoc]
          · exact hstack
          · exact hmem'
          · exact hcall
          · exact hbeyond
          · exact hQ
          · rfl
        · -- the count itself becomes negative
          have hhalf : (cpu.e + 1#32).sshiftRight 1 = 0xc0000000#32 := by
            obtain rfl : e = 2 ^ 31 - 1 := by omega
            rw [he]
            decide
          have hlow : lo + (2 ^ 30 - 1) < n := by omega
          have hw : (BitVec.ofNat 32 lo + 0xa0000000#32).toNat = lo + 0xa0000000 := by
            rw [BitVec.toNat_add, BitVec.toNat_ofNat]
            change (lo % 2 ^ 32 + 0xa0000000) % 2 ^ 32 = _
            omega
          have htest : cpu.d + 0xc0000000#32 * cpu.f + (0xc0000000#32).sshiftRight 1 * cpu.f =
              d + (BitVec.ofNat 32 lo + 0xa0000000#32) * cpu.f := by
            have hsum : 0xa0000000#32 = 0xc0000000#32 + (0xc0000000#32).sshiftRight 1 := by decide
            rw [hd, hsum, BitVec.add_mul, BitVec.add_mul, BitVec.add_assoc, BitVec.add_assoc]
          rw [hhalf]
          apply bsearch_beyond h
          · rfl
          · exact (by decide : 0xc0000000#32 ≠ 0#32)
          · exact htest
          · exact hstack
          · exact hmem'
          · exact fun called ↦ hbeyond called _ (by omega) (by omega)
          · exact fun i j mem' hmem' ↦ hQ _ (by omega) (by omega) _ _ _ _ mem' hmem'
    · have hw : (BitVec.ofNat 32 (lo + e / 2)).toNat = lo + e / 2 := by
        rw [BitVec.toNat_ofNat]
        exact Nat.mod_eq_of_lt (by omega)
      apply bsearch_beyond h hp (he ▸ ofNat_ne_zero hpos hsmall) (middle_eq hsmall he hd) hstack hmem
      · exact fun called ↦ hbeyond called _ (by omega) (by omega)
      · exact fun i j mem' hmem' ↦ hQ _ (by omega) (by omega) _ _ _ _ mem' hmem'

/-- The whole run around the loop. -/
theorem bsearch_run {size : ℕ} (hp : cpu.p = start) (hstack : stack cpu.o (size + 9) ⊆ S.writable)
    (Result : Word → Prop)
    (hloop : ∀ begun : Cpu, begun.p = bsearch.addr far start .loop → begun.c = cpu.c → begun.d = cpu.d →
      begun.e = cpu.e → begun.f = cpu.f → begun.g = cpu.g → begun.o = cpu.o - 3#32 →
        Set.EqOn begun.mem cpu.mem (stack cpu.o (size + 9))ᶜ →
          (∀ b d e i j mem, Set.EqOn mem begun.mem (stack begun.o (size + 6))ᶜ → Result b →
            S.Leads Q { begun with b, d, e, i, j, mem, p := bsearch.addr far start .done }) →
          S.Leads Q begun)
    (hQ : ∀ next, Returns cpu next → Result next.b → Q next) : S.Leads Q cpu := by
  apply bsearch_start h hp ((stack_subset (Nat.le_add_left 3 (size + 6))).trans hstack)
  apply hloop
  · rfl
  · rfl
  · rfl
  · rfl
  · rfl
  · rfl
  · rfl
  · exact eqOn_saved.mono (Set.compl_subset_compl.mpr (stack_subset (Nat.le_add_left 3 (size + 6))))
  · intro b d e i j mem hmem hresult
    apply bsearch_done h rfl rfl
    apply Setting.Leads.here
    have hsize : size + 9 < 2 ^ 32 := Setting.stack_lt (h.holds 0 _ rfl) hstack
    have hreturn : mem (cpu.o + 1#32) = cpu.mem (cpu.o + 1#32) := by
      refine (hmem (notMem_stack ?_)).trans (by simp)
      simp
      omega
    exact hQ _ ⟨hreturn, rfl⟩ hresult

omit h

end

/-- The comparator at `G`, called by `bsearch` with the key and an element, answers how they compare. -/
def ComparesElements (S : Setting) (cpu : Cpu) (size n : ℕ) (outcome : ℕ → Ordering) : Prop :=
  ∀ called : Cpu, ∀ i < n, called.p = cpu.g → called.c = cpu.c →
    called.d = cpu.d + BitVec.ofNat 32 i * cpu.f → called.o = cpu.o - 9#32 →
      Set.EqOn called.mem cpu.mem (stack cpu.o (size + 9))ᶜ →
        S.Leads (fun back ↦ Keeps size called back ∧ Agrees back.b (outcome i)) called

/-- With any comparator that is right about elements, `bsearch` ends with a pointer to an element that
is equal to the key, or with zero if there is none. -/
def BsearchRight (outcome : ℕ → Ordering) (n : ℕ) : Prop :=
  ∀ (S : Setting) (far : BsearchLabel → ℤ) (start : Word) (cpu : Cpu) (size : ℕ), Placed S bsearch far start →
    stack cpu.o (size + 9) ⊆ S.writable → cpu.p = start → cpu.e = BitVec.ofNat 32 n →
      ComparesElements S cpu size n outcome →
        S.Leads (fun next ↦ Returns cpu next ∧ SearchResult outcome n cpu.d cpu.f next.b) cpu

theorem bsearchRight_of_staysInside {outcome : ℕ → Ordering} {n : ℕ} (hn : n < 2 ^ 31)
    (hsorted : SortedAround outcome n) (hinside : StaysInside outcome n 0 n) : BsearchRight outcome n := by
  intro S far start cpu size hplaced hstack hp he hcompares
  apply bsearch_run hplaced hp hstack (SearchResult outcome n cpu.d cpu.f)
  · intro begun hp hc hd he' hf hg ho hmem hQ
    have hsub : stack begun.o (size + 6) ⊆ stack cpu.o (size + 9) := by
      rw [ho]
      exact stack_sub_subset (Nat.le_of_eq (Nat.add_comm 3 (size + 6)))
    apply bsearch_loop hplaced hinside hsorted (d := cpu.d)
    · exact fun i hi _ ↦ ⟨Nat.zero_le i, by omega⟩
    · exact hn
    · exact hp
    · exact he'.trans he
    · rw [BitVec.zero_mul, BitVec.add_zero]
      exact hd
    · exact hsub.trans hstack
    · exact fun _ _ ↦ rfl
    · intro called i hi hp hc' hd' ho' hkept
      apply hcompares called i hi (hp.trans hg) (hc'.trans hc)
      · rw [hd', hf]
      · rw [ho', ho, sub_sub]
        rfl
      · exact (hkept.mono (Set.compl_subset_compl.mpr hsub)).trans hmem
    · intro b d' e i j mem' hmem' hresult
      rw [hf] at hresult
      exact hQ b d' e i j mem' hmem' hresult
  · exact fun next hreturns hresult ↦ ⟨hreturns, hresult⟩

/-! ## A machine with a comparator -/

/-- An element that compares so with a key that is zero. -/
def elementFor : Ordering → Word
  | .lt => 1#32
  | .eq => 0#32
  | .gt => -1#32

theorem agrees_elementFor (outcome : Ordering) : Agrees (0#32 - elementFor outcome) outcome := by
  cases outcome with
  | lt => exact (by decide : (0#32 - 1#32).slt 0#32 = true)
  | eq => exact (by decide : 0#32 - 0#32 = 0#32)
  | gt => exact (by decide : (0#32 - -1#32).slt 0#32 = false ∧ 0#32 - -1#32 ≠ 0#32)

/-- `bsearch`, and `inteq` behind it. -/
def searchInsns : List Insn :=
  insnsFrom (bsearch.position fun _ ↦ 0) 0 bsearch.allLines ++
    insnsFrom (inteq.position fun _ ↦ 0) 0 inteq.allLines

theorem length_searchInsns : searchInsns.length = 51 := by
  decide

def searchSetting : Setting := .alone .masked searchInsns (by decide)

theorem searchSetting_stack : stack 0xf0000000#32 9 ⊆ searchSetting.writable := by
  apply Setting.alone_stack
  rw [length_searchInsns]
  decide

/-- The array follows the code; the key is zero, and so are the words behind the array. -/
def searchCpu (outcome : ℕ → Ordering) (n : ℕ) : Cpu :=
  { aloneCpu searchInsns ((List.range n).map fun i ↦ elementFor (outcome i)) 0xf0000000#32 0xe8000000#32
      (BitVec.ofNat 32 searchInsns.length) with
    e := BitVec.ofNat 32 n
    f := 1#32
    g := BitVec.ofNat 32 (insnsFrom (bsearch.position fun _ ↦ 0) 0 bsearch.allLines).length }

theorem searchPlaced : Placed searchSetting bsearch (fun _ ↦ 0) 0#32 :=
  @Setting.alone_placed_append .masked _ _ _ _ bsearch (fun _ ↦ 0) []
    (insnsFrom (inteq.position fun _ ↦ 0) 0 inteq.allLines) rfl (by decide)

theorem inteqPlaced : Placed searchSetting inteq (fun _ ↦ 0) (searchCpu (fun _ ↦ .eq) 0).g :=
  @Setting.alone_placed_append .masked _ _ _ _ inteq (fun _ ↦ 0)
    (insnsFrom (bsearch.position fun _ ↦ 0) 0 bsearch.allLines) [] (List.append_nil _).symm (by decide)

section

variable {outcome : ℕ → Ordering} {n : ℕ}

/-- Words behind the code, as long as only the stack has been written to. -/
theorem searchCpu_mem {mem : Word → Word}
    (hmem : Set.EqOn mem (searchCpu outcome n).mem (stack 0xf0000000#32 9)ᶜ) {k : ℕ} (hk : k < 0xe8000000) :
    mem (BitVec.ofNat 32 searchInsns.length + BitVec.ofNat 32 k) =
      if k < n then elementFor (outcome k) else 0#32 := by
  have hlength := length_searchInsns
  rw [hmem]
  · refine (aloneMem_data ?_).trans ?_
    · change searchInsns.length + k < 0xf0000001
      omega
    · split
      · rename_i hlt
        rw [List.getElem?_map, List.getElem?_range hlt]
        rfl
      · rename_i hge
        rw [List.getElem?_eq_none (by simpa using hge)]
        rfl
  · intro hstack
    have hdistance : (0xf0000000#32 - (BitVec.ofNat 32 searchInsns.length + BitVec.ofNat 32 k)).toNat < 9 :=
      hstack
    rw [← BitVec.ofNat_add] at hdistance
    bv_omega

/-- What `inteq` answers when it is called. -/
theorem searchCpu_calls {called : Cpu} (hn : n < 2 ^ 31)
    (hmem : Set.EqOn called.mem (searchCpu outcome n).mem (stack 0xf0000000#32 9)ᶜ)
    (hp : called.p = (searchCpu outcome n).g) (hc : called.c = 0xe8000000#32) {k : ℕ}
    (hk : k < 0xe8000000)
    (hd : called.d = BitVec.ofNat 32 searchInsns.length + BitVec.ofNat 32 k) :
    searchSetting.Leads (fun back ↦ Keeps 0 called back ∧
      back.b = 0#32 - if k < n then elementFor (outcome k) else 0#32) called := by
  have hkey : called.mem 0xe8000000#32 = 0#32 := by
    have hlength := length_searchInsns
    have hbehind := searchCpu_mem hmem (k := 0xe8000000 - searchInsns.length) (by omega)
    rw [if_neg (by omega)] at hbehind
    exact hbehind
  apply (inteq_leads inteqPlaced hp).mono
  rintro back - ⟨hkeeps, hb⟩
  rw [hc, hkey, hd, searchCpu_mem hmem hk] at hb
  exact ⟨hkeeps, hb⟩

theorem searchCpu_compares (hn : n < 2 ^ 31) :
    ComparesElements searchSetting (searchCpu outcome n) 0 n outcome := by
  intro called i hi hp hc hd ho hmem
  have hat : called.d = BitVec.ofNat 32 searchInsns.length + BitVec.ofNat 32 i := by
    rw [hd]
    exact congrArg _ (BitVec.mul_one _)
  apply (searchCpu_calls hn hmem hp hc (by omega) hat).mono
  rintro back - ⟨hkeeps, hb⟩
  rw [if_pos hi] at hb
  exact ⟨hkeeps, hb ▸ agrees_elementFor (outcome i)⟩

/-- When the search does not stay inside the array, it ends with a pointer that is not to an element. -/
theorem searchCpu_leads (hn : n < 2 ^ 31) (hnot : ¬ StaysInside outcome n 0 n) :
    searchSetting.Leads (fun next ↦ Returns (searchCpu outcome n) next ∧
      ∃ w : Word, n ≤ w.toNat ∧ w.toNat < 0xe0000000 ∧
        next.b = BitVec.ofNat 32 searchInsns.length + w) (searchCpu outcome n) := by
  have hstack : stack (searchCpu outcome n).o (0 + 9) ⊆ searchSetting.writable := searchSetting_stack
  apply bsearch_run searchPlaced rfl hstack fun b ↦ ∃ w : Word, n ≤ w.toNat ∧
    w.toNat < 0xe0000000 ∧ b = BitVec.ofNat 32 searchInsns.length + w
  · intro begun hp hc hd he hf hg ho hmem hQ
    have ho' : begun.o = 0xf0000000#32 - 3#32 := ho
    have hc' : begun.c = 0xe8000000#32 := hc
    have hf' : begun.f = 1#32 := hf
    have hsub : stack begun.o (0 + 6) ⊆ stack 0xf0000000#32 9 := by
      rw [ho']
      exact stack_sub_subset (by decide)
    have hkeeps : ∀ called : Cpu, Set.EqOn called.mem begun.mem (stack begun.o (0 + 6))ᶜ →
        Set.EqOn called.mem (searchCpu outcome n).mem (stack 0xf0000000#32 9)ᶜ :=
      fun called hkept ↦ (hkept.mono (Set.compl_subset_compl.mpr hsub)).trans hmem
    have hplace : ∀ w : Word, BitVec.ofNat 32 searchInsns.length + w * 1#32 =
        BitVec.ofNat 32 searchInsns.length + BitVec.ofNat 32 w.toNat := by
      intro w
      rw [BitVec.mul_one, BitVec.ofNat_toNat, BitVec.setWidth_eq]
    apply bsearch_outside searchPlaced hn hnot (Nat.zero_le n) (Nat.le_refl n) hp he
      (d := BitVec.ofNat 32 searchInsns.length)
    · rw [BitVec.zero_mul, BitVec.add_zero]
      exact hd
    · exact hsub.trans searchSetting_stack
    · exact fun _ _ ↦ rfl
    · intro called i hi hp hc hd ho hkept
      apply searchCpu_compares hn called i hi (hp.trans hg) (hc.trans hc')
      · rw [hf'] at hd
        exact hd
      · rw [ho, ho']
        exact sub_sub 0xf0000000#32 3#32 6#32
      · exact hkeeps called hkept
    · intro called w hw hw' hp hc hd ho hkept
      have hat : called.d = BitVec.ofNat 32 searchInsns.length + BitVec.ofNat 32 w.toNat := by
        rw [hd, hf', hplace]
      apply (searchCpu_calls hn (hkeeps called hkept) (hp.trans hg) (hc.trans hc') (by omega) hat).mono
      rintro back - ⟨hback, hb⟩
      rw [if_neg (by omega)] at hb
      exact ⟨hback, hb⟩
    · intro w hw hw' d e i j mem hmem
      apply hQ _ d e i j mem hmem
      refine ⟨w, hw, hw', ?_⟩
      rw [hf', BitVec.mul_one]
  · exact fun next hreturns hresult ↦ ⟨hreturns, hresult⟩

end

theorem staysInside_of_bsearchRight {outcome : ℕ → Ordering} {n : ℕ} (hn : n < 2 ^ 31)
    (hright : BsearchRight outcome n) : StaysInside outcome n 0 n := by
  by_contra hnot
  have hloaded : searchSetting.Loaded (searchCpu outcome n).mem := by
    apply Setting.alone_loaded
    rw [length_searchInsns]
    decide
  have hreturn : aloneMem searchInsns ((List.range n).map fun i ↦ elementFor (outcome i)) 0xf0000000#32
      (0xf0000000#32 + 1#32) = 0xffffffff#32 := if_pos rfl
  have hlength := length_searchInsns
  obtain ⟨next, ⟨-, hresult⟩, -, w, hw, hw', hb⟩ :=
    (hright searchSetting _ 0#32 (searchCpu outcome n) 0 searchPlaced searchSetting_stack rfl rfl
      (searchCpu_compares hn)).and_of_end (searchCpu_leads hn hnot) hloaded
        (fun next h ↦ h.1.p.trans hreturn) (fun next h ↦ h.1.p.trans hreturn)
  rcases hresult with ⟨i, hi, -, hb'⟩ | ⟨-, hb'⟩
  · have hsame : BitVec.ofNat 32 i * 1#32 = w := by
      have hboth := hb'.symm.trans hb
      exact add_left_cancel hboth
    rw [BitVec.mul_one] at hsame
    rw [← hsame, toNat_ofNat (by omega)] at hw
    omega
  · have hzero := hb.symm.trans hb'
    bv_omega

/-- A key that is above every element leads outside. -/
theorem not_staysInside_of_above {outcome : ℕ → Ordering} {n lo e : ℕ}
    (habove : ∀ i < n, outcome i = .gt) (he : 0 < e) : ¬ StaysInside outcome n lo e := by
  intro hinside
  induction hinside with
  | empty lo => exact Nat.lt_irrefl 0 he
  | found hpos hmiddle heq => exact nomatch heq.symm.trans (habove _ hmiddle)
  | left hpos hmiddle hlt hrest ih => exact nomatch hlt.symm.trans (habove _ hmiddle)
  | right hpos hmiddle hgt hword hrest ih => exact ih (by omega)

/-- `bsearch` is right exactly when every middle is an element; it is not for a key above all of them. -/
theorem bsearchRight_iff {outcome : ℕ → Ordering} {n : ℕ} (hn : n < 2 ^ 31)
    (hsorted : SortedAround outcome n) :
    (BsearchRight outcome n ↔ StaysInside outcome n 0 n) ∧
      (0 < n → (∀ i < n, outcome i = .gt) → ¬ BsearchRight outcome n) := by
  refine ⟨⟨staysInside_of_bsearchRight hn, bsearchRight_of_staysInside hn hsorted⟩, ?_⟩
  intro hpos habove hright
  exact not_staysInside_of_above habove hpos (staysInside_of_bsearchRight hn hright)

/-- The second of two elements. -/
theorem bsearchRight_second : BsearchRight (fun i ↦ if i = 0 then .gt else .eq) 2 := by
  have hsorted : SortedAround (fun i ↦ if i = 0 then .gt else .eq) 2 :=
    ⟨by grind, by grind⟩
  exact (bsearchRight_iff (by decide) hsorted).1.mpr (.found (by decide) (by decide) rfl)

/-- One element that is below the key. -/
theorem not_bsearchRight_above : ¬ BsearchRight (fun _ ↦ .gt) 1 :=
  fun hright ↦ not_staysInside_of_above (fun _ _ ↦ rfl) Nat.one_pos
    (staysInside_of_bsearchRight (by decide) hright)

end Tenyr.Stdlib
