import Mathlib.Tactic.Ring
import Tenyr.Lib.Words
import Tenyr.Stdlib.Macros

/-!
# Division

`udiv` doubles the divisor until it is above the dividend, and halves it again while it subtracts. The
doubled divisor is compared as a signed number. `umod` calls `udiv`.
-/

namespace Tenyr.Stdlib

open Isa Sim Lib.Words

inductive UdivLabel where
  | udiv | buildSubtrahend | computeQuotient | shiftQuotient | done
  deriving DecidableEq, Repr

def udivLines : UdivLabel → List (Line UdivLabel)
  | .udiv => pushall [.d, .g, .j, .k] ++ [
      .insn (.assign .b (.imm 0#12)),
      .insn (.assign .k (.regImm .d .compareEq 0#12)),
      .jnzrel .k .done,
      .insn (.assign .k (.regReg .c .compareLt .d)),
      .jnzrel .k .done,
      .insn (.assign .g (.reg .d))]
  | .buildSubtrahend => [
      .insn (.assign .k (.regReg .c .compareLt .g)),
      .jnzrel .k .computeQuotient,
      .insn (.assign .g (.regImm .g .shiftLeft 1#12)),
      .goto .buildSubtrahend]
  | .computeQuotient => [
      .insn (.assign .j (.regReg .g .compareLt .d)),
      .insn (.assign .k (.regReg .g .compareEq .d)),
      .insn (.assign .k (.regReg .j .bitwiseOr .k)),
      .jnzrel .k .done,
      .insn (.assign .g (.regImm .g .shiftRightArith 1#12)),
      .insn (.assign .k (.regReg .c .compareLt .g)),
      .jnzrel .k .shiftQuotient,
      .insn (.assign .c (.regReg .c .subtract .g)),
      .insn (.assign .b (.regImm .b .bitwiseOr 1#12))]
  | .shiftQuotient => [
      .insn (.assign .b (.regImm .b .shiftLeft 1#12)),
      .goto .computeQuotient]
  | .done => .insn (.assign .b (.regImm .b .shiftRightArith 1#12)) ::
      (popall [.d, .g, .j, .k] ++ ret)

def udiv : Code UdivLabel where
  labels := [.udiv, .buildSubtrahend, .computeQuotient, .shiftQuotient, .done]
  lines := udivLines

inductive UmodLabel where
  | umod | udiv
  deriving DecidableEq, Repr

def umodLines : UmodLabel → List (Line UmodLabel)
  | .umod => pushall [.c, .d] ++ .call .udiv :: (popall [.c, .d] ++ [
      .insn (.assign .b (.regReg .b .multiply .d)),
      .insn (.assign .b (.regReg .c .subtract .b))] ++ ret)
  | .udiv => []

/-- `udiv` stands elsewhere. -/
def umod : Code UmodLabel where
  labels := [.umod]
  lines := umodLines

/-! ## The machine -/

section

variable {S : Setting} {Q : Cpu → Prop} {far : UdivLabel → ℤ} {base : Word} {cpu : Cpu}
  (h : Placed S udiv far base)

theorem wp_buildSubtrahend {next : Word}
    (hbuilt : cpu.c.slt cpu.g → ∀ k, S.Leads Q { cpu with k, p := udiv.addr far base .computeQuotient })
    (hnext : ¬ cpu.c.slt cpu.g → ∀ k, S.Leads Q { cpu with
      k, g := cpu.g <<< 1#32, p := udiv.addr far base .buildSubtrahend }) :
    Wp S (udiv.addr far base) next Q (udivLines .buildSubtrahend) cpu := by
  simp [udivLines, combine_eq, opValue]
  rw [wp_jnzrel rfl]
  split
  · rename_i hlt
    exact hbuilt hlt _
  · rename_i hge
    simp [combine_shiftLeft]
    exact hnext hge _

include h

theorem udiv_start (hp : cpu.p = base) (hstack : stack cpu.o 4 ⊆ S.writable)
    (hdone : cpu.d = 0#32 ∨ cpu.c.slt cpu.d → ∀ k, S.Leads Q { cpu with
      mem := saved cpu.mem cpu.o [cpu.d, cpu.g, cpu.j, cpu.k], o := cpu.o - 4#32, b := 0#32
      k, p := udiv.addr far base .done })
    (hbuild : cpu.d ≠ 0#32 → ¬ cpu.c.slt cpu.d → ∀ k, S.Leads Q { cpu with
      mem := saved cpu.mem cpu.o [cpu.d, cpu.g, cpu.j, cpu.k], o := cpu.o - 4#32, b := 0#32
      g := cpu.d, k, p := udiv.addr far base .buildSubtrahend }) : S.Leads Q cpu := by
  have hstart : cpu.p = udiv.addr far base .udiv := hp.trans (BitVec.add_zero base).symm
  apply h.leads rfl hstart
  apply wp_pushall (by decide) (by decide) (by decide) hstack
  simp [combine_eq, opValue]
  rw [wp_jnzrel rfl]
  split
  · rename_i hzero
    exact hdone (.inl (by simpa using hzero)) _
  · rename_i hne
    simp [combine_eq, opValue]
    rw [wp_jnzrel rfl]
    split
    · rename_i hlt
      exact hdone (.inr hlt) _
    · rename_i hge
      simp [combine_eq, opValue]
      exact hbuild (by simpa using hne) hge _

theorem udiv_buildSubtrahend (hp : cpu.p = udiv.addr far base .buildSubtrahend)
    (hbuilt : cpu.c.slt cpu.g → ∀ k, S.Leads Q { cpu with k, p := udiv.addr far base .computeQuotient })
    (hnext : ¬ cpu.c.slt cpu.g → ∀ k, S.Leads Q { cpu with
      k, g := cpu.g <<< 1#32, p := udiv.addr far base .buildSubtrahend }) : S.Leads Q cpu :=
  h.leads rfl hp (wp_buildSubtrahend hbuilt hnext)

theorem udiv_computeQuotient (hp : cpu.p = udiv.addr far base .computeQuotient)
    (hdone : cpu.g.slt cpu.d || cpu.g == cpu.d → ∀ j k, S.Leads Q { cpu with
      j, k, p := udiv.addr far base .done })
    (hskip : ¬ (cpu.g.slt cpu.d || cpu.g == cpu.d) → cpu.c.slt (cpu.g.sshiftRight 1) → ∀ j k,
      S.Leads Q { cpu with
        j, k, g := cpu.g.sshiftRight 1, b := cpu.b <<< 1#32, p := udiv.addr far base .computeQuotient })
    (hsubtract : ¬ (cpu.g.slt cpu.d || cpu.g == cpu.d) → ¬ cpu.c.slt (cpu.g.sshiftRight 1) → ∀ j k,
      S.Leads Q { cpu with
        j, k, g := cpu.g.sshiftRight 1, c := cpu.c - cpu.g.sshiftRight 1
        b := (cpu.b ||| 1#32) <<< 1#32, p := udiv.addr far base .computeQuotient }) :
    S.Leads Q cpu := by
  have hshift : ∀ cpu : Cpu, cpu.p = udiv.addr far base .shiftQuotient →
      S.Leads Q { cpu with b := cpu.b <<< 1#32, p := udiv.addr far base .computeQuotient } →
      S.Leads Q cpu := by
    intro cpu hp hQ
    apply h.leads rfl hp
    change Wp _ _ _ _ (udivLines .shiftQuotient) _
    simp [udivLines, combine_shiftLeft]
    exact hQ
  apply h.leads rfl hp
  change Wp _ _ _ _ (udivLines .computeQuotient) _
  simp [udivLines, combine_eq, opValue, negBool_or]
  rw [wp_jnzrel rfl]
  split
  · rename_i hle
    exact hdone hle _ _
  · rename_i hgt
    simp [combine_eq, opValue, UndefinedShifts.sar_of_lt]
    rw [wp_jnzrel rfl]
    split
    · rename_i hlt
      exact hshift _ rfl (hskip hgt hlt _ _)
    · rename_i hge
      simp [combine_eq, opValue]
      exact hshift _ rfl (hsubtract hgt hge _ _)

theorem udiv_done (hp : cpu.p = udiv.addr far base .done) {top : Word} (ho : cpu.o = top - 4#32)
    (hQ : S.Leads Q { cpu with
      b := cpu.b.sshiftRight 1, d := cpu.mem top, g := cpu.mem (top - 1#32), j := cpu.mem (top - 2#32)
      k := cpu.mem (top - 3#32), o := top + 1#32, p := cpu.mem (top + 1#32) }) :
    S.Leads Q cpu := by
  apply h.leads rfl hp
  change Wp _ _ _ _ (udivLines .done) _
  have htop : cpu.o + 4#32 = top := by
    rw [ho]
    exact sub_add_cancel _ _
  simpa [udivLines, popall, loadall, ret, pop, combine_eq, opValue, htop, BitVec.sub_eq_add_neg,
    UndefinedShifts.sar_of_lt] using hQ

/-! ## Digit by digit -/

/-- The divisor is halved until the quotient is there. `B` is kept doubled. -/
theorem udiv_quotient {C D k q r : ℕ} (hD : 0 < D) (hscaled : D * 2 ^ k < 2 ^ 31) (hr : r < D * 2 ^ k)
    (hC : q * (D * 2 ^ k) + r = C)
    (hp : cpu.p = udiv.addr far base .computeQuotient) (hb : cpu.b = BitVec.ofNat 32 (2 * q))
    (hc : cpu.c = BitVec.ofNat 32 r) (hd : cpu.d = BitVec.ofNat 32 D)
    (hg : cpu.g = BitVec.ofNat 32 (D * 2 ^ k))
    (hQ : ∀ c g j k, S.Leads Q { cpu with
      b := BitVec.ofNat 32 (2 * (C / D)), c, g, j, k, p := udiv.addr far base .done }) :
    S.Leads Q cpu := by
  have hone : D ≤ D * 2 ^ k := Nat.le_mul_of_pos_right D (Nat.two_pow_pos k)
  have hcompare : (cpu.g.slt cpu.d || cpu.g == cpu.d) = decide (D * 2 ^ k ≤ D) := by
    rw [hg, hd]
    exact slt_or_beq_ofNat hscaled (by omega)
  induction k generalizing cpu q r with
  | zero =>
    rw [Nat.pow_zero, Nat.mul_one] at hr hC
    have hquotient : q = C / D := by
      rw [← hC, Nat.mul_comm, Nat.mul_add_div hD, Nat.div_eq_of_lt hr, Nat.add_zero]
    apply udiv_computeQuotient h hp
    · intro _ j k
      have hlast := hQ cpu.c cpu.g j k
      rw [← hquotient, ← hb] at hlast
      exact hlast
    · intro hgt
      rw [hcompare, decide_eq_true_iff] at hgt
      exact absurd (Nat.le_of_eq (Nat.mul_one D)) hgt
    · intro hgt
      rw [hcompare, decide_eq_true_iff] at hgt
      exact absurd (Nat.le_of_eq (Nat.mul_one D)) hgt
  | succ k ih =>
    have htwice : D * 2 ^ (k + 1) = 2 * (D * 2 ^ k) := by
      ring
    have hpos : 0 < D * 2 ^ k := Nat.mul_pos hD (Nat.two_pow_pos k)
    have hhalf : cpu.g.sshiftRight 1 = BitVec.ofNat 32 (D * 2 ^ k) := by
      rw [hg, sshiftRight_ofNat hscaled, htwice]
      exact congrArg _ (Nat.mul_div_cancel_left _ (by decide))
    have hone' : D ≤ D * 2 ^ k := Nat.le_mul_of_pos_right D (Nat.two_pow_pos k)
    have hcompare' : cpu.c.slt (cpu.g.sshiftRight 1) = decide (r < D * 2 ^ k) := by
      rw [hhalf, hc]
      exact slt_ofNat (by omega) (by omega)
    have hturn : ∀ cpu : Cpu, ∀ q r, r < D * 2 ^ k → q * (D * 2 ^ k) + r = C →
        cpu.p = udiv.addr far base .computeQuotient → cpu.b = BitVec.ofNat 32 (2 * q) →
        cpu.c = BitVec.ofNat 32 r → cpu.d = BitVec.ofNat 32 D →
        cpu.g = BitVec.ofNat 32 (D * 2 ^ k) →
        (∀ c g j k, S.Leads Q { cpu with
          b := BitVec.ofNat 32 (2 * (C / D)), c, g, j, k, p := udiv.addr far base .done }) →
        S.Leads Q cpu := by
      intro cpu q r hr hC hp hb hc hd hg hQ
      apply ih (by omega) hr hC hp hb hc hd hg hQ hone'
      rw [hg, hd]
      exact slt_or_beq_ofNat (by omega) (by omega)
    apply udiv_computeQuotient h hp
    · intro hle
      rw [hcompare, decide_eq_true_iff] at hle
      omega
    · intro _ hlt j k'
      rw [hcompare', decide_eq_true_iff] at hlt
      apply hturn _ (2 * q) r hlt
      · rw [← hC, htwice]
        ring
      · rfl
      · change cpu.b <<< 1#32 = _
        rw [hb, shiftLeft_one_ofNat]
      · exact hc
      · exact hd
      · exact hhalf
      · exact fun c g j k ↦ hQ c g j k
    · intro _ hge j k'
      rw [hcompare', decide_eq_true_iff, Nat.not_lt] at hge
      apply hturn _ (2 * q + 1) (r - D * 2 ^ k)
      · omega
      · rw [← hC, htwice]
        have hsplit : (2 * q + 1) * (D * 2 ^ k) = q * (2 * (D * 2 ^ k)) + D * 2 ^ k := by
          ring
        omega
      · rfl
      · change (cpu.b ||| 1#32) <<< 1#32 = _
        rw [hb, or_one_ofNat, shiftLeft_one_ofNat]
      · change cpu.c - cpu.g.sshiftRight 1 = _
        rw [hhalf, hc, ofNat_sub hge]
      · exact hd
      · exact hhalf
      · exact fun c g j k ↦ hQ c g j k

/-- The divisor is doubled until it is above the dividend, if it gets there. -/
theorem udiv_subtrahend {C D k m : ℕ} (hC : C < 2 ^ 31) (habove : C < D * 2 ^ (k + m))
    (hscaled : D * 2 ^ (k + m) < 2 ^ 31) (hp : cpu.p = udiv.addr far base .buildSubtrahend)
    (hc : cpu.c = BitVec.ofNat 32 C) (hg : cpu.g = BitVec.ofNat 32 (D * 2 ^ k))
    (hQ : ∀ k, C < D * 2 ^ k → D * 2 ^ k < 2 ^ 31 → ∀ k', S.Leads Q { cpu with
      g := BitVec.ofNat 32 (D * 2 ^ k), k := k', p := udiv.addr far base .computeQuotient }) :
    S.Leads Q cpu := by
  induction m generalizing cpu k with
  | zero =>
    rw [Nat.add_zero] at habove hscaled
    have hcompare : cpu.c.slt cpu.g = true := by
      rw [hc, hg, slt_ofNat hC hscaled]
      exact decide_eq_true habove
    apply udiv_buildSubtrahend h hp
    · intro _ k'
      rw [hg]
      exact hQ k habove hscaled k'
    · exact fun hge ↦ absurd hcompare hge
  | succ m ih =>
    have hle : D * 2 ^ k ≤ D * 2 ^ (k + (m + 1)) :=
      Nat.mul_le_mul_left D (Nat.pow_le_pow_right (by decide) (by omega))
    have hcompare : cpu.c.slt cpu.g = decide (C < D * 2 ^ k) := by
      rw [hc, hg]
      exact slt_ofNat hC (by omega)
    apply udiv_buildSubtrahend h hp
    · intro hlt k'
      rw [hcompare, decide_eq_true_iff] at hlt
      rw [hg]
      exact hQ k hlt (by omega) k'
    · intro _ k'
      have hindex : k + 1 + m = k + (m + 1) := by omega
      apply ih (k := k + 1)
      · rw [hindex]
        exact habove
      · rw [hindex]
        exact hscaled
      · rfl
      · exact hc
      · change cpu.g <<< 1#32 = _
        rw [hg, shiftLeft_one_ofNat]
        congr 1
        ring
      · exact fun k hlt hscaled k' ↦ hQ k hlt hscaled k'

/-- The whole run, while the doubled divisor stays below the sign. -/
theorem udiv_run {C D : ℕ} (hC : C < 2 ^ 31) (hfits : D = 0 ∨ ∃ k, C < D * 2 ^ k ∧ D * 2 ^ k < 2 ^ 31)
    (hp : cpu.p = base) (hc : cpu.c = BitVec.ofNat 32 C) (hd : cpu.d = BitVec.ofNat 32 D)
    (hstack : stack cpu.o 4 ⊆ S.writable)
    (hQ : ∀ c mem, Set.EqOn mem cpu.mem (stack cpu.o 4)ᶜ → S.Leads Q { cpu with
      b := BitVec.ofNat 32 (C / D), c, o := cpu.o + 1#32, p := cpu.mem (cpu.o + 1#32), mem }) :
    S.Leads Q cpu := by
  have hdone : 2 * (C / D) < 2 ^ 31 → ∀ c g j k, S.Leads Q { cpu with
      b := BitVec.ofNat 32 (2 * (C / D)), c, g, j, k, p := udiv.addr far base .done
      mem := saved cpu.mem cpu.o [cpu.d, cpu.g, cpu.j, cpu.k], o := cpu.o - 4#32 } := by
    intro hsmall c g j k
    apply udiv_done h rfl rfl
    have hhalf : (BitVec.ofNat 32 (2 * (C / D))).sshiftRight 1 = BitVec.ofNat 32 (C / D) := by
      rw [sshiftRight_ofNat hsmall]
      exact congrArg _ (Nat.mul_div_cancel_left _ (by decide))
    simpa [hhalf, BitVec.sub_eq_add_neg] using hQ c _ eqOn_saved
  rcases hfits with rfl | ⟨m, habove, hscaled⟩
  · rw [Nat.div_zero] at hdone
    apply udiv_start h hp hstack
    · exact fun _ k ↦ hdone (by decide) cpu.c cpu.g cpu.j k
    · exact fun hne ↦ absurd hd hne
  · have hD : 0 < D := by
      rw [Nat.pos_iff_ne_zero]
      rintro rfl
      rw [Nat.zero_mul] at habove
      exact absurd habove (Nat.not_lt_zero C)
    have hdivisor : D ≤ D * 2 ^ m := Nat.le_mul_of_pos_right D (Nat.two_pow_pos m)
    have hsmall : 2 * (C / D) < 2 ^ 31 := by
      have hpow : 2 ^ m ≤ D * 2 ^ m := Nat.le_mul_of_pos_left _ hD
      have hexponent : m < 31 := (Nat.pow_lt_pow_iff_right (by decide)).mp (hpow.trans_lt hscaled)
      have hquotient : C / D < 2 ^ m := (Nat.div_lt_iff_lt_mul hD).mpr (Nat.mul_comm D _ ▸ habove)
      have hbound : 2 ^ m ≤ 2 ^ 30 := Nat.pow_le_pow_right (by decide) (by omega)
      omega
    have hcompare : cpu.c.slt cpu.d = decide (C < D) := by
      rw [hc, hd]
      exact slt_ofNat hC (by omega)
    apply udiv_start h hp hstack
    · intro hless k
      have hlt : C < D := by
        rcases hless with hzero | hlt
        · rw [hd] at hzero
          have hnat := congrArg BitVec.toNat hzero
          rw [toNat_ofNat (by omega)] at hnat
          exact absurd hnat (Nat.ne_of_gt hD)
        · rwa [hcompare, decide_eq_true_iff] at hlt
      have hlast := hdone hsmall cpu.c cpu.g cpu.j k
      rw [Nat.div_eq_of_lt hlt] at hlast
      exact hlast
    · intro _ hge k'
      apply udiv_subtrahend (k := 0) (m := m) h hC
      · rwa [Nat.zero_add]
      · rwa [Nat.zero_add]
      · rfl
      · exact hc
      · rw [Nat.pow_zero, Nat.mul_one]
        exact hd
      · intro k hlt hbelow k'
        apply udiv_quotient h hD hbelow hlt (q := 0)
        · rw [Nat.zero_mul, Nat.zero_add]
        · rfl
        · rfl
        · exact hc
        · exact hd
        · rfl
        · exact fun c g j k ↦ hdone hsmall c g j k

omit h

end

section

variable {S : Setting} {Q : Cpu → Prop} {far : UmodLabel → ℤ} {base base' : Word} {cpu : Cpu}
  {far' : UdivLabel → ℤ}

theorem umod_run {C D : ℕ} (h : Placed S umod far base) (h' : Placed S udiv far' base')
    (hudiv : umod.addr far base .udiv = base') (hC : C < 2 ^ 31)
    (hfits : D = 0 ∨ ∃ k, C < D * 2 ^ k ∧ D * 2 ^ k < 2 ^ 31) (hp : cpu.p = base)
    (hc : cpu.c = BitVec.ofNat 32 C) (hd : cpu.d = BitVec.ofNat 32 D) (hstack : stack cpu.o 7 ⊆ S.writable)
    (hQ : ∀ mem, S.Leads Q { cpu with
      b := BitVec.ofNat 32 (C % D), o := cpu.o + 1#32, p := cpu.mem (cpu.o + 1#32), mem }) :
    S.Leads Q cpu := by
  have hstart : cpu.p = umod.addr far base .umod := hp.trans (BitVec.add_zero base).symm
  apply h.leads rfl hstart
  change Wp _ _ _ _ (umodLines .umod) _
  apply wp_pushall (by decide) (by decide) (by decide) ((stack_subset (by decide)).trans hstack)
  refine ⟨?_, ?_⟩
  · exact hstack (stack_sub_subset (by decide) (top_mem_stack (cpu.o - 2#32) Nat.one_pos))
  · apply udiv_run h' hC hfits
    · exact hudiv
    · exact hc
    · exact hd
    · have hsub : stack (cpu.o - 2#32 - 1#32) 4 ⊆ stack cpu.o 7 := by
        rw [sub_sub]
        exact stack_sub_subset (by decide)
      exact hsub.trans hstack
    · intro c mem hmem
      have hread : ∀ x, 5 ≤ (-(2#32 + x)).toNat →
          mem (cpu.o + x) = saved cpu.mem cpu.o [cpu.c, cpu.d] (cpu.o + x) :=
        fun x hx ↦ Cpu.eqOn_called hmem (notMem_stack hx)
      have hsavedC := hread 0#32 (by decide)
      have hsavedD := hread (-1#32) (by decide)
      have hreturn := hread 1#32 (by decide)
      simp at hsavedC hsavedD hreturn
      have hremainder : cpu.c - BitVec.ofNat 32 (C / D) * cpu.d = BitVec.ofNat 32 (C % D) := by
        rw [hc, hd, ← BitVec.ofNat_mul, ofNat_sub (Nat.div_mul_le_self C D), Nat.mul_comm,
          ← Nat.mod_eq_sub_mul_div]
      apply Setting.Leads.here
      refine ⟨by simp [Cpu.called], ?_⟩
      simpa [Cpu.called, popall, loadall, ret, pop, combine_eq, opValue, hsavedC, hsavedD, hreturn,
        hremainder] using hQ mem

end

/-- `udiv` ends with the quotient, and with what it saved. -/
def UdivRight (C D : Word) : Prop :=
  ∀ (S : Setting) (far : UdivLabel → ℤ) (base : Word) (cpu : Cpu), Placed S udiv far base →
    stack cpu.o 4 ⊆ S.writable → cpu.p = base → cpu.c = C → cpu.d = D →
      S.Leads (fun next ↦ Returns cpu next ∧ next.b.toNat = C.toNat / D.toNat ∧
        next.d = cpu.d ∧ next.g = cpu.g ∧ next.j = cpu.j ∧ next.k = cpu.k) cpu

/-- `umod` ends with the remainder, and with what it saved, when the `udiv` that it calls is there. -/
def UmodRight (C D : Word) : Prop :=
  ∀ (S : Setting) (far : UmodLabel → ℤ) (far' : UdivLabel → ℤ) (base : Word) (cpu : Cpu),
    Placed S umod far base → Placed S udiv far' (umod.addr far base .udiv) →
      stack cpu.o 7 ⊆ S.writable → cpu.p = base → cpu.c = C → cpu.d = D →
        S.Leads (fun next ↦ Returns cpu next ∧ next.b.toNat = C.toNat % D.toNat ∧
          next.c = cpu.c ∧ next.d = cpu.d) cpu

def DivRight (C D : Word) : Prop := UdivRight C D ∧ (D ≠ 0#32 → UmodRight C D)

/-- The divisor can be doubled until it is above the dividend, and is not negative then. -/
def DoublesAbove (C D : ℕ) : Prop := ∃ k, C < D * 2 ^ k ∧ D * 2 ^ k < 2 ^ 31

theorem doublesAbove_of_lt {C D : ℕ} (hC : C < 2 ^ 30) (hD : D < 2 ^ 31) (hpos : 0 < D) :
    DoublesAbove C D := by
  have hexists : ∃ k, C < D * 2 ^ k :=
    ⟨C, Nat.lt_two_pow_self.trans_le (Nat.le_mul_of_pos_left _ hpos)⟩
  refine ⟨Nat.find hexists, Nat.find_spec hexists, ?_⟩
  cases hfind : Nat.find hexists with
  | zero => rwa [Nat.pow_zero, Nat.mul_one]
  | succ k =>
    have hbefore : D * 2 ^ k ≤ C := Nat.not_lt.mp (Nat.find_min hexists (hfind ▸ Nat.lt_succ_self k))
    have htwice : D * 2 ^ (k + 1) = 2 * (D * 2 ^ k) := by
      ring
    omega

theorem divRight_of_doublesAbove {C D : Word} (hC : C.toNat < 2 ^ 31) (hD : D.toNat < 2 ^ 31)
    (h : D = 0#32 ∨ DoublesAbove C.toNat D.toNat) : DivRight C D := by
  obtain ⟨c, hc, rfl⟩ := exists_ofNat C hC
  obtain ⟨d, hd, rfl⟩ := exists_ofNat D hD
  rw [toNat_ofNat hc, toNat_ofNat hd] at h
  have hfits : d = 0 ∨ ∃ k, c < d * 2 ^ k ∧ d * 2 ^ k < 2 ^ 31 := by
    apply h.imp_left
    intro hzero
    rw [← toNat_ofNat hd, hzero]
    rfl
  have hquotient : c / d < 2 ^ 31 := (Nat.div_le_self c d).trans_lt hc
  have hremainder : c % d < 2 ^ 31 := (Nat.mod_le c d).trans_lt hc
  constructor
  · intro S far base cpu hplaced hstack hp hC hD
    apply udiv_run hplaced hc hfits hp hC hD hstack
    intro c' mem _
    apply Setting.Leads.here
    refine ⟨⟨rfl, rfl⟩, ?_, rfl, rfl, rfl, rfl⟩
    rw [toNat_ofNat hc, toNat_ofNat hd]
    exact toNat_ofNat hquotient
  · intro _ S far far' base cpu hplaced hplaced' hstack hp hC hD
    apply umod_run hplaced hplaced' rfl hc hfits hp hC hD hstack
    intro mem
    apply Setting.Leads.here
    refine ⟨⟨rfl, rfl⟩, ?_, rfl, rfl⟩
    rw [toNat_ofNat hc, toNat_ofNat hd]
    exact toNat_ofNat hremainder

/-- Powers of two, shifted out of a word in the end, are never above so large a number. -/
theorem not_slt_power {C : ℕ} (hC : C < 2 ^ 31) (hlarge : 2 ^ 30 ≤ C) (k : ℕ) :
    ¬ (BitVec.ofNat 32 C).slt (BitVec.ofNat 32 (2 ^ k)) := by
  rcases Nat.lt_or_ge k 31 with hlt | hge
  · have hpow : 2 ^ k ≤ 2 ^ 30 := Nat.pow_le_pow_right (by decide) (by omega)
    rw [slt_ofNat hC (by omega), decide_eq_true_iff]
    omega
  · have hnonpos : (BitVec.ofNat 32 (2 ^ k)).toInt ≤ 0 := by
      obtain ⟨m, rfl⟩ := Nat.exists_eq_add_of_le hge
      cases m with
      | zero => decide
      | succ m =>
        have hzero : BitVec.ofNat 32 (2 ^ (31 + (m + 1))) = 0#32 := by
          apply BitVec.eq_of_toNat_eq
          have hsplit : 2 ^ (31 + (m + 1)) = 2 ^ 32 * 2 ^ m := by
            ring
          rw [BitVec.toNat_ofNat, hsplit, Nat.mul_mod_right]
          rfl
        rw [hzero]
        decide
    rw [BitVec.slt_eq_decide, toInt_ofNat hC, decide_eq_true_iff]
    omega

/-- From 2 ^ 30 on, the search for a multiple of one never ends. -/
theorem not_udivRight_one {C : Word} (hC : C.toNat < 2 ^ 31) (hlarge : 2 ^ 30 ≤ C.toNat) :
    ¬ UdivRight C 1#32 := by
  intro hright
  obtain ⟨c, hc, rfl⟩ := exists_ofNat C hC
  rw [toNat_ofNat hc] at hlarge
  let far : UdivLabel → ℤ := fun _ ↦ 0
  let insns := insnsFrom (udiv.position far) 0 udiv.allLines
  let S := Setting.alone .masked insns (by decide)
  let cpu := aloneCpu insns [] 0xf0000000#32 (BitVec.ofNat 32 c) 1#32
  have hplaced : Placed S udiv far 0#32 := Setting.alone_placed (by decide)
  have hstack : stack 0xf0000000#32 4 ⊆ S.writable := Setting.alone_stack (by decide)
  have hloaded : S.Loaded cpu.mem := Setting.alone_loaded (by decide)
  let Doubling : Cpu → Prop := fun cpu ↦ cpu.p = udiv.addr far 0#32 .buildSubtrahend ∧
    cpu.c = BitVec.ofNat 32 c ∧ ∃ k, cpu.g = BitVec.ofNat 32 (2 ^ k)
  apply Setting.Leads.not_of_recurring (R := Doubling) _ (fun next hnext ↦ hnext.1.alone) hloaded _
    (hright S far 0#32 cpu hplaced hstack rfl rfl rfl)
  · intro cpu hloaded hR
    obtain ⟨hp, hc', k, hg⟩ := hR
    apply hplaced.step rfl rfl rfl hp _ hloaded
    apply wp_buildSubtrahend
    · intro hlt
      rw [hc', hg] at hlt
      exact absurd hlt (not_slt_power hc hlarge k)
    · intro _ k'
      apply Setting.Leads.here
      refine ⟨rfl, hc', k + 1, ?_⟩
      change cpu.g <<< 1#32 = _
      rw [hg, shiftLeft_one_ofNat, Nat.pow_succ']
  · apply udiv_start hplaced
    · rfl
    · exact hstack
    · intro hless
      rcases hless with hzero | hlt
      · exact absurd hzero (by decide : 1#32 ≠ 0#32)
      · exact absurd hlt (not_slt_power hc hlarge 0)
    · intro _ _ k
      exact .here ⟨rfl, rfl, 0, rfl⟩

/-- Division is right for divisors whose doubling passes the dividend below the sign, and for every
divisor exactly below the largest power of two. -/
theorem divRight_of_doublesAbove_and_iff {C : Word} (hC : C.toNat < 2 ^ 31) :
    (∀ D : Word, D.toNat < 2 ^ 31 → D = 0#32 ∨ DoublesAbove C.toNat D.toNat → DivRight C D) ∧
      ((∀ D : Word, D.toNat < 2 ^ 31 → DivRight C D) ↔ C.toNat < 2 ^ 30) := by
  refine ⟨fun D hD ↦ divRight_of_doublesAbove hC hD, ?_, ?_⟩
  · intro hright
    by_contra hge
    exact not_udivRight_one hC (Nat.not_lt.mp hge) (hright 1#32 (by decide)).1
  · intro hlt D hD
    apply divRight_of_doublesAbove hC hD
    rcases Nat.eq_zero_or_pos D.toNat with hzero | hpos
    · exact .inl (BitVec.eq_of_toNat_eq hzero)
    · exact .inr (doublesAbove_of_lt hlt hD hpos)

theorem divRight_thousand : DivRight 1000#32 7#32 :=
  (divRight_of_doublesAbove_and_iff (by decide)).1 7#32 (by decide) (.inr ⟨8, by decide, by decide⟩)

/-- One does not divide 2 ^ 30 in finite time. -/
theorem not_divRight_one : ¬ DivRight 0x40000000#32 1#32 :=
  fun hright ↦ not_udivRight_one (by decide) (by decide) hright.1

end Tenyr.Stdlib
