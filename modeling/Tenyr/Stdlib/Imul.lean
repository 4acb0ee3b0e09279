import Mathlib.Tactic.Ring
import Tenyr.Lib.Words
import Tenyr.Stdlib.Macros

/-!
# Multiplication

`imul` adds a doubled multiplicand where the multiplier has its bits, after it has taken the sign out of the
multiplier. It shifts the multiplier as a signed number until that is zero.
-/

namespace Tenyr.Stdlib

open Isa Sim Lib.Words

inductive ImulLabel where
  | imul | top | done
  deriving DecidableEq, Repr

def imulLines (earlyExits : Bool) : ImulLabel → List (Line ImulLabel)
  | .imul => (if earlyExits then [
      .insn (.assign .b (.regImm .c .compareEq 0#12)),
      .insn (.assign .d (.regReg .d .bitwiseAndn .b)),
      .insn (.assign .b (.regImm .d .compareEq 0#12)),
      .jnzrel .b .done] else []) ++ (pushall [.h, .i, .j] ++ [
      .insn (.assign .b (.imm 0#12)),
      .insn (.assign .h (.imm 1#12)),
      .insn (.assign .j (.regImm .d .shiftRightArith 31#12)),
      .insn (.assign .d (.regReg .d .bitwiseXor .j)),
      .insn (.assign .d (.regReg .d .subtract .j))])
  | .top => [
      .insn (.assign .i (.type0 .d .bitwiseAnd .h (-1#12))),
      .insn (.assign .i (.regReg .c .bitwiseAndn .i)),
      .insn (.assign .b (.regReg .b .add .i)),
      .insn (.assign .c (.regImm .c .shiftLeft 1#12)),
      .insn (.assign .d (.regImm .d .shiftRightArith 1#12)),
      .insn (.assign .i (.regImm .d .compareEq 0#12)),
      .jzrel .i .top,
      .insn (.assign .b (.regReg .b .bitwiseXor .j)),
      .insn (.assign .b (.regReg .b .subtract .j))] ++ popall [.h, .i, .j]
  | .done => ret

def imul (earlyExits : Bool) : Code ImulLabel where
  labels := [.imul, .top, .done]
  lines := imulLines earlyExits

/-! ## Products -/

/-- The multiplicand, if the lowest bit of the multiplier is set. -/
theorem masked_eq (c d : Word) : c &&& ~~~((d &&& 1#32) + -1#32) = (d &&& 1#32) * c := by
  have hbit : d &&& 1#32 = 0#32 ∨ d &&& 1#32 = 1#32 := by
    rw [BitVec.and_one_eq_setWidth_ofBool_getLsbD]
    cases d.getLsbD 0
    · exact .inl rfl
    · exact .inr rfl
  rcases hbit with h | h <;> rw [h]
  · rw [BitVec.zero_mul]
    exact BitVec.and_zero
  · rw [BitVec.one_mul]
    exact BitVec.and_allOnes

theorem and_one_ofNat (k : ℕ) : BitVec.ofNat 32 k &&& 1#32 = BitVec.ofNat 32 (k % 2) := by
  apply BitVec.eq_of_toNat_eq
  rw [BitVec.toNat_and, BitVec.toNat_ofNat, BitVec.toNat_ofNat, BitVec.toNat_ofNat]
  change (k % 2 ^ 32) &&& 1 = _
  rw [Nat.and_one_is_mod]
  omega

/-- Half a multiplier and the doubled multiplicand, with the bit that is shifted out. -/
theorem product_step (b c : Word) (k : ℕ) :
    b + (BitVec.ofNat 32 k &&& 1#32) * c + BitVec.ofNat 32 (k / 2) * (c <<< 1) =
      b + BitVec.ofNat 32 k * c := by
  have hdouble : c <<< 1 = 2#32 * c := by
    rw [BitVec.shiftLeft_eq_mul_twoPow, BitVec.mul_comm]
    rfl
  have hsplit : BitVec.ofNat 32 k = BitVec.ofNat 32 (k % 2) + 2#32 * BitVec.ofNat 32 (k / 2) := by
    rw [← BitVec.ofNat_mul, ← BitVec.ofNat_add, Nat.mod_add_div]
  calc
    b + (BitVec.ofNat 32 k &&& 1#32) * c + BitVec.ofNat 32 (k / 2) * (c <<< 1) =
        b + (BitVec.ofNat 32 (k % 2) + 2#32 * BitVec.ofNat 32 (k / 2)) * c := by
      rw [and_one_ofNat, hdouble]
      ring
    _ = b + BitVec.ofNat 32 k * c := by
      rw [← hsplit]

/-- The sign as a mask. -/
theorem sshiftRight_31 (d : Word) :
    d.sshiftRight 31 = if d.toInt < 0 then -1#32 else 0#32 := by
  apply BitVec.eq_of_toInt_eq
  have hlt := BitVec.toInt_lt (x := d)
  have hle := BitVec.le_toInt (x := d)
  rw [BitVec.toInt_sshiftRight, Int.shiftRight_eq_div_pow]
  split
  · change _ = (-1 : ℤ)
    omega
  · change _ = (0 : ℤ)
    omega

/-- A word without its sign, and the sign put back. -/
theorem signed_product {c d : Word} (hd : d ≠ 0x80000000#32) :
    ∃ k < 2 ^ 31, (d ^^^ d.sshiftRight 31) - d.sshiftRight 31 = BitVec.ofNat 32 k ∧
      (BitVec.ofNat 32 k * c ^^^ d.sshiftRight 31) - d.sshiftRight 31 = c * d := by
  have hflip : ∀ w : Word, (w ^^^ -1#32) - -1#32 = -w := by
    intro w
    have hnot : w ^^^ -1#32 = ~~~w := BitVec.xor_allOnes
    rw [hnot, sub_neg_eq_add]
    exact (BitVec.neg_eq_not_add w).symm
  rw [sshiftRight_31]
  split
  · rename_i hneg
    have hsmall : (-d).toNat < 2 ^ 31 := by
      rw [BitVec.toInt_neg_iff] at hneg
      bv_omega
    obtain ⟨k, hk, hkd⟩ := exists_ofNat (-d) hsmall
    refine ⟨k, hk, ?_, ?_⟩
    · rw [hflip, hkd]
    · rw [hflip, ← hkd, BitVec.neg_mul, neg_neg, BitVec.mul_comm]
  · rename_i hnonneg
    have hsmall : d.toNat < 2 ^ 31 := by
      rw [BitVec.toInt_neg_iff] at hnonneg
      omega
    obtain ⟨k, hk, hkd⟩ := exists_ofNat d hsmall
    refine ⟨k, hk, ?_, ?_⟩
    · rw [BitVec.xor_zero, BitVec.sub_zero, hkd]
    · rw [BitVec.xor_zero, BitVec.sub_zero, ← hkd, BitVec.mul_comm]

/-- The multiplier is zero for an early exit when the multiplicand is. -/
theorem exit_multiplier (c d : Word) :
    d &&& ~~~negBool (c == 0#32) = if c = 0#32 then 0#32 else d := by
  split
  · rename_i hzero
    rw [hzero]
    exact BitVec.and_zero
  · rename_i hne
    rw [beq_eq_false_iff_ne.mpr hne]
    exact BitVec.and_allOnes

/-! ## The machine -/

section

variable {S : Setting} {Q : Cpu → Prop} {early : Bool} {far : ImulLabel → ℤ} {base : Word} {cpu : Cpu}

theorem wp_top {next top : Word} (hh : cpu.h = 1#32) (ho : cpu.o = top - 3#32)
    (hnext : cpu.d.sshiftRight 1 ≠ 0#32 → ∀ i, S.Leads Q { cpu with
      b := cpu.b + (cpu.d &&& 1#32) * cpu.c, c := cpu.c <<< 1, d := cpu.d.sshiftRight 1, i
      p := (imul early).addr far base .top })
    (hlast : cpu.d.sshiftRight 1 = 0#32 → ∀ c d, S.Leads Q { cpu with
      b := (cpu.b + (cpu.d &&& 1#32) * cpu.c ^^^ cpu.j) - cpu.j, c, d
      h := cpu.mem top, i := cpu.mem (top - 1#32), j := cpu.mem (top - 2#32), o := top, p := next }) :
    Wp S ((imul early).addr far base) next Q (imulLines early .top) cpu := by
  have htop : cpu.o + 3#32 = top := by
    rw [ho]
    exact sub_add_cancel _ _
  have hmasked : cpu.c &&& ~~~((cpu.d &&& 1#32) + 4294967295#32) = (cpu.d &&& 1#32) * cpu.c :=
    masked_eq cpu.c cpu.d
  simp [imulLines, combine_eq, combine_shiftLeft, opValue, UndefinedShifts.sar_of_lt, hh, hmasked]
  rw [wp_jzrel rfl]
  split
  · rename_i hzero
    simp [popall, loadall, combine_eq, opValue, htop]
    simpa [BitVec.sub_eq_add_neg] using hlast (by simpa using hzero) _ _
  · rename_i hne
    rw [hh] at hnext
    exact hnext (by simpa using hne) _

section

variable (h : Placed S (imul early) far base)

include h

theorem imul_done (hp : cpu.p = (imul early).addr far base .done)
    (hQ : S.Leads Q { cpu with o := cpu.o + 1#32, p := cpu.mem (cpu.o + 1#32) }) : S.Leads Q cpu := by
  apply h.leads rfl hp
  change Wp _ _ _ _ (imulLines early .done) _
  simp [imulLines, ret, pop, combine_eq, opValue]
  exact hQ

/-- The start of the routine, behind what is there for early exits. -/
theorem imul_start (hp : cpu.p = base) (hstack : stack cpu.o 3 ⊆ S.writable)
    (hexit : early = true → cpu.c = 0#32 ∨ cpu.d = 0#32 → ∀ d, S.Leads Q { cpu with
      b := -1#32, d, o := cpu.o + 1#32, p := cpu.mem (cpu.o + 1#32) })
    (hQ : (early = true → cpu.c ≠ 0#32 ∧ cpu.d ≠ 0#32) → S.Leads Q { cpu with
      mem := saved cpu.mem cpu.o [cpu.h, cpu.i, cpu.j], o := cpu.o - 3#32, b := 0#32, h := 1#32
      d := (cpu.d ^^^ cpu.d.sshiftRight 31) - cpu.d.sshiftRight 31, j := cpu.d.sshiftRight 31
      p := (imul early).addr far base .top }) : S.Leads Q cpu := by
  have hstart : cpu.p = (imul early).addr far base .imul := by
    cases early <;> exact hp.trans (BitVec.add_zero base).symm
  cases early with
  | false =>
    apply h.leads rfl hstart
    change Wp _ _ _ _ (imulLines false .imul) _
    apply wp_pushall (by decide) (by decide) (by decide) hstack
    simp [combine_eq, opValue, UndefinedShifts.sar_of_lt]
    exact hQ fun hearly ↦ absurd hearly Bool.false_ne_true
  | true =>
    apply h.leads rfl hstart
    change Wp _ _ _ _ (imulLines true .imul) _
    simp [imulLines, combine_eq, opValue]
    have hmultiplier := exit_multiplier cpu.c cpu.d
    generalize cpu.d &&& ~~~negBool (cpu.c == 0#32) = d at hmultiplier ⊢
    rw [wp_jnzrel rfl]
    split
    · rename_i hzero
      have hd : d = 0#32 := by simpa using hzero
      have hexits : cpu.c = 0#32 ∨ cpu.d = 0#32 := by
        by_cases hc : cpu.c = 0#32
        · exact .inl hc
        · rw [if_neg hc] at hmultiplier
          exact .inr (hmultiplier.symm.trans hd)
      apply imul_done h
      · rfl
      rw [hd]
      exact hexit rfl hexits _
    · rename_i hne
      have hd : d ≠ 0#32 := by simpa using hne
      have hc : cpu.c ≠ 0#32 := by
        intro hc
        rw [if_pos hc] at hmultiplier
        exact hd hmultiplier
      rw [if_neg hc] at hmultiplier
      subst hmultiplier
      apply wp_pushall (by decide) (by decide) (by decide) hstack
      simp [combine_eq, opValue, UndefinedShifts.sar_of_lt]
      exact hQ fun _ ↦ ⟨hc, hd⟩

theorem imul_top {k : ℕ} {top : Word} (hk : k < 2 ^ 31) (hp : cpu.p = (imul early).addr far base .top)
    (hd : cpu.d = BitVec.ofNat 32 k) (hh : cpu.h = 1#32) (ho : cpu.o = top - 3#32)
    (hQ : ∀ c d, S.Leads Q { cpu with
      b := (cpu.b + BitVec.ofNat 32 k * cpu.c ^^^ cpu.j) - cpu.j, c, d
      h := cpu.mem top, i := cpu.mem (top - 1#32), j := cpu.mem (top - 2#32), o := top + 1#32
      p := cpu.mem (top + 1#32) }) : S.Leads Q cpu := by
  induction k using Nat.strongRecOn generalizing cpu with
  | ind k ih =>
    have hhalf : cpu.d.sshiftRight 1 = BitVec.ofNat 32 (k / 2) := by
      rw [hd, sshiftRight_ofNat hk, Nat.pow_one]
    have hproduct := product_step cpu.b cpu.c k
    rw [← hd] at hproduct hQ
    apply h.leads rfl hp
    apply wp_top hh ho
    · intro hne i
      have hpos : 0 < k / 2 := by
        rw [Nat.pos_iff_ne_zero]
        rintro hzero
        rw [hhalf, hzero] at hne
        exact hne rfl
      apply ih (k / 2) (by omega) (by omega)
      · rfl
      · exact hhalf
      · exact hh
      · exact ho
      · intro c d
        rw [hproduct]
        exact hQ c d
    · intro hzero c d
      have hdone : cpu.d &&& 1#32 = cpu.d := by
        have hone : k / 2 = 0 := by
          by_contra hne
          rw [hhalf] at hzero
          exact ofNat_ne_zero (Nat.pos_of_ne_zero hne) (by omega) hzero
        rw [hd, and_one_ofNat]
        exact congrArg _ (by omega)
      rw [hdone]
      apply imul_done h
      · rfl
      exact hQ c d

end

end

/-- `imul` ends with the product, and with what it saved. -/
def ImulRight (early : Bool) (C D : Word) : Prop :=
  ∀ (S : Setting) (far : ImulLabel → ℤ) (base : Word) (cpu : Cpu), Placed S (imul early) far base →
    stack cpu.o 3 ⊆ S.writable → cpu.p = base → cpu.c = C → cpu.d = D →
      S.Leads (fun next ↦ Returns cpu next ∧ next.b.toNat = C.toNat * D.toNat % 2 ^ 32 ∧
        next.b = opValue S.undef .multiply C D ∧
        next.h = cpu.h ∧ next.i = cpu.i ∧ next.j = cpu.j) cpu

theorem imulRight_of_ne {early : Bool} {C D : Word} (hD : D ≠ 0x80000000#32)
    (hearly : early = true → C ≠ 0#32 ∧ D ≠ 0#32) : ImulRight early C D := by
  intro S far base cpu hplaced hstack hp hc hd
  obtain ⟨k, hk, hmultiplier, hproduct⟩ := signed_product (c := C) hD
  apply imul_start hplaced hp hstack
  · intro hon hzero
    rw [hc, hd] at hzero
    rcases hzero with hzero | hzero
    · exact absurd hzero (hearly hon).1
    · exact absurd hzero (hearly hon).2
  · intro _
    apply imul_top hplaced hk
    · rfl
    · rw [← hmultiplier, ← hd]
    · rfl
    · rfl
    · intro c d
      apply Setting.Leads.here
      have hreturn : saved cpu.mem cpu.o [cpu.h, cpu.i, cpu.j] (cpu.o + 1#32) = cpu.mem (cpu.o + 1#32) := by
        simp
      have hb : (0#32 + BitVec.ofNat 32 k * cpu.c ^^^ cpu.d.sshiftRight 31) - cpu.d.sshiftRight 31 =
          C * D := by
        rw [BitVec.zero_add, hc, hd]
        exact hproduct
      refine ⟨⟨hreturn, rfl⟩, ?_, hb, ?_, ?_, ?_⟩
      · exact (congrArg BitVec.toNat hb).trans (BitVec.toNat_mul C D)
      · simp
      · simp [BitVec.sub_eq_add_neg]
      · simp [BitVec.sub_eq_add_neg]

/-! ## What it does not multiply -/

/-- `imul` alone in memory. -/
def imulInsns (early : Bool) : List Insn :=
  insnsFrom ((imul early).position fun _ ↦ 0) 0 (imul early).allLines

theorem length_imulInsns (early : Bool) : (imulInsns early).length < 100 := by
  cases early <;> decide

theorem reach_imul (early : Bool) :
    ReachFrom ((imul early).position fun _ ↦ 0) 0 (imul early).allLines := by
  cases early <;> decide

theorem sshiftRight_one_neg {d : Word} (hd : d.toInt < 0) : (d.sshiftRight 1).toInt < 0 := by
  rw [BitVec.toInt_sshiftRight, Int.shiftRight_eq_div_pow]
  omega

theorem not_imulRight {early : Bool} {C D : Word}
    (hbad : D = 0x80000000#32 ∨ early = true ∧ (C = 0#32 ∨ D = 0#32)) : ¬ ImulRight early C D := by
  intro hright
  have hlength := length_imulInsns early
  let S := Setting.alone .masked (imulInsns early) (hlength.trans (by decide))
  let cpu := aloneCpu (imulInsns early) [] 0xf0000000#32 C D
  have hplaced : Placed S (imul early) (fun _ ↦ 0) 0#32 := Setting.alone_placed (reach_imul early)
  have hstack : stack 0xf0000000#32 3 ⊆ S.writable := by
    apply Setting.alone_stack
    change (imulInsns early).length + 3 ≤ 0xf0000000
    omega
  have hloaded : S.Loaded cpu.mem := by
    apply Setting.alone_loaded
    change (imulInsns early).length ≤ 0xf0000001
    omega
  have hleads := hright S (fun _ ↦ 0) 0#32 cpu hplaced hstack rfl rfl rfl
  by_cases hexits : early = true ∧ (C = 0#32 ∨ D = 0#32)
  · -- the register of the test is returned
    have hwrong : S.Leads (fun next ↦ Returns cpu next ∧ next.b = -1#32) cpu := by
      apply imul_start hplaced
      · rfl
      · exact hstack
      · exact fun _ _ d ↦ .here ⟨⟨rfl, rfl⟩, rfl⟩
      · intro hnone
        rcases hexits.2 with hzero | hzero
        · exact absurd hzero (hnone hexits.1).1
        · exact absurd hzero (hnone hexits.1).2
    obtain ⟨next, ⟨-, -, hproduct, -⟩, -, hb⟩ := hleads.and_of_end hwrong hloaded
      (fun next hnext ↦ hnext.1.alone) (fun next hnext ↦ hnext.1.alone)
    have hzero : C * D = 0#32 := by
      rcases hexits.2 with rfl | rfl
      · exact BitVec.zero_mul
      · exact BitVec.mul_zero
    rw [hb, opValue, hzero] at hproduct
    exact absurd hproduct (by decide)
  · -- the multiplier stays negative
    have hD : D = 0x80000000#32 := hbad.resolve_right hexits
    let Negative : Cpu → Prop := fun cpu ↦ cpu.p = (imul early).addr (fun _ ↦ 0) 0#32 .top ∧
      cpu.h = 1#32 ∧ cpu.o = 0xf0000000#32 - 3#32 ∧ cpu.d.toInt < 0
    apply Setting.Leads.not_of_recurring (R := Negative) _ (fun next hnext ↦ hnext.1.alone) hloaded _
      hleads
    · intro cpu hloaded hR
      obtain ⟨hp, hh, ho, hneg⟩ := hR
      have hneg' := sshiftRight_one_neg hneg
      apply hplaced.step rfl rfl rfl hp _ hloaded
      apply wp_top hh ho
      · exact fun _ i ↦ .here ⟨rfl, hh, ho, hneg'⟩
      · intro hzero
        rw [hzero] at hneg'
        exact absurd hneg' (by decide)
    · apply imul_start hplaced
      · rfl
      · exact hstack
      · exact fun hon hzero ↦ absurd ⟨hon, hzero⟩ hexits
      · intro _
        refine .here ⟨rfl, rfl, rfl, ?_⟩
        change ((D ^^^ D.sshiftRight 31) - D.sshiftRight 31).toInt < 0
        rw [hD]
        decide

/-- `imul` is right for every multiplier but the least one, and its early exits never are. -/
theorem imulRight_iff (early : Bool) (C D : Word) : ImulRight early C D ↔
    D ≠ 0x80000000#32 ∧ (early = true → C ≠ 0#32 ∧ D ≠ 0#32) := by
  constructor
  · intro hright
    refine ⟨fun hD ↦ not_imulRight (.inl hD) hright, ?_⟩
    intro hon
    exact ⟨fun hC ↦ not_imulRight (.inr ⟨hon, .inl hC⟩) hright,
      fun hD ↦ not_imulRight (.inr ⟨hon, .inr hD⟩) hright⟩
  · rintro ⟨hD, hearly⟩
    exact imulRight_of_ne hD hearly

/-- The least multiplier, and a product of zero with early exits. -/
theorem not_imulRight_least : ¬ ImulRight false 1#32 0x80000000#32 ∧ ¬ ImulRight true 0#32 5#32 :=
  ⟨not_imulRight (.inl rfl), not_imulRight (.inr ⟨rfl, .inl rfl⟩)⟩

end Tenyr.Stdlib
