import Mathlib.Tactic.Ring
import Tenyr.Stdlib.Macros

/-!
# Numbers of two words

`dw_mul` adds up products of halves, and `dw_add` the two words. The carry out of a low word is lost in the
first, and is taken from comparisons of signed numbers in the second.
-/

namespace Tenyr.Stdlib

open Isa Sim

inductive DwMulLabel where
  | dwMul | mask
  deriving DecidableEq, Repr

/-- `.word 0xffff` -/
def wordMask : Insn := .assign .a (.type0 .a .compareGe .a (-1#12))

def dwMulLines : DwMulLabel → List (Line DwMulLabel)
  | .dwMul => push (.reg .m) ++ [
      .insn (.load .m (.type2 (distance 18 2) .add .p .a)),  -- of the word at `mask`
      .insn (.assign .b (.regImm .d .shiftRightLogic 16#12)),
      .insn (.assign .c (.regReg .d .bitwiseAnd .m)),
      .insn (.assign .d (.regImm .e .shiftRightLogic 16#12)),
      .insn (.assign .e (.regReg .e .bitwiseAnd .m)),
      .insn (.assign .m (.regReg .b .multiply .e)),
      .insn (.assign .b (.regReg .b .multiply .d)),
      .insn (.assign .d (.regReg .c .multiply .d)),
      .insn (.assign .m (.regReg .m .add .d)),
      .insn (.assign .c (.regReg .c .multiply .e)),
      .insn (.assign .c (.regImmReg .m .shiftLeft 16#12 .c)),
      .insn (.assign .b (.regImmReg .m .shiftRightLogic 16#12 .b))] ++ pop .m ++ ret
  | .mask => [.insn wordMask]

def dwMul : Code DwMulLabel where
  labels := [.dwMul, .mask]
  lines := dwMulLines

inductive DwAddLabel where
  | dwAdd
  deriving DecidableEq, Repr

def dwAddLines : DwAddLabel → List (Line DwAddLabel)
  | .dwAdd => pushall [.h, .j, .k] ++ [
      .insn (.assign .h (.regReg .c .add .e)),
      .insn (.assign .j (.regReg .c .compareLt .h)),
      .insn (.assign .k (.regReg .e .compareLt .h)),
      .insn (.assign .k (.type0 .j .bitwiseAnd .k 1#12)),
      .insn (.assign .b (.regReg .b .add .k)),
      .insn (.assign .b (.regReg .b .add .d)),
      .insn (.assign .c (.reg .h))] ++ popall [.h, .j, .k] ++ ret

def dwAdd : Code DwAddLabel where
  labels := [.dwAdd]
  lines := dwAddLines

theorem wordMask_word : wordMask.word = 0xffff#32 := by
  decide

/-! ## Products and carries -/

/-- The sum of the products of a high and a low half. -/
def crossSum (D E : Word) : Word := (D >>> 16) * (E &&& 0xffff#32) + (D &&& 0xffff#32) * (E >>> 16)

/-- What `dw_mul` leaves in `C`, and in `B`. -/
def dwMulLow (D E : Word) : Word :=
  crossSum D E <<< 16 + (D &&& 0xffff#32) * (E &&& 0xffff#32)

def dwMulHigh (D E : Word) : Word := crossSum D E >>> 16 + (D >>> 16) * (E >>> 16)

/-- Without its lowest carry, the sum of both is the product only when nothing is carried. -/
theorem dwMul_value {D E : Word} (hD : D.toNat < 2 ^ 31) (hE : E.toNat < 2 ^ 31) :
    (dwMulHigh D E).toNat * 2 ^ 32 + (dwMulLow D E).toNat = D.toNat * E.toNat ↔
      D.toNat % 2 ^ 16 * (E.toNat % 2 ^ 16) ≤ D.toNat * E.toNat % 2 ^ 32 := by
  have hhalf : ∀ w : Word, (w >>> 16).toNat = w.toNat / 2 ^ 16 := by
    intro w
    rw [BitVec.toNat_ushiftRight, Nat.shiftRight_eq_div_pow]
  have hmask : ∀ w : Word, (w &&& 0xffff#32).toNat = w.toNat % 2 ^ 16 := by
    intro w
    rw [BitVec.toNat_and]
    exact Nat.and_two_pow_sub_one_eq_mod _ 16
  have hDl : D.toNat % 2 ^ 16 < 2 ^ 16 := Nat.mod_lt _ (by decide)
  have hEl : E.toNat % 2 ^ 16 < 2 ^ 16 := Nat.mod_lt _ (by decide)
  have hDh : D.toNat / 2 ^ 16 < 2 ^ 15 := by omega
  have hEh : E.toNat / 2 ^ 16 < 2 ^ 15 := by omega
  have hDsplit := Nat.div_add_mod D.toNat (2 ^ 16)
  have hEsplit := Nat.div_add_mod E.toNat (2 ^ 16)
  rw [dwMulHigh, dwMulLow, crossSum]
  simp only [BitVec.toNat_add, BitVec.toNat_mul, BitVec.toNat_shiftLeft, hhalf, hmask,
    Nat.shiftLeft_eq]
  generalize D.toNat / 2 ^ 16 = dh at *
  generalize D.toNat % 2 ^ 16 = dl at *
  generalize E.toNat / 2 ^ 16 = eh at *
  generalize E.toNat % 2 ^ 16 = el at *
  have hproduct : D.toNat * E.toNat = dh * eh * 2 ^ 32 + (dh * el + dl * eh) * 2 ^ 16 + dl * el := by
    rw [← hDsplit, ← hEsplit]
    ring
  have hhl : dh * el < 2 ^ 15 * 2 ^ 16 := Nat.mul_lt_mul'' hDh hEl
  have hlh : dl * eh < 2 ^ 16 * 2 ^ 15 := Nat.mul_lt_mul'' hDl hEh
  have hhh : dh * eh < 2 ^ 15 * 2 ^ 15 := Nat.mul_lt_mul'' hDh hEh
  have hll : dl * el < 2 ^ 16 * 2 ^ 16 := Nat.mul_lt_mul'' hDl hEl
  rw [hproduct]
  generalize dh * el = hl at *
  generalize dl * eh = lh at *
  generalize dh * eh = hh at *
  generalize dl * el = ll at *
  omega

/-- The carry that `dw_add` finds. -/
def dwCarry (C E : Word) : Word :=
  (negBool (C.slt (C + E)) &&& negBool (E.slt (C + E))) + 1#32

/-- Signed comparisons show whether there is a carry. -/
def CarryShows (C E : Word) : Prop :=
  0 < C.toInt ∧ 0 < E.toInt ∧ C.toInt + E.toInt < 2 ^ 31 ∨
    C.toInt < 0 ∧ E.toInt < 0 ∧ -2 ^ 31 ≤ C.toInt + E.toInt ∨
    (C.toInt < 0 ∨ E.toInt < 0) ∧ 0 ≤ C.toInt + E.toInt

instance (C E : Word) : Decidable (CarryShows C E) :=
  inferInstanceAs (Decidable (_ ∨ _))

theorem toNat_dwCarry (C E : Word) :
    (dwCarry C E).toNat = if C.toInt < (C + E).toInt ∧ E.toInt < (C + E).toInt then 0 else 1 := by
  rw [dwCarry, BitVec.slt_eq_decide, BitVec.slt_eq_decide]
  by_cases hC : C.toInt < (C + E).toInt
  · by_cases hE : E.toInt < (C + E).toInt
    · rw [if_pos ⟨hC, hE⟩, decide_eq_true hC, decide_eq_true hE]
      rfl
    · rw [if_neg fun h ↦ hE h.2, decide_eq_true hC, decide_eq_false hE]
      rfl
  · rw [if_neg fun h ↦ hC h.1, decide_eq_false hC]
    cases decide (E.toInt < (C + E).toInt) <;> rfl

/-- A word as a signed and as an unsigned number. -/
theorem toNat_eq_toInt_add (w : Word) :
    (w.toNat : ℤ) = w.toInt + if w.toInt < 0 then 2 ^ 32 else 0 := by
  have hlt := w.isLt
  rw [BitVec.toInt_eq_toNat_cond]
  split <;> split <;> omega

/-- A signed sum, in range or out of it. -/
theorem toInt_add_cases (C E : Word) :
    (C + E).toInt = C.toInt + E.toInt + if C.toInt + E.toInt < -2 ^ 31 then 2 ^ 32
      else if 2 ^ 31 ≤ C.toInt + E.toInt then -2 ^ 32 else 0 := by
  have hC := BitVec.toInt_lt (x := C)
  have hC' := BitVec.le_toInt (x := C)
  have hE := BitVec.toInt_lt (x := E)
  have hE' := BitVec.le_toInt (x := E)
  rw [BitVec.toInt_add]
  split
  · rw [← Int.add_bmod_right, Int.bmod_eq_of_le] <;> omega
  · split
    · rw [← Int.sub_bmod_right, Int.bmod_eq_of_le] <;> omega
    · rw [Int.bmod_eq_of_le] <;> omega

theorem carry_eq (C E : Word) :
    (C.toNat + E.toNat) / 2 ^ 32 = if C.toNat + E.toNat < 2 ^ 32 then 0 else 1 := by
  have hC := C.isLt
  have hE := E.isLt
  split <;> omega

theorem toNat_dwCarry_eq_iff (C E : Word) :
    (dwCarry C E).toNat = (C.toNat + E.toNat) / 2 ^ 32 ↔ CarryShows C E := by
  have hC := toNat_eq_toInt_add C
  have hE := toNat_eq_toInt_add E
  have hsum := toInt_add_cases C E
  have hlow := BitVec.le_toInt (x := C)
  have hlow' := BitVec.le_toInt (x := E)
  have hhigh := BitVec.toInt_lt (x := C)
  have hhigh' := BitVec.toInt_lt (x := E)
  rw [toNat_dwCarry, CarryShows, carry_eq]
  constructor
  · intro h
    split_ifs at hC hE hsum h <;> omega
  · intro h
    split_ifs at hC hE hsum ⊢ <;> omega

theorem dwAdd_value (B C D E : Word) :
    (B + dwCarry C E + D).toNat * 2 ^ 32 + (C + E).toNat =
        (B.toNat * 2 ^ 32 + C.toNat + (D.toNat * 2 ^ 32 + E.toNat)) % 2 ^ 64 ↔ CarryShows C E := by
  have hC := C.isLt
  have hE := E.isLt
  have hcarry : (dwCarry C E).toNat ≤ 1 := by
    rw [toNat_dwCarry]
    split <;> decide
  rw [← toNat_dwCarry_eq_iff, BitVec.toNat_add, BitVec.toNat_add, BitVec.toNat_add]
  omega

/-! ## The machine -/

section

variable {S : Setting} {Q : Cpu → Prop} {cpu : Cpu} {base : Word}

/-- Words that are loaded may be taken for granted where a run starts. -/
theorem Setting.Leads.of_loaded (h : S.Loaded cpu.mem → S.Leads Q cpu) : S.Leads Q cpu :=
  fun hloaded ↦ h hloaded hloaded

theorem dwMul_run {far : DwMulLabel → ℤ} (h : Placed S dwMul far base) (hp : cpu.p = base)
    (ho : cpu.o ∈ S.writable)
    (hQ : ∀ d e mem, S.Leads Q { cpu with
      b := dwMulHigh cpu.d cpu.e, c := dwMulLow cpu.d cpu.e, d, e, mem, o := cpu.o + 1#32
      p := cpu.mem (cpu.o + 1#32) }) : S.Leads Q cpu := by
  apply Setting.Leads.of_loaded
  intro hloaded
  have hstart : cpu.p = dwMul.addr far base .dwMul := hp.trans (BitVec.add_zero base).symm
  have hat : S.insnAt (base + 18#32) = some wordMask :=
    (Setting.holdsAt_cons.mp (h.block (l := .mask) rfl).2.1).1
  have hread : Function.update cpu.mem cpu.o cpu.m
      ((distance 18 2).signExtend 32 + (base + 2#32 + 1#32)) = 0xffff#32 := by
    have haddress : (distance 18 2).signExtend 32 + (base + 2#32 + 1#32) = base + 18#32 :=
      @distance_add base 18 2 (by decide) (by decide)
    rw [haddress, Function.update_of_ne, hloaded _ _ hat, wordMask_word]
    intro heq
    rw [heq, S.apart _ ho] at hat
    cases hat
  have hback : cpu.o - 1#32 + 1#32 = cpu.o := sub_add_cancel _ _
  apply h.leads rfl hstart
  change Wp _ _ _ _ (dwMulLines .dwMul) _
  apply wp_push ho
  simp [combine_eq, combine_shiftLeft, opValue, UndefinedShifts.shr_of_lt, hp, hread, pop, ret, hback]
  simpa [dwMulHigh, dwMulLow, crossSum] using hQ _ _ _

theorem dwAdd_run {far : DwAddLabel → ℤ} (h : Placed S dwAdd far base) (hp : cpu.p = base)
    (hstack : stack cpu.o 3 ⊆ S.writable)
    (hQ : ∀ mem, S.Leads Q { cpu with
      b := cpu.b + dwCarry cpu.c cpu.e + cpu.d, c := cpu.c + cpu.e, mem, o := cpu.o + 1#32
      p := cpu.mem (cpu.o + 1#32) }) : S.Leads Q cpu := by
  have hstart : cpu.p = dwAdd.addr far base .dwAdd := hp.trans (BitVec.add_zero base).symm
  apply h.leads rfl hstart
  change Wp _ _ _ _ (dwAddLines .dwAdd) _
  apply wp_pushall (by decide) (by decide) (by decide) hstack
  have hback : cpu.o - 3#32 + 3#32 = cpu.o := sub_add_cancel _ _
  simp [combine_eq, opValue, popall, loadall, pop, ret, hback]
  exact hQ _

end

/-- `dw_mul` ends with the product in `B` and `C`, and with what it saved. -/
def DwMulRight (D E : Word) : Prop :=
  ∀ (S : Setting) (far : DwMulLabel → ℤ) (base : Word) (cpu : Cpu), Placed S dwMul far base →
    cpu.o ∈ S.writable → cpu.p = base → cpu.d = D → cpu.e = E →
      S.Leads (fun next ↦ Returns cpu next ∧ next.m = cpu.m ∧
        next.b.toNat * 2 ^ 32 + next.c.toNat = D.toNat * E.toNat) cpu

/-- `dw_add` ends with the sum in `B` and `C`, and with what it saved. -/
def DwAddRight (B C D E : Word) : Prop :=
  ∀ (S : Setting) (far : DwAddLabel → ℤ) (base : Word) (cpu : Cpu), Placed S dwAdd far base →
    stack cpu.o 3 ⊆ S.writable → cpu.p = base → cpu.b = B → cpu.c = C → cpu.d = D → cpu.e = E →
      S.Leads (fun next ↦ Returns cpu next ∧ next.h = cpu.h ∧ next.j = cpu.j ∧ next.k = cpu.k ∧
        next.b.toNat * 2 ^ 32 + next.c.toNat =
          (B.toNat * 2 ^ 32 + C.toNat + (D.toNat * 2 ^ 32 + E.toNat)) % 2 ^ 64) cpu

theorem dwMulRight_iff_value (D E : Word) : DwMulRight D E ↔
    (dwMulHigh D E).toNat * 2 ^ 32 + (dwMulLow D E).toNat = D.toNat * E.toNat := by
  constructor
  · intro hright
    let insns := insnsFrom (dwMul.position fun _ ↦ 0) 0 dwMul.allLines
    let S := Setting.alone .masked insns (by decide)
    let cpu := { aloneCpu insns [] 0xf0000000#32 0#32 D with e := E }
    have hplaced : Placed S dwMul (fun _ ↦ 0) 0#32 := Setting.alone_placed (by decide)
    have hstack : stack 0xf0000000#32 1 ⊆ S.writable := Setting.alone_stack (by decide)
    have ho : 0xf0000000#32 ∈ S.writable := hstack (top_mem_stack _ Nat.one_pos)
    have hloaded : S.Loaded cpu.mem := Setting.alone_loaded (by decide)
    have hend : aloneMem insns [] 0xf0000000#32 (0xf0000000#32 + 1#32) = 0xffffffff#32 := if_pos rfl
    have hvalues : S.Leads (fun next ↦ Returns cpu next ∧ next.b = dwMulHigh D E ∧
        next.c = dwMulLow D E) cpu := by
      apply dwMul_run hplaced
      · rfl
      · exact ho
      · exact fun d e mem ↦ .here ⟨⟨rfl, rfl⟩, rfl, rfl⟩
    obtain ⟨next, ⟨-, -, hproduct⟩, -, hb, hc⟩ :=
      (hright S _ 0#32 cpu hplaced ho rfl rfl rfl).and_of_end hvalues hloaded
        (fun next hnext ↦ hnext.1.p.trans hend) (fun next hnext ↦ hnext.1.p.trans hend)
    rwa [hb, hc] at hproduct
  · intro hvalue S far base cpu hplaced ho hp hd he
    apply dwMul_run hplaced hp ho
    intro d e mem
    apply Setting.Leads.here
    refine ⟨⟨rfl, rfl⟩, rfl, ?_⟩
    rw [hd, he]
    exact hvalue

theorem dwAddRight_iff_value (B C D E : Word) : DwAddRight B C D E ↔
    (B + dwCarry C E + D).toNat * 2 ^ 32 + (C + E).toNat =
      (B.toNat * 2 ^ 32 + C.toNat + (D.toNat * 2 ^ 32 + E.toNat)) % 2 ^ 64 := by
  constructor
  · intro hright
    let insns := insnsFrom (dwAdd.position fun _ ↦ 0) 0 dwAdd.allLines
    let S := Setting.alone .masked insns (by decide)
    let cpu := { aloneCpu insns [] 0xf0000000#32 C D with b := B, e := E }
    have hplaced : Placed S dwAdd (fun _ ↦ 0) 0#32 := Setting.alone_placed (by decide)
    have hstack : stack 0xf0000000#32 3 ⊆ S.writable := Setting.alone_stack (by decide)
    have hloaded : S.Loaded cpu.mem := Setting.alone_loaded (by decide)
    have hend : aloneMem insns [] 0xf0000000#32 (0xf0000000#32 + 1#32) = 0xffffffff#32 := if_pos rfl
    have hvalues : S.Leads (fun next ↦ Returns cpu next ∧ next.b = B + dwCarry C E + D ∧
        next.c = C + E) cpu := by
      apply dwAdd_run hplaced
      · rfl
      · exact hstack
      · exact fun mem ↦ .here ⟨⟨rfl, rfl⟩, rfl, rfl⟩
    obtain ⟨next, ⟨-, -, -, -, hsum⟩, -, hb, hc⟩ :=
      (hright S _ 0#32 cpu hplaced hstack rfl rfl rfl rfl rfl).and_of_end hvalues hloaded
        (fun next hnext ↦ hnext.1.p.trans hend) (fun next hnext ↦ hnext.1.p.trans hend)
    rwa [hb, hc] at hsum
  · intro hvalue S far base cpu hplaced hstack hp hb hc hd he
    apply dwAdd_run hplaced hp hstack
    intro mem
    apply Setting.Leads.here
    refine ⟨⟨rfl, rfl⟩, rfl, rfl, rfl, ?_⟩
    rw [hb, hc, hd, he]
    exact hvalue

/-- A product is right when the low halves do not carry into it, a sum when signed comparisons show its
carry. -/
theorem doubleWordRight_iff (B C D E : Word) :
    (D.toNat < 2 ^ 31 → E.toNat < 2 ^ 31 → (DwMulRight D E ↔
      D.toNat % 2 ^ 16 * (E.toNat % 2 ^ 16) ≤ D.toNat * E.toNat % 2 ^ 32)) ∧
    (DwAddRight B C D E ↔ CarryShows C E) := by
  constructor
  · intro hD hE
    rw [dwMulRight_iff_value]
    exact dwMul_value hD hE
  · rw [dwAddRight_iff_value]
    exact dwAdd_value B C D E

theorem doubleWordRight_small : DwMulRight 3#32 5#32 ∧ DwAddRight 1#32 2#32 3#32 5#32 :=
  ⟨((doubleWordRight_iff 1#32 2#32 3#32 5#32).1 (by decide) (by decide)).mpr (by decide),
    (doubleWordRight_iff 1#32 2#32 3#32 5#32).2.mpr (by decide)⟩

/-- The largest factors, and zero added to zero. -/
theorem not_doubleWordRight :
    ¬ DwMulRight 0x7fffffff#32 0x7fffffff#32 ∧ ¬ DwAddRight 0#32 0#32 0#32 0#32 := by
  rw [dwMulRight_iff_value, dwAddRight_iff_value]
  decide

end Tenyr.Stdlib
