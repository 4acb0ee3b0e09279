import Tenyr.Hw.Traversal

/-!
# The arithmetic of simulator and hardware

`do_op` and the path through `Decode`, `Shuf` and `Exec` compute the same result for the same operands,
except that `do_op` loses the addend of a left shift by 32 or more.
-/

namespace Tenyr.Hw

open Isa Sim

section Alu

variable (undef : UndefinedShifts) (w X Y : Word)

/-- The immediate that `run_instruction` passes to `do_op`. -/
def immediate : Word :=
  if fieldP w = 3#2 then (fieldImm20 w).setWidth 32 else (fieldImm12 w).setWidth 32

/-- The operands that `do_op` selects, for any contents of the registers. -/
def aluOperands : Operands :=
  operands (fieldP w) X (if fieldP w = 3#2 then 0#32 else Y) (immediate w)

/-- `do_op` as `run_instruction` calls it. -/
def aluResult : Word :=
  doOp undef (insnOp w) (fieldP w) X (if fieldP w = 3#2 then 0#32 else Y) (immediate w)

theorem rhsValue_eq_aluResult (regs : RegIndex → Word) :
    rhsValue undef regs w = aluResult undef w (regs (fieldX w)) (regs (fieldY w)) := by
  unfold rhsValue aluResult insnOp immediate
  split <;> rfl

/-- The output of `Exec` four edges after it is enabled, with the operands held. -/
def execResult (e : Exec) (op : BitVec 4) (val : Shuffled) : Word :=
  ((((e.tick true op val).tick false op val).tick false op val).tick false op val).valZ

/-- The hardware path for an instruction and the contents of its registers. -/
def hardwareResult (e : Exec) : Word :=
  execResult e (op w) (shuf (kind w) X Y (valI w))

theorem execResult_eq (e : Exec) (op : BitVec 4) (val : Shuffled) :
    execResult e op val = execY op val.valA val.valB + val.valC := rfl

/-- `Decode` and `Shuf` place the operands as the array of `do_op` does. -/
theorem shuf_eq_aluOperands :
    shuf (kind w) X Y (valI w) =
      { valA := (aluOperands w X Y).p2, valB := (aluOperands w X Y).p1
        valC := (aluOperands w X Y).p0 } := by
  have hkind : kind w = fieldP w := rfl
  unfold aluOperands immediate
  rw [hkind, valI_eq]
  generalize fieldP w = p
  obtain rfl | rfl | rfl | rfl : p = 0#2 ∨ p = 1#2 ∨ p = 2#2 ∨ p = 3#2 := by
    revert p
    decide
  all_goals simp [shuf, operands, sextend32_imm12, sextend32_imm20]

/-- The bounds on counts and bit indices beyond which C does not define the result; left shifts have
none. -/
def CountDefined (op : Op) (right : Word) : Prop :=
  op = .shiftRightLogic ∨ op = .shiftRightArith ∨ op = .testBit → right < 32#32

/-- The hardware combines operands as the operation says. -/
theorem execY_eq (op : Op) (a b : Word) (hcount : CountDefined op b) :
    execY op.code a b = opValue undef op a b := by
  by_cases hshift : op = .shiftLeft
  · rw [hshift]
    rfl
  · apply execY_eq_opValue
    intro huses
    apply hcount
    cases op <;> simp [usesCount] at huses hshift ⊢

/-- The two results agree exactly when the instruction is no left shift by 32 or more with an addend
other than zero. -/
theorem aluResult_eq_hardware_iff (e : Exec)
    (hcount : CountDefined (insnOp w) (aluOperands w X Y).p1) :
    aluResult undef w X Y = hardwareResult w X Y e ↔
      ¬ (insnOp w = .shiftLeft ∧ 32#32 ≤ (aluOperands w X Y).p1 ∧ (aluOperands w X Y).p0 ≠ 0#32) := by
  have hhardware : hardwareResult w X Y e =
      opValue undef (insnOp w) (aluOperands w X Y).p2 (aluOperands w X Y).p1 +
        (aluOperands w X Y).p0 := by
    rw [hardwareResult, execResult_eq, shuf_eq_aluOperands, op_eq_code,
      execY_eq undef _ _ _ hcount]
  have halu : aluResult undef w X Y =
      if dropsAddend (insnOp w) (aluOperands w X Y).p1 then 0#32
      else opValue undef (insnOp w) (aluOperands w X Y).p2 (aluOperands w X Y).p1 +
        (aluOperands w X Y).p0 := doOp_eq undef _ _ _ _ _
  rw [hhardware, halu]
  generalize aluOperands w X Y = p
  by_cases hdrops : dropsAddend (insnOp w) p.p1
  · obtain ⟨hop, hle⟩ := hdrops
    have hzero : p.p2 <<< p.p1 = 0#32 := by
      apply BitVec.shiftLeft_eq_zero
      exact BitVec.le_def.mp hle
    rw [if_pos ⟨hop, hle⟩, hop]
    change 0#32 = p.p2 <<< p.p1 + p.p0 ↔ _
    rw [hzero, BitVec.zero_add]
    constructor
    · rintro hadd ⟨_, _, hne⟩
      exact hne hadd.symm
    · intro h
      by_contra hne
      exact h ⟨rfl, hle, fun hp ↦ hne hp.symm⟩
  · rw [if_neg hdrops]
    constructor
    · rintro _ ⟨hop, hle, _⟩
      exact hdrops ⟨hop, hle⟩
    · intro _
      rfl

end Alu

/-! ## An over-long shift -/

/-- `B <- C << D + 1` -/
def shiftWord : Word := type012 0#2 0#2 1#4 2#4 3#4 .shiftLeft 1#12

/-- A register of zeros behind a pipeline that has not worked yet. -/
def idleExec : Exec where
  rop := 0#4
  valZ := 0#32
  rY := 0#32
  rZ := 0#32
  rA := 0#32
  rB := 0#32
  rC := 0#32
  done := false
  add := false
  act := false
  staged := false

/-- Shifting by 1 gives 11 in both. -/
theorem aluResult_eq_hardware_one :
    aluResult .masked shiftWord 5#32 1#32 = hardwareResult shiftWord 5#32 1#32 idleExec := by
  have hcount : CountDefined (insnOp shiftWord) (aluOperands shiftWord 5#32 1#32).p1 := by
    unfold CountDefined
    decide
  apply (aluResult_eq_hardware_iff .masked shiftWord 5#32 1#32 idleExec hcount).mpr
  rintro ⟨_, hover, _⟩
  exact absurd hover (by decide)

/-- Shifting by 32: the simulator computes 0, the hardware 1. -/
theorem aluResult_ne_hardware :
    CountDefined (insnOp shiftWord) (aluOperands shiftWord 5#32 32#32).p1 ∧
      aluResult .masked shiftWord 5#32 32#32 ≠ hardwareResult shiftWord 5#32 32#32 idleExec := by
  refine ⟨by unfold CountDefined; decide, by decide⟩

end Tenyr.Hw
