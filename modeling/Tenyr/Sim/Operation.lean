import Tenyr.Isa.Instruction

/-!
# The arithmetic unit of the simulator

`doOp` is the C function `do_op`: the type code decides which of the three operand positions the
immediate takes, and the operation combines positions 2 and 1 before position 0 is added.
`opValue` names the combination alone, which is what an instruction statement denotes.
-/

namespace Tenyr.Sim

open Isa

/-- The array `p[3]` of `do_op`. -/
structure Operands where
  p2 : Word
  p1 : Word
  p0 : Word

/-- The `type` determines which position the immediate has. -/
def operands (type : BitVec 2) (X Y I : Word) : Operands :=
  match type with
  | 0#2 => { p2 := X, p1 := Y, p0 := sextend32 smallImmediateBitwidth I }
  | 1#2 => { p2 := X, p1 := sextend32 smallImmediateBitwidth I, p0 := Y }
  | 2#2 => { p2 := sextend32 smallImmediateBitwidth I, p1 := X, p0 := Y }
  | _ => { p2 := 0#32, p1 := X, p0 := sextend32 mediumImmediateBitwidth I }

def doOp (undef : UndefinedShifts) (op : Op) (type : BitVec 2) (X Y I : Word) : Word :=
  let p := operands type X Y I
  let pack2 := p.p2 <<< 12
  let pack1 := p.p1 &&& 0xfff#32
  match op with
  | .add => (p.p2 + p.p1) + p.p0
  | .subtract => (p.p2 - p.p1) + p.p0
  | .multiply => (p.p2 * p.p1) + p.p0
  | .shiftRightLogic => undef.shr p.p2 p.p1 + p.p0
  | .shiftRightArith => undef.sar p.p2 p.p1 + p.p0
  | .shiftLeft =>
      let rhs := undef.shl p.p2 p.p1 + p.p0
      if 32#32 ≤ p.p1 then 0#32 else rhs
  | .compareLt => negBool (p.p2.slt p.p1) + p.p0
  | .compareEq => negBool (p.p2 == p.p1) + p.p0
  | .compareGe => negBool (p.p1.sle p.p2) + p.p0
  | .bitwiseAnd => (p.p2 &&& p.p1) + p.p0
  | .bitwiseAndn => (p.p2 &&& ~~~p.p1) + p.p0
  | .bitwiseOr => (p.p2 ||| p.p1) + p.p0
  | .bitwiseOrn => (p.p2 ||| ~~~p.p1) + p.p0
  | .bitwiseXor => (p.p2 ^^^ p.p1) + p.p0
  | .pack => (pack2 ||| pack1) + p.p0
  | .testBit => negBool (p.p2 &&& undef.shl 1#32 p.p1 != 0#32) + p.p0

/-- The value of `left op right`. A left shift by 32 or more is zero; the other shifts by such a
count, and the bit index of `@`, are whatever C makes of them. -/
def opValue (undef : UndefinedShifts) (op : Op) (left right : Word) : Word :=
  match op with
  | .add => left + right
  | .subtract => left - right
  | .multiply => left * right
  | .shiftRightLogic => undef.shr left right
  | .shiftRightArith => undef.sar left right
  | .shiftLeft => left <<< right
  | .compareLt => negBool (left.slt right)
  | .compareEq => negBool (left == right)
  | .compareGe => negBool (right.sle left)
  | .bitwiseAnd => left &&& right
  | .bitwiseAndn => left &&& ~~~right
  | .bitwiseOr => left ||| right
  | .bitwiseOrn => left ||| ~~~right
  | .bitwiseXor => left ^^^ right
  | .pack => (left <<< 12) ||| (right &&& 0xfff#32)
  | .testBit => negBool (left &&& undef.shl 1#32 right != 0#32)

/-- The explicit case for over-long left shifts also discards the addend. -/
def dropsAddend (op : Op) (right : Word) : Prop :=
  op = .shiftLeft ∧ 32#32 ≤ right

instance (op : Op) (right : Word) : Decidable (dropsAddend op right) :=
  inferInstanceAs (Decidable (_ ∧ _))

/-- `do_op` is the combination of positions 2 and 1 plus position 0, except after an over-long
left shift. -/
theorem doOp_eq (undef : UndefinedShifts) (op : Op) (type : BitVec 2) (X Y I : Word) :
    doOp undef op type X Y I =
      if dropsAddend op (operands type X Y I).p1 then 0#32
      else opValue undef op (operands type X Y I).p2 (operands type X Y I).p1 +
        (operands type X Y I).p0 := by
  cases op
  case shiftLeft =>
    by_cases hcount : 32#32 ≤ (operands type X Y I).p1
    · simp [doOp, dropsAddend, hcount]
    · have hlt := BitVec.not_le.mp hcount
      simp [doOp, dropsAddend, hcount, opValue, undef.shl_of_lt hlt]
  all_goals simp [doOp, dropsAddend, opValue]

/-- Operations whose right operand is a shift count or a bit index. -/
def usesCount : Op → Bool
  | .shiftLeft | .shiftRightLogic | .shiftRightArith | .testBit => true
  | _ => false

/-- The right operand is a count in `0..31` wherever the operation needs one. -/
def CountInRange (op : Op) (right : Word) : Prop :=
  usesCount op = true → right < 32#32

theorem CountInRange.not_dropsAddend {op : Op} {right : Word} (h : CountInRange op right) :
    ¬ dropsAddend op right := by
  rintro ⟨rfl, hle⟩
  exact absurd (h rfl) (BitVec.not_lt.mpr hle)

end Tenyr.Sim
