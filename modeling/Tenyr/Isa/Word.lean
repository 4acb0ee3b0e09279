import Mathlib.Data.BitVec

/-!
# Machine words and C integer operations

Registers, memory cells and assembler values are 32-bit words; signed and unsigned views share
one carrier. C leaves a shift by 32 or more undefined, so every model that shifts takes the
values of those expressions as a parameter and no result depends on a particular choice.
-/

namespace Tenyr.Isa

abbrev Word := BitVec 32

/-- Register selectors `A` to `P`. -/
abbrev RegIndex := BitVec 4

def smallImmediateBitwidth : ℕ := 12
def mediumImmediateBitwidth : ℕ := 20
def wordBitwidth : ℕ := 32

/-- `SEXTEND32`: sign-extend the low `bits` bits. -/
def sextend32 (bits : ℕ) (x : Word) : Word :=
  (x.setWidth bits).signExtend 32

@[simp]
theorem sextend32_word (x : Word) : sextend32 wordBitwidth x = x := by
  simp [sextend32, wordBitwidth]

@[simp]
theorem sextend32_zero (bits : ℕ) : sextend32 bits 0#32 = 0#32 := by
  apply BitVec.eq_of_toInt_eq
  simp [sextend32, BitVec.toInt_signExtend]

/-- The values C happens to produce for shifts by 32 or more. -/
structure UndefinedShifts where
  left : Word → Word → Word
  logic : Word → Word → Word
  arith : Word → Word → Word

namespace UndefinedShifts

variable (undef : UndefinedShifts)

/-- `a << n` on 32-bit operands. -/
def shl (a n : Word) : Word :=
  if n < 32#32 then a <<< n else undef.left a n

/-- `a >> n` with an unsigned left operand. -/
def shr (a n : Word) : Word :=
  if n < 32#32 then a >>> n else undef.logic a n

/-- `a >> n` with a signed left operand. -/
def sar (a n : Word) : Word :=
  if n < 32#32 then a.sshiftRight' n else undef.arith a n

theorem shl_of_lt {a n : Word} (hn : n < 32#32) : undef.shl a n = a <<< n :=
  if_pos hn

theorem shr_of_lt {a n : Word} (hn : n < 32#32) : undef.shr a n = a >>> n :=
  if_pos hn

theorem sar_of_lt {a n : Word} (hn : n < 32#32) : undef.sar a n = a.sshiftRight' n :=
  if_pos hn

/-- What x86 shift instructions produce: the count is taken modulo 32. -/
def masked : UndefinedShifts where
  left a n := a <<< (n &&& 31#32)
  logic a n := a >>> (n &&& 31#32)
  arith a n := a.sshiftRight' (n &&& 31#32)

end UndefinedShifts

/-- A C truth value negated as an integer: `-(cond)`. -/
def negBool (b : Bool) : Word :=
  if b then -1#32 else 0#32

theorem negBool_or (b b' : Bool) : negBool b ||| negBool b' = negBool (b || b') := by
  revert b b'
  decide

end Tenyr.Isa
