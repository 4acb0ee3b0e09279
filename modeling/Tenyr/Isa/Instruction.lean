import Tenyr.Isa.Word

/-!
# Instruction words

`[PPDDZZZZXXXXYYYYffffIIIIIIIIIIII]` for types 0 to 2 and `[PPDDZZZZXXXXIIIIIIIIIIIIIIIIIIII]`
for type 3. The bit fields of `union insn` are read from and assembled into the 32-bit word.
-/

namespace Tenyr.Isa

/-- Operations; hardware-similar ones differ in the most significant bit of the code only. -/
inductive Op where
  | bitwiseOr | bitwiseAnd | bitwiseXor | shiftRightArith
  | add | multiply | compareEq | compareLt
  | bitwiseOrn | bitwiseAndn | pack | shiftRightLogic
  | subtract | shiftLeft | testBit | compareGe
  deriving DecidableEq, Repr

namespace Op

def code : Op → BitVec 4
  | bitwiseOr => 0x0
  | bitwiseAnd => 0x1
  | bitwiseXor => 0x2
  | shiftRightArith => 0x3
  | add => 0x4
  | multiply => 0x5
  | compareEq => 0x6
  | compareLt => 0x7
  | bitwiseOrn => 0x8
  | bitwiseAndn => 0x9
  | pack => 0xa
  | shiftRightLogic => 0xb
  | subtract => 0xc
  | shiftLeft => 0xd
  | testBit => 0xe
  | compareGe => 0xf

/-- Every 4-bit field names an operation, so the C `switch` never reaches its default. -/
def ofCode (c : BitVec 4) : Op :=
  match c with
  | 0x0#4 => bitwiseOr
  | 0x1#4 => bitwiseAnd
  | 0x2#4 => bitwiseXor
  | 0x3#4 => shiftRightArith
  | 0x4#4 => add
  | 0x5#4 => multiply
  | 0x6#4 => compareEq
  | 0x7#4 => compareLt
  | 0x8#4 => bitwiseOrn
  | 0x9#4 => bitwiseAndn
  | 0xa#4 => pack
  | 0xb#4 => shiftRightLogic
  | 0xc#4 => subtract
  | 0xd#4 => shiftLeft
  | 0xe#4 => testBit
  | _ => compareGe

@[simp]
theorem ofCode_code (op : Op) : ofCode op.code = op := by
  cases op <;> rfl

@[simp]
theorem code_ofCode (c : BitVec 4) : (ofCode c).code = c := by
  revert c
  decide

end Op

/-! ## Fields of an instruction word -/

/-- Type code: where the immediate stands. -/
def fieldP (w : Word) : BitVec 2 := w.extractLsb' 30 2

/-- Dereference mode. -/
def fieldDd (w : Word) : BitVec 2 := w.extractLsb' 28 2

/-- The four dereference modes. -/
theorem fieldDd_cases (w : Word) :
    fieldDd w = 0#2 ∨ fieldDd w = 1#2 ∨ fieldDd w = 2#2 ∨ fieldDd w = 3#2 := by
  generalize fieldDd w = dd
  revert dd
  decide

/-- The four types. -/
theorem fieldP_cases (w : Word) :
    fieldP w = 0#2 ∨ fieldP w = 1#2 ∨ fieldP w = 2#2 ∨ fieldP w = 3#2 := by
  generalize fieldP w = p
  revert p
  decide

def fieldZ (w : Word) : RegIndex := w.extractLsb' 24 4

def fieldX (w : Word) : RegIndex := w.extractLsb' 20 4

def fieldY (w : Word) : RegIndex := w.extractLsb' 16 4

def fieldOp (w : Word) : Op := Op.ofCode (w.extractLsb' 12 4)

/-- Immediate of a type 0, 1 or 2 instruction. -/
def fieldImm12 (w : Word) : BitVec 12 := w.extractLsb' 0 12

/-- Immediate of a type 3 instruction. -/
def fieldImm20 (w : Word) : BitVec 20 := w.extractLsb' 0 20

/-- `struct instruction_type012` as a word. -/
def type012 (p dd : BitVec 2) (z x y : RegIndex) (op : Op) (imm : BitVec 12) : Word :=
  p ++ dd ++ z ++ x ++ y ++ op.code ++ imm

/-- `struct instruction_type3` as a word. -/
def type3 (p dd : BitVec 2) (z x : RegIndex) (imm : BitVec 20) : Word :=
  p ++ dd ++ z ++ x ++ imm

/-! ## Reading back an assembled word -/

section Readback

variable (p dd : BitVec 2) (z x y : RegIndex) (op : Op) (imm : BitVec 12) (imm20 : BitVec 20)

@[simp]
theorem fieldP_type012 : fieldP (type012 p dd z x y op imm) = p := by
  change BitVec.extractLsb' (n := 2 + 2 + 4 + 4 + 4 + 4 + 12) 30 2 (p ++ dd ++ z ++ x ++ y ++ op.code ++ imm) = p
  rw [BitVec.extractLsb'_append_eq_of_le (by decide),
    BitVec.extractLsb'_append_eq_of_le (by decide),
    BitVec.extractLsb'_append_eq_of_le (by decide),
    BitVec.extractLsb'_append_eq_of_le (by decide),
    BitVec.extractLsb'_append_eq_of_le (by decide),
    BitVec.extractLsb'_append_eq_of_le (by decide)]
  exact BitVec.extractLsb'_eq_self

@[simp]
theorem fieldDd_type012 : fieldDd (type012 p dd z x y op imm) = dd := by
  change BitVec.extractLsb' (n := 2 + 2 + 4 + 4 + 4 + 4 + 12) 28 2 (p ++ dd ++ z ++ x ++ y ++ op.code ++ imm) = dd
  rw [BitVec.extractLsb'_append_eq_of_le (by decide),
    BitVec.extractLsb'_append_eq_of_le (by decide),
    BitVec.extractLsb'_append_eq_of_le (by decide),
    BitVec.extractLsb'_append_eq_of_le (by decide),
    BitVec.extractLsb'_append_eq_of_le (by decide),
    BitVec.extractLsb'_append_eq_of_add_le (by decide)]
  exact BitVec.extractLsb'_eq_self

@[simp]
theorem fieldZ_type012 : fieldZ (type012 p dd z x y op imm) = z := by
  change BitVec.extractLsb' (n := 2 + 2 + 4 + 4 + 4 + 4 + 12) 24 4 (p ++ dd ++ z ++ x ++ y ++ op.code ++ imm) = z
  rw [BitVec.extractLsb'_append_eq_of_le (by decide),
    BitVec.extractLsb'_append_eq_of_le (by decide),
    BitVec.extractLsb'_append_eq_of_le (by decide),
    BitVec.extractLsb'_append_eq_of_le (by decide),
    BitVec.extractLsb'_append_eq_of_add_le (by decide)]
  exact BitVec.extractLsb'_eq_self

@[simp]
theorem fieldX_type012 : fieldX (type012 p dd z x y op imm) = x := by
  change BitVec.extractLsb' (n := 2 + 2 + 4 + 4 + 4 + 4 + 12) 20 4 (p ++ dd ++ z ++ x ++ y ++ op.code ++ imm) = x
  rw [BitVec.extractLsb'_append_eq_of_le (by decide),
    BitVec.extractLsb'_append_eq_of_le (by decide),
    BitVec.extractLsb'_append_eq_of_le (by decide),
    BitVec.extractLsb'_append_eq_of_add_le (by decide)]
  exact BitVec.extractLsb'_eq_self

@[simp]
theorem fieldY_type012 : fieldY (type012 p dd z x y op imm) = y := by
  change BitVec.extractLsb' (n := 2 + 2 + 4 + 4 + 4 + 4 + 12) 16 4 (p ++ dd ++ z ++ x ++ y ++ op.code ++ imm) = y
  rw [BitVec.extractLsb'_append_eq_of_le (by decide),
    BitVec.extractLsb'_append_eq_of_le (by decide),
    BitVec.extractLsb'_append_eq_of_add_le (by decide)]
  exact BitVec.extractLsb'_eq_self

@[simp]
theorem fieldOp_type012 : fieldOp (type012 p dd z x y op imm) = op := by
  have hcode : BitVec.extractLsb' (n := 2 + 2 + 4 + 4 + 4 + 4 + 12) 12 4
      (p ++ dd ++ z ++ x ++ y ++ op.code ++ imm) = op.code := by
    rw [BitVec.extractLsb'_append_eq_of_le (by decide),
      BitVec.extractLsb'_append_eq_of_add_le (by decide)]
    exact BitVec.extractLsb'_eq_self
  exact (congrArg Op.ofCode hcode).trans (Op.ofCode_code op)

@[simp]
theorem fieldImm12_type012 : fieldImm12 (type012 p dd z x y op imm) = imm := by
  change BitVec.extractLsb' (n := 2 + 2 + 4 + 4 + 4 + 4 + 12) 0 12 (p ++ dd ++ z ++ x ++ y ++ op.code ++ imm) = imm
  rw [BitVec.extractLsb'_append_eq_of_add_le (by decide)]
  exact BitVec.extractLsb'_eq_self

@[simp]
theorem fieldP_type3 : fieldP (type3 p dd z x imm20) = p := by
  change BitVec.extractLsb' (n := 2 + 2 + 4 + 4 + 20) 30 2 (p ++ dd ++ z ++ x ++ imm20) = p
  rw [BitVec.extractLsb'_append_eq_of_le (by decide),
    BitVec.extractLsb'_append_eq_of_le (by decide),
    BitVec.extractLsb'_append_eq_of_le (by decide),
    BitVec.extractLsb'_append_eq_of_le (by decide)]
  exact BitVec.extractLsb'_eq_self

@[simp]
theorem fieldDd_type3 : fieldDd (type3 p dd z x imm20) = dd := by
  change BitVec.extractLsb' (n := 2 + 2 + 4 + 4 + 20) 28 2 (p ++ dd ++ z ++ x ++ imm20) = dd
  rw [BitVec.extractLsb'_append_eq_of_le (by decide),
    BitVec.extractLsb'_append_eq_of_le (by decide),
    BitVec.extractLsb'_append_eq_of_le (by decide),
    BitVec.extractLsb'_append_eq_of_add_le (by decide)]
  exact BitVec.extractLsb'_eq_self

@[simp]
theorem fieldZ_type3 : fieldZ (type3 p dd z x imm20) = z := by
  change BitVec.extractLsb' (n := 2 + 2 + 4 + 4 + 20) 24 4 (p ++ dd ++ z ++ x ++ imm20) = z
  rw [BitVec.extractLsb'_append_eq_of_le (by decide),
    BitVec.extractLsb'_append_eq_of_le (by decide),
    BitVec.extractLsb'_append_eq_of_add_le (by decide)]
  exact BitVec.extractLsb'_eq_self

@[simp]
theorem fieldX_type3 : fieldX (type3 p dd z x imm20) = x := by
  change BitVec.extractLsb' (n := 2 + 2 + 4 + 4 + 20) 20 4 (p ++ dd ++ z ++ x ++ imm20) = x
  rw [BitVec.extractLsb'_append_eq_of_le (by decide),
    BitVec.extractLsb'_append_eq_of_add_le (by decide)]
  exact BitVec.extractLsb'_eq_self

@[simp]
theorem fieldImm20_type3 : fieldImm20 (type3 p dd z x imm20) = imm20 := by
  change BitVec.extractLsb' (n := 2 + 2 + 4 + 4 + 20) 0 20 (p ++ dd ++ z ++ x ++ imm20) = imm20
  rw [BitVec.extractLsb'_append_eq_of_add_le (by decide)]
  exact BitVec.extractLsb'_eq_self

end Readback

/-- The type 0, 1 and 2 layout covers every bit of a word. -/
theorem type012_fields (w : Word) :
    type012 (fieldP w) (fieldDd w) (fieldZ w) (fieldX w) (fieldY w) (fieldOp w)
      (fieldImm12 w) = w := by
  simp only [type012, fieldP, fieldDd, fieldZ, fieldX, fieldY, fieldOp, fieldImm12,
    Op.code_ofCode]
  rw [BitVec.extractLsb'_append_extractLsb'_eq_extractLsb' (by decide),
    BitVec.extractLsb'_append_extractLsb'_eq_extractLsb' (by decide),
    BitVec.extractLsb'_append_extractLsb'_eq_extractLsb' (by decide),
    BitVec.extractLsb'_append_extractLsb'_eq_extractLsb' (by decide),
    BitVec.extractLsb'_append_extractLsb'_eq_extractLsb' (by decide),
    BitVec.extractLsb'_append_extractLsb'_eq_extractLsb' (by decide)]
  exact BitVec.extractLsb'_eq_self

/-- The type 3 layout covers every bit of a word. -/
theorem type3_fields (w : Word) :
    type3 (fieldP w) (fieldDd w) (fieldZ w) (fieldX w) (fieldImm20 w) = w := by
  simp only [type3, fieldP, fieldDd, fieldZ, fieldX, fieldImm20]
  rw [BitVec.extractLsb'_append_extractLsb'_eq_extractLsb' (by decide),
    BitVec.extractLsb'_append_extractLsb'_eq_extractLsb' (by decide),
    BitVec.extractLsb'_append_extractLsb'_eq_extractLsb' (by decide),
    BitVec.extractLsb'_append_extractLsb'_eq_extractLsb' (by decide)]
  exact BitVec.extractLsb'_eq_self

end Tenyr.Isa
