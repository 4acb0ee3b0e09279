import Mathlib.Data.BitVec
import Mathlib.Logic.Function.Basic

/-!
# 32-bit x86 data instructions on virtual registers

Two-operand instructions overwrite their first operand and set the condition flags; moves leave
the flags alone. Shift instructions take their count modulo 32. The flags that an instruction
leaves undefined, or that a count-dependent rule determines, are a parameter: code that is correct
for every choice does not rely on them.
-/

namespace Tenyr.Lib.X86

/-- The condition flags that conditional moves and borrows read. -/
structure Flags where
  zf : Bool
  sf : Bool
  cf : Bool
  of : Bool

/-- Condition codes of `cmovcc`. -/
inductive Cond where
  | z | nz | l | ge
  deriving DecidableEq, Repr

def Cond.holds : Cond → Flags → Bool
  | z, f => f.zf
  | nz, f => !f.zf
  | l, f => f.sf != f.of
  | ge, f => f.sf == f.of

/-- Flags after `cmp a, b` and `sub a, b`. -/
def subFlags (a b : BitVec 32) : Flags where
  zf := a - b == 0#32
  sf := (a - b).msb
  cf := a.ult b
  of := BitVec.ssubOverflow a b

/-- Flags after a bitwise operation with the given result. -/
def logicFlags (r : BitVec 32) : Flags where
  zf := r == 0#32
  sf := r.msb
  cf := false
  of := false

inductive Insn (V : Type) where
  | mov (dst src : V)
  | movImm (dst : V) (imm : BitVec 32)
  | add (dst src : V)
  | addImm (dst : V) (imm : BitVec 32)
  | sub (dst src : V)
  | imul (dst src : V)
  | and (dst src : V)
  | andImm (dst : V) (imm : BitVec 32)
  | or (dst src : V)
  | xor (dst src : V)
  | not (dst : V)
  | shr (dst count : V)
  | sar (dst count : V)
  | sal (dst count : V)
  | shlImm (dst : V) (count : BitVec 32)
  | cmp (a b : V)
  | cmov (cond : Cond) (dst src : V)
  | bt (a index : V)
  | sbb (dst src : V)

/-- Virtual registers and flags. -/
structure Cpu (V : Type) where
  vals : V → BitVec 32
  flags : Flags

variable {V : Type} [DecidableEq V]

namespace Cpu

def set (c : Cpu V) (dst : V) (value : BitVec 32) : Cpu V :=
  { c with vals := Function.update c.vals dst value }

/-- Overwrite a register and the flags. -/
def setFlags (c : Cpu V) (dst : V) (value : BitVec 32) (flags : Flags) : Cpu V where
  vals := Function.update c.vals dst value
  flags := flags

end Cpu

/-- One instruction; `unspecified` supplies the flags this model does not describe. -/
def Insn.step (unspecified : Insn V → Cpu V → Flags) (c : Cpu V) (i : Insn V) : Cpu V :=
  match i with
  | mov dst src => c.set dst (c.vals src)
  | movImm dst imm => c.set dst imm
  | add dst src => c.setFlags dst (c.vals dst + c.vals src) (unspecified i c)
  | addImm dst imm => c.setFlags dst (c.vals dst + imm) (unspecified i c)
  | sub dst src => c.setFlags dst (c.vals dst - c.vals src) (subFlags (c.vals dst) (c.vals src))
  | imul dst src => c.setFlags dst (c.vals dst * c.vals src) (unspecified i c)
  | and dst src =>
      c.setFlags dst (c.vals dst &&& c.vals src) (logicFlags (c.vals dst &&& c.vals src))
  | andImm dst imm => c.setFlags dst (c.vals dst &&& imm) (logicFlags (c.vals dst &&& imm))
  | or dst src =>
      c.setFlags dst (c.vals dst ||| c.vals src) (logicFlags (c.vals dst ||| c.vals src))
  | xor dst src =>
      c.setFlags dst (c.vals dst ^^^ c.vals src) (logicFlags (c.vals dst ^^^ c.vals src))
  | not dst => c.set dst (~~~c.vals dst)
  | shr dst count => c.setFlags dst (c.vals dst >>> (c.vals count &&& 31#32)) (unspecified i c)
  | sar dst count =>
      c.setFlags dst ((c.vals dst).sshiftRight' (c.vals count &&& 31#32)) (unspecified i c)
  | sal dst count => c.setFlags dst (c.vals dst <<< (c.vals count &&& 31#32)) (unspecified i c)
  | shlImm dst count => c.setFlags dst (c.vals dst <<< (count &&& 31#32)) (unspecified i c)
  | cmp a b => { c with flags := subFlags (c.vals a) (c.vals b) }
  | cmov cond dst src => c.set dst (if cond.holds c.flags then c.vals src else c.vals dst)
  | bt a index =>
      { c with
        flags := { unspecified i c with
          cf := (c.vals a).getLsbD (c.vals index &&& 31#32).toNat } }
  | sbb dst src =>
      c.setFlags dst (c.vals dst - c.vals src - (if c.flags.cf then 1#32 else 0#32))
        (unspecified i c)

def run (unspecified : Insn V → Cpu V → Flags) (c : Cpu V) (code : List (Insn V)) : Cpu V :=
  code.foldl (Insn.step unspecified) c

@[simp]
theorem run_nil (unspecified : Insn V → Cpu V → Flags) (c : Cpu V) :
    run unspecified c [] = c := rfl

@[simp]
theorem run_cons (unspecified : Insn V → Cpu V → Flags) (c : Cpu V) (i : Insn V)
    (code : List (Insn V)) :
    run unspecified c (i :: code) = run unspecified (i.step unspecified c) code := rfl

theorem run_append (unspecified : Insn V → Cpu V → Flags) (c : Cpu V)
    (code rest : List (Insn V)) :
    run unspecified c (code ++ rest) = run unspecified (run unspecified c code) rest := by
  simp [run]

/-! ## Condition codes after a comparison -/

theorem holds_z_subFlags (a b : BitVec 32) : Cond.z.holds (subFlags a b) = (a == b) := by
  have hiff : (a - b = 0#32) ↔ (a = b) := sub_eq_zero
  simp only [Cond.holds, subFlags]
  rw [Bool.eq_iff_iff, beq_iff_eq, beq_iff_eq, hiff]

/-- A 32-bit difference wraps around at most once. -/
theorem toInt_sub_cases (a b : BitVec 32) :
    (a.toInt - b.toInt < -2147483648 ∧ (a - b).toInt = a.toInt - b.toInt + 4294967296) ∨
    (2147483648 ≤ a.toInt - b.toInt ∧ (a - b).toInt = a.toInt - b.toInt - 4294967296) ∨
    (-2147483648 ≤ a.toInt - b.toInt ∧ a.toInt - b.toInt < 2147483648 ∧
      (a - b).toInt = a.toInt - b.toInt) := by
  have ha := a.toInt_lt
  have ha' := a.le_toInt
  have hb := b.toInt_lt
  have hb' := b.le_toInt
  have hsub : (a - b).toInt = (a.toInt - b.toInt).bmod (2 ^ 32) := BitVec.toInt_sub
  simp only [Int.bmod, Nat.reducePow, Nat.cast_ofNat, Int.reduceAdd, Int.reduceDiv] at hsub
  split_ifs at hsub <;> omega

theorem holds_l_subFlags (a b : BitVec 32) : Cond.l.holds (subFlags a b) = a.slt b := by
  have ha := a.toInt_lt
  have ha' := a.le_toInt
  have hb := b.toInt_lt
  have hb' := b.le_toInt
  simp only [Cond.holds, subFlags, BitVec.ssubOverflow, BitVec.msb_eq_toInt, BitVec.slt_eq_decide]
  rw [Bool.eq_iff_iff, bne_iff_ne, ne_eq, Bool.eq_iff_iff]
  simp only [decide_eq_true_eq, Bool.or_eq_true, Nat.reduceSub, Int.reducePow, ge_iff_le]
  rcases toInt_sub_cases a b with ⟨hlow, hdiff⟩ | ⟨hhigh, hdiff⟩ | ⟨hlow, hhigh, hdiff⟩
  · omega
  · omega
  · omega

theorem holds_ge_subFlags (a b : BitVec 32) : Cond.ge.holds (subFlags a b) = b.sle a := by
  have hneg : Cond.ge.holds (subFlags a b) = !Cond.l.holds (subFlags a b) := by
    simp [Cond.holds, bne]
  rw [hneg, holds_l_subFlags, BitVec.slt_eq_decide, BitVec.sle_eq_decide]
  simp [← decide_not]

theorem holds_nz_logicFlags (r : BitVec 32) : Cond.nz.holds (logicFlags r) = (r != 0#32) := rfl

/-! ## Shift counts -/

/-- A count in `0..31` is not changed by reduction modulo 32. -/
theorem toNat_and_31_of_lt {n : BitVec 32} (hn : n < 32#32) : n.toNat &&& 31 = n.toNat := by
  have hlt : n.toNat < 32 := by simpa using BitVec.lt_def.mp hn
  have hmask : n.toNat &&& 2 ^ 5 - 1 = n.toNat % 2 ^ 5 := Nat.and_two_pow_sub_one_eq_mod _ 5
  simpa [Nat.mod_eq_of_lt hlt] using hmask

/-- A count in `0..31` has no bits above the lowest five. -/
theorem and_not_31_of_lt {n : BitVec 32} (hn : n < 32#32) : n &&& 4294967264#32 = 0#32 := by
  have hmask : n &&& 31#32 = n := by
    apply BitVec.eq_of_toNat_eq
    simpa [BitVec.toNat_and] using toNat_and_31_of_lt hn
  rw [← hmask, BitVec.and_assoc]
  simp

end Tenyr.Lib.X86
