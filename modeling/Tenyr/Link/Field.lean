import Tenyr.Link.Image
import Tenyr.Asm.Statement
import Mathlib.Tactic.IntervalCases

/-!
# Fields of words

Relocations update the low bits of a word as a number of their own and leave the other bits alone, so
relocations of one width add up.
-/

namespace Tenyr.Link

open Isa Obj Asm

/-- The mask that `tld` computes from a width is the one the assembler stores through. -/
theorem relocMask_eq (undef : UndefinedShifts) {width : ℕ} (hpos : 0 < width)
    (hle : width ≤ 32) : relocMask undef (BitVec.ofNat 32 width) = fieldMask width := by
  have hcount : BitVec.ofNat 32 width - 1#32 < 32#32 := by
    rw [BitVec.lt_def, BitVec.toNat_sub, BitVec.toNat_ofNat]
    simp
    omega
  rw [relocMask, undef.shl_of_lt hcount, undef.shl_of_lt (by decide)]
  clear hcount
  interval_cases width <;> decide

/-- The low bits and the others determine a word. -/
theorem word_ext {width : ℕ} {x y : Word} (hlow : x.setWidth width = y.setWidth width)
    (hhigh : x &&& ~~~fieldMask width = y &&& ~~~fieldMask width) : x = y := by
  apply BitVec.eq_of_getLsbD_eq
  intro i hi
  by_cases hi' : i < width
  · have h := congrArg (fun z ↦ z.getLsbD i) hlow
    simpa [BitVec.getLsbD_setWidth, hi'] using h
  · have h := congrArg (fun z ↦ z.getLsbD i) hhigh
    simpa [BitVec.getLsbD_and, fieldMask, BitVec.getLsbD_setWidth, BitVec.getLsbD_allOnes, hi',
      hi] using h

/-- A displacement with the sign of `RLC_NEGATE`. -/
def signed (negate : Bool) (w : Word) : Word := if negate then -w else w

/-- Storing into the low bits. -/
def merge (width : ℕ) (dest value : Word) : Word :=
  (dest &&& ~~~fieldMask width) ||| (value &&& fieldMask width)

theorem merge_low {width : ℕ} (hle : width ≤ 32) (dest value : Word) :
    (merge width dest value).setWidth width = value.setWidth width := by
  apply BitVec.eq_of_getLsbD_eq
  intro i hi
  have hi' : i < 32 := by omega
  simp [merge, fieldMask, hi, hi']

theorem merge_high (width : ℕ) (dest value : Word) :
    merge width dest value &&& ~~~fieldMask width = dest &&& ~~~fieldMask width := by
  apply BitVec.eq_of_getLsbD_eq
  intro i hi
  by_cases hi' : i < width
  · simp [merge, fieldMask, hi, hi']
  · simp [merge, fieldMask, hi, hi']

theorem setWidth_add {width : ℕ} (hle : width ≤ 32) (x y : Word) :
    (x + y).setWidth width = x.setWidth width + y.setWidth width :=
  BitVec.setWidth_add x y hle

theorem relocateWord_eq_merge (width : ℕ) (reladdr dest : Word) :
    relocateWord (fieldMask width) reladdr dest = merge width dest (dest + reladdr) := rfl

/-- Relocations of one width add up. -/
theorem relocateWord_relocateWord {width : ℕ} (hle : width ≤ 32) (a b dest : Word) :
    relocateWord (fieldMask width) b (relocateWord (fieldMask width) a dest) =
      relocateWord (fieldMask width) (a + b) dest := by
  simp only [relocateWord_eq_merge]
  apply @word_ext width
  · rw [merge_low hle, merge_low hle, setWidth_add hle, merge_low hle, ← setWidth_add hle,
      BitVec.add_assoc]
  · rw [merge_high, merge_high, merge_high]

theorem relocateWord_zero (width : ℕ) (dest : Word) :
    relocateWord (fieldMask width) 0#32 dest = dest := by
  rw [relocateWord_eq_merge, BitVec.add_zero]
  apply BitVec.eq_of_getLsbD_eq
  intro i hi
  by_cases hi' : i < width <;>
    simp [merge, fieldMask, hi, hi']

end Tenyr.Link
