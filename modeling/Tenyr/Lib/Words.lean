import Mathlib.Data.BitVec
import Mathlib.Data.Nat.Bitwise

/-!
# Words that are not negative

Signed operations on 32-bit words below the sign are the operations on natural numbers.
-/

namespace Tenyr.Lib.Words

variable {x y : ℕ}

theorem toInt_ofNat (hx : x < 2 ^ 31) : (BitVec.ofNat 32 x).toInt = x := by
  rw [← BitVec.ofInt_natCast, BitVec.toInt_ofInt]
  exact Int.bmod_eq_of_le (by omega) (by omega)

theorem toNat_ofNat (hx : x < 2 ^ 31) : (BitVec.ofNat 32 x).toNat = x := by
  rw [BitVec.toNat_ofNat]
  exact Nat.mod_eq_of_lt (by omega)

theorem ofNat_ne_zero (hpos : 0 < x) (hx : x < 2 ^ 31) : BitVec.ofNat 32 x ≠ 0#32 := by
  intro hzero
  rw [← BitVec.toNat_inj, toNat_ofNat hx] at hzero
  exact Nat.ne_of_gt hpos hzero

theorem slt_ofNat (hx : x < 2 ^ 31) (hy : y < 2 ^ 31) :
    (BitVec.ofNat 32 x).slt (BitVec.ofNat 32 y) = decide (x < y) := by
  rw [BitVec.slt_eq_decide, toInt_ofNat hx, toInt_ofNat hy, decide_eq_decide]
  exact Int.ofNat_lt

theorem beq_ofNat (hx : x < 2 ^ 31) (hy : y < 2 ^ 31) :
    (BitVec.ofNat 32 x == BitVec.ofNat 32 y) = decide (x = y) := by
  rw [beq_eq_decide, decide_eq_decide, ← BitVec.toNat_inj, toNat_ofNat hx, toNat_ofNat hy]

/-- Two comparisons that make one. -/
theorem slt_or_beq_ofNat (hx : x < 2 ^ 31) (hy : y < 2 ^ 31) :
    ((BitVec.ofNat 32 x).slt (BitVec.ofNat 32 y) || BitVec.ofNat 32 x == BitVec.ofNat 32 y) =
      decide (x ≤ y) := by
  rw [slt_ofNat hx hy, beq_ofNat hx hy, ← Bool.decide_or, decide_eq_decide]
  exact Nat.le_iff_lt_or_eq.symm

theorem zero_sle (w : BitVec 32) : (0#32).sle w = decide (w.toNat < 2 ^ 31) := by
  have hsign : 0 ≤ w.toInt ↔ w.toNat < 2 ^ 31 := by
    rw [← Int.not_lt, BitVec.toInt_neg_iff]
    omega
  rw [BitVec.sle_eq_decide, decide_eq_decide]
  exact hsign

/-- A comparison of a word that is not negative. -/
theorem slt_ofNat_of_lt {w : BitVec 32} (hw : w.toNat < 2 ^ 31) (hy : y < 2 ^ 31) :
    w.slt (BitVec.ofNat 32 y) = decide (w.toNat < y) := by
  rw [← slt_ofNat hw hy, BitVec.ofNat_toNat, BitVec.setWidth_eq]

theorem sshiftRight_ofNat (hx : x < 2 ^ 31) (n : ℕ) :
    (BitVec.ofNat 32 x).sshiftRight n = BitVec.ofNat 32 (x / 2 ^ n) := by
  have hle : x / 2 ^ n ≤ x := Nat.div_le_self _ _
  apply BitVec.eq_of_toInt_eq
  rw [BitVec.toInt_sshiftRight, toInt_ofNat hx, toInt_ofNat (by omega), Int.shiftRight_eq_div_pow]
  rfl

theorem ofNat_sub (hle : y ≤ x) :
    BitVec.ofNat 32 x - BitVec.ofNat 32 y = BitVec.ofNat 32 (x - y) := by
  rw [sub_eq_iff_eq_add, ← BitVec.ofNat_add, Nat.sub_add_cancel hle]

theorem shiftLeft_one_ofNat (x : ℕ) : BitVec.ofNat 32 x <<< 1#32 = BitVec.ofNat 32 (2 * x) := by
  apply BitVec.eq_of_toNat_eq
  have hone : (1#32).toNat = 1 := rfl
  rw [BitVec.shiftLeft_eq', BitVec.toNat_shiftLeft, hone, BitVec.toNat_ofNat, BitVec.toNat_ofNat,
    Nat.shiftLeft_eq, Nat.pow_one]
  omega

/-- The lowest bit of an even word is set. -/
theorem or_one_ofNat (x : ℕ) : BitVec.ofNat 32 (2 * x) ||| 1#32 = BitVec.ofNat 32 (2 * x + 1) := by
  have hand : BitVec.ofNat 32 (2 * x) &&& 1#32 = 0#32 := by
    apply BitVec.eq_of_toNat_eq
    rw [BitVec.toNat_and, BitVec.toNat_ofNat]
    change (2 * x % 2 ^ 32) &&& 1 = 0
    rw [Nat.and_one_is_mod]
    omega
  rw [← BitVec.add_eq_or_of_and_eq_zero _ _ hand, BitVec.ofNat_add]

/-- The bits outside a mask, and those inside. -/
theorem toNat_andn_add_and (w mask : BitVec 32) :
    (w &&& ~~~mask).toNat + (w &&& mask).toNat = w.toNat := by
  have hdisjoint : (w &&& ~~~mask) &&& (w &&& mask) = 0#32 := by
    ext i hi
    simp only [BitVec.getElem_and, BitVec.getElem_not, BitVec.getElem_zero]
    grind
  have hjoin : (w &&& ~~~mask) ||| (w &&& mask) = w := by
    ext i hi
    simp only [BitVec.getElem_or, BitVec.getElem_and, BitVec.getElem_not]
    grind
  rw [← BitVec.toNat_add_of_and_eq_zero hdisjoint, BitVec.add_eq_or_of_and_eq_zero _ _ hdisjoint,
    hjoin]

/-- A word without the bit that upper and lower case differ in. -/
theorem toNat_andn_caseBit (w : BitVec 32) :
    (w &&& ~~~32#32).toNat + w.toNat / 32 % 2 * 32 = w.toNat := by
  have hbit : (w &&& 32#32).toNat = w.toNat / 32 % 2 * 32 := by
    rw [BitVec.toNat_and]
    change w.toNat &&& 2 ^ 5 = _
    rw [Nat.and_two_pow, Nat.testBit_eq_decide_div_mod_eq]
    change (decide (w.toNat / 32 % 2 = 1)).toNat * 32 = _
    rcases Nat.mod_two_eq_zero_or_one (w.toNat / 32) with hmod | hmod <;> rw [hmod] <;> rfl
  rw [← hbit]
  exact toNat_andn_add_and w 32#32

/-- A word below the sign is the word of its number. -/
theorem exists_ofNat (w : BitVec 32) (hw : w.toNat < 2 ^ 31) :
    ∃ x < 2 ^ 31, w = BitVec.ofNat 32 x :=
  ⟨w.toNat, hw, by rw [BitVec.ofNat_toNat, BitVec.setWidth_eq]⟩

end Tenyr.Lib.Words
