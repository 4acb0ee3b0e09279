import Mathlib.Data.Nat.Digits.Lemmas
import Mathlib.Tactic.Ring
import Tenyr.Isa.Word
import Tenyr.Lib.Words

/-!
# Numerals

Which number a string denotes, and which number `strtol` reads: its loop for large bases takes every
character from `'0'` on for a digit until the base is exhausted.
-/

namespace Tenyr.Stdlib

open Isa Lib.Words

/-! ## Characters -/

/-- The digit that a character is, a letter of either case above nine. -/
def digitValue (ch : Word) : Option ℕ :=
  if 48 ≤ ch.toNat ∧ ch.toNat ≤ 57 then some (ch.toNat - 48)
  else if 65 ≤ ch.toNat ∧ ch.toNat ≤ 90 then some (ch.toNat - 55)
  else if 97 ≤ ch.toNat ∧ ch.toNat ≤ 122 then some (ch.toNat - 87)
  else none

def digitOf (base : ℕ) (ch : Word) : Option ℕ := (digitValue ch).filter (· < base)

/-- The characters from `':'` on that the loop for large bases takes for digits like those before. -/
def Misread (base : ℕ) (ch : Word) : Prop := 58 ≤ ch.toNat ∧ ch.toNat < 48 + base

instance (base : ℕ) (ch : Word) : Decidable (Misread base ch) := inferInstanceAs (Decidable (_ ∧ _))

/-- The digit that the loops take a character for. -/
def readDigit (base : ℕ) (ch : Word) : Option ℕ :=
  if Misread base ch then some (ch.toNat - 48) else digitOf base ch

theorem digitOf_eq_some {base digit : ℕ} {ch : Word} : digitOf base ch = some digit ↔
    digit < base ∧ (48 ≤ ch.toNat ∧ ch.toNat ≤ 57 ∧ digit = ch.toNat - 48 ∨
      65 ≤ ch.toNat ∧ ch.toNat ≤ 90 ∧ digit = ch.toNat - 55 ∨
      97 ≤ ch.toNat ∧ ch.toNat ≤ 122 ∧ digit = ch.toNat - 87) := by
  rw [digitOf, Option.filter_eq_some_iff, digitValue]
  grind

theorem readDigit_eq_some_iff {base digit : ℕ} {ch : Word} : readDigit base ch = some digit ↔
    Misread base ch ∧ digit = ch.toNat - 48 ∨ ¬ Misread base ch ∧ digitOf base ch = some digit := by
  rw [readDigit]
  split <;> grind

/-- A character by its distance from `'0'`. -/
theorem readDigit_low {base : ℕ} (hbase : base ≤ 10) (i : Word) :
    readDigit base (i + 48#32) = if i.toNat < base then some i.toNat else none := by
  have hsum : (i + 48#32).toNat = (i.toNat + 48) % 2 ^ 32 := BitVec.toNat_add i 48#32
  have hi := i.isLt
  apply Option.ext
  intro digit
  rw [readDigit_eq_some_iff, digitOf_eq_some, Misread, Option.ite_none_right_eq_some, Option.some.injEq]
  omega

theorem readDigit_negative {base : ℕ} (hbase : base ≤ 36) {g : Word} (hg : 2 ^ 31 ≤ g.toNat) :
    readDigit base (g + 48#32) = none := by
  have hsum : (g + 48#32).toNat = (g.toNat + 48) % 2 ^ 32 := BitVec.toNat_add g 48#32
  have hlt := g.isLt
  rw [Option.eq_none_iff_forall_ne_some]
  intro digit
  rw [Ne, readDigit_eq_some_iff, digitOf_eq_some, Misread]
  omega

theorem readDigit_digit {base : ℕ} (hlow : 10 < base) (hhigh : base ≤ 36) {g : Word}
    (hg : g.toNat < base) : readDigit base (g + 48#32) = some g.toNat := by
  have hsum : (g + 48#32).toNat = (g.toNat + 48) % 2 ^ 32 := BitVec.toNat_add g 48#32
  rw [readDigit_eq_some_iff, digitOf_eq_some, Misread]
  omega

/-- A letter by its distance from `'A'`, in upper case. -/
theorem readDigit_letter {base : ℕ} (hlow : 10 < base) (hhigh : base ≤ 36) {ch : Word}
    (hge : 48 + base ≤ ch.toNat) (hlt : ch.toNat < 2 ^ 31 + 48) {i : Word}
    (hi : (ch &&& ~~~32#32) = i + 65#32) : (i.toNat < 2 ^ 31 → (i + 10#32).toNat < 2 ^ 31) ∧
      readDigit base ch =
        if i.toNat < 2 ^ 31 ∧ (i + 10#32).toNat < base then some (i + 10#32).toNat else none := by
  have hcase := toNat_andn_caseBit ch
  have hupper : (i + 65#32).toNat = (i.toNat + 65) % 2 ^ 32 := BitVec.toNat_add i 65#32
  have hsum : (i + 10#32).toNat = (i.toNat + 10) % 2 ^ 32 := BitVec.toNat_add i 10#32
  have hword := i.isLt
  rw [hi, hupper] at hcase
  refine ⟨by omega, ?_⟩
  apply Option.ext
  intro digit
  rw [readDigit_eq_some_iff, digitOf_eq_some, Misread, Option.ite_none_right_eq_some, Option.some.injEq]
  omega

/-! ## Runs of digits -/

/-- The digits of the longest run of characters that are digits. -/
def digitRun (digit : Word → Option ℕ) : List Word → List ℕ
  | [] => []
  | ch :: str =>
    match digit ch with
    | some d => d :: digitRun digit str
    | none => []

theorem length_digitRun_le (digit : Word → Option ℕ) (str : List Word) :
    (digitRun digit str).length ≤ str.length := by
  induction str with
  | nil => exact Nat.le_refl 0
  | cons ch str ih =>
    rw [digitRun]
    split
    · exact Nat.succ_le_succ ih
    · exact Nat.zero_le _

/-- The number with these digits, the highest one first. -/
def numeral (base : ℕ) (digits : List ℕ) : ℕ := Nat.ofDigits base digits.reverse

theorem numeral_cons (base digit : ℕ) (digits : List ℕ) :
    numeral base (digit :: digits) = digit * base ^ digits.length + numeral base digits := by
  rw [numeral, numeral, List.reverse_cons, Nat.ofDigits_append, Nat.ofDigits_singleton,
    List.length_reverse, Nat.add_comm, Nat.mul_comm]

/-- A sign in front. -/
def Negative (str : List Word) : Prop := str.head? = some 45#32

instance (str : List Word) : Decidable (Negative str) := inferInstanceAs (Decidable (_ = _))

def unsigned (str : List Word) : List Word := if Negative str then str.tail else str

/-- The number that a string starts with. -/
def stringValue (base : ℕ) (digit : Word → Option ℕ) (str : List Word) : Word :=
  let value := BitVec.ofNat 32 (numeral base (digitRun digit (unsigned str)))
  if Negative str then -value else value

def consumed (digit : Word → Option ℕ) (str : List Word) : ℕ :=
  (if Negative str then 1 else 0) + (digitRun digit (unsigned str)).length

theorem consumed_le (digit : Word → Option ℕ) (str : List Word) : consumed digit str ≤ str.length := by
  have hrun := length_digitRun_le digit (unsigned str)
  rw [consumed]
  by_cases hneg : Negative str
  · cases str with
    | nil => exact absurd hneg (by decide)
    | cons ch str =>
      rw [unsigned, if_pos hneg, List.tail_cons] at hrun
      rw [if_pos hneg, unsigned, if_pos hneg, List.tail_cons, List.length_cons]
      omega
  · rw [unsigned, if_neg hneg] at hrun
    rw [if_neg hneg, unsigned, if_neg hneg]
    omega

/-- One for each digit that is misread, and zero for the others. -/
def misreadings (base : ℕ) (str : List Word) : List ℕ :=
  digitRun (fun ch ↦ (digitOf base ch).map fun _ ↦ if Misread base ch then 1 else 0) str

/-- What is misread does not follow the digits, and cancels within them. -/
structure ReadsRight (base : ℕ) (str : List Word) : Prop where
  next : ∀ ch, (unsigned str)[(digitRun (digitOf base) (unsigned str)).length]? = some ch →
    ¬ Misread base ch
  cancels : 2 ^ 32 ∣ numeral base (misreadings base (unsigned str))

section

variable {base : ℕ}

theorem readDigit_of_digitOf (hbase : base ≤ 36) {ch : Word} {d : ℕ} (h : digitOf base ch = some d) :
    readDigit base ch = some (d + 7 * if Misread base ch then 1 else 0) := by
  rw [readDigit_eq_some_iff]
  rw [digitOf_eq_some] at h
  by_cases hmisread : Misread base ch
  · rw [if_pos hmisread]
    rw [Misread] at hmisread ⊢
    omega
  · rw [if_neg hmisread]
    exact .inr ⟨hmisread, digitOf_eq_some.mpr h⟩

theorem readDigit_eq_none (ch : Word) (h : digitOf base ch = none) :
    readDigit base ch = none ↔ ¬ Misread base ch := by
  rw [readDigit, h]
  simp

theorem length_digitRun_readDigit (hbase : base ≤ 36) (str : List Word) :
    (digitRun (digitOf base) str).length ≤ (digitRun (readDigit base) str).length ∧
      ((digitRun (readDigit base) str).length = (digitRun (digitOf base) str).length ↔
        ∀ ch, str[(digitRun (digitOf base) str).length]? = some ch → ¬ Misread base ch) := by
  induction str with
  | nil => simp [digitRun]
  | cons ch str ih =>
    cases hdigit : digitOf base ch with
    | some d => simpa [digitRun, hdigit, readDigit_of_digitOf hbase hdigit] using ih
    | none =>
      cases hread : readDigit base ch with
      | some d =>
        have hmisread : Misread base ch := by
          by_contra hnot
          rw [(readDigit_eq_none ch hdigit).mpr hnot] at hread
          cases hread
        simp [digitRun, hdigit, hread, hmisread]
      | none =>
        have hnot := (readDigit_eq_none ch hdigit).mp hread
        simp [digitRun, hdigit, hread, hnot]

theorem length_misreadings (str : List Word) :
    (misreadings base str).length = (digitRun (digitOf base) str).length := by
  rw [misreadings]
  induction str with
  | nil => rfl
  | cons ch str ih =>
    cases hdigit : digitOf base ch with
    | some d => simpa [digitRun, hdigit] using ih
    | none => simp [digitRun, hdigit]

/-- Every letter that is misread is read as seven more. -/
theorem numeral_readDigit (hbase : base ≤ 36) (str : List Word)
    (hlength : (digitRun (readDigit base) str).length = (digitRun (digitOf base) str).length) :
    numeral base (digitRun (readDigit base) str) =
      numeral base (digitRun (digitOf base) str) + 7 * numeral base (misreadings base str) := by
  induction str with
  | nil => rfl
  | cons ch str ih =>
    cases hdigit : digitOf base ch with
    | some d =>
      have hread := readDigit_of_digitOf hbase hdigit
      have hruns : digitRun (digitOf base) (ch :: str) = d :: digitRun (digitOf base) str := by
        rw [digitRun, hdigit]
      have hreads : digitRun (readDigit base) (ch :: str) =
          (d + 7 * if Misread base ch then 1 else 0) :: digitRun (readDigit base) str := by
        rw [digitRun, hread]
      have hmisreads : misreadings base (ch :: str) =
          (if Misread base ch then 1 else 0) :: misreadings base str := by
        rw [misreadings, digitRun, hdigit]
        rfl
      rw [hreads, hruns, List.length_cons, List.length_cons] at hlength
      have hrest := Nat.succ.inj hlength
      rw [hreads, hruns, hmisreads, numeral_cons, numeral_cons, numeral_cons, ih hrest, hrest,
        length_misreadings]
      ring
    | none =>
      have hruns : digitRun (digitOf base) (ch :: str) = [] := by
        rw [digitRun, hdigit]
      have hmisreads : misreadings base (ch :: str) = [] := by
        rw [← List.length_eq_zero_iff, length_misreadings, hruns]
        rfl
      rw [hruns] at hlength
      rw [hruns, hmisreads, List.length_eq_zero_iff.mp hlength]
      rfl

theorem dvd_seven_mul (n : ℕ) : 2 ^ 32 ∣ 7 * n ↔ 2 ^ 32 ∣ n :=
  Nat.Coprime.dvd_mul_left (by decide)

theorem ofNat_add_eq_iff (n m : ℕ) :
    BitVec.ofNat 32 (n + m) = BitVec.ofNat 32 n ↔ 2 ^ 32 ∣ m := by
  rw [BitVec.ofNat_add, add_eq_left, ← BitVec.toNat_inj, BitVec.toNat_ofNat, Nat.dvd_iff_mod_eq_zero]
  rfl

theorem stringValue_readDigit (hbase : base ≤ 36) (str : List Word)
    (hlength : (digitRun (readDigit base) (unsigned str)).length =
      (digitRun (digitOf base) (unsigned str)).length) :
    stringValue base (readDigit base) str = stringValue base (digitOf base) str ↔
      2 ^ 32 ∣ numeral base (misreadings base (unsigned str)) := by
  rw [stringValue, stringValue, numeral_readDigit hbase _ hlength]
  split
  · rw [neg_inj, ofNat_add_eq_iff, dvd_seven_mul]
  · rw [ofNat_add_eq_iff, dvd_seven_mul]

/-- `strtol` reads what the string denotes, and as many characters. -/
theorem readsRight_iff (hbase : base ≤ 36) (str : List Word) : ReadsRight base str ↔
    stringValue base (readDigit base) str = stringValue base (digitOf base) str ∧
      consumed (readDigit base) str = consumed (digitOf base) str := by
  have hlength := (length_digitRun_readDigit hbase (unsigned str)).2
  rw [consumed, consumed, Nat.add_left_cancel_iff]
  constructor
  · intro h
    exact ⟨(stringValue_readDigit hbase str (hlength.mpr h.next)).mpr h.cancels, hlength.mpr h.next⟩
  · rintro ⟨hvalue, hsame⟩
    exact ⟨hlength.mp hsame, (stringValue_readDigit hbase str hsame).mp hvalue⟩

/-- Nothing is misread in bases up to ten. -/
theorem readsRight_of_le_ten (hbase : base ≤ 10) (str : List Word) : ReadsRight base str := by
  have hnone : ∀ ch, ¬ Misread base ch := by
    intro ch hmisread
    rw [Misread] at hmisread
    omega
  have hread : readDigit base = digitOf base := by
    funext ch
    rw [readDigit, if_neg (hnone ch)]
  rw [readsRight_iff (by omega), hread]
  exact ⟨rfl, rfl⟩

end

end Tenyr.Stdlib
