import Mathlib.Data.List.Basic
import Mathlib.Data.Nat.Notation
import Mathlib.Tactic.IntervalCases

/-!
# Hexadecimal numbers as C scans and prints them

The `%x` conversions of `fscanf` and `fprintf`, and the white space before a conversion.
-/

namespace Tenyr.Lib.Scan

/-- `isspace` -/
def isSpace (c : Char) : Bool :=
  c = ' ' ∨ c = '\t' ∨ c = '\n' ∨ c = '\x0b' ∨ c = '\x0c' ∨ c = '\r'

/-- White space in a format takes whatever white space there is. -/
def skipSpace (chars : List Char) : List Char := chars.dropWhile isSpace

/-- The value of a hexadecimal digit. -/
def hexVal (c : Char) : Option ℕ :=
  if '0' ≤ c ∧ c ≤ '9' then some (c.toNat - '0'.toNat)
  else if 'a' ≤ c ∧ c ≤ 'f' then some (c.toNat - 'a'.toNat + 10)
  else if 'A' ≤ c ∧ c ≤ 'F' then some (c.toNat - 'A'.toNat + 10)
  else none

/-- The number that follows a number when digits are put after it, and what follows the digits. -/
def scanDigits (value : ℕ) : List Char → ℕ × List Char
  | [] => (value, [])
  | c :: chars =>
    match hexVal c with
    | some digit => scanDigits (16 * value + digit) chars
    | none => (value, c :: chars)

/-- A sign, if there is one. -/
def scanSign : List Char → Bool × List Char
  | '-' :: chars => (true, chars)
  | '+' :: chars => (false, chars)
  | chars => (false, chars)

/-- The `0x` that can stand before the digits. -/
def skipRadix : List Char → List Char
  | '0' :: 'x' :: chars => chars
  | '0' :: 'X' :: chars => chars
  | chars => chars

/-- What `strtoul` makes of a sign and digits, in the 32 bits of an `unsigned int`. A number that does
not fit 64 bits becomes the greatest one that does. -/
def unsignedInt (negative : Bool) (value : ℕ) : BitVec 32 :=
  if 2 ^ 64 ≤ value then BitVec.allOnes 32
  else if negative then -BitVec.ofNat 32 value else BitVec.ofNat 32 value

/-- `%x`: the number, if there is one, and what is left. -/
def scanHex (chars : List Char) : Option (BitVec 32) × List Char :=
  let (negative, afterSign) := scanSign (skipSpace chars)
  let afterRadix := skipRadix afterSign
  match afterRadix.head? >>= hexVal with
  | none => (none, afterRadix)
  | some _ =>
    let (value, rest) := scanDigits 0 afterRadix
    (some (unsignedInt negative value), rest)

/-- Ordinary characters in a format, up to the first that is not there. -/
def scanLiteral : List Char → List Char → Bool × List Char
  | [], chars => (true, chars)
  | _ :: _, [] => (false, [])
  | l :: literal, c :: chars =>
    if c = l then scanLiteral literal chars else (false, c :: chars)

/-- `%x` -/
def printHex (w : BitVec 32) : List Char := Nat.toDigits 16 w.toNat

/-- `%08x` -/
def printHex8 (w : BitVec 32) : List Char :=
  List.replicate (8 - (printHex w).length) '0' ++ printHex w

/-! ## Consumption -/

theorem length_skipSpace_le (chars : List Char) : (skipSpace chars).length ≤ chars.length :=
  (List.dropWhile_sublist isSpace).length_le

theorem length_scanSign_le (chars : List Char) : (scanSign chars).2.length ≤ chars.length := by
  unfold scanSign
  split <;> simp

theorem length_skipRadix_le (chars : List Char) : (skipRadix chars).length ≤ chars.length := by
  unfold skipRadix
  split <;> simp <;> omega

theorem length_scanDigits_le (value : ℕ) (chars : List Char) :
    (scanDigits value chars).2.length ≤ chars.length := by
  induction chars generalizing value with
  | nil => rfl
  | cons c chars ih =>
    rw [scanDigits]
    cases hexVal c with
    | none => rfl
    | some digit => exact (ih _).trans (Nat.le_succ _)

/-- A number takes at least a digit. -/
theorem length_scanHex_lt {chars : List Char} {w : BitVec 32} (h : (scanHex chars).1 = some w) :
    (scanHex chars).2.length < chars.length := by
  have hle : (skipRadix (scanSign (skipSpace chars)).2).length ≤ chars.length :=
    ((length_skipRadix_le _).trans (length_scanSign_le _)).trans (length_skipSpace_le _)
  unfold scanHex at h ⊢
  dsimp only at h ⊢
  generalize skipRadix (scanSign (skipSpace chars)).2 = digits at h hle ⊢
  cases digits with
  | nil => cases h
  | cons c digits =>
    cases hdigit : hexVal c with
    | none => simp [hdigit] at h
    | some digit =>
      have hdigits := length_scanDigits_le (16 * 0 + digit) digits
      simp only [List.head?_cons, Option.bind_eq_bind, Option.bind_some, hdigit, scanDigits]
      exact lt_of_le_of_lt hdigits hle

theorem length_scanHex_le (chars : List Char) : (scanHex chars).2.length ≤ chars.length := by
  cases h : (scanHex chars).1 with
  | some w => exact (length_scanHex_lt h).le
  | none =>
    unfold scanHex at h ⊢
    dsimp only at h ⊢
    split
    · exact ((length_skipRadix_le _).trans (length_scanSign_le _)).trans (length_skipSpace_le _)
    · rename_i hdigit
      simp [hdigit] at h

theorem length_scanLiteral_le (literal chars : List Char) :
    (scanLiteral literal chars).2.length ≤ chars.length := by
  induction literal generalizing chars with
  | nil => rfl
  | cons l literal ih =>
    cases chars with
    | nil => rfl
    | cons c chars =>
      rw [scanLiteral]
      split
      · exact (ih chars).trans (Nat.le_succ _)
      · rfl

/-! ## Reading what was printed -/

theorem hexVal_of_isSpace {c : Char} (h : isSpace c = true) : hexVal c = none := by
  simp only [isSpace, Bool.decide_or, Bool.or_eq_true, decide_eq_true_eq] at h
  rcases h with rfl | rfl | rfl | rfl | rfl | rfl <;> decide

theorem hexVal_digitChar {digit : ℕ} (h : digit < 16) : hexVal digit.digitChar = some digit := by
  interval_cases digit <;> rfl

theorem scanDigits_zeros (count : ℕ) (chars : List Char) :
    scanDigits 0 (List.replicate count '0' ++ chars) = scanDigits 0 chars := by
  induction count with
  | zero => rfl
  | succ count ih => exact ih

/-- The digits of a number build it up. -/
theorem scanDigits_toDigits (n : ℕ) (chars : List Char) :
    scanDigits 0 (Nat.toDigits 16 n ++ chars) = scanDigits n chars := by
  induction n using Nat.strongRecOn generalizing chars with
  | ind n ih =>
    by_cases hn : n < 16
    · rw [Nat.toDigits_of_lt_base hn, List.singleton_append, scanDigits, hexVal_digitChar hn]
      simp
    · have hbase : 16 ≤ n := not_lt.mp hn
      have hdigit : n % 16 < 16 := Nat.mod_lt _ (by decide)
      calc
        scanDigits 0 (Nat.toDigits 16 n ++ chars) =
            scanDigits 0 (Nat.toDigits 16 (n / 16) ++ ((n % 16).digitChar :: chars)) := by
          rw [Nat.toDigits_of_base_le (by decide) hbase, List.append_assoc, List.singleton_append]
        _ = scanDigits (n / 16) ((n % 16).digitChar :: chars) :=
          ih (n / 16) (Nat.div_lt_self (by omega) (by decide)) _
        _ = scanDigits (16 * (n / 16) + n % 16) chars := by
          rw [scanDigits, hexVal_digitChar hdigit]
        _ = scanDigits n chars := by rw [Nat.div_add_mod]

/-- Every character is a hexadecimal digit. -/
def AllHex (chars : List Char) : Prop := ∀ c ∈ chars, (hexVal c).isSome

theorem allHex_toDigits (n : ℕ) : AllHex (Nat.toDigits 16 n) := by
  induction n using Nat.strongRecOn with
  | ind n ih =>
    intro c hc
    by_cases hn : n < 16
    · rw [Nat.toDigits_of_lt_base hn, List.mem_singleton] at hc
      rw [hc, hexVal_digitChar hn]
      rfl
    · have hbase : 16 ≤ n := not_lt.mp hn
      rw [Nat.toDigits_of_base_le (by decide) hbase, List.mem_append, List.mem_singleton] at hc
      rcases hc with hc | rfl
      · exact ih (n / 16) (Nat.div_lt_self (by omega) (by decide)) c hc
      · rw [hexVal_digitChar (Nat.mod_lt _ (by decide))]
        rfl

theorem allHex_printHex8 (w : BitVec 32) : AllHex (printHex8 w) := by
  intro c hc
  rw [printHex8, List.mem_append] at hc
  rcases hc with hc | hc
  · rw [List.eq_of_mem_replicate hc]
    rfl
  · exact allHex_toDigits _ c hc

/-- Nothing is skipped in front of digits that white space follows. -/
theorem skip_allHex {digits : List Char} (hdigits : AllHex digits) (hne : digits ≠ []) {space : Char}
    (hspace : isSpace space = true) (rest : List Char) :
    skipSpace (digits ++ space :: rest) = digits ++ space :: rest ∧
      scanSign (digits ++ space :: rest) = (false, digits ++ space :: rest) ∧
      skipRadix (digits ++ space :: rest) = digits ++ space :: rest := by
  obtain ⟨c, digits, rfl⟩ := List.exists_cons_of_ne_nil hne
  have hc : (hexVal c).isSome := hdigits c List.mem_cons_self
  refine ⟨?_, ?_, ?_⟩
  · have hnot : ¬ isSpace c = true := by
      intro h
      rw [hexVal_of_isSpace h] at hc
      cases hc
    rw [List.cons_append, skipSpace, List.dropWhile_cons_of_neg hnot]
  · rw [List.cons_append]
    unfold scanSign
    split
    · rename_i heq
      cases heq
      cases hc
    · rename_i heq
      cases heq
      cases hc
    · rfl
  · have hsecond : ∀ c', (digits ++ space :: rest).head? = some c' → c' ≠ 'x' ∧ c' ≠ 'X' := by
      intro c' hhead
      cases digits with
      | nil =>
        cases hhead
        constructor <;>
        · rintro rfl
          cases hspace
      | cons d digits =>
        cases hhead
        have hd : (hexVal c').isSome := hdigits c' (by simp)
        constructor <;>
        · rintro rfl
          cases hd
    rw [List.cons_append]
    generalize digits ++ space :: rest = chars at hsecond
    unfold skipRadix
    split
    · rename_i heq
      cases heq
      exact absurd rfl (hsecond 'x' rfl).1
    · rename_i heq
      cases heq
      exact absurd rfl (hsecond 'X' rfl).2
    · rfl

/-- Digits before white space are read as the number that they build up. -/
theorem scanHex_digits {digits : List Char} (hdigits : AllHex digits) (hne : digits ≠ [])
    {w : BitVec 32} (hvalue : ∀ chars, scanDigits 0 (digits ++ chars) = scanDigits w.toNat chars)
    {space : Char} (hspace : isSpace space = true) (rest : List Char) :
    scanHex (digits ++ space :: rest) = (some w, space :: rest) := by
  obtain ⟨hskip, hsign, hradix⟩ := skip_allHex hdigits hne hspace rest
  have hend : scanDigits 0 (digits ++ space :: rest) = (w.toNat, space :: rest) := by
    rw [hvalue, scanDigits, hexVal_of_isSpace hspace]
  have hhead : ∃ digit, ((digits ++ space :: rest).head? >>= hexVal) = some digit := by
    obtain ⟨c, digits, rfl⟩ := List.exists_cons_of_ne_nil hne
    exact Option.isSome_iff_exists.mp (hdigits c List.mem_cons_self)
  obtain ⟨digit, hdigit⟩ := hhead
  have hfits : ¬ 2 ^ 64 ≤ w.toNat := by
    have := w.isLt
    omega
  rw [scanHex, hskip]
  simp only [hsign, hradix, hdigit, hend, unsignedInt, if_neg hfits]
  simp

/-- So are digits behind `0x`. -/
theorem scanHex_radix {digits : List Char} (hdigits : AllHex digits) (hne : digits ≠ []) {space : Char}
    (hspace : isSpace space = true) (rest : List Char) :
    scanHex ('0' :: 'x' :: (digits ++ space :: rest)) = scanHex (digits ++ space :: rest) := by
  obtain ⟨hskip, hsign, hradix⟩ := skip_allHex hdigits hne hspace rest
  rw [scanHex, scanHex, hskip]
  simp only [hsign, hradix]
  rfl

theorem scanHex_printHex (w : BitVec 32) {space : Char} (hspace : isSpace space = true)
    (rest : List Char) : scanHex (printHex w ++ space :: rest) = (some w, space :: rest) :=
  scanHex_digits (allHex_toDigits _) Nat.toDigits_ne_nil (scanDigits_toDigits _) hspace rest

theorem scanHex_printHex8 (w : BitVec 32) {space : Char} (hspace : isSpace space = true)
    (rest : List Char) : scanHex (printHex8 w ++ space :: rest) = (some w, space :: rest) := by
  apply scanHex_digits (allHex_printHex8 w) _ _ hspace
  · exact List.append_ne_nil_of_right_ne_nil _ Nat.toDigits_ne_nil
  · intro chars
    rw [printHex8, List.append_assoc, scanDigits_zeros]
    exact scanDigits_toDigits _ chars

/-- White space alone. -/
def AllSpace (chars : List Char) : Prop := ∀ c ∈ chars, isSpace c = true

theorem skipSpace_append {spaces : List Char} (hspaces : AllSpace spaces) (chars : List Char) :
    skipSpace (spaces ++ chars) = skipSpace chars :=
  List.dropWhile_append_of_pos hspaces

theorem skipSpace_of_allSpace {spaces : List Char} (hspaces : AllSpace spaces) :
    skipSpace spaces = [] := by
  have h := skipSpace_append hspaces []
  rwa [List.append_nil] at h

end Tenyr.Lib.Scan
