import Mathlib.Data.Nat.Sqrt
import Mathlib.Tactic.Ring
import Tenyr.Lib.Words
import Tenyr.Stdlib.Macros

/-!
# Square roots

`isqrt` computes a root digit by digit. Its signed comparisons go wrong once twice the current power of
four is no longer positive.
-/

namespace Tenyr.Stdlib

open Isa Sim Lib.Words

inductive IsqrtLabel where
  | isqrt | compute4 | doMagic | shift | done
  deriving DecidableEq, Repr

def isqrtLines : IsqrtLabel → List (Line IsqrtLabel)
  | .isqrt => pushall [.e, .g, .j, .k] ++ [
      .insn (.assign .b (.imm 0#12)),
      .insn (.assign .g (.imm 1#12)),
      .insn (.assign .g (.regImm .g .shiftLeft 30#12))]
  | .compute4 => [
      .insn (.assign .j (.regReg .g .compareLt .c)),
      .insn (.assign .k (.regReg .g .compareEq .c)),
      .insn (.assign .k (.regReg .j .bitwiseOr .k)),
      .jnzrel .k .doMagic,
      .insn (.assign .g (.regImm .g .shiftRightArith 2#12)),
      .goto .compute4]
  | .doMagic => [
      .insn (.assign .k (.regImm .g .compareEq 0#12)),
      .jnzrel .k .done,
      .insn (.assign .e (.regReg .b .add .g)),
      .insn (.assign .k (.regReg .c .compareLt .e)),
      .jnzrel .k .shift,
      .insn (.assign .c (.regReg .c .subtract .e)),
      .insn (.assign .b (.regImmReg .g .multiply 2#12 .b))]
  | .shift => [
      .insn (.assign .b (.regImm .b .shiftRightArith 1#12)),
      .insn (.assign .g (.regImm .g .shiftRightArith 2#12)),
      .goto .doMagic]
  | .done => popall [.e, .g, .j, .k] ++ ret

def isqrt : Code IsqrtLabel where
  labels := [.isqrt, .compute4, .doMagic, .shift, .done]
  lines := isqrtLines

/-! ## Digits of a root -/

/-- The root is at least `r`, and below `r + 2 ^ k`. -/
structure RootSoFar (n k r : ℕ) : Prop where
  le : r * r ≤ n
  lt : n < (r + 2 ^ k) * (r + 2 ^ k)

theorem RootSoFar.next {n k r : ℕ} (h : RootSoFar n (k + 1) r) :
    if n - r * r < r * 2 ^ (k + 1) + 4 ^ k then RootSoFar n k r else RootSoFar n k (r + 2 ^ k) := by
  have hfour : 4 ^ k = 2 ^ k * 2 ^ k := by
    rw [← Nat.mul_pow]
  have hsquare : (r + 2 ^ k) * (r + 2 ^ k) = r * r + (r * 2 ^ (k + 1) + 4 ^ k) := by
    rw [hfour]
    ring
  have hle := h.le
  split
  · refine ⟨hle, ?_⟩
    omega
  · refine ⟨by omega, ?_⟩
    have hlt := h.lt
    have htwo : r + 2 ^ k + 2 ^ k = r + 2 ^ (k + 1) := by
      ring
    rw [htwo]
    exact hlt

theorem RootSoFar.eq_sqrt {n r : ℕ} (h : RootSoFar n 0 r) : r = Nat.sqrt n :=
  (Nat.eq_sqrt.mpr ⟨h.le, h.lt⟩)

/-! ## The machine -/

section

variable {S : Setting} {Q : Cpu → Prop} {far : IsqrtLabel → ℤ} {base : Word} {cpu : Cpu}
  (h : Placed S isqrt far base)

include h

theorem isqrt_start (hp : cpu.p = base) (hstack : stack cpu.o 4 ⊆ S.writable)
    (hQ : S.Leads Q { cpu with
      mem := saved cpu.mem cpu.o [cpu.e, cpu.g, cpu.j, cpu.k], o := cpu.o - 4#32, b := 0#32
      g := 0x40000000#32, p := isqrt.addr far base .compute4 }) : S.Leads Q cpu := by
  have hstart : cpu.p = isqrt.addr far base .isqrt := hp.trans (BitVec.add_zero base).symm
  apply h.leads rfl hstart
  apply wp_pushall (by decide) (by decide) (by decide) hstack
  simp [combine_eq, combine_shiftLeft, opValue]
  exact hQ

/-- The loop that looks for a power of four. -/
theorem isqrt_compute4 (hp : cpu.p = isqrt.addr far base .compute4)
    (hfound : cpu.g.slt cpu.c || cpu.g == cpu.c → ∀ j k,
      S.Leads Q { cpu with j, k, p := isqrt.addr far base .doMagic })
    (hnext : ¬ (cpu.g.slt cpu.c || cpu.g == cpu.c) → ∀ j k,
      S.Leads Q { cpu with j, k, g := cpu.g.sshiftRight 2, p := isqrt.addr far base .compute4 }) :
    S.Leads Q cpu := by
  apply h.leads rfl hp
  change Wp _ _ _ _ (isqrtLines .compute4) _
  simp [isqrtLines, combine_eq, opValue, negBool_or]
  rw [wp_jnzrel rfl]
  split
  · rename_i hle
    exact hfound hle _ _
  · rename_i hgt
    simp [combine_eq, opValue, UndefinedShifts.sar_of_lt]
    exact hnext hgt _ _

theorem isqrt_doMagic (hp : cpu.p = isqrt.addr far base .doMagic)
    (hdone : cpu.g = 0#32 → ∀ k, S.Leads Q { cpu with k, p := isqrt.addr far base .done })
    (hskip : cpu.g ≠ 0#32 → cpu.c.slt (cpu.b + cpu.g) → ∀ e k,
      S.Leads Q { cpu with e, k, p := isqrt.addr far base .shift })
    (hsubtract : cpu.g ≠ 0#32 → ¬ cpu.c.slt (cpu.b + cpu.g) → ∀ e k, S.Leads Q { cpu with
      e, k, c := cpu.c - (cpu.b + cpu.g), b := cpu.g * 2#32 + cpu.b
      p := isqrt.addr far base .shift }) : S.Leads Q cpu := by
  apply h.leads rfl hp
  change Wp _ _ _ _ (isqrtLines .doMagic) _
  simp [isqrtLines, combine_eq, opValue]
  rw [wp_jnzrel rfl]
  split
  · rename_i hzero
    exact hdone (by simpa using hzero) _
  · rename_i hne
    simp [combine_eq, opValue]
    rw [wp_jnzrel rfl]
    split
    · rename_i hlt
      exact hskip (by simpa using hne) hlt _ _
    · rename_i hge
      simp [combine_eq, opValue]
      exact hsubtract (by simpa using hne) hge _ _

theorem isqrt_shift (hp : cpu.p = isqrt.addr far base .shift)
    (hQ : S.Leads Q { cpu with
      b := cpu.b.sshiftRight 1, g := cpu.g.sshiftRight 2, p := isqrt.addr far base .doMagic }) :
    S.Leads Q cpu := by
  apply h.leads rfl hp
  change Wp _ _ _ _ (isqrtLines .shift) _
  simp [isqrtLines, combine_eq, opValue, UndefinedShifts.sar_of_lt]
  exact hQ

theorem isqrt_done (hp : cpu.p = isqrt.addr far base .done) {top : Word} (ho : cpu.o = top - 4#32)
    (hQ : S.Leads Q { cpu with
      e := cpu.mem top, g := cpu.mem (top - 1#32), j := cpu.mem (top - 2#32)
      k := cpu.mem (top - 3#32), o := top + 1#32, p := cpu.mem (top + 1#32) }) :
    S.Leads Q cpu := by
  apply h.leads rfl hp
  change Wp _ _ _ _ (isqrtLines .done) _
  have htop : cpu.o + 4#32 = top := by
    rw [ho]
    exact sub_add_cancel _ _
  simpa [isqrtLines, popall, loadall, ret, pop, combine_eq, opValue, htop, BitVec.sub_eq_add_neg]
    using hQ

/-! ## Digit by digit -/

/-- The loop ends at the highest power that is not above the number. -/
theorem isqrt_powers {n m : ℕ} (hn : n < 2 ^ 31) (hm : m ≤ 16) (hlt : n < 4 ^ m)
    (hp : cpu.p = isqrt.addr far base .compute4) (hc : cpu.c = BitVec.ofNat 32 n)
    (hg : cpu.g = BitVec.ofNat 32 (4 ^ m / 4))
    (hQ : ∀ m ≤ 16, 4 ^ m / 4 ≤ n → n < 4 ^ m → ∀ j k, S.Leads Q { cpu with
      j, k, g := BitVec.ofNat 32 (4 ^ m / 4), p := isqrt.addr far base .doMagic }) :
    S.Leads Q cpu := by
  induction m generalizing cpu with
  | zero =>
    obtain rfl : n = 0 := by omega
    apply isqrt_compute4 h hp
    · intro _ j k
      rw [hg]
      exact hQ 0 (by decide) (by decide) (by decide) j k
    · intro hgt
      rw [hg, hc, slt_or_beq_ofNat (by decide) (by decide)] at hgt
      exact absurd rfl hgt
  | succ m ih =>
    have hpow : 4 ^ (m + 1) ≤ 4 ^ 16 := Nat.pow_le_pow_right (by decide) hm
    have hquarter : 4 ^ (m + 1) / 4 = 4 ^ m := Nat.mul_div_cancel _ (by decide)
    have hcompare : (cpu.g.slt cpu.c || cpu.g == cpu.c) = decide (4 ^ m ≤ n) := by
      rw [hg, hc, hquarter]
      exact slt_or_beq_ofNat (by omega) hn
    apply isqrt_compute4 h hp
    · intro hle j k
      rw [hcompare, decide_eq_true_iff] at hle
      rw [hg]
      exact hQ (m + 1) hm (hquarter.symm ▸ hle) hlt j k
    · intro hgt j k
      rw [hcompare, decide_eq_true_iff, Nat.not_le] at hgt
      apply ih (by omega) hgt
      · rfl
      · exact hc
      · change cpu.g.sshiftRight 2 = _
        rw [hg, hquarter]
        exact sshiftRight_ofNat (by omega) 2
      · exact fun m' hm' hle hlt' j k ↦ hQ m' hm' hle hlt' j k

/-- One digit, while nothing is negative. -/
theorem isqrt_digit {n k r : ℕ} (hn : n < 2 ^ 30) (hk : k ≤ 14) (hroot : RootSoFar n (k + 1) r)
    (hp : cpu.p = isqrt.addr far base .doMagic) (hb : cpu.b = BitVec.ofNat 32 (r * 2 ^ (k + 1)))
    (hc : cpu.c = BitVec.ofNat 32 (n - r * r)) (hg : cpu.g = BitVec.ofNat 32 (4 ^ k))
    (hQ : ∀ r, RootSoFar n k r → ∀ e k', S.Leads Q { cpu with
      e, k := k', b := BitVec.ofNat 32 (r * 2 ^ k), c := BitVec.ofNat 32 (n - r * r)
      g := BitVec.ofNat 32 (4 ^ k / 4), p := isqrt.addr far base .doMagic }) : S.Leads Q cpu := by
  have hr : r < 2 ^ 15 := by
    have hle := hroot.le
    by_contra hge
    have hsquare : 2 ^ 15 * 2 ^ 15 ≤ r * r := Nat.mul_le_mul (by omega) (by omega)
    omega
  have hpow : 4 ^ k = 2 ^ k * 2 ^ k := by
    rw [← Nat.mul_pow]
  have hfour : 4 ^ k ≤ 4 ^ 14 := Nat.pow_le_pow_right (by decide) hk
  have hpos : 0 < 4 ^ k := Nat.pow_pos (by decide)
  have hscaled : r * 2 ^ (k + 1) ≤ 2 ^ 15 * 2 ^ 15 :=
    Nat.mul_le_mul (Nat.le_of_lt hr) (Nat.pow_le_pow_right (by decide) (by omega))
  have htwo : r * 2 ^ (k + 1) = 2 * (r * 2 ^ k) := by
    ring
  have hsum : cpu.b + cpu.g = BitVec.ofNat 32 (r * 2 ^ (k + 1) + 4 ^ k) := by
    rw [hb, hg, BitVec.ofNat_add]
  have hcompare : cpu.c.slt (cpu.b + cpu.g) = decide (n - r * r < r * 2 ^ (k + 1) + 4 ^ k) := by
    rw [hsum, hc]
    exact slt_ofNat (by omega) (by omega)
  have hgne : cpu.g ≠ 0#32 := by
    intro hzero
    have hnat := congrArg BitVec.toNat hzero
    rw [hg, toNat_ofNat (by omega)] at hnat
    exact Nat.ne_of_gt hpos hnat
  have hgnext : cpu.g.sshiftRight 2 = BitVec.ofNat 32 (4 ^ k / 4) := by
    rw [hg]
    exact sshiftRight_ofNat (by omega) 2
  have hnext := hroot.next
  apply isqrt_doMagic h hp
  · exact fun hzero ↦ absurd hzero hgne
  · intro _ hlt e k'
    rw [hcompare, decide_eq_true_iff] at hlt
    rw [if_pos hlt] at hnext
    have hbnext : cpu.b.sshiftRight 1 = BitVec.ofNat 32 (r * 2 ^ k) := by
      rw [hb, sshiftRight_ofNat (by omega), htwo]
      exact congrArg _ (Nat.mul_div_cancel_left _ (by decide))
    have hlast := hQ r hnext e k'
    rw [← hbnext, ← hgnext, ← hc] at hlast
    exact isqrt_shift h rfl hlast
  · intro _ hge e k'
    rw [hcompare, decide_eq_true_iff, Nat.not_lt] at hge
    rw [if_neg (Nat.not_lt.mpr hge)] at hnext
    have hcnext : cpu.c - (cpu.b + cpu.g) =
        BitVec.ofNat 32 (n - (r + 2 ^ k) * (r + 2 ^ k)) := by
      rw [hsum, hc, ofNat_sub hge, Nat.sub_sub]
      congr 2
      rw [hpow]
      ring
    have hbnext : (cpu.g * 2#32 + cpu.b).sshiftRight 1 = BitVec.ofNat 32 ((r + 2 ^ k) * 2 ^ k) := by
      have hdoubled : cpu.g * 2#32 + cpu.b = BitVec.ofNat 32 (2 * ((r + 2 ^ k) * 2 ^ k)) := by
        rw [hg, hb, ← BitVec.ofNat_mul, ← BitVec.ofNat_add, hpow]
        congr 1
        ring
      have hsmall : 2 * ((r + 2 ^ k) * 2 ^ k) = 4 ^ k * 2 + r * 2 ^ (k + 1) := by
        rw [hpow]
        ring
      rw [hdoubled, sshiftRight_ofNat (by omega)]
      exact congrArg _ (Nat.mul_div_cancel_left _ (by decide))
    have hlast := hQ (r + 2 ^ k) hnext e k'
    rw [← hbnext, ← hgnext, ← hcnext] at hlast
    exact isqrt_shift h rfl hlast

theorem isqrt_digits {n k r : ℕ} (hn : n < 2 ^ 30) (hk : k ≤ 15) (hroot : RootSoFar n k r)
    (hp : cpu.p = isqrt.addr far base .doMagic) (hb : cpu.b = BitVec.ofNat 32 (r * 2 ^ k))
    (hc : cpu.c = BitVec.ofNat 32 (n - r * r)) (hg : cpu.g = BitVec.ofNat 32 (4 ^ k / 4))
    (hQ : ∀ c e g k, S.Leads Q { cpu with
      b := BitVec.ofNat 32 (Nat.sqrt n), c, e, g, k, p := isqrt.addr far base .done }) :
    S.Leads Q cpu := by
  induction k generalizing cpu r with
  | zero =>
    have hzero : cpu.g = 0#32 := hg
    have hsqrt : cpu.b = BitVec.ofNat 32 (Nat.sqrt n) := by
      rw [hb, Nat.pow_zero, Nat.mul_one, hroot.eq_sqrt]
    apply isqrt_doMagic h hp
    · intro _ k
      rw [hsqrt]
      exact hQ cpu.c cpu.e cpu.g k
    · exact fun hne ↦ absurd hzero hne
    · exact fun hne ↦ absurd hzero hne
  | succ k ih =>
    have hquarter : 4 ^ (k + 1) / 4 = 4 ^ k := Nat.mul_div_cancel _ (by decide)
    rw [hquarter] at hg
    apply isqrt_digit h hn (by omega) hroot hp hb hc hg
    intro r' hroot' e k'
    apply ih (by omega) hroot'
    · rfl
    · rfl
    · rfl
    · rfl
    · exact fun c e g k ↦ hQ c e g k

/-- Once `B` is so far below zero, it stays negative. -/
theorem isqrt_negative {k : ℕ} (hk : k ≤ 15) (hp : cpu.p = isqrt.addr far base .doMagic)
    (hb : cpu.b.toInt ≤ -4 * (4 ^ k / 4 : ℕ)) (hneg : cpu.b.toInt < 0)
    (hg : cpu.g = BitVec.ofNat 32 (4 ^ k / 4))
    (hQ : ∀ b : Word, b.toInt < 0 → ∀ c e g k, S.Leads Q { cpu with
      b, c, e, g, k, p := isqrt.addr far base .done }) : S.Leads Q cpu := by
  induction k generalizing cpu with
  | zero =>
    have hzero : cpu.g = 0#32 := hg
    apply isqrt_doMagic h hp
    · exact fun _ k ↦ hQ cpu.b hneg cpu.c cpu.e cpu.g k
    · exact fun hne ↦ absurd hzero hne
    · exact fun hne ↦ absurd hzero hne
  | succ k ih =>
    have hquarter : 4 ^ (k + 1) / 4 = 4 ^ k := Nat.mul_div_cancel _ (by decide)
    rw [hquarter] at hb hg
    have hfour : 4 ^ k ≤ 4 ^ 14 := Nat.pow_le_pow_right (by decide) (by omega)
    have hpos : 0 < 4 ^ k := Nat.pow_pos (by decide)
    have hlow : -2 ^ 31 ≤ cpu.b.toInt := BitVec.le_toInt cpu.b
    have hgnext : cpu.g.sshiftRight 2 = BitVec.ofNat 32 (4 ^ k / 4) := by
      rw [hg]
      exact sshiftRight_ofNat (by omega) 2
    apply isqrt_doMagic h hp
    · intro hzero
      have hnat := congrArg BitVec.toNat hzero
      rw [hg, toNat_ofNat (by omega)] at hnat
      exact absurd hnat (Nat.ne_of_gt hpos)
    · intro _ _ e k'
      apply isqrt_shift h rfl
      have hhalf : (cpu.b.sshiftRight 1).toInt = cpu.b.toInt / 2 := by
        rw [BitVec.toInt_sshiftRight, Int.shiftRight_eq_div_pow]
        rfl
      apply ih (by omega) rfl
      · change (cpu.b.sshiftRight 1).toInt ≤ _
        omega
      · change (cpu.b.sshiftRight 1).toInt < 0
        omega
      · exact hgnext
      · exact fun b hneg c e g k ↦ hQ b hneg c e g k
    · intro _ _ e k'
      apply isqrt_shift h rfl
      have hsum : (cpu.g * 2#32 + cpu.b).toInt = (4 ^ k * 2 : ℕ) + cpu.b.toInt := by
        rw [hg, ← BitVec.ofNat_mul, BitVec.toInt_add, toInt_ofNat (by omega)]
        exact Int.bmod_eq_of_le (by omega) (by omega)
      have hhalf : ((cpu.g * 2#32 + cpu.b).sshiftRight 1).toInt = ((4 ^ k * 2 : ℕ) + cpu.b.toInt) / 2 := by
        rw [BitVec.toInt_sshiftRight, hsum, Int.shiftRight_eq_div_pow]
        rfl
      apply ih (by omega) rfl
      · change ((cpu.g * 2#32 + cpu.b).sshiftRight 1).toInt ≤ _
        omega
      · change ((cpu.g * 2#32 + cpu.b).sshiftRight 1).toInt < 0
        omega
      · exact hgnext
      · exact fun b hneg c e g k ↦ hQ b hneg c e g k

/-- The whole run: from the start to a power, and back to the caller once the digits are there. -/
theorem isqrt_run {n : ℕ} (hn : n < 2 ^ 31) (hp : cpu.p = base) (hc : cpu.c = BitVec.ofNat 32 n)
    (hstack : stack cpu.o 4 ⊆ S.writable) (Result : Word → Prop)
    (hdigits : ∀ m ≤ 16, 4 ^ m / 4 ≤ n → n < 4 ^ m → ∀ cpu : Cpu, cpu.p = isqrt.addr far base .doMagic →
      cpu.b = 0#32 → cpu.c = BitVec.ofNat 32 n → cpu.g = BitVec.ofNat 32 (4 ^ m / 4) →
        (∀ b : Word, Result b → ∀ c e g k, S.Leads Q { cpu with
          b, c, e, g, k, p := isqrt.addr far base .done }) → S.Leads Q cpu)
    (hQ : ∀ next, Returns cpu next → Result next.b → Q next) : S.Leads Q cpu := by
  apply isqrt_start h hp hstack
  apply isqrt_powers h hn (Nat.le_refl 16) (by omega)
  · rfl
  · exact hc
  · rfl
  · intro m hm hle hlt j k
    apply hdigits m hm hle hlt
    · rfl
    · rfl
    · exact hc
    · rfl
    · intro b hb c e g k
      apply isqrt_done h rfl rfl
      apply Setting.Leads.here
      exact hQ _ ⟨by simp, rfl⟩ hb

omit h

end

/-- `isqrt` ends, and answers with the largest root. -/
def IsqrtRight (C : Word) : Prop :=
  ∀ (S : Setting) (far : IsqrtLabel → ℤ) (base : Word) (cpu : Cpu), Placed S isqrt far base →
    stack cpu.o 4 ⊆ S.writable → cpu.p = base → cpu.c = C →
      S.Leads (fun next ↦ Returns cpu next ∧ IsGreatest {r | r * r ≤ C.toNat} next.b.toNat) cpu

theorem isqrtRight_of_lt {C : Word} (hC : C.toNat < 2 ^ 30) : IsqrtRight C := by
  intro S far base cpu h hstack hp hc
  obtain ⟨n, hn, rfl⟩ := exists_ofNat C (by omega)
  rw [toNat_ofNat hn] at hC ⊢
  have hroot : Nat.sqrt n < 2 ^ 31 := by
    have hle := Nat.sqrt_le_self n
    omega
  apply isqrt_run h hn hp hc hstack (fun b ↦ b = BitVec.ofNat 32 (Nat.sqrt n))
  · intro m hm hle hlt cpu hp hb hc hg hQ
    have hm' : m ≤ 15 := by
      by_contra hgt
      obtain rfl : m = 16 := by omega
      omega
    have hfour : 4 ^ m = 2 ^ m * 2 ^ m := by
      rw [← Nat.mul_pow]
    have hroot : RootSoFar n m 0 := ⟨Nat.zero_le n, by rw [Nat.zero_add, ← hfour]; exact hlt⟩
    apply isqrt_digits h hC hm' hroot hp
    · rw [hb, Nat.zero_mul]
    · exact hc
    · exact hg
    · exact fun c e g k ↦ hQ _ rfl c e g k
  · rintro next hreturns hb
    refine ⟨hreturns, ?_⟩
    rw [hb, toNat_ofNat hroot]
    exact ⟨Nat.sqrt_le n, fun r hr ↦ Nat.le_sqrt.mpr hr⟩

/-- Above, the answer is negative. -/
theorem isqrt_leads_negative {n : ℕ} (hn : n < 2 ^ 31) (hlarge : 2 ^ 30 ≤ n) {S : Setting}
    {far : IsqrtLabel → ℤ} {base : Word} {cpu : Cpu} (h : Placed S isqrt far base)
    (hstack : stack cpu.o 4 ⊆ S.writable) (hp : cpu.p = base) (hc : cpu.c = BitVec.ofNat 32 n) :
    S.Leads (fun next ↦ Returns cpu next ∧ next.b.toInt < 0) cpu := by
  apply isqrt_run h hn hp hc hstack (fun b ↦ b.toInt < 0)
  · intro m hm hle hlt cpu hp hb hc hg hQ
    obtain rfl : m = 16 := by
      by_contra hne
      have hpow : 4 ^ m ≤ 4 ^ 15 := Nat.pow_le_pow_right (by decide) (by omega)
      omega
    have hsum : cpu.b + cpu.g = BitVec.ofNat 32 (2 ^ 30) := by
      rw [hb, hg]
      rfl
    have hcompare : cpu.c.slt (cpu.b + cpu.g) = false := by
      rw [hsum, hc, slt_ofNat hn (by decide)]
      exact decide_eq_false (by omega)
    apply isqrt_doMagic h hp
    · intro hzero
      rw [hg] at hzero
      exact absurd hzero (by decide)
    · intro _ hlt
      rw [hcompare] at hlt
      cases hlt
    · intro _ _ e k
      apply isqrt_shift h rfl
      have hbnext : (cpu.g * 2#32 + cpu.b).sshiftRight 1 = BitVec.ofInt 32 (-2 ^ 30) := by
        rw [hg, hb]
        decide
      apply isqrt_negative h (Nat.le_refl 15) rfl
      · change ((cpu.g * 2#32 + cpu.b).sshiftRight 1).toInt ≤ _
        rw [hbnext]
        decide
      · change ((cpu.g * 2#32 + cpu.b).sshiftRight 1).toInt < 0
        rw [hbnext]
        decide
      · change cpu.g.sshiftRight 2 = _
        rw [hg]
        decide
      · exact fun b hneg c e g k ↦ hQ b hneg c e g k
  · exact fun next hreturns hneg ↦ ⟨hreturns, hneg⟩

theorem not_isqrtRight_of_le {C : Word} (hC : C.toNat < 2 ^ 31) (hge : 2 ^ 30 ≤ C.toNat) :
    ¬ IsqrtRight C := by
  intro hright
  obtain ⟨n, hn, rfl⟩ := exists_ofNat C hC
  rw [toNat_ofNat hn] at hge
  let far : IsqrtLabel → ℤ := fun _ ↦ 0
  let insns := insnsFrom (isqrt.position far) 0 isqrt.allLines
  let S := Setting.alone .masked insns (by decide)
  let cpu := aloneCpu insns [] 0xf0000000#32 (BitVec.ofNat 32 n) 0#32
  have hplaced : Placed S isqrt far 0#32 := Setting.alone_placed (by decide)
  have hstack : stack 0xf0000000#32 4 ⊆ S.writable := Setting.alone_stack (by decide)
  have hloaded : S.Loaded cpu.mem := Setting.alone_loaded (by decide)
  have hnegative : S.Leads (fun next ↦ Returns cpu next ∧ next.b.toInt < 0) cpu :=
    isqrt_leads_negative hn hge hplaced hstack rfl rfl
  -- the run ends once, so the root that it should find is the negative number
  obtain ⟨next, ⟨-, hroot⟩, -, hneg⟩ := (hright S far 0#32 cpu hplaced hstack rfl rfl).and_of_end
    hnegative hloaded (fun next h ↦ h.1.alone) (fun next h ↦ h.1.alone)
  have hle : next.b.toNat * next.b.toNat ≤ (BitVec.ofNat 32 n).toNat := hroot.1
  have hlarge := BitVec.toInt_neg_iff.mp hneg
  have hsquare : 2 ^ 31 * 2 ^ 31 ≤ next.b.toNat * next.b.toNat :=
    Nat.mul_le_mul (by omega) (by omega)
  omega

/-- `isqrt` is right exactly below the largest power of four. -/
theorem isqrtRight_iff {C : Word} (hC : C.toNat < 2 ^ 31) : IsqrtRight C ↔ C.toNat < 2 ^ 30 := by
  constructor
  · intro hright
    by_contra hge
    exact not_isqrtRight_of_le hC (Nat.not_lt.mp hge) hright
  · exact isqrtRight_of_lt

theorem isqrtRight_ninetyNine : IsqrtRight 99#32 := (isqrtRight_iff (by decide)).mpr (by decide)

theorem not_isqrtRight_power : ¬ IsqrtRight 0x40000000#32 :=
  not_isqrtRight_of_le (by decide) (by decide)

end Tenyr.Stdlib
