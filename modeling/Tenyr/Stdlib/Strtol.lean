import Tenyr.Stdlib.Macros
import Tenyr.Stdlib.Numeral

/-!
# Numbers from strings

`strtol` has a loop for bases up to ten and another one for larger bases.
-/

namespace Tenyr.Stdlib

open Isa Sim Lib.Words

inductive StrtolLabel where
  | strtol | noCall | top | negative | error | done | noEndptr | errorErange | errorEinval | le10Top
  | gt10Top | gt10Tryhigh | detectBase | detectBaseDone | detectBase8or16 | detectBase16
  deriving DecidableEq, Repr

def strtolLines : StrtolLabel → List (Line StrtolLabel)
  | .strtol => pushall [.f, .g, .h, .i] ++ [
      .insn (.assign .h (.regImm .e .compareEq 0#12)),
      .jzrel .h .noCall,
      .call .detectBase,
      .insn (.assign .e (.reg .b))]
  | .noCall => [
      .insn (.assign .h (.immReg 36#12 .compareLt .e)),
      .jnzrel .h .errorEinval,
      .insn (.assign .h (.regImm .e .compareLt 2#12)),
      .jnzrel .h .errorEinval,
      .insn (.assign .b (.imm 0#12)),
      .insn (.load .i (.reg .c)),
      .insn (.assign .g (.regImm .i .compareEq 45#12)),
      .jnzrel .g .negative,
      .insn (.assign .f (.imm 1#12))]
  | .top => [
      .insn (.assign .g (.regImm .e .compareLt 11#12)),
      .jnzrel .g .le10Top,
      .goto .gt10Top]
  | .negative => [
      .insn (.assign .f (.imm (-1#12))),
      .insn (.assign .c (.regImm .c .add 1#12)),
      .goto .top]
  | .error => [.insn (.store .h (.type3 .a 0x7ff#20))]
  | .done => [
      .insn (.assign .b (.regReg .b .multiply .f)),
      .insn (.assign .h (.regImm .d .compareEq 0#12)),
      .jnzrel .h .noEndptr,
      .insn (.store .c (.reg .d))]
  | .noEndptr => popall [.f, .g, .h, .i] ++ ret
  | .errorErange => [.insn (.assign .h (.imm 34#12)), .goto .error]
  | .errorEinval => [.insn (.assign .h (.imm 22#12)), .goto .error]
  | .le10Top => [
      .insn (.load .i (.reg .c)),
      .insn (.assign .i (.type3 .i (-48#20))),
      .insn (.assign .g (.regReg .i .compareLt .e)),
      .jzrel .g .done,
      .insn (.assign .g (.regImm .i .compareGe 0#12)),
      .jzrel .g .done,
      .insn (.assign .c (.regImm .c .add 1#12)),
      .insn (.assign .b (.regReg .b .multiply .e)),
      .insn (.assign .b (.regReg .b .add .i)),
      .goto .le10Top]
  | .gt10Top => [
      .insn (.load .i (.reg .c)),
      .insn (.assign .g (.type3 .i (-48#20))),
      .insn (.assign .h (.regImm .g .compareGe 0#12)),
      .jzrel .h .done,
      .insn (.assign .h (.regReg .g .compareLt .e)),
      .jzrel .h .gt10Tryhigh,
      .insn (.assign .c (.regImm .c .add 1#12)),
      .insn (.assign .b (.regReg .b .multiply .e)),
      .insn (.assign .b (.regReg .b .add .g)),
      .goto .gt10Top]
  | .gt10Tryhigh => [
      .insn (.assign .i (.regImm .i .bitwiseAndn 32#12)),
      .insn (.assign .g (.type3 .i (-65#20))),
      .insn (.assign .h (.regImm .g .compareGe 0#12)),
      .jzrel .h .done,
      .insn (.assign .g (.regImm .g .add 10#12)),
      .insn (.assign .h (.regReg .g .compareLt .e)),
      .jzrel .h .done,
      .insn (.assign .c (.regImm .c .add 1#12)),
      .insn (.assign .b (.regReg .b .multiply .e)),
      .insn (.assign .b (.regReg .b .add .g)),
      .goto .gt10Top]
  | .detectBase => push (.reg .f) ++ [
      .insn (.load .f (.reg .c)),
      .insn (.assign .f (.regImm .f .compareEq 48#12)),
      .jnzrel .f .detectBase8or16,
      .insn (.assign .b (.imm 10#12))]
  | .detectBaseDone => pop .f ++ ret
  | .detectBase8or16 => [
      .insn (.load .f (.regImm .c .add 1#12)),
      .insn (.assign .f (.regImm .f .bitwiseAndn 32#12)),
      .insn (.assign .f (.regImm .f .compareEq 88#12)),
      .jnzrel .f .detectBase16,
      .insn (.assign .b (.imm 8#12)),
      .insn (.assign .c (.regImm .c .add 1#12)),
      .goto .detectBaseDone]
  | .detectBase16 => [
      .insn (.assign .b (.imm 16#12)),
      .insn (.assign .c (.regImm .c .add 2#12)),
      .goto .detectBaseDone]

def strtol : Code StrtolLabel where
  labels := [.strtol, .noCall, .top, .negative, .error, .done, .noEndptr, .errorErange, .errorEinval,
    .le10Top, .gt10Top, .gt10Tryhigh, .detectBase, .detectBaseDone, .detectBase8or16, .detectBase16]
  lines := strtolLines

/-- A string in memory, with the word that ends it. -/
def HoldsString (mem : Word → Word) (a : Word) (str : List Word) : Prop :=
  ∀ k ≤ str.length, mem (a + BitVec.ofNat 32 k) = (str[k]?).getD 0#32

theorem HoldsString.head {mem : Word → Word} {a : Word} {str : List Word}
    (h : HoldsString mem a str) : mem a = str.head?.getD 0#32 := by
  have hzero := h 0 (Nat.zero_le _)
  rwa [BitVec.add_zero, ← List.head?_eq_getElem?] at hzero

theorem HoldsString.tail {mem : Word → Word} {a ch : Word} {str : List Word}
    (h : HoldsString mem a (ch :: str)) : HoldsString mem (a + 1#32) str := by
  intro k hk
  have hnext := h (k + 1) (Nat.succ_le_succ hk)
  rwa [BitVec.ofNat_add, add_comm (BitVec.ofNat 32 k), ← BitVec.add_assoc,
    List.getElem?_cons_succ] at hnext

/-! ## The machine -/

section

variable {S : Setting} {Q : Cpu → Prop} {far : StrtolLabel → ℤ} {start : Word} {cpu : Cpu} {base : ℕ}
  (h : Placed S strtol far start)

include h

theorem strtol_start (hp : cpu.p = start) (hstack : stack cpu.o 4 ⊆ S.writable) (hlow : 2 ≤ base)
    (hhigh : base ≤ 36) (he : cpu.e = BitVec.ofNat 32 base) {ch : Word}
    (hch : saved cpu.mem cpu.o [cpu.f, cpu.g, cpu.h, cpu.i] cpu.c = ch)
    (hQ : ∀ g h i, S.Leads Q { cpu with
      mem := saved cpu.mem cpu.o [cpu.f, cpu.g, cpu.h, cpu.i], o := cpu.o - 4#32, b := 0#32, g, h, i
      c := if ch = 45#32 then cpu.c + 1#32 else cpu.c, f := if ch = 45#32 then -1#32 else 1#32
      p := strtol.addr far start .top }) : S.Leads Q cpu := by
  have hzero : ¬ (cpu.e == 0#32) = true := by
    rw [he, beq_ofNat (y := 0) (by omega) (by decide), decide_eq_true_iff]
    omega
  have hlarge : ¬ (36#32).slt cpu.e = true := by
    rw [he, slt_ofNat (x := 36) (by decide) (by omega), decide_eq_true_iff]
    omega
  have hsmall : ¬ cpu.e.slt 2#32 = true := by
    rw [he, slt_ofNat (y := 2) (by omega) (by decide), decide_eq_true_iff]
    omega
  have hbegin : cpu.p = strtol.addr far start .strtol := hp.trans (BitVec.add_zero start).symm
  apply h.leads rfl hbegin
  apply wp_pushall (by decide) (by decide) (by decide) hstack
  simp [combine_eq, opValue]
  rw [wp_jzrel rfl, if_neg hzero]
  apply h.leads rfl rfl
  change Wp _ _ _ _ (strtolLines .noCall) _
  simp [strtolLines, combine_eq, opValue]
  rw [wp_jnzrel rfl, if_neg hlarge]
  simp [combine_eq, opValue]
  rw [wp_jnzrel rfl, if_neg hsmall]
  simp [combine_eq, opValue, hch]
  rw [wp_jnzrel rfl]
  split
  · rename_i hminus
    have heq : ch = 45#32 := by simpa using hminus
    apply h.leads rfl rfl
    change Wp _ _ _ _ (strtolLines .negative) _
    simp [strtolLines, combine_eq, opValue]
    have hlast := hQ
    rw [if_pos heq, if_pos heq] at hlast
    exact hlast _ _ _
  · rename_i hplain
    have hne : ch ≠ 45#32 := by simpa using hplain
    simp [combine_eq, opValue]
    have hlast := hQ
    rw [if_neg hne, if_neg hne] at hlast
    exact hlast _ _ _

theorem strtol_top (hp : cpu.p = strtol.addr far start .top) (hbase : base < 2 ^ 31)
    (he : cpu.e = BitVec.ofNat 32 base)
    (hQ : ∀ g, S.Leads Q { cpu with
      g, p := strtol.addr far start (if base ≤ 10 then .le10Top else .gt10Top) }) : S.Leads Q cpu := by
  have hcompare : cpu.e.slt 11#32 = decide (base ≤ 10) := by
    rw [he, slt_ofNat (y := 11) hbase (by decide), decide_eq_decide]
    omega
  apply h.leads rfl hp
  change Wp _ _ _ _ (strtolLines .top) _
  simp [strtolLines, combine_eq, opValue]
  rw [wp_jnzrel rfl, hcompare]
  split
  · rename_i hle
    have hlast := hQ
    rw [if_pos (decide_eq_true_iff.mp hle)] at hlast
    exact hlast _
  · rename_i hgt
    have hlast := hQ
    rw [if_neg fun hle ↦ hgt (decide_eq_true hle)] at hlast
    exact hlast _

theorem strtol_done (hp : cpu.p = strtol.addr far start .done) {top : Word} (ho : cpu.o = top - 4#32)
    (hendptr : cpu.d ≠ 0#32 → cpu.d ∈ S.writable ∧ cpu.d ∉ stack (top + 1#32) 5)
    (hQ : ∀ f g h i mem, (cpu.d ≠ 0#32 → mem cpu.d = cpu.c) → S.Leads Q { cpu with
      b := cpu.b * cpu.f, f, g, h, i, o := top + 1#32, p := cpu.mem (top + 1#32), mem }) :
    S.Leads Q cpu := by
  have htop : cpu.o + 4#32 = top := by
    rw [ho]
    exact sub_add_cancel _ _
  have hend : ∀ cpu : Cpu, cpu.p = strtol.addr far start .noEndptr → cpu.o + 4#32 = top →
      (∀ f g h i, S.Leads Q { cpu with f, g, h, i, o := top + 1#32, p := cpu.mem (top + 1#32) }) →
      S.Leads Q cpu := by
    intro cpu hp htop hQ
    apply h.leads rfl hp
    change Wp _ _ _ _ (strtolLines .noEndptr) _
    simp [strtolLines, popall, loadall, ret, pop, combine_eq, opValue, htop]
    exact hQ _ _ _ _
  apply h.leads rfl hp
  change Wp _ _ _ _ (strtolLines .done) _
  simp [strtolLines, combine_eq, opValue]
  rw [wp_jnzrel rfl]
  split
  · rename_i hnull
    apply hend
    · rfl
    · exact htop
    · intro f g h i
      exact hQ f g h i cpu.mem fun hne ↦ absurd (by simpa using hnull) hne
  · rename_i hset
    have hne : cpu.d ≠ 0#32 := by simpa using hset
    obtain ⟨hwritable, houtside⟩ := hendptr hne
    have haddress : combine S.undef .bitwiseOr cpu.d 0#32 (BitVec.signExtend 32 0#12) = cpu.d := by
      simp [combine_eq, opValue]
    refine ⟨?_, ?_⟩
    · intro a ha
      obtain rfl := (Option.some.inj ha).symm.trans haddress
      exact hwritable
    · have hreturn : Function.update cpu.mem cpu.d cpu.c (top + 1#32) = cpu.mem (top + 1#32) := by
        apply Function.update_of_ne
        intro heq
        exact houtside (heq ▸ top_mem_stack (top + 1#32) (by decide))
      apply hend
      · rfl
      · exact htop
      · intro f g h i
        have hlast := hQ f g h i (Function.update cpu.mem cpu.d cpu.c)
          fun _ ↦ Function.update_self cpu.d cpu.c cpu.mem
        simpa [combine_eq, opValue, hreturn] using hlast

/-! ## Characters in a loop -/

theorem strtol_le10Top (hp : cpu.p = strtol.addr far start .le10Top) (hbase : base ≤ 10)
    (he : cpu.e = BitVec.ofNat 32 base)
    (hdone : readDigit base (cpu.mem cpu.c) = none → ∀ g i, S.Leads Q { cpu with
      g, i, p := strtol.addr far start .done })
    (hdigit : ∀ digit, readDigit base (cpu.mem cpu.c) = some digit → ∀ g i, S.Leads Q { cpu with
      b := cpu.b * cpu.e + BitVec.ofNat 32 digit, c := cpu.c + 1#32, g, i
      p := strtol.addr far start .le10Top }) : S.Leads Q cpu := by
  have hread : ∀ i, cpu.mem cpu.c + 4294967248#32 = i →
      readDigit base (cpu.mem cpu.c) = if i.toNat < base then some i.toNat else none := by
    intro i hi
    rw [← readDigit_low hbase, ← hi, BitVec.add_assoc]
    exact congrArg _ (BitVec.add_zero _).symm
  apply h.leads rfl hp
  change Wp _ _ _ _ (strtolLines .le10Top) _
  simp [strtolLines, combine_eq, opValue]
  generalize hi : cpu.mem cpu.c + 4294967248#32 = i
  replace hread := hread i hi
  rw [wp_jzrel rfl]
  split
  · rename_i hlt
    simp [combine_eq, opValue]
    rw [wp_jzrel rfl]
    split
    · rename_i hge
      rw [zero_sle, decide_eq_true_iff] at hge
      rw [he, slt_ofNat_of_lt hge (by omega), decide_eq_true_iff] at hlt
      rw [if_pos hlt] at hread
      simp [combine_eq, opValue]
      have hlast := hdigit i.toNat hread
      rw [BitVec.ofNat_toNat, BitVec.setWidth_eq] at hlast
      exact hlast _ _
    · rename_i hneg
      rw [zero_sle, decide_eq_true_iff, Nat.not_lt] at hneg
      rw [if_neg (by omega)] at hread
      exact hdone hread _ _
  · rename_i hge
    have hlarge : ¬ i.toNat < base := by
      intro hlt
      rw [he, slt_ofNat_of_lt (by omega) (by omega), decide_eq_true_iff] at hge
      exact hge hlt
    rw [if_neg hlarge] at hread
    exact hdone hread _ _

theorem strtol_gt10Tryhigh (hp : cpu.p = strtol.addr far start .gt10Tryhigh) {ch : Word}
    (hi : cpu.i = ch) (hlow : 10 < base) (hhigh : base ≤ 36) (he : cpu.e = BitVec.ofNat 32 base)
    (hge : 48 + base ≤ ch.toNat) (hlt : ch.toNat < 2 ^ 31 + 48)
    (hdone : readDigit base ch = none → ∀ g h i, S.Leads Q { cpu with
      g, h, i, p := strtol.addr far start .done })
    (hdigit : ∀ digit, readDigit base ch = some digit → ∀ g h i, S.Leads Q { cpu with
      b := cpu.b * cpu.e + BitVec.ofNat 32 digit, c := cpu.c + 1#32, g, h, i
      p := strtol.addr far start .gt10Top }) : S.Leads Q cpu := by
  have hread : ∀ g, (ch &&& ~~~32#32) + 4294967231#32 = g →
      (g.toNat < 2 ^ 31 → (g + 10#32).toNat < 2 ^ 31) ∧ readDigit base ch =
        if g.toNat < 2 ^ 31 ∧ (g + 10#32).toNat < base then some (g + 10#32).toNat else none := by
    intro g hg
    apply readDigit_letter hlow hhigh hge hlt
    rw [← hg, BitVec.add_assoc]
    exact (BitVec.add_zero _).symm
  apply h.leads rfl hp
  change Wp _ _ _ _ (strtolLines .gt10Tryhigh) _
  simp [strtolLines, combine_eq, opValue, hi]
  generalize hg : (ch &&& 4294967263#32) + 4294967231#32 = g
  obtain ⟨hsmall, hread⟩ := hread g hg
  rw [wp_jzrel rfl]
  split
  · rename_i hpos
    rw [zero_sle, decide_eq_true_iff] at hpos
    simp [combine_eq, opValue]
    rw [wp_jzrel rfl]
    split
    · rename_i hdigit'
      rw [he, slt_ofNat_of_lt (hsmall hpos) (by omega), decide_eq_true_iff] at hdigit'
      rw [if_pos ⟨hpos, hdigit'⟩] at hread
      simp [combine_eq, opValue]
      have hlast := hdigit _ hread
      rw [BitVec.ofNat_toNat, BitVec.setWidth_eq] at hlast
      exact hlast _ _ _
    · rename_i hlarge
      rw [he, slt_ofNat_of_lt (hsmall hpos) (by omega), decide_eq_true_iff] at hlarge
      rw [if_neg fun hboth ↦ hlarge hboth.2] at hread
      exact hdone hread _ _ _
  · rename_i hneg
    rw [zero_sle, decide_eq_true_iff] at hneg
    rw [if_neg fun hboth ↦ hneg hboth.1] at hread
    exact hdone hread _ _ _

theorem strtol_gt10Top (hp : cpu.p = strtol.addr far start .gt10Top) (hlow : 10 < base)
    (hhigh : base ≤ 36) (he : cpu.e = BitVec.ofNat 32 base)
    (hdone : readDigit base (cpu.mem cpu.c) = none → ∀ g h i, S.Leads Q { cpu with
      g, h, i, p := strtol.addr far start .done })
    (hdigit : ∀ digit, readDigit base (cpu.mem cpu.c) = some digit → ∀ g h i, S.Leads Q { cpu with
      b := cpu.b * cpu.e + BitVec.ofNat 32 digit, c := cpu.c + 1#32, g, h, i
      p := strtol.addr far start .gt10Top }) : S.Leads Q cpu := by
  have hread : ∀ g, cpu.mem cpu.c + 4294967248#32 = g → g + 48#32 = cpu.mem cpu.c := by
    intro g hg
    rw [← hg, BitVec.add_assoc]
    exact BitVec.add_zero _
  apply h.leads rfl hp
  change Wp _ _ _ _ (strtolLines .gt10Top) _
  simp [strtolLines, combine_eq, opValue]
  generalize hg : cpu.mem cpu.c + 4294967248#32 = g
  replace hread := hread g hg
  rw [wp_jzrel rfl]
  split
  · rename_i hpos
    rw [zero_sle, decide_eq_true_iff] at hpos
    simp [combine_eq, opValue]
    rw [wp_jzrel rfl]
    split
    · rename_i hlt
      rw [he, slt_ofNat_of_lt hpos (by omega), decide_eq_true_iff] at hlt
      have hlast := hdigit g.toNat (hread ▸ readDigit_digit hlow hhigh hlt)
      rw [BitVec.ofNat_toNat, BitVec.setWidth_eq] at hlast
      simp [combine_eq, opValue]
      exact hlast _ _ _
    · rename_i hge
      rw [he, slt_ofNat_of_lt hpos (by omega), decide_eq_true_iff] at hge
      have hnat : (cpu.mem cpu.c).toNat = g.toNat + 48 := by
        rw [← hread, BitVec.toNat_add]
        exact Nat.mod_eq_of_lt (Nat.add_lt_add hpos (by decide))
      have hlarge : 48 + base ≤ (cpu.mem cpu.c).toNat := by omega
      have hsmall : (cpu.mem cpu.c).toNat < 2 ^ 31 + 48 := by omega
      apply strtol_gt10Tryhigh h
      · rfl
      · rfl
      · exact hlow
      · exact hhigh
      · exact he
      · exact hlarge
      · exact hsmall
      · exact hdone
      · exact hdigit
  · rename_i hneg
    rw [zero_sle, decide_eq_true_iff, Nat.not_lt] at hneg
    exact hdone (hread ▸ readDigit_negative hhigh hneg) _ _ _

/-! ## Strings -/

/-- One character in the loop for its base. -/
theorem strtol_char (hp : cpu.p = strtol.addr far start (if base ≤ 10 then .le10Top else .gt10Top))
    (hhigh : base ≤ 36) (he : cpu.e = BitVec.ofNat 32 base)
    (hdone : readDigit base (cpu.mem cpu.c) = none → ∀ g h i, S.Leads Q { cpu with
      g, h, i, p := strtol.addr far start .done })
    (hdigit : ∀ digit, readDigit base (cpu.mem cpu.c) = some digit → ∀ g h i, S.Leads Q { cpu with
      b := cpu.b * cpu.e + BitVec.ofNat 32 digit, c := cpu.c + 1#32, g, h, i
      p := strtol.addr far start (if base ≤ 10 then .le10Top else .gt10Top) }) : S.Leads Q cpu := by
  by_cases hbase : base ≤ 10
  · rw [if_pos hbase] at hp
    apply strtol_le10Top h hp hbase he
    · exact fun hnone g i ↦ hdone hnone g cpu.h i
    · intro digit hsome g i
      have hlast := hdigit digit hsome g cpu.h i
      rw [if_pos hbase] at hlast
      exact hlast
  · rw [if_neg hbase] at hp
    rw [if_neg hbase] at hdigit
    exact strtol_gt10Top h hp (Nat.not_le.mp hbase) hhigh he hdone hdigit

/-- The loop reads the longest run of what it takes for digits. -/
theorem strtol_digits {str : List Word} (hhigh : base ≤ 36) {value : ℕ}
    (hp : cpu.p = strtol.addr far start (if base ≤ 10 then .le10Top else .gt10Top))
    (he : cpu.e = BitVec.ofNat 32 base) (hb : cpu.b = BitVec.ofNat 32 value)
    (hstr : HoldsString cpu.mem cpu.c str)
    (hQ : ∀ g h i, S.Leads Q { cpu with
      b := BitVec.ofNat 32 (value * base ^ (digitRun (readDigit base) str).length +
        numeral base (digitRun (readDigit base) str))
      c := cpu.c + BitVec.ofNat 32 (digitRun (readDigit base) str).length, g, h, i
      p := strtol.addr far start .done }) : S.Leads Q cpu := by
  have hstop : ∀ (cpu : Cpu) (value : ℕ) (digits : List ℕ), digits = [] →
      cpu.b = BitVec.ofNat 32 value → (∀ g h i, S.Leads Q { cpu with
        b := BitVec.ofNat 32 (value * base ^ digits.length + numeral base digits)
        c := cpu.c + BitVec.ofNat 32 digits.length, g, h, i, p := strtol.addr far start .done }) →
      ∀ g h i, S.Leads Q { cpu with g, h, i, p := strtol.addr far start .done } := by
    intro cpu value digits hnil hb hQ g h i
    have hvalue : value * base ^ ([] : List ℕ).length + numeral base [] = value := by
      rw [List.length_nil, Nat.pow_zero, Nat.mul_one]
      rfl
    rw [hnil, hvalue, ← hb, List.length_nil, BitVec.add_zero] at hQ
    exact hQ g h i
  induction str generalizing cpu value with
  | nil =>
    apply strtol_char h hp hhigh he
    · exact fun _ ↦ hstop cpu value _ rfl hb hQ
    · intro digit hdigit
      rw [hstr.head, readDigit_eq_some_iff, digitOf_eq_some, Misread] at hdigit
      exact absurd hdigit (by simp)
  | cons ch str ih =>
    have hhead : cpu.mem cpu.c = ch := hstr.head
    apply strtol_char h hp hhigh he
    · intro hnone
      apply hstop cpu value _ _ hb hQ
      rw [digitRun, ← hhead, hnone]
    · intro digit hdigit g' h' i'
      have hrun : digitRun (readDigit base) (ch :: str) = digit :: digitRun (readDigit base) str := by
        rw [digitRun, ← hhead, hdigit]
      have hvalue : value * base ^ (digitRun (readDigit base) (ch :: str)).length +
            numeral base (digitRun (readDigit base) (ch :: str)) =
          (value * base + digit) * base ^ (digitRun (readDigit base) str).length +
            numeral base (digitRun (readDigit base) str) := by
        rw [hrun, numeral_cons, List.length_cons]
        ring
      have hlength : cpu.c + BitVec.ofNat 32 (digitRun (readDigit base) (ch :: str)).length =
          cpu.c + 1#32 + BitVec.ofNat 32 (digitRun (readDigit base) str).length := by
        rw [hrun, List.length_cons, BitVec.ofNat_add, add_comm (BitVec.ofNat 32 _), ← BitVec.add_assoc]
      rw [hvalue, hlength] at hQ
      apply ih
      · rfl
      · exact he
      · change cpu.b * cpu.e + BitVec.ofNat 32 digit = _
        rw [hb, he, ← BitVec.ofNat_mul, ← BitVec.ofNat_add]
      · exact hstr.tail
      · exact hQ

/-- The whole run, for a base that is allowed. -/
theorem strtol_run {str : List Word} (hlow : 2 ≤ base) (hhigh : base ≤ 36) (hp : cpu.p = start)
    (he : cpu.e = BitVec.ofNat 32 base) (hstack : stack cpu.o 4 ⊆ S.writable)
    (hstr : HoldsString cpu.mem cpu.c str)
    (hapart : ∀ k ≤ str.length, cpu.c + BitVec.ofNat 32 k ∉ stack cpu.o 4)
    (hendptr : cpu.d ≠ 0#32 → cpu.d ∈ S.writable ∧ cpu.d ∉ stack (cpu.o + 1#32) 5)
    (hQ : ∀ next, Returns cpu next → next.b = stringValue base (readDigit base) str →
      (cpu.d ≠ 0#32 → next.mem cpu.d = cpu.c + BitVec.ofNat 32 (consumed (readDigit base) str)) →
      Q next) : S.Leads Q cpu := by
  have hsaved : HoldsString (saved cpu.mem cpu.o [cpu.f, cpu.g, cpu.h, cpu.i]) cpu.c str := by
    intro k hk
    rw [saved_of_notMem (hapart k hk)]
    exact hstr k hk
  have hminus : str.head?.getD 0#32 = 45#32 ↔ Negative str := by
    rw [Negative]
    cases str.head? with
    | none => decide
    | some ch => simp
  have hrest : HoldsString (saved cpu.mem cpu.o [cpu.f, cpu.g, cpu.h, cpu.i])
      (if str.head?.getD 0#32 = 45#32 then cpu.c + 1#32 else cpu.c) (unsigned str) := by
    rw [unsigned]
    split
    · rename_i hneg
      rw [if_pos (hminus.mp hneg)]
      cases str with
      | nil => exact absurd (hminus.mp hneg) (by decide)
      | cons ch str => exact hsaved.tail
    · rename_i hplain
      rw [if_neg (hminus.not.mp hplain)]
      exact hsaved
  apply strtol_start h hp hstack hlow hhigh he hsaved.head
  intro g h' i
  apply strtol_top h
  · rfl
  · exact Nat.lt_of_le_of_lt hhigh (by decide)
  · exact he
  · intro g
    apply strtol_digits h hhigh
    · rfl
    · exact he
    · rfl
    · exact hrest
    · intro g h' i
      apply strtol_done h rfl rfl
      · exact hendptr
      · intro f g h' i mem hmem
        apply Setting.Leads.here
        apply hQ
        · exact ⟨by simp, rfl⟩
        · change BitVec.ofNat 32 (0 * _ + _) * (if str.head?.getD 0#32 = 45#32 then -1#32 else 1#32) = _
          rw [Nat.zero_mul, Nat.zero_add, stringValue]
          by_cases hneg : Negative str
          · rw [if_pos (hminus.mpr hneg), if_pos hneg]
            rw [BitVec.mul_neg, BitVec.mul_one]
          · rw [if_neg (hminus.not.mpr hneg), if_neg hneg]
            exact BitVec.mul_one _
        · intro hne
          refine (hmem hne).trans ?_
          change (if str.head?.getD 0#32 = 45#32 then cpu.c + 1#32 else cpu.c) + BitVec.ofNat 32 _ = _
          rw [consumed, BitVec.ofNat_add, ← BitVec.add_assoc]
          congr 1
          by_cases hneg : Negative str
          · rw [if_pos (hminus.mpr hneg), if_pos hneg]
          · rw [if_neg (hminus.not.mpr hneg), if_neg hneg]
            exact (BitVec.add_zero _).symm

omit h

end

/-- `strtol` ends with the number that the string denotes, and with the rest of it behind `endptr`. -/
def StrtolRight (base : ℕ) (str : List Word) : Prop :=
  ∀ (S : Setting) (far : StrtolLabel → ℤ) (start : Word) (cpu : Cpu), Placed S strtol far start →
    stack cpu.o 4 ⊆ S.writable → cpu.p = start → cpu.e = BitVec.ofNat 32 base →
      HoldsString cpu.mem cpu.c str → (∀ k ≤ str.length, cpu.c + BitVec.ofNat 32 k ∉ stack cpu.o 4) →
        (cpu.d ≠ 0#32 → cpu.d ∈ S.writable ∧ cpu.d ∉ stack (cpu.o + 1#32) 5) →
          S.Leads (fun next ↦ Returns cpu next ∧ next.b = stringValue base (digitOf base) str ∧
            (cpu.d ≠ 0#32 →
              next.mem cpu.d = cpu.c + BitVec.ofNat 32 (consumed (digitOf base) str))) cpu

theorem strtolRight_of_readsRight {base : ℕ} (hlow : 2 ≤ base) (hhigh : base ≤ 36) {str : List Word}
    (h : ReadsRight base str) : StrtolRight base str := by
  obtain ⟨hvalue, hconsumed⟩ := (readsRight_iff hhigh str).mp h
  intro S far start cpu hplaced hstack hp he hstr hapart hendptr
  apply strtol_run hplaced hlow hhigh hp he hstack hstr hapart hendptr
  intro next hreturns hb hmem
  rw [hvalue] at hb
  rw [hconsumed] at hmem
  exact ⟨hreturns, hb, hmem⟩

/-- The other direction, for strings that fit in memory behind the code. -/
theorem readsRight_of_strtolRight {base : ℕ} (hlow : 2 ≤ base) (hhigh : base ≤ 36) {str : List Word}
    (hfits : str.length < 2 ^ 31) (hright : StrtolRight base str) : ReadsRight base str := by
  let far : StrtolLabel → ℤ := fun _ ↦ 0
  let insns := insnsFrom (strtol.position far) 0 strtol.allLines
  let S := Setting.alone .masked insns (by decide)
  let cpu := { aloneCpu insns str 0xf0000000#32 (BitVec.ofNat 32 insns.length) 0xe0000000#32 with
    e := BitVec.ofNat 32 base }
  have hplaced : Placed S strtol far 0#32 := Setting.alone_placed (by decide +kernel)
  have hstack : stack 0xf0000000#32 4 ⊆ S.writable := Setting.alone_stack (by decide)
  have hreturn : aloneMem insns str 0xf0000000#32 (0xf0000000#32 + 1#32) = 0xffffffff#32 := if_pos rfl
  have hloaded : S.Loaded cpu.mem := Setting.alone_loaded (by decide)
  have hlength : insns.length < 128 := by decide
  have hstr : HoldsString cpu.mem cpu.c str := by
    intro k hk
    apply aloneMem_data
    change insns.length + k < 0xf0000001
    omega
  have hapart : ∀ k ≤ str.length, cpu.c + BitVec.ofNat 32 k ∉ stack cpu.o 4 := by
    intro k hk hmem
    have hdistance : (0xf0000000#32 - (BitVec.ofNat 32 insns.length + BitVec.ofNat 32 k)).toNat < 4 := hmem
    rw [← BitVec.ofNat_add] at hdistance
    bv_omega
  have hendptr : cpu.d ≠ 0#32 → cpu.d ∈ S.writable ∧ cpu.d ∉ stack (cpu.o + 1#32) 5 := by
    intro _
    constructor
    · change insns.length ≤ 0xe0000000
      omega
    · exact (by decide : ¬ (0xf0000001#32 - 0xe0000000#32).toNat < 5)
  have hread : S.Leads (fun next ↦ Returns cpu next ∧
      next.b = stringValue base (readDigit base) str ∧
        (cpu.d ≠ 0#32 →
          next.mem cpu.d = cpu.c + BitVec.ofNat 32 (consumed (readDigit base) str))) cpu :=
    strtol_run hplaced hlow hhigh rfl rfl hstack hstr hapart hendptr
      fun next hreturns hb hmem ↦ ⟨hreturns, hb, hmem⟩
  obtain ⟨next, ⟨-, hb, hmem⟩, -, hb', hmem'⟩ :=
    (hright S far 0#32 cpu hplaced hstack rfl rfl hstr hapart hendptr).and_of_end hread hloaded
      (fun next h ↦ h.1.p.trans hreturn) (fun next h ↦ h.1.p.trans hreturn)
  have hd : cpu.d ≠ 0#32 := (by decide : 0xe0000000#32 ≠ 0#32)
  have hconsumed := (hmem' hd).symm.trans (hmem hd)
  rw [add_right_inj, ← BitVec.toNat_inj] at hconsumed
  have hle := consumed_le (readDigit base) str
  have hle' := consumed_le (digitOf base) str
  rw [toNat_ofNat (by omega), toNat_ofNat (by omega)] at hconsumed
  exact (readsRight_iff hhigh str).mpr ⟨hb'.symm.trans hb, hconsumed⟩

/-- `strtol` is right for exactly the strings in which nothing is misread, or cancels. -/
theorem strtolRight_iff {base : ℕ} (hlow : 2 ≤ base) (hhigh : base ≤ 36) (str : List Word) :
    (ReadsRight base str → StrtolRight base str) ∧
      (str.length < 2 ^ 31 → StrtolRight base str → ReadsRight base str) ∧
      (base ≤ 10 → ReadsRight base str) :=
  ⟨strtolRight_of_readsRight hlow hhigh, readsRight_of_strtolRight hlow hhigh,
    fun hbase ↦ readsRight_of_le_ten hbase str⟩

/-- `1Za` in base 36. -/
theorem strtolRight_mixedCase : StrtolRight 36 [49#32, 90#32, 97#32] := by
  have hend : (unsigned [49#32, 90#32, 97#32])[
      (digitRun (digitOf 36) (unsigned [49#32, 90#32, 97#32])).length]? = none := by
    decide
  apply (strtolRight_iff (by decide) (by decide) _).1
  refine ⟨?_, by decide⟩
  intro ch hch
  rw [hend] at hch
  cases hch

/-- `A` in base 36 is read as 17. -/
theorem not_strtolRight_capital : ¬ StrtolRight 36 [65#32] := by
  intro hright
  have hcancels := (readsRight_of_strtolRight (by decide) (by decide) (by decide) hright).cancels
  exact absurd hcancels (by decide)

end Tenyr.Stdlib
