import Tenyr.Asm.Soundness

/-!
# Immediates of sums and differences

A constant that is added or subtracted goes into a field of 12 or 20 bits. The choice is made from its
value and its spelling while parsing, and whether it fits is checked after it has been negated for a
difference. The one constant for which the two disagree is -2048, which is subtracted as 2048.
-/

namespace Tenyr.Asm

open Isa Sim

/-- An integer as it is written; the digits are those that `numberise` reads. -/
inductive Literal where
  | decnum (value : ℕ)
  | hexnum (value : ℕ)
  | paren (e : Literal)
  | neg (e : Literal)
  deriving DecidableEq, Repr

namespace Literal

def value : Literal → ℤ
  | decnum value | hexnum value => value
  | paren e => e.value
  | neg e => -e.value

/-- Hexadecimal digits are a `BITSTRING`, others an `INTEGER`. -/
def isHex : Literal → Bool
  | decnum _ => false
  | hexnum _ => true
  | paren e | neg e => e.isHex

/-- The actions of `immediate` and `atom`. -/
def expr : Literal → ConstExpr Ref
  | decnum value => .imm (BitVec.ofNat 32 value) false
  | hexnum value => .imm (BitVec.ofNat 32 value) true
  | paren e => .paren e.expr
  | neg e => .op1 .neg e.expr

theorem flags_expr (e : Literal) : e.expr.flags =
    { immIsBits := e.isHex, isDeferred := false, isExternal := false, specialLhs := false } := by
  induction e with
  | decnum | hexnum => rfl
  | paren e ih => exact ih
  | neg e ih => exact ih

theorem constValue_expr (undef : UndefinedShifts) (e : Literal) :
    e.expr.constValue undef = .ok (BitVec.ofInt 32 e.value) := by
  induction e with
  | decnum value | hexnum value =>
    rw [expr, ConstExpr.constValue, Literal.value, BitVec.ofInt_natCast]
  | paren e ih => exact ih
  | neg e ih =>
    rw [expr, ConstExpr.constValue, ih, Literal.value, BitVec.ofInt_neg]
    rfl

section Parse

variable (undef : UndefinedShifts) (env : Env) (fuel : ℕ)

theorem ceEvalConst_expr (e : Literal) :
    ceEvalConst undef env fuel e.expr = .ok (some (BitVec.ofInt 32 e.value)) := by
  have hdeferred : e.expr.flags.isDeferred = false := by rw [flags_expr]
  rw [ceEvalConst, ceEval_of_not_deferred undef env fuel none _ _ hdeferred, constValue_expr]
  rfl

theorem constI_expr (e : Literal) : constI undef env fuel e.expr = BitVec.ofInt 32 e.value := by
  rw [constI, ceEvalConst_expr]

theorem parseEvals_expr (asExpr : Bool) (e : Literal) :
    parseEvals (fun e ↦ (ceEvalConst undef env fuel e).map fun _ ↦ ()) asExpr e.expr = .ok () := by
  induction e generalizing asExpr with
  | decnum value =>
    cases asExpr with
    | false => rfl
    | true => exact congrArg (Except.map _) (ceEvalConst_expr undef env fuel (decnum value))
  | hexnum value =>
    cases asExpr with
    | false => rfl
    | true => exact congrArg (Except.map _) (ceEvalConst_expr undef env fuel (hexnum value))
  | paren e ih => exact ih true
  | neg e ih =>
    have heval := ceEvalConst_expr undef env fuel (neg e)
    rw [expr] at heval ⊢
    rw [parseEvals, ih false, heval]
    rfl

theorem makeErrors_expr (e : Literal) : e.expr.makeErrors = [] := by
  induction e with
  | decnum | hexnum => rfl
  | paren e ih => exact ih
  | neg e ih => exact ih

theorem validateExpr_expr (i : ConstExpr Ref → Word) (level : ℕ) (e : Literal) :
    (e.expr.validateExpr i level).2 = [] := by
  induction e generalizing level with
  | decnum | hexnum => rfl
  | paren e ih => exact ih level
  | neg e ih => exact ih (level + 1)

/-- Literals are parsed without errors. -/
theorem parseExpr_expr (e : Literal) : parseExpr undef env fuel false e.expr = .ok [] := by
  rw [parseExpr, parseEvals_expr, makeErrors_expr, validateExpr_expr]
  rfl

end Parse

end Literal

/-! ## Acceptance -/

section

variable (undef : UndefinedShifts) (env : Env) (fuel : ℕ)

/-- A statement with a literal is accepted when its multiplied value fits the field. -/
theorem assembleInsn_isSome_iff (context : Option ℕ) {stmt : InsnStmt Ref} {e : Literal}
    {r : RhsExpr Ref} (harrows : stmt.arrowErrors = []) (hexpr : stmt.rhs.expr? = some e.expr)
    (hr : r = stmt.rhs.make (constI undef env fuel)) (hignore : r.ignoreWidth = false) :
    (∃ w, assembleInsn undef env fuel context stmt = .ok (some w)) ↔
      sextend32 r.width (BitVec.ofInt 32 e.value * r.mult) = BitVec.ofInt 32 e.value * r.mult := by
  have hparse : parseInsn undef env fuel stmt =
      .ok ((r.word stmt.dd stmt.z r.i, some ⟨e.expr, r.mult, r.width, r.ignoreWidth⟩), []) := by
    have hce : r.ce = some e.expr := by
      rw [hr, RhsPlain.make_ce, hexpr]
    have hmake : stmt.make (constI undef env fuel) = (r.word stmt.dd stmt.z r.i,
        r.ce.map fun ce ↦ ⟨ce, r.mult, r.width, r.ignoreWidth⟩) := by
      rw [hr]
      rfl
    rw [parseInsn, hexpr, parseImmediate, Literal.parseExpr_expr, harrows, hmake, hce]
    rfl
  have hdeferred : e.expr.flags.isDeferred = false := by rw [Literal.flags_expr]
  rw [assembleInsn, hparse]
  simp only [bind, Except.bind, List.isEmpty_nil, if_true]
  rw [ceEval_of_not_deferred undef env fuel context _ _ hdeferred, Literal.constValue_expr]
  simp only [Except.map, DeferredExpr.store, hignore, Bool.not_false, Bool.true_and]
  generalize BitVec.ofInt 32 e.value * r.mult = result
  by_cases hfits : sextend32 r.width result = result
  · simp [hfits]
  · simp [hfits, Ne.symm hfits]

/-! ## Fields -/

theorem toInt_sextend32 {bits : ℕ} (hbits : bits ≤ 32) (n : ℤ) :
    (sextend32 bits (BitVec.ofInt 32 n)).toInt = n.bmod (2 ^ bits) := by
  have hdvd : ((2 ^ bits : ℕ) : ℤ) ∣ ((2 ^ 32 : ℕ) : ℤ) := by
    exact_mod_cast Nat.pow_dvd_pow 2 hbits
  rw [sextend32, BitVec.toInt_signExtend_of_le hbits, BitVec.toInt_setWidth, BitVec.toNat_ofInt,
    Int.toNat_of_nonneg (Int.emod_nonneg _ (by decide)), ← Int.emod_bmod (n % _),
    Int.emod_emod_of_dvd n hdvd, Int.emod_bmod]

/-- An integer fits a field when it is in the field's signed range. -/
theorem sextend32_ofInt_iff {bits : ℕ} (hpos : 0 < bits) (hbits : bits ≤ 32) {n : ℤ}
    (hn : -2 ^ 31 ≤ n ∧ n < 2 ^ 31) :
    sextend32 bits (BitVec.ofInt 32 n) = BitVec.ofInt 32 n ↔
      -2 ^ (bits - 1) ≤ n ∧ n < 2 ^ (bits - 1) := by
  have hword : (BitVec.ofInt 32 n).toInt = n := by
    rw [BitVec.toInt_ofInt]
    apply Int.bmod_eq_of_le <;> omega
  have hpow : ((2 ^ bits : ℕ) : ℤ) = 2 * 2 ^ (bits - 1) := by
    obtain ⟨k, rfl⟩ := Nat.exists_eq_succ_of_ne_zero (Nat.ne_of_gt hpos)
    rw [Nat.succ_eq_add_one, Nat.add_sub_cancel, Nat.pow_succ]
    push_cast
    omega
  rw [← BitVec.toInt_inj, toInt_sextend32 hbits, hword]
  generalize (2 : ℤ) ^ (bits - 1) = half at *
  constructor
  · intro h
    have hle := Int.le_bmod (x := n) (m := 2 ^ bits) (Nat.two_pow_pos bits)
    have hlt := Int.bmod_lt (x := n) (m := 2 ^ bits) (Nat.two_pow_pos bits)
    omega
  · intro h
    apply Int.bmod_eq_of_le <;> omega

end

/-! ## Sums and differences -/

/-- The right-hand sides `n`, `X + n` and `X - n`. -/
inductive AddendForm where
  | alone | sum | difference
  deriving DecidableEq, Repr

def AddendForm.rhs (x : RegIndex) (e : Literal) : AddendForm → RhsPlain Ref
  | alone => .imm e.expr
  | sum => .regImm x (.native .add) e.expr
  | difference => .regImm x (.native .subtract) e.expr

/-- `Z <- n`, `Z <- X + n` and `Z <- X - n` -/
def AddendForm.stmt (form : AddendForm) (z x : RegIndex) (e : Literal) : InsnStmt Ref where
  lhsDeref := false
  z := z
  arrow := .left
  rhsDeref := false
  rhs := form.rhs x e

/-- The value that is assigned when `X` is `v`. -/
def AddendForm.value (n v : Word) : AddendForm → Word
  | alone => n
  | sum => v + n
  | difference => v - n

/-- The statement is accepted, and its word assigns the value to `Z`. -/
def Computes (undef : UndefinedShifts) (env : Env) (fuel : ℕ) (context : Option ℕ)
    (form : AddendForm) (z x : RegIndex) (e : Literal) : Prop :=
  ∃ w, assembleInsn undef env fuel context (form.stmt z x e) = .ok (some w) ∧
    ∀ (σ : Type) (bus : Bus σ) (s : SimState σ), s.regs 0#4 = 0#32 →
      runInstruction undef bus s w = .ok (s.advance.writeBack z
        (form.value (BitVec.ofInt 32 e.value) (s.advance.regs x)))

section

variable (undef : UndefinedShifts) (env : Env) (fuel : ℕ)

/-- Acceptance is all that is asked: what is accepted has the right effect. -/
theorem computes_iff_accepted (context : Option ℕ) (form : AddendForm) (z x : RegIndex)
    (e : Literal) : Computes undef env fuel context form z x e ↔
      ∃ w, assembleInsn undef env fuel context (form.stmt z x e) = .ok (some w) := by
  constructor
  · rintro ⟨w, hw, -⟩
    exact ⟨w, hw⟩
  · rintro ⟨w, hw⟩
    refine ⟨w, hw, ?_⟩
    intro σ bus s hA
    have hexpr : (form.stmt z x e).rhs.expr? = some e.expr := by cases form <;> rfl
    have hnot : (form.stmt z x e).NotDeferred := by
      intro e' he'
      obtain rfl := Option.some.inj (hexpr.symm.trans he')
      rw [Literal.flags_expr]
    have hconst : (form.stmt z x e).constant undef = .ok (BitVec.ofInt 32 e.value) := by
      rw [InsnStmt.constant, hexpr]
      exact Literal.constValue_expr undef e
    have hkeeps : (form.stmt z x e).rhs.PackFits (BitVec.ofInt 32 e.value) ∧
        (form.stmt z x e).rhs.KeepsAddend (BitVec.ofInt 32 e.value) := by
      cases form <;> exact ⟨trivial, trivial⟩
    rw [runInstruction_of_keeps undef env fuel context _ w _ hnot hconst hw hkeeps σ bus s hA]
    cases form <;> rfl

/-- The type of the instruction: 3 where the literal is hexadecimal or does not fit 12 bits. -/
theorem isType3_expr (e : Literal) : isType3 (constI undef env fuel) e.expr =
    (e.isHex || BitVec.ofInt 32 e.value !=
      sextend32 smallImmediateBitwidth (BitVec.ofInt 32 e.value)) := by
  rw [isType3, Literal.flags_expr, Literal.constI_expr, Bool.or_false]

/-- The value that is checked, and the width that it is checked against. -/
theorem AddendForm.make_spec (form : AddendForm) (x : RegIndex) (e : Literal) :
    let r := (form.rhs x e).make (constI undef env fuel)
    r.ignoreWidth = false ∧
      BitVec.ofInt 32 e.value * r.mult =
        BitVec.ofInt 32 (if form = difference then -e.value else e.value) ∧
      r.width = if isType3 (constI undef env fuel) e.expr then mediumImmediateBitwidth
        else smallImmediateBitwidth := by
  cases form with
  | alone =>
    refine ⟨rfl, BitVec.mul_one _, ?_⟩
    by_cases hthree : isType3 (constI undef env fuel) e.expr = true
    · simp [rhs, RhsPlain.make, RhsExpr.width, makeRhs, Binop.swaps, hthree]
    · simp [rhs, RhsPlain.make, RhsExpr.width, makeRhs, Binop.swaps, hthree]
  | sum =>
    refine ⟨rfl, BitVec.mul_one _, ?_⟩
    by_cases hthree : isType3 (constI undef env fuel) e.expr = true
    · simp [rhs, RhsPlain.make, RhsExpr.width, makeRhs, Binop.swaps, hthree]
    · simp [rhs, RhsPlain.make, RhsExpr.width, makeRhs, Binop.swaps, hthree]
  | difference =>
    refine ⟨rfl, ?_, ?_⟩
    · rw [if_pos rfl, BitVec.ofInt_neg]
      change BitVec.ofInt 32 e.value * -1#32 = _
      rw [BitVec.mul_neg, BitVec.mul_one]
    · by_cases hthree : isType3 (constI undef env fuel) e.expr = true
      · simp [rhs, RhsPlain.make, RhsExpr.width, makeRhs, Binop.swaps, hthree]
      · simp [rhs, RhsPlain.make, RhsExpr.width, makeRhs, Binop.swaps, hthree]

/-- **Which sums and differences are assembled.** All integers that fit 20 bits with either sign are
accepted and computed with, except for -2048 in decimal, which cannot be subtracted. -/
theorem addendForm_computes_iff (context : Option ℕ) (form : AddendForm) (z x : RegIndex)
    (e : Literal) (hvalue : -2 ^ 19 ≤ e.value ∧ e.value < 2 ^ 19)
    (hneg : -2 ^ 19 ≤ -e.value ∧ -e.value < 2 ^ 19) :
    Computes undef env fuel context form z x e ↔
      ¬(form = .difference ∧ e.isHex = false ∧ e.value = -2048) := by
  obtain ⟨hignore, hmult, hwidth⟩ := form.make_spec undef env fuel x e
  have hexpr : (form.stmt z x e).rhs.expr? = some e.expr := by cases form <;> rfl
  rw [computes_iff_accepted,
    assembleInsn_isSome_iff undef env fuel context rfl hexpr rfl hignore]
  change sextend32 ((form.rhs x e).make (constI undef env fuel)).width
    (BitVec.ofInt 32 e.value * ((form.rhs x e).make (constI undef env fuel)).mult) =
      BitVec.ofInt 32 e.value * ((form.rhs x e).make (constI undef env fuel)).mult ↔ _
  rw [hmult, hwidth, isType3_expr]
  have hsmall : sextend32 smallImmediateBitwidth (BitVec.ofInt 32 e.value) =
      BitVec.ofInt 32 e.value ↔ -2 ^ 11 ≤ e.value ∧ e.value < 2 ^ 11 :=
    sextend32_ofInt_iff (by decide) (by decide) (by omega)
  set checked := if form = .difference then -e.value else e.value with hchecked
  have hrange : -2 ^ 19 ≤ checked ∧ checked < 2 ^ 19 := by
    rw [hchecked]
    split <;> assumption
  by_cases hthree : e.isHex = true ∨ ¬(-2 ^ 11 ≤ e.value ∧ e.value < 2 ^ 11)
  · have hmedium : sextend32 mediumImmediateBitwidth (BitVec.ofInt 32 checked) =
        BitVec.ofInt 32 checked :=
      (sextend32_ofInt_iff (by decide) (by decide) (by omega)).mpr hrange
    have hchoice : (e.isHex || BitVec.ofInt 32 e.value !=
        sextend32 smallImmediateBitwidth (BitVec.ofInt 32 e.value)) = true := by
      rw [← hsmall] at hthree
      rcases hthree with hhex | hlarge
      · rw [hhex, Bool.true_or]
      · rw [bne_iff_ne.mpr (Ne.symm hlarge), Bool.or_true]
    rw [if_pos hchoice]
    refine iff_of_true hmedium ?_
    rintro ⟨-, hdec, hvalue'⟩
    rcases hthree with hhex | hlarge
    · rw [hdec] at hhex
      cases hhex
    · omega
  · obtain ⟨hdec, hfits⟩ := not_or.mp hthree
    have hdec' : e.isHex = false := Bool.eq_false_iff.mpr hdec
    have hfits' := not_not.mp hfits
    have hchoice : (e.isHex || BitVec.ofInt 32 e.value !=
        sextend32 smallImmediateBitwidth (BitVec.ofInt 32 e.value)) = false := by
      rw [hdec', hsmall.mpr hfits', bne_self_eq_false, Bool.or_false]
    rw [hchoice, if_neg Bool.false_ne_true,
      sextend32_ofInt_iff (by decide) (by decide) (by omega)]
    change -2 ^ 11 ≤ checked ∧ checked < 2 ^ 11 ↔ _
    by_cases hform : form = .difference
    · rw [if_pos hform] at hchecked
      simp only [hform, hdec', true_and]
      omega
    · rw [if_neg hform] at hchecked
      refine iff_of_true (by omega) ?_
      exact fun h ↦ hform h.1

/-- `B <- C - 2048` takes 20 bits, since 2048 does not fit 12. -/
theorem addendForm_computes_2048 :
    Computes .masked noSymbols 0 none .difference 1#4 2#4 (.decnum 2048) :=
  (addendForm_computes_iff .masked noSymbols 0 none .difference 1#4 2#4 (.decnum 2048)
    (by decide) (by decide)).mpr (by decide)

/-- `B <- C - (-2048)` is rejected. -/
theorem not_addendForm_computes_2048 :
    ¬∀ (undef : UndefinedShifts) (env : Env) (fuel : ℕ) (context : Option ℕ) (form : AddendForm)
      (z x : RegIndex) (e : Literal), -2 ^ 19 ≤ e.value ∧ e.value < 2 ^ 19 →
        -2 ^ 19 ≤ -e.value ∧ -e.value < 2 ^ 19 →
        Computes undef env fuel context form z x e := by
  intro h
  obtain ⟨w, hw, -⟩ := h .masked noSymbols 0 none .difference 1#4 2#4
    (.paren (.neg (.decnum 2048))) (by decide) (by decide)
  have hrejected : assembleInsn .masked noSymbols 0 none
      (AddendForm.difference.stmt 1#4 2#4 (.paren (.neg (.decnum 2048)))) = .ok none := rfl
  rw [hrejected] at hw
  cases hw

end

end Tenyr.Asm
