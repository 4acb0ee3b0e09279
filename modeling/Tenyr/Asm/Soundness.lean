import Tenyr.Asm.Statement
import Tenyr.Sim.Machine

/-!
# What an instruction statement denotes, and what is emitted for it

A statement denotes an assignment, a store or a load of the 32-bit value `(left op right) + addend`,
with written constants in full. The emitted word has this effect except where an immediate of a
`^^` statement does not fit the field it is put in, and where a left shift by 32 or more discards a
non-zero addend.
-/

namespace Tenyr.Asm

open Isa Sim

variable {ρ : Type}

/-! ## Denotation -/

/-- The value of `left op right`. -/
def Binop.value (undef : UndefinedShifts) (op : Binop) (left right : Word) : Word :=
  if op.swaps then opValue undef op.op right left else opValue undef op.op left right

def InsnUnaryOp.value : InsnUnaryOp → Word → Word
  | compl, v => ~~~v
  | neg, v => -v

/-- The value of a right-hand side in which the written constant has the value `v`. -/
def RhsPlain.denote (undef : UndefinedShifts) (regs : RegIndex → Word) (v : Word) :
    RhsPlain ρ → Word
  | regRegImm x op y sign _ => op.value undef (regs x) (regs y) + v * sign.mult
  | regReg x op y => op.value undef (regs x) (regs y)
  | reg x => regs x
  | regImmReg x op _ y => op.value undef (regs x) v + regs y
  | regImm x op _ => op.value undef (regs x) v
  | immRegReg _ op x y => op.value undef v (regs x) + regs y
  | immReg _ op x => op.value undef v (regs x)
  | imm _ => v
  | unaryRegImm op x sign _ => op.value (regs x) + v * sign.mult
  | unaryRegReg op x y => op.value (regs x) + regs y
  | unaryReg op x => op.value (regs x)

/-- What the arrow and the brackets do with a value, after `P` has been advanced. -/
def transfer {σ : Type} (bus : Bus σ) (s : SimState σ) (lhsDeref : Bool) (z : RegIndex)
    (arrow : Arrow) (rhsDeref : Bool) (value : Word) : Except (SimState σ) (SimState σ) :=
  match lhsDeref, arrow, rhsDeref with
  | false, .left, false => .ok (s.writeBack z value)
  | true, .left, false => s.store bus (s.regs z) value
  | false, .left, true => s.load bus z value
  | false, .right, true => s.store bus value (s.regs z)
  | _, _, _ => .error s  -- not a statement

/-- The effect of a statement. -/
def InsnStmt.effect {σ : Type} (undef : UndefinedShifts) (bus : Bus σ) (s : SimState σ)
    (stmt : InsnStmt ρ) (v : Word) : Except (SimState σ) (SimState σ) :=
  transfer bus s.advance stmt.lhsDeref stmt.z stmt.arrow stmt.rhsDeref
    (stmt.rhs.denote undef s.advance.regs v)

/-! ## The emitted word -/

/-- Positions 2 and 1 combined, then position 0 added, as `do_op` does. -/
def combine (undef : UndefinedShifts) (op : Op) (p2 p1 p0 : Word) : Word :=
  if dropsAddend op p1 then 0#32 else opValue undef op p2 p1 + p0

theorem combine_of_ne (undef : UndefinedShifts) {op : Op} (h : op ≠ .shiftLeft) (p2 p1 p0 : Word) :
    combine undef op p2 p1 p0 = opValue undef op p2 p1 + p0 :=
  if_neg fun hdrop ↦ h hdrop.1

theorem combine_zero (undef : UndefinedShifts) (op : Op) (p2 p1 : Word) :
    combine undef op p2 p1 0#32 = opValue undef op p2 p1 := by
  unfold combine
  split
  case isTrue hdrop =>
    obtain ⟨rfl, hcount⟩ := hdrop
    have hle : 32 ≤ p1.toNat := by simpa using BitVec.le_def.mp hcount
    simp [opValue, BitVec.shiftLeft_eq_zero hle]
  case isFalse => simp

/-- The value that an instruction of this shape computes from its immediate. -/
def RhsExpr.value (undef : UndefinedShifts) (regs : RegIndex → Word) (i : Word) (r : RhsExpr ρ) :
    Word :=
  match r.type with
  | 0#2 => combine undef r.op (regs r.x) (regs r.y) i
  | 1#2 => combine undef r.op (regs r.x) i (regs r.y)
  | 2#2 => combine undef r.op i (regs r.x) (regs r.y)
  | _ => regs r.x + i

/-- The width of the immediate. -/
def RhsExpr.width (r : RhsExpr ρ) : ℕ :=
  if r.type = 3#2 then mediumImmediateBitwidth else smallImmediateBitwidth

/-- The instruction word with a given immediate. -/
def RhsExpr.word (r : RhsExpr ρ) (dd : BitVec 2) (z : RegIndex) (imm : Word) : Word :=
  if r.type = 3#2 then type3 r.type dd z r.x (imm.setWidth 20)
  else type012 r.type dd z r.x r.y r.op (imm.setWidth 12)

theorem RhsExpr.fieldDd_word (r : RhsExpr ρ) (dd : BitVec 2) (z : RegIndex) (imm : Word) :
    fieldDd (r.word dd z imm) = dd := by
  unfold word
  split <;> simp

theorem RhsExpr.fieldZ_word (r : RhsExpr ρ) (dd : BitVec 2) (z : RegIndex) (imm : Word) :
    fieldZ (r.word dd z imm) = z := by
  unfold word
  split <;> simp

/-- The interpreter computes the value of the shape from the sign-extended immediate. -/
theorem RhsExpr.rhsValue_word (undef : UndefinedShifts) (regs : RegIndex → Word) (r : RhsExpr ρ)
    (dd : BitVec 2) (z : RegIndex) (imm : Word) :
    rhsValue undef regs (r.word dd z imm) = r.value undef regs (sextend32 r.width imm) := by
  rw [rhsValue_eq]
  have hcases : r.type = 0#2 ∨ r.type = 1#2 ∨ r.type = 2#2 ∨ r.type = 3#2 := by
    generalize r.type = p
    revert p
    decide
  rcases hcases with hp | hp | hp | hp
  all_goals
    simp only [word, value, width, hp, BitVec.reduceEq, if_true, if_false, insnOp, insnOperands,
      fieldP_type012, fieldX_type012, fieldY_type012, fieldOp_type012, fieldImm12_type012,
      fieldP_type3, fieldX_type3, fieldImm20_type3, combine]
    try rfl
  simp [dropsAddend, opValue, sextend32, mediumImmediateBitwidth]

theorem getLsbD_fieldMask (width k : ℕ) :
    (fieldMask width).getLsbD k = (decide (k < 32) && decide (k < width)) := by
  simp [fieldMask]

/-- Writing a field replaces the low bits and keeps the others. -/
theorem store_append {m n : ℕ} (hi : BitVec m) (lo : BitVec n) (value : Word) (h : m + n = 32) :
    ((hi ++ lo).cast h &&& ~~~fieldMask n) ||| (value &&& fieldMask n) =
      (hi ++ value.setWidth n).cast h := by
  apply BitVec.eq_of_getLsbD_eq
  intro k hk
  simp only [BitVec.getLsbD_or, BitVec.getLsbD_and, BitVec.getLsbD_not, BitVec.getLsbD_cast,
    BitVec.getLsbD_append, BitVec.getLsbD_setWidth, getLsbD_fieldMask, hk]
  by_cases hlow : k < n <;> simp [hlow]

theorem store_type012 (p dd : BitVec 2) (z x y : RegIndex) (op : Op) (imm : BitVec 12)
    (value : Word) :
    (type012 p dd z x y op imm &&& ~~~fieldMask 12) ||| (value &&& fieldMask 12) =
      type012 p dd z x y op (value.setWidth 12) :=
  store_append (p ++ dd ++ z ++ x ++ y ++ op.code) imm value rfl

theorem store_type3 (p dd : BitVec 2) (z x : RegIndex) (imm : BitVec 20) (value : Word) :
    (type3 p dd z x imm &&& ~~~fieldMask 20) ||| (value &&& fieldMask 20) =
      type3 p dd z x (value.setWidth 20) :=
  store_append (p ++ dd ++ z ++ x) imm value rfl

/-- The dereference mode of a statement. -/
def InsnStmt.dd (s : InsnStmt ρ) : BitVec 2 :=
  BitVec.ofBool (s.lhsDeref || (s.arrow == .left && s.rhsDeref)) ++ BitVec.ofBool s.rhsDeref

theorem InsnStmt.make_fst (i : ConstExpr ρ → Word) (s : InsnStmt ρ) :
    (s.make i).1 = (s.rhs.make i).word s.dd s.z (s.rhs.make i).i := rfl

/-- The fixed-up word holds the multiplied value in its immediate. -/
theorem DeferredExpr.store_word (r : RhsExpr ρ) (dd : BitVec 2) (z : RegIndex) (imm value : Word)
    (ce : ConstExpr ρ) :
    (({ ce, mult := r.mult, width := r.width, ignoreWidth := r.ignoreWidth } :
        DeferredExpr ρ).store (r.word dd z imm) value).1 = r.word dd z (value * r.mult) := by
  unfold store RhsExpr.word RhsExpr.width
  split
  · exact store_type3 _ _ _ _ _ _
  · exact store_type012 _ _ _ _ _ _ _ _

/-- The value of the constant in a statement; statements without one do not use it. -/
def InsnStmt.constant (undef : UndefinedShifts) (stmt : InsnStmt ρ) : Except Stop Word :=
  match stmt.rhs.expr? with
  | none => .ok 0#32
  | some e => e.constValue undef

/-- The written constant refers to no label, external or `.`. -/
def InsnStmt.NotDeferred (stmt : InsnStmt ρ) : Prop :=
  ∀ e, stmt.rhs.expr? = some e → e.flags.isDeferred = false

theorem ceEval_of_not_deferred (undef : UndefinedShifts) (env : Env) (fuel : ℕ)
    (context : Option ℕ) (flags : EvalFlags) (width : ℕ) {e : ConstExpr Ref}
    (he : e.flags.isDeferred = false) :
    ceEval undef env fuel context flags width e =
      (e.constValue undef).map fun value ↦ (some value, []) := by
  cases fuel <;> exact ceEvalWith_of_not_deferred undef env _ context flags width he

/-- What acceptance of a statement means. -/
theorem assembleInsn_eq_ok {undef : UndefinedShifts} {env : Env} {fuel : ℕ}
    {context : Option ℕ} {stmt : InsnStmt Ref} {w : Word} (hconst : stmt.NotDeferred)
    (h : assembleInsn undef env fuel context stmt = .ok (some w)) :
    ∃ v, stmt.constant undef = .ok v ∧ stmt.arrowErrors = [] ∧
      ∃ r, r = stmt.rhs.make (constI undef env fuel) ∧
        w = r.word stmt.dd stmt.z (if r.ce.isSome then v * r.mult else r.i) ∧
        (r.ce.isSome = true → r.ignoreWidth = false →
          sextend32 r.width (v * r.mult) = v * r.mult) := by
  unfold assembleInsn at h
  rw [bind_eq_ok] at h
  obtain ⟨⟨⟨word, deferred⟩, errors⟩, hparse, h⟩ := h
  rw [parseInsn, bind_eq_ok] at hparse
  obtain ⟨exprErrors, -, hparse⟩ := hparse
  obtain ⟨hmake, rfl⟩ := Prod.mk.inj (Except.ok.inj hparse)
  by_cases herrors : (exprErrors ++ stmt.arrowErrors).isEmpty = true
  · have harrows : stmt.arrowErrors = [] := by
      rw [List.isEmpty_iff, List.append_eq_nil_iff] at herrors
      exact herrors.2
    simp only [herrors, if_true] at h
    generalize hr : stmt.rhs.make (constI undef env fuel) = r
    have hce : r.ce = stmt.rhs.expr? := by rw [← hr, RhsPlain.make_ce]
    have hword : word = r.word stmt.dd stmt.z r.i := by
      rw [← hr, ← InsnStmt.make_fst, hmake]
    have hdeferred : deferred = r.ce.map fun ce ↦
        { ce, mult := r.mult, width := r.width, ignoreWidth := r.ignoreWidth } := by
      rw [← hr]
      exact (congrArg Prod.snd hmake).symm
    cases hexpr : r.ce with
    | none =>
      rw [hdeferred, hexpr] at h
      have hw : word = w := Option.some.inj (Except.ok.inj h)
      refine ⟨0#32, by simp [InsnStmt.constant, ← hce, hexpr], harrows, r, rfl, ?_, ?_⟩
      · rw [← hw, hword]
        simp [hexpr]
      · simp [hexpr]
    | some e =>
      have hconst' : e.flags.isDeferred = false := hconst e (by rw [← hce, hexpr])
      rw [hdeferred, hexpr] at h
      simp only [Option.map_some, bind_eq_ok] at h
      obtain ⟨⟨value, relocs⟩, heval, h⟩ := h
      rw [ceEval_of_not_deferred undef env fuel context _ _ hconst', map_eq_ok] at heval
      obtain ⟨v, hv, hpair⟩ := heval
      obtain ⟨rfl, rfl⟩ := Prod.mk.inj hpair
      refine ⟨v, by simp [InsnStmt.constant, ← hce, hexpr, hv], harrows, r, rfl, ?_⟩
      have hstore := DeferredExpr.store_word r stmt.dd stmt.z r.i v e
      rw [← hword] at hstore
      generalize hd : ({ ce := e, mult := r.mult, width := r.width, ignoreWidth := r.ignoreWidth } :
        DeferredExpr Ref) = d at h hstore
      rw [hexpr, Option.isSome_some, if_pos rfl]
      by_cases hlarge : (d.store word v).2 = true
      · simp [hlarge] at h
      · simp only [hlarge] at h
        refine ⟨(Option.some.inj (Except.ok.inj h)).symm.trans hstore, ?_⟩
        intro _ hignore
        rw [← hd] at hlarge
        have hfits : v * r.mult = sextend32 r.width (v * r.mult) := by
          simpa [DeferredExpr.store, hignore] using hlarge
        exact hfits.symm
  · simp [herrors] at h

/-! ## Values -/

/-- The immediate of a `^^` statement whose field keeps the written value: right operands are reduced
to 12 bits anyway, an addend has to fit, and of a left operand 20 bits count. -/
def RhsPlain.PackFits (v : Word) : RhsPlain ρ → Prop
  | regRegImm _ op _ sign _ => op = .native .pack →
      sextend32 smallImmediateBitwidth (v * sign.mult) = v * sign.mult
  | immRegReg _ op _ _ | immReg _ op _ => op = .native .pack →
      sextend32 smallImmediateBitwidth v <<< 12 = v <<< 12
  | _ => True

/-- No left shift by 32 or more has an addend other than zero, whatever the registers hold. -/
def RhsPlain.KeepsAddend (v : Word) : RhsPlain ρ → Prop
  | regRegImm _ op y sign _ => op = .native .shiftLeft → y = 0#4 ∨ v * sign.mult = 0#32
  | regImmReg _ op _ y => op = .native .shiftLeft → v < 32#32 ∨ y = 0#4
  | immRegReg _ op x y => op = .native .shiftLeft → x = 0#4 ∨ y = 0#4
  | _ => True

/-- The sign-extended immediate of the emitted word. -/
def RhsExpr.immediate (r : RhsExpr ρ) (v : Word) : Word :=
  sextend32 r.width (if r.ce.isSome then v * r.mult else r.i)

variable (undef : UndefinedShifts)

theorem value_makeRhs (regs : RegIndex → Word) (i : Word) (type : BitVec 2) (x y : RegIndex)
    (op : Binop) (mult : Word) (e? : Option (ConstExpr ρ)) (htype : type ≠ 3#2) :
    (makeRhs type x op y mult e?).value undef regs i =
      match type with
      | 0#2 =>
        if op.swaps then combine undef op.op (regs y) (regs x) i
        else combine undef op.op (regs x) (regs y) i
      | 1#2 =>
        if op.swaps then combine undef op.op i (regs x) (regs y)
        else combine undef op.op (regs x) i (regs y)
      | _ =>
        if op.swaps then combine undef op.op (regs x) i (regs y)
        else combine undef op.op i (regs x) (regs y) := by
  have hcases : type = 0#2 ∨ type = 1#2 ∨ type = 2#2 := by
    revert htype
    revert type
    decide
  rcases hcases with rfl | rfl | rfl <;>
    cases hswap : op.swaps <;> simp [makeRhs, RhsExpr.value, hswap]

/-- Operations that are not left shifts combine as they are written. -/
theorem combine_binop {op : Binop} (h : op ≠ .native .shiftLeft) (left right addend : Word) :
    (if op.swaps then combine undef op.op right left addend
      else combine undef op.op left right addend) = op.value undef left right + addend := by
  have hop : op.op ≠ .shiftLeft := by
    cases op with
    | native op => exact fun heq ↦ h (congrArg Binop.native heq)
    | gt => simp [Binop.op]
    | le => simp [Binop.op]
  rw [combine_of_ne undef hop, combine_of_ne undef hop, Binop.value]
  split <;> rfl

/-- A left shift by 32 or more leaves nothing, and its addend is discarded. -/
theorem combine_long_shift {left count addend : Word} (hcount : 32#32 ≤ count) :
    combine undef .shiftLeft left count addend = 0#32 ∧
      opValue undef .shiftLeft left count = 0#32 := by
  have hle : 32 ≤ count.toNat := by simpa using BitVec.le_def.mp hcount
  exact ⟨if_pos ⟨rfl, hcount⟩, by simp [opValue, BitVec.shiftLeft_eq_zero hle]⟩

/-- A left shift by less than 32 keeps its addend. -/
theorem combine_short_shift {left count addend : Word} (hcount : ¬ 32#32 ≤ count) :
    combine undef .shiftLeft left count addend = opValue undef .shiftLeft left count + addend :=
  if_neg fun hdrop ↦ hcount hdrop.2

/-- The immediate is the addend. -/
theorem addend_iff (op : Binop) (x y : RegIndex) {i a : Word} (hfit : op ≠ .native .pack → i = a) :
    (∀ regs : RegIndex → Word, regs 0#4 = 0#32 →
      (if op.swaps then combine undef op.op (regs y) (regs x) i
        else combine undef op.op (regs x) (regs y) i) = op.value undef (regs x) (regs y) + a) ↔
      (op = .native .pack → i = a) ∧ (op = .native .shiftLeft → y = 0#4 ∨ a = 0#32) := by
  by_cases hshift : op = .native .shiftLeft
  · subst hshift
    obtain rfl := hfit (by simp)
    simp only [Binop.swaps, Binop.op, Binop.value]
    constructor
    · intro h
      refine ⟨fun _ ↦ trivial, fun _ ↦ ?_⟩
      by_contra hboth
      obtain ⟨hy, ha⟩ := not_or.mp hboth
      have hlong := @combine_long_shift undef (if x = y then 32#32 else 0#32) 32#32 i
        (BitVec.le_refl _)
      have hregs := h (fun r ↦ if r = y then 32#32 else 0#32) (by simp [Ne.symm hy])
      simp only [if_true, if_false, Bool.false_eq_true] at hregs
      rw [hlong.1, hlong.2] at hregs
      exact ha (by simpa using hregs.symm)
    · rintro ⟨-, h⟩ regs hA
      rcases h trivial with rfl | rfl
      · exact combine_short_shift undef (by rw [hA]; decide)
      · simpa using combine_zero undef .shiftLeft (regs x) (regs y)
  · simp only [combine_binop undef hshift, BitVec.add_right_inj]
    constructor
    · intro h
      exact ⟨fun _ ↦ h (fun _ ↦ 0#32) rfl, fun hop ↦ absurd hop hshift⟩
    · rintro ⟨hpack, -⟩ _ _
      by_cases hop : op = .native .pack
      · exact hpack hop
      · exact hfit hop

/-- The immediate is the right operand, of which `^^` uses 12 bits. -/
theorem right_iff (op : Binop) (x y : RegIndex) {i v : Word} (hfit : op ≠ .native .pack → i = v)
    (hlow : i &&& 0xfff#32 = v &&& 0xfff#32) :
    (∀ regs : RegIndex → Word, regs 0#4 = 0#32 →
      (if op.swaps then combine undef op.op i (regs x) (regs y)
        else combine undef op.op (regs x) i (regs y)) = op.value undef (regs x) v + regs y) ↔
      (op = .native .shiftLeft → v < 32#32 ∨ y = 0#4) := by
  by_cases hshift : op = .native .shiftLeft
  · subst hshift
    obtain rfl := hfit (by simp)
    simp only [Binop.swaps, Binop.op, Binop.value]
    constructor
    · intro h _
      by_contra hboth
      obtain ⟨hlong, hy⟩ := not_or.mp hboth
      have hlong := @combine_long_shift undef (if x = y then 1#32 else 0#32) i 1#32
        (BitVec.not_lt.mp hlong)
      have hregs := h (fun r ↦ if r = y then 1#32 else 0#32) (by simp [Ne.symm hy])
      simp only [if_true, if_false, Bool.false_eq_true] at hregs
      rw [hlong.1, hlong.2] at hregs
      exact absurd hregs (by decide)
    · intro h regs hA
      rcases h trivial with hlt | rfl
      · exact combine_short_shift undef (BitVec.not_le.mpr hlt)
      · simpa [hA] using combine_zero undef .shiftLeft (regs x) i
  · simp only [combine_binop undef hshift]
    refine ⟨fun _ hop ↦ absurd hop hshift, fun _ regs _ ↦ ?_⟩
    by_cases hpack : op = .native .pack
    · subst hpack
      simp [Binop.value, Binop.swaps, Binop.op, opValue, hlow]
    · rw [hfit hpack]

/-- The immediate is the left operand, of which `^^` uses 20 bits. -/
theorem left_iff (op : Binop) (x y : RegIndex) {i v : Word} (hfit : op ≠ .native .pack → i = v) :
    (∀ regs : RegIndex → Word, regs 0#4 = 0#32 →
      (if op.swaps then combine undef op.op (regs x) i (regs y)
        else combine undef op.op i (regs x) (regs y)) = op.value undef v (regs x) + regs y) ↔
      (op = .native .pack → i <<< 12 = v <<< 12) ∧
        (op = .native .shiftLeft → x = 0#4 ∨ y = 0#4) := by
  by_cases hshift : op = .native .shiftLeft
  · subst hshift
    obtain rfl := hfit (by simp)
    simp only [Binop.swaps, Binop.op, Binop.value]
    constructor
    · intro h
      refine ⟨fun _ ↦ trivial, fun _ ↦ ?_⟩
      by_contra hboth
      obtain ⟨hx, hy⟩ := not_or.mp hboth
      have hlong := @combine_long_shift undef i 32#32 32#32 (BitVec.le_refl _)
      have hregs := h (fun r ↦ if r = 0#4 then 0#32 else 32#32) rfl
      simp only [hx, hy, if_false, Bool.false_eq_true] at hregs
      rw [hlong.1, hlong.2] at hregs
      exact absurd hregs (by decide)
    · rintro ⟨-, h⟩ regs hA
      rcases h trivial with rfl | rfl
      · exact combine_short_shift undef (by rw [hA]; decide)
      · simpa [hA] using combine_zero undef .shiftLeft i (regs x)
  · simp only [combine_binop undef hshift, BitVec.add_left_inj]
    by_cases hpack : op = .native .pack
    · subst hpack
      simp only [Binop.value, Binop.swaps, Binop.op, opValue, true_implies, reduceCtorEq]
      constructor
      · intro h
        refine ⟨?_, fun hop ↦ by simp at hop⟩
        simpa using h (fun _ ↦ 0#32) rfl
      · rintro ⟨h, -⟩ regs _
        simp [h]
    · obtain rfl := hfit hpack
      simp [hpack, hshift]

/-- Sign extension does not change the low 12 bits. -/
theorem sextend32_and_low (v : Word) :
    sextend32 smallImmediateBitwidth v &&& 0xfff#32 = v &&& 0xfff#32 := by
  apply BitVec.eq_of_getLsbD_eq
  intro k hk
  have hmask : (0xfff#32).getLsbD k = decide (k < 12) := by
    revert k
    decide
  rw [BitVec.getLsbD_and, BitVec.getLsbD_and, hmask]
  by_cases hlow : k < 12
  · rw [sextend32, BitVec.getLsbD_signExtend]
    simp [smallImmediateBitwidth, hk, hlow]
  · simp [hlow]

theorem ignoreWidth_makeRhs (type : BitVec 2) (x y : RegIndex) (op : Binop) (mult : Word)
    (e? : Option (ConstExpr ρ)) :
    (makeRhs type x op y mult e?).ignoreWidth = (e?.isSome && op == .native .pack) := rfl

theorem width_makeRhs {type : BitVec 2} (htype : type ≠ 3#2) (x y : RegIndex) (op : Binop)
    (mult : Word) (e? : Option (ConstExpr ρ)) :
    (makeRhs type x op y mult e?).width = smallImmediateBitwidth := by
  have hcases : type = 0#2 ∨ type = 1#2 ∨ type = 2#2 := by
    revert htype
    revert type
    decide
  rcases hcases with rfl | rfl | rfl <;>
    cases hswap : op.swaps <;> simp [makeRhs, RhsExpr.width, hswap]

/-- The check on the width of the constant has passed. -/
def RhsExpr.Accepted (r : RhsExpr ρ) (v : Word) : Prop :=
  r.ce.isSome = true → r.ignoreWidth = false → sextend32 r.width (v * r.mult) = v * r.mult

/-- The immediate of an accepted constant that is not for `^^`. -/
theorem fits_makeRhs {type : BitVec 2} {x y : RegIndex} {op : Binop} {mult v : Word}
    {e : ConstExpr ρ} (htype : type ≠ 3#2) (h : (makeRhs type x op y mult (some e)).Accepted v)
    (hop : op ≠ .native .pack) :
    sextend32 smallImmediateBitwidth (v * mult) = v * mult := by
  have hignore : (makeRhs type x op y mult (some e)).ignoreWidth = false := by
    simp [ignoreWidth_makeRhs, hop]
  have hfits := h rfl hignore
  rwa [width_makeRhs htype] at hfits

theorem immediate_makeRhs {type : BitVec 2} (htype : type ≠ 3#2) (x y : RegIndex) (op : Binop)
    (mult v : Word) (e : ConstExpr ρ) :
    (makeRhs type x op y mult (some e)).immediate v =
      sextend32 smallImmediateBitwidth (v * mult) := by
  rw [RhsExpr.immediate, width_makeRhs htype]
  rfl

theorem immediate_makeRhs_none (type : BitVec 2) (x y : RegIndex) (op : Binop) (mult v : Word) :
    (makeRhs type x op y mult (none : Option (ConstExpr ρ))).immediate v = 0#32 := by
  simp [RhsExpr.immediate, makeRhs]

/-- Type 3 instructions only add. -/
theorem value_type3 (regs : RegIndex → Word) (x : RegIndex) (op : Op) (mult : Word)
    (e : ConstExpr ρ) {v : Word} (hop : op ≠ .pack)
    (h : (makeRhs 3#2 x (.native op) 0#4 mult (some e)).Accepted v) :
    (makeRhs 3#2 x (.native op) 0#4 mult (some e)).value undef regs
      ((makeRhs 3#2 x (.native op) 0#4 mult (some e)).immediate v) = regs x + v * mult := by
  have hfits := h rfl (by simp [ignoreWidth_makeRhs, hop])
  have himm : (makeRhs 3#2 x (.native op) 0#4 mult (some e)).immediate v = v * mult := hfits
  rw [himm]
  rfl

/-- `X op E`, where a difference becomes a sum and sums of large constants are of type 3. -/
theorem value_regImm (i : ConstExpr ρ → Word) (x : RegIndex) (op : Binop) (e : ConstExpr ρ)
    {v : Word} (hfit : ((RhsPlain.regImm x op e).make i).Accepted v) (regs : RegIndex → Word)
    (hA : regs 0#4 = 0#32) :
    ((RhsPlain.regImm x op e).make i).value undef regs
      (((RhsPlain.regImm x op e).make i).immediate v) = op.value undef (regs x) v := by
  have hright (o : Binop) (hfit : (makeRhs 1#2 x o 0#4 1#32 (some e)).Accepted v) :
      (makeRhs 1#2 x o 0#4 1#32 (some e)).value undef regs
        ((makeRhs 1#2 x o 0#4 1#32 (some e)).immediate v) = o.value undef (regs x) v := by
    rw [immediate_makeRhs (by decide), value_makeRhs undef _ _ _ _ _ _ _ _ (by decide)]
    have hiff := right_iff undef o x 0#4 (fits_makeRhs (by decide) hfit)
      (by rw [BitVec.mul_one, sextend32_and_low])
    rw [BitVec.mul_one] at hiff ⊢
    simpa [hA] using hiff.mpr (fun _ ↦ .inr rfl) regs hA
  have hminus : v * -1#32 = -v := by rw [BitVec.mul_neg, BitVec.mul_one]
  by_cases hsub : op = .native .subtract
  · subst hsub
    simp only [RhsPlain.make, if_true, BEq.rfl, Bool.or_true, Bool.true_and] at hfit ⊢
    have hdiff : Binop.value undef (.native .subtract) (regs x) v = regs x + -v :=
      BitVec.sub_eq_add_neg _ _
    rw [hdiff]
    by_cases hthree : isType3 i e = true
    · rw [if_pos hthree] at hfit ⊢
      rw [value_type3 undef regs x .add _ e (by decide) hfit, hminus]
    · rw [if_neg hthree] at hfit ⊢
      rw [immediate_makeRhs (by decide), fits_makeRhs (by decide) hfit (by decide),
        value_makeRhs undef _ _ _ _ _ _ _ _ (by decide), hminus]
      simp [Binop.swaps, Binop.op, combine_of_ne, opValue, hA]
  · simp only [RhsPlain.make, hsub, if_false] at hfit ⊢
    by_cases hthree : ((op == .native .add || op == .native .subtract) && isType3 i e) = true
    · rw [if_pos hthree] at hfit ⊢
      obtain rfl : op = .native .add := by
        simpa [hsub] using (Bool.and_eq_true_iff.mp hthree).1
      rw [value_type3 undef regs x .add _ e (by decide) hfit, BitVec.mul_one]
      rfl
    · rw [if_neg hthree] at hfit ⊢
      exact hright op hfit

/-- **What an accepted right-hand side computes** is what it denotes, for all registers, exactly
when its constant fits and no addend is dropped. -/
theorem value_iff (i : ConstExpr ρ → Word) (r : RhsPlain ρ) {v : Word}
    (hfit : (r.make i).Accepted v) :
    (∀ regs : RegIndex → Word, regs 0#4 = 0#32 →
      (r.make i).value undef regs ((r.make i).immediate v) = r.denote undef regs v) ↔
      r.PackFits v ∧ r.KeepsAddend v := by
  cases r with
  | regRegImm x op y sign e =>
    simp only [RhsPlain.make, RhsPlain.denote, immediate_makeRhs (show (0#2) ≠ 3#2 by decide),
      value_makeRhs undef _ _ _ _ _ _ _ _ (show (0#2) ≠ 3#2 by decide)]
    exact addend_iff undef op x y (fits_makeRhs (by decide) hfit)
  | regReg x op y =>
    simp only [RhsPlain.make, RhsPlain.denote, immediate_makeRhs_none,
      value_makeRhs undef _ _ _ _ _ _ _ _ (show (0#2) ≠ 3#2 by decide)]
    have hiff := addend_iff undef op x y (i := 0#32) (a := 0#32) (fun _ ↦ rfl)
    simp only [BitVec.add_zero] at hiff
    simpa [RhsPlain.PackFits, RhsPlain.KeepsAddend] using hiff
  | reg x =>
    simp only [RhsPlain.make, RhsPlain.denote, immediate_makeRhs_none,
      value_makeRhs undef _ _ _ _ _ _ _ _ (show (0#2) ≠ 3#2 by decide)]
    simp [RhsPlain.PackFits, RhsPlain.KeepsAddend, Binop.swaps, Binop.op, combine_zero, opValue]
    intro regs hA
    simp [hA]
  | regImmReg x op e y =>
    simp only [RhsPlain.make, RhsPlain.denote, immediate_makeRhs (show (1#2) ≠ 3#2 by decide),
      value_makeRhs undef _ _ _ _ _ _ _ _ (show (1#2) ≠ 3#2 by decide)]
    have hfits := fits_makeRhs (by decide) hfit
    rw [BitVec.mul_one] at hfits ⊢
    simpa [RhsPlain.PackFits, RhsPlain.KeepsAddend] using
      right_iff undef op x y hfits (sextend32_and_low v)
  | regImm x op e =>
    simp only [RhsPlain.denote, RhsPlain.PackFits, RhsPlain.KeepsAddend]
    simpa using value_regImm undef i x op e hfit
  | immRegReg e op x y =>
    simp only [RhsPlain.make, RhsPlain.denote, immediate_makeRhs (show (2#2) ≠ 3#2 by decide),
      value_makeRhs undef _ _ _ _ _ _ _ _ (show (2#2) ≠ 3#2 by decide)]
    have hfits := fits_makeRhs (by decide) hfit
    rw [BitVec.mul_one] at hfits ⊢
    exact left_iff undef op x y hfits
  | immReg e op x =>
    simp only [RhsPlain.make, RhsPlain.denote, immediate_makeRhs (show (2#2) ≠ 3#2 by decide),
      value_makeRhs undef _ _ _ _ _ _ _ _ (show (2#2) ≠ 3#2 by decide)]
    have hfits := fits_makeRhs (by decide) hfit
    rw [BitVec.mul_one] at hfits ⊢
    rw [← show _ ↔ RhsPlain.PackFits v (RhsPlain.immReg e op x) ∧ _ by
      simpa [RhsPlain.PackFits, RhsPlain.KeepsAddend] using left_iff undef op x 0#4 hfits]
    -- the third operand is register `A`
    have hzero (regs : RegIndex → Word) (hA : regs 0#4 = 0#32) :
        op.value undef v (regs x) + regs 0#4 = op.value undef v (regs x) := by
      rw [hA, BitVec.add_zero]
    constructor
    · intro h regs hA
      exact (h regs hA).trans (hzero regs hA).symm
    · intro h regs hA
      exact (h regs hA).trans (hzero regs hA)
  | imm e =>
    simp only [RhsPlain.PackFits, RhsPlain.KeepsAddend, RhsPlain.denote, RhsPlain.make] at hfit ⊢
    refine iff_of_true (fun regs hA ↦ ?_) ⟨trivial, trivial⟩
    by_cases hthree : isType3 i e = true
    · rw [if_pos hthree] at hfit ⊢
      rw [value_type3 undef regs 0#4 .bitwiseOr _ e (by decide) hfit, hA]
      simp
    · rw [if_neg hthree] at hfit ⊢
      rw [immediate_makeRhs (by decide), fits_makeRhs (by decide) hfit (by decide),
        value_makeRhs undef _ _ _ _ _ _ _ _ (by decide)]
      simp [Binop.swaps, Binop.op, combine_of_ne, opValue, hA]
  | unaryRegImm op x sign e =>
    simp only [RhsPlain.PackFits, RhsPlain.KeepsAddend, RhsPlain.denote, RhsPlain.make,
      makeUnary, Option.isSome_some, if_true] at hfit ⊢
    refine iff_of_true (fun regs hA ↦ ?_) ⟨trivial, trivial⟩
    rw [immediate_makeRhs (by decide), fits_makeRhs (by decide) hfit (by cases op <;> decide),
      value_makeRhs undef _ _ _ _ _ _ _ _ (by decide)]
    cases op <;>
      simp [Binop.swaps, Binop.op, InsnUnaryOp.op, InsnUnaryOp.value, combine_of_ne, opValue, hA]
  | unaryRegReg op x y =>
    simp only [RhsPlain.PackFits, RhsPlain.KeepsAddend, RhsPlain.denote, RhsPlain.make,
      makeUnary, Option.isSome_none, Bool.false_eq_true, if_false]
    refine iff_of_true (fun regs hA ↦ ?_) ⟨trivial, trivial⟩
    rw [immediate_makeRhs_none, value_makeRhs undef _ _ _ _ _ _ _ _ (by decide)]
    cases op <;>
      simp [Binop.swaps, Binop.op, InsnUnaryOp.op, InsnUnaryOp.value, combine_of_ne, opValue]
  | unaryReg op x =>
    simp only [RhsPlain.PackFits, RhsPlain.KeepsAddend, RhsPlain.denote, RhsPlain.make,
      makeUnary, Option.isSome_none, Bool.false_eq_true, if_false]
    refine iff_of_true (fun regs hA ↦ ?_) ⟨trivial, trivial⟩
    rw [immediate_makeRhs_none, value_makeRhs undef _ _ _ _ _ _ _ _ (by decide)]
    cases op <;>
      simp [Binop.swaps, Binop.op, InsnUnaryOp.op, InsnUnaryOp.value, combine_of_ne, opValue, hA]

/-! ## Effects -/

/-- A bus that answers every access with zero and records it. -/
def recorder : Bus (List (Word × Word)) where
  dispatchOp accesses _ addr data := some (0#32, accesses ++ [(addr, data)])

/-- Assigning a value to register `A` has no effect. -/
def InsnStmt.Discards (stmt : InsnStmt ρ) : Prop :=
  stmt.lhsDeref = false ∧ stmt.rhsDeref = false ∧ stmt.z = 0#4

instance (stmt : InsnStmt ρ) : Decidable stmt.Discards := inferInstanceAs (Decidable (_ ∧ _ ∧ _))

/-- The four forms of an accepted statement. -/
theorem InsnStmt.forms {stmt : InsnStmt ρ} (h : stmt.arrowErrors = []) :
    (stmt.lhsDeref = false ∧ stmt.arrow = .left ∧ stmt.rhsDeref = false) ∨
    (stmt.lhsDeref = true ∧ stmt.arrow = .left ∧ stmt.rhsDeref = false) ∨
    (stmt.lhsDeref = false ∧ stmt.arrow = .left ∧ stmt.rhsDeref = true) ∨
    (stmt.lhsDeref = false ∧ stmt.arrow = .right ∧ stmt.rhsDeref = true) := by
  unfold InsnStmt.arrowErrors at h
  cases hl : stmt.lhsDeref <;> cases ha : stmt.arrow <;> cases hr : stmt.rhsDeref <;>
    simp [hl, ha, hr] at h ⊢

/-- The interpreter transfers the value of an emitted word as the statement says. -/
theorem runInstruction_word {σ : Type} (bus : Bus σ) (s : SimState σ) {stmt : InsnStmt ρ}
    (h : stmt.arrowErrors = []) (r : RhsExpr ρ) (imm : Word) :
    runInstruction undef bus s (r.word stmt.dd stmt.z imm) =
      transfer bus s.advance stmt.lhsDeref stmt.z stmt.arrow stmt.rhsDeref
        (rhsValue undef s.advance.regs (r.word stmt.dd stmt.z imm)) := by
  rw [runInstruction_eq, r.fieldDd_word, r.fieldZ_word]
  rcases InsnStmt.forms h with ⟨hl, ha, hr⟩ | ⟨hl, ha, hr⟩ | ⟨hl, ha, hr⟩ | ⟨hl, ha, hr⟩
  · have hdd : stmt.dd = 0#2 := by rw [InsnStmt.dd, hl, ha, hr]; rfl
    simp [hdd, transfer, hl, ha, hr]
  · have hdd : stmt.dd = 2#2 := by rw [InsnStmt.dd, hl, ha, hr]; rfl
    simp [hdd, transfer, hl, ha, hr]
  · have hdd : stmt.dd = 3#2 := by rw [InsnStmt.dd, hl, ha, hr]; rfl
    simp [hdd, transfer, hl, ha, hr]
  · have hdd : stmt.dd = 1#2 := by rw [InsnStmt.dd, hl, ha, hr]; rfl
    simp [hdd, transfer, hl, ha, hr]

/-- Unless it is discarded, the transferred value can be observed. -/
theorem transfer_injective {stmt : InsnStmt ρ} (h : stmt.arrowErrors = [])
    (hvisible : ¬ stmt.Discards) (s : SimState (List (Word × Word))) {value value' : Word}
    (heq : transfer recorder s stmt.lhsDeref stmt.z stmt.arrow stmt.rhsDeref value =
      transfer recorder s stmt.lhsDeref stmt.z stmt.arrow stmt.rhsDeref value') :
    value = value' := by
  rcases InsnStmt.forms h with ⟨hl, ha, hr⟩ | ⟨hl, ha, hr⟩ | ⟨hl, ha, hr⟩ | ⟨hl, ha, hr⟩
  · have hz : stmt.z ≠ 0#4 := fun hz ↦ hvisible ⟨hl, hr, hz⟩
    simp only [transfer, hl, ha, hr, SimState.writeBack, hz, if_false] at heq
    have hregs := congrFun (congrArg SimState.regs (Except.ok.inj heq)) stmt.z
    simpa [SimState.setReg] using hregs
  · simp only [transfer, hl, ha, hr, SimState.store, recorder] at heq
    have hdevices := congrArg SimState.devices (Except.ok.inj heq)
    simpa using hdevices
  · simp only [transfer, hl, ha, hr, SimState.load, recorder] at heq
    have hdevices := congrArg SimState.devices (Except.ok.inj heq)
    simpa using hdevices
  · simp only [transfer, hl, ha, hr, SimState.store, recorder] at heq
    have hdevices := congrArg SimState.devices (Except.ok.inj heq)
    simpa using hdevices

/-- A machine whose registers read as given while it executes an instruction. -/
theorem exists_advance_regs (regs : RegIndex → Word) (hA : regs 0#4 = 0#32) :
    ∃ s : SimState (List (Word × Word)), s.regs 0#4 = 0#32 ∧ s.advance.regs = regs := by
  refine ⟨{ regs := Function.update regs regP (regs regP - 1#32), devices := [],
            insnsExecuted := 0 }, ?_, ?_⟩
  · simp [regP, hA]
  · simp [SimState.advance, SimState.setReg]

section

variable (env : Env) (fuel : ℕ) (context : Option ℕ) (stmt : InsnStmt Ref) (w v : Word)

/-- Where the constant fits and no addend is dropped, the word has the effect of the statement. -/
theorem runInstruction_of_keeps (hconst : stmt.NotDeferred) (hv : stmt.constant undef = .ok v)
    (haccept : assembleInsn undef env fuel context stmt = .ok (some w))
    (hkeeps : stmt.rhs.PackFits v ∧ stmt.rhs.KeepsAddend v) (σ : Type) (bus : Bus σ) (s : SimState σ)
    (hA : s.regs 0#4 = 0#32) : runInstruction undef bus s w = stmt.effect undef bus s v := by
  obtain ⟨v', hv', harrows, r, rfl, rfl, hfit⟩ := assembleInsn_eq_ok hconst haccept
  obtain rfl : v = v' := Except.ok.inj (hv.symm.trans hv')
  rw [← value_iff undef (constI undef env fuel) stmt.rhs hfit] at hkeeps
  simp only [InsnStmt.effect, runInstruction_word undef _ _ harrows, RhsExpr.rhsValue_word]
  have hadvance : s.advance.regs 0#4 = 0#32 := by
    simpa [SimState.advance, SimState.setReg, regP] using hA
  exact congrArg _ (hkeeps _ hadvance)

/-- **Assembler soundness.** The word emitted for an accepted statement has the effect that the
statement denotes, over every bus and in every state with a zero register `A`, exactly when the
value is discarded or its constant fits and no addend is dropped. -/
theorem assembleInsn_sound_iff (hconst : stmt.NotDeferred) (hv : stmt.constant undef = .ok v)
    (haccept : assembleInsn undef env fuel context stmt = .ok (some w)) :
    (∀ (σ : Type) (bus : Bus σ) (s : SimState σ), s.regs 0#4 = 0#32 →
      runInstruction undef bus s w = stmt.effect undef bus s v) ↔
      stmt.Discards ∨ (stmt.rhs.PackFits v ∧ stmt.rhs.KeepsAddend v) := by
  have hright := runInstruction_of_keeps undef env fuel context stmt w v hconst hv haccept
  obtain ⟨v', hv', harrows, r, rfl, rfl, hfit⟩ := assembleInsn_eq_ok hconst haccept
  obtain rfl : v = v' := Except.ok.inj (hv.symm.trans hv')
  constructor
  · intro h
    simp only [InsnStmt.effect, runInstruction_word undef _ _ harrows, RhsExpr.rhsValue_word] at h
    by_cases hdiscards : stmt.Discards
    · exact .inl hdiscards
    · rw [← value_iff undef (constI undef env fuel) stmt.rhs hfit]
      refine .inr fun regs hA ↦ ?_
      obtain ⟨s, hs, hregs⟩ := exists_advance_regs regs hA
      have heq := transfer_injective harrows hdiscards _ (h _ recorder s hs)
      rw [hregs] at heq
      exact heq
  · rintro (⟨hl, hr, hz⟩ | hkeeps)
    · intro σ bus s _
      have ha : stmt.arrow = .left := by
        rcases InsnStmt.forms harrows with ⟨-, ha, -⟩ | ⟨-, ha, -⟩ | ⟨-, ha, -⟩ | ⟨-, -, hr'⟩
        · exact ha
        · exact ha
        · exact ha
        · rw [hr] at hr'
          cases hr'
      simp only [InsnStmt.effect, runInstruction_word undef _ _ harrows, RhsExpr.rhsValue_word]
      simp [transfer, hl, hr, ha, hz, SimState.writeBack]
    · exact hright hkeeps

end

/-- A source without symbols. -/
def noSymbols : Env where
  symbols := []
  reladdrs := []
  phantom := false

/-- A machine with zero registers. -/
def zeroed : SimState (List (Word × Word)) where
  regs _ := 0#32
  devices := []
  insnsExecuted := 0

/-- `B <- C + -3` -/
def addConstant : InsnStmt Ref where
  lhsDeref := false
  z := 1#4
  arrow := .left
  rhsDeref := false
  rhs := .regImm 2#4 (.native .add) (.op1 .neg (.imm 3#32 false))

/-- `B <- C ^^ D + 4096` -/
def packWide : InsnStmt Ref where
  lhsDeref := false
  z := 1#4
  arrow := .left
  rhsDeref := false
  rhs := .regRegImm 2#4 (.native .pack) 3#4 .plus (.imm 4096#32 false)

theorem assembleInsn_sound_addConstant :
    ∃ w, assembleInsn .masked noSymbols 0 none addConstant = .ok (some w) ∧
      ∀ (σ : Type) (bus : Bus σ) (s : SimState σ), s.regs 0#4 = 0#32 →
        runInstruction .masked bus s w = addConstant.effect .masked bus s (-3#32) := by
  refine ⟨_, rfl, ?_⟩
  refine (assembleInsn_sound_iff .masked noSymbols 0 none addConstant _ (-3#32) ?_ rfl rfl).mpr
    (.inr ⟨trivial, trivial⟩)
  intro e he
  obtain rfl := Option.some.inj he
  rfl

/-- The addend of `B <- C ^^ D + 4096` is accepted and emitted as zero. -/
theorem assembleInsn_packWide :
    ∃ w, assembleInsn .masked noSymbols 0 none packWide = .ok (some w) ∧
      packWide.constant .masked = .ok 4096#32 ∧
      ∃ s s' : SimState (List (Word × Word)),
        runInstruction .masked recorder zeroed w = .ok s ∧ s.regs 1#4 = 0#32 ∧
        packWide.effect .masked recorder zeroed 4096#32 = .ok s' ∧ s'.regs 1#4 = 4096#32 := by
  refine ⟨_, rfl, rfl, _, _, rfl, ?_, rfl, ?_⟩
  · decide
  · decide

end Tenyr.Asm
