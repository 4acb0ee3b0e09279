import Tenyr.Asm.Expr

/-!
# Instruction statements

The right-hand sides of the grammar, their translation by `make_rhs` and `make_unary` into one of the
four instruction types, and the instruction word that `make_insn_general` and
`fixup_deferred_exprs` make of a statement.
-/

namespace Tenyr.Asm

open Isa Obj

variable {ρ : Type}

/-- Binary operators of instructions; `>` and `<=` are sugar for swapped operands. -/
inductive Binop where
  | native (op : Op)
  | gt | le
  deriving DecidableEq, Repr

/-- The operation after swapping. -/
def Binop.op : Binop → Op
  | native op => op
  | gt => .compareLt
  | le => .compareGe

def Binop.swaps : Binop → Bool
  | native _ => false
  | gt | le => true

/-- `unary_op` -/
inductive InsnUnaryOp where
  | compl | neg
  deriving DecidableEq, Repr

def InsnUnaryOp.op : InsnUnaryOp → Op
  | compl => .bitwiseOrn
  | neg => .subtract

/-- `reloc_op` -/
inductive RelocOp where
  | plus | minus
  deriving DecidableEq, Repr

def RelocOp.mult : RelocOp → Word
  | plus => 1#32
  | minus => -1#32

/-- `rhs_plain` -/
inductive RhsPlain (ρ : Type) where
  | regRegImm (x : RegIndex) (op : Binop) (y : RegIndex) (sign : RelocOp) (imm : ConstExpr ρ)
  | regReg (x : RegIndex) (op : Binop) (y : RegIndex)
  | reg (x : RegIndex)
  | regImmReg (x : RegIndex) (op : Binop) (imm : ConstExpr ρ) (y : RegIndex)
  | regImm (x : RegIndex) (op : Binop) (imm : ConstExpr ρ)
  | immRegReg (imm : ConstExpr ρ) (op : Binop) (x y : RegIndex)
  | immReg (imm : ConstExpr ρ) (op : Binop) (x : RegIndex)
  | imm (imm : ConstExpr ρ)
  | unaryRegImm (op : InsnUnaryOp) (x : RegIndex) (sign : RelocOp) (imm : ConstExpr ρ)
  | unaryRegReg (op : InsnUnaryOp) (x y : RegIndex)
  | unaryReg (op : InsnUnaryOp) (x : RegIndex)
  deriving Repr

/-- `arrow` -/
inductive Arrow where
  | left | right
  deriving DecidableEq, Repr

/-- `lhs arrow rhs` -/
structure InsnStmt (ρ : Type) where
  lhsDeref : Bool
  z : RegIndex
  arrow : Arrow
  rhsDeref : Bool
  rhs : RhsPlain ρ
  deriving Repr

/-- `struct expr`. The flag `IGNORE_WIDTH` of its constant expression is kept here. -/
structure RhsExpr (ρ : Type) where
  type : BitVec 2
  x : RegIndex
  op : Op
  y : RegIndex
  i : Word
  mult : Word
  ce : Option (ConstExpr ρ)
  ignoreWidth : Bool

/-- Large immediates and ones that should be expressed in hexadecimal use type 3. -/
def isType3 (i : ConstExpr ρ → Word) (ce : ConstExpr ρ) : Bool :=
  ce.flags.immIsBits || ce.flags.isDeferred ||
    i ce != sextend32 smallImmediateBitwidth (i ce)

def makeRhs (type : BitVec 2) (x : RegIndex) (op : Binop) (y : RegIndex) (mult : Word)
    (defexpr : Option (ConstExpr ρ)) : RhsExpr ρ :=
  let (type, x, y) :=
    if op.swaps then  -- syntax sugar, swapping operands
      match type with
      | 0#2 => (type, y, x)
      | 1#2 => (2#2, x, y)
      | 2#2 => (1#2, x, y)
      | _ => (type, x, y)
    else (type, x, y)
  { type, x, op := op.op, y, mult
    ce := defexpr
    i := if defexpr.isSome then 0xfffffbad#32 else 0#32
    ignoreWidth := defexpr.isSome && op == .native .pack }

/-- There are no true unary operations, only their binary equivalents. -/
def makeUnary (op : InsnUnaryOp) (x y : RegIndex) (mult : Word)
    (defexpr : Option (ConstExpr ρ)) : RhsExpr ρ :=
  let type := if defexpr.isSome then 0#2 else 2#2
  let xx := if defexpr.isSome then 0#4 else x
  let yy := if defexpr.isSome then x else y
  makeRhs type xx (.native op.op) yy mult defexpr

/-- The actions of `rhs_plain`. -/
def RhsPlain.make (i : ConstExpr ρ → Word) : RhsPlain ρ → RhsExpr ρ
  | regRegImm x op y sign e => makeRhs 0#2 x op y sign.mult (some e)
  | regReg x op y => makeRhs 0#2 x op y 0#32 none
  | reg x => makeRhs 0#2 x (.native .bitwiseOr) 0#4 0#32 none
  | regImmReg x op e y => makeRhs 1#2 x op y 1#32 (some e)
  | regImm x op e =>
      let t3op := op == .native .add || op == .native .subtract
      let mult := if op = .native .subtract then -1#32 else 1#32
      let op := if op = .native .subtract then .native .add else op
      let type := if t3op && isType3 i e then 3#2 else 1#2
      makeRhs type x op 0#4 mult (some e)
  | immRegReg e op x y => makeRhs 2#2 x op y 1#32 (some e)
  | immReg e op x => makeRhs 2#2 x op 0#4 1#32 (some e)
  | imm e =>
      makeRhs (if isType3 i e then 3#2 else 0#2) 0#4 (.native .bitwiseOr) 0#4 1#32 (some e)
  | unaryRegImm op x sign e => makeUnary op x 0#4 sign.mult (some e)
  | unaryRegReg op x y => makeUnary op x y 0#32 none
  | unaryReg op x => makeUnary op x 0#4 0#32 none

/-- The expression that a right-hand side contains. -/
def RhsPlain.expr? : RhsPlain ρ → Option (ConstExpr ρ)
  | regRegImm _ _ _ _ e | regImmReg _ _ e _ | regImm _ _ e | immRegReg e _ _ _ | immReg e _ _
  | imm e | unaryRegImm _ _ _ e => some e
  | regReg _ _ _ | reg _ | unaryRegReg _ _ _ | unaryReg _ _ => none

theorem RhsPlain.make_ce (i : ConstExpr ρ → Word) (r : RhsPlain ρ) : (r.make i).ce = r.expr? := by
  cases r <;> rfl

/-- `struct deferred_expr`; the destination is the word it is kept with. -/
structure DeferredExpr (ρ : Type) where
  ce : ConstExpr ρ
  mult : Word
  width : ℕ
  ignoreWidth : Bool
  deriving DecidableEq

def makeInsnGeneral (lhsDeref : Bool) (z : RegIndex) (arrow : Arrow) (rhsDeref : Bool)
    (expr : RhsExpr ρ) : Word × Option (DeferredExpr ρ) :=
  let dd : BitVec 2 :=
    (BitVec.ofBool (lhsDeref || (arrow == .left && rhsDeref))) ++ (BitVec.ofBool rhsDeref)
  let word :=
    if expr.type = 3#2 then type3 expr.type dd z expr.x (expr.i.setWidth 20)
    else type012 expr.type dd z expr.x expr.y expr.op (expr.i.setWidth 12)
  let width := if expr.type = 3#2 then mediumImmediateBitwidth else smallImmediateBitwidth
  (word, expr.ce.map fun ce ↦ { ce, mult := expr.mult, width, ignoreWidth := expr.ignoreWidth })

/-- The checks of the `insn` action. -/
def InsnStmt.arrowErrors (s : InsnStmt ρ) : List Diagnostic :=
  (if s.lhsDeref && s.rhsDeref then [.bothDereferenced] else []) ++
    if s.arrow == .right && !s.rhsDeref then [.rightArrowTarget] else []

def InsnStmt.make (i : ConstExpr ρ → Word) (s : InsnStmt ρ) : Word × Option (DeferredExpr ρ) :=
  makeInsnGeneral s.lhsDeref s.z s.arrow s.rhsDeref (s.rhs.make i)

/-! ## Parsing and fixing up -/

/-- The evaluations that reducing an expression causes; repeated ones are left out. -/
def parseEvals (eval : ConstExpr ρ → Except Stop Unit) (asExpr : Bool) :
    ConstExpr ρ → Except Stop Unit
  | .ref isExternal r => if asExpr then eval (.ref isExternal r) else .ok ()
  | .ici => if asExpr then eval .ici else .ok ()
  | .imm i isBits => if asExpr then eval (.imm i isBits) else .ok ()
  | .paren e => parseEvals eval true e
  | .op1 op left => do
    parseEvals eval false left
    eval (.op1 op left)
  | .op2 op left right => do
    parseEvals eval true left
    parseEvals eval true right
    eval (.op2 op left right)

section Parse

variable (undef : UndefinedShifts) (env : Env) (fuel : ℕ)

/-- `ce_eval_const` -/
def ceEvalConst (e : ConstExpr Ref) : Except Stop (Option Word) :=
  (ceEval undef env fuel none { relocate := false, negate := false } 0 e).map fun result ↦ result.1

/-- The field `i` of a node after `ce_eval_const`. -/
def constI (e : ConstExpr Ref) : Word :=
  match ceEvalConst undef env fuel e with
  | .ok (some value) => value
  | _ => 0#32

/-- What reducing to `vatom` or `vexpr` reports. -/
def parseExpr (asExpr : Bool) (e : ConstExpr Ref) : Except Stop (List Diagnostic) := do
  parseEvals (fun e ↦ (ceEvalConst undef env fuel e).map fun _ ↦ ()) asExpr e
  .ok (e.makeErrors ++ (e.validateExpr (constI undef env fuel) 0).2)

/-- The `vatom` of a right-hand side, if it has one. -/
def parseImmediate (e? : Option (ConstExpr Ref)) : Except Stop (List Diagnostic) :=
  match e? with
  | none => .ok []
  | some e => parseExpr undef env fuel false e

/-- The `insn` rule: the word with its placeholder, the expression to fix up, and the errors. -/
def parseInsn (s : InsnStmt Ref) :
    Except Stop ((Word × Option (DeferredExpr Ref)) × List Diagnostic) := do
  let errors ← parseImmediate undef env fuel s.rhs.expr?
  .ok (s.make (constI undef env fuel), errors ++ s.arrowErrors)

end Parse

/-- The low `width` bits. -/
def fieldMask (width : ℕ) : Word := (BitVec.allOnes width).setWidth 32

/-- What `fixup_deferred_exprs` does to the destination, and whether the value was too large. -/
def DeferredExpr.store (d : DeferredExpr ρ) (dest value : Word) : Word × Bool :=
  let result := value * d.mult
  ((dest &&& ~~~fieldMask d.width) ||| (result &&& fieldMask d.width),
    !d.ignoreWidth && result != sextend32 d.width result)

/-- An instruction statement alone: the word that is emitted, if it is accepted. -/
def assembleInsn (undef : UndefinedShifts) (env : Env) (fuel : ℕ) (context : Option ℕ)
    (s : InsnStmt Ref) : Except Stop (Option Word) := do
  let ((word, deferred), errors) ← parseInsn undef env fuel s
  if errors.isEmpty then
    match deferred with
    | none => .ok (some word)
    | some d => do
      let (value, _) ←
        ceEval undef env fuel context { relocate := true, negate := false } d.width d.ce
      match value with
      | none => .error .fatal
      | some value =>
        let (word, tooLarge) := d.store word value
        if tooLarge then .ok none else .ok (some word)
  else .ok none

end Tenyr.Asm
