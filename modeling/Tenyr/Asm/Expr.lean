import Tenyr.Isa.Instruction
import Tenyr.Obj.Object

/-!
# Constant expressions of the assembler

`ConstExpr` is the tree that the actions of the grammar build from `make_expr` and `make_ref`;
`ceEval` follows `ce_eval`, `symbol_lookup` and `sym_reloc_handler`. References to `.set` symbols are
evaluated in the context of the element that follows the directive, so evaluation takes fuel for
them; it is structural otherwise.
-/

namespace Tenyr.Asm

open Isa Obj

/-- `strncmp` with `SYMBOL_LEN` finds no difference. -/
def sameSymbol (a b : Name) : Bool := a.take symbolLen == b.take symbolLen

inductive UnaryOp where
  | neg | compl
  deriving DecidableEq, Repr

inductive BinaryOp where
  | add | sub | mul | div | xor | and | or | lsh | rsha | rsh
  deriving DecidableEq, Repr

/-- `struct const_expr`, over the names of the source or the symbols they are bound to. Parentheses
leave no node; they are kept because they cause an evaluation while parsing. -/
inductive ConstExpr (ρ : Type) where
  | ref (isExternal : Bool) (r : ρ)
  | ici
  | imm (i : Word) (isBits : Bool)
  | paren (e : ConstExpr ρ)
  | op1 (op : UnaryOp) (left : ConstExpr ρ)
  | op2 (op : BinaryOp) (left right : ConstExpr ρ)
  deriving DecidableEq, Repr

/-- Messages of the parser. -/
inductive Diagnostic where
  | invalidDeferredUse | multipleExternals | bothDereferenced | rightArrowTarget | deferredSize
  deriving DecidableEq, Repr

/-- The flags that nodes inherit from their operands and that something reads afterwards. -/
structure ExprFlags where
  immIsBits : Bool
  isDeferred : Bool
  isExternal : Bool
  specialLhs : Bool
  deriving DecidableEq, Repr

namespace ExprFlags

def none : ExprFlags := ⟨false, false, false, false⟩

def or (a b : ExprFlags) : ExprFlags where
  immIsBits := a.immIsBits || b.immIsBits
  isDeferred := a.isDeferred || b.isDeferred
  isExternal := a.isExternal || b.isExternal
  specialLhs := a.specialLhs || b.specialLhs

end ExprFlags

/-- The operators that pass `FORBID_LHS` to `make_expr`. -/
def BinaryOp.forbidLhs : BinaryOp → Bool
  | mul | div | xor | or | lsh | rsh => true
  | add | sub | and | rsha => false

/-- The operators that pass `SPECIAL_LHS` to `make_expr`. -/
def BinaryOp.specialLhs : BinaryOp → Bool
  | and | rsha => true
  | _ => false

namespace ConstExpr

variable {ρ : Type}

def flags : ConstExpr ρ → ExprFlags
  | ref isExternal _ =>
      { immIsBits := true, isDeferred := true, isExternal, specialLhs := false }
  | ici => { immIsBits := true, isDeferred := true, isExternal := false, specialLhs := false }
  | imm _ isBits =>
      { immIsBits := isBits, isDeferred := false, isExternal := false, specialLhs := false }
  | paren e => e.flags
  | op1 _ left => left.flags
  | op2 op left right =>
      (left.flags.or right.flags).or { ExprFlags.none with specialLhs := op.specialLhs }

/-- What `make_expr` reports while the tree is built. -/
def makeErrors : ConstExpr ρ → List Diagnostic
  | ref _ _ | ici | imm _ _ => []
  | paren e => e.makeErrors
  | op1 _ left => left.makeErrors
  | op2 op left right =>
      left.makeErrors ++ right.makeErrors ++
        if left.flags.isExternal && op.forbidLhs then [.invalidDeferredUse] else []

/-- `validate_expr`, given the value of `i` in each node. -/
def validateExpr (i : ConstExpr ρ → Word) (level : ℕ) : ConstExpr ρ → Bool × List Diagnostic
  | ref _ _ | ici | imm _ _ => (false, [])  -- `validate_expr` of a missing operand is not ok
  | paren e => e.validateExpr i level
  | op1 _ left => (false, (left.validateExpr i (level + 1)).2)
  | op2 op left right =>
      let (okLeft, left_) := left.validateExpr i (level + 1)
      let (okRight, right_) := right.validateExpr i (level + 1)
      let both := left.flags.isExternal && right.flags.isExternal
      let ok := okLeft && okRight && !both
      let errors := left_ ++ right_ ++ if both then [.multipleExternals] else []
      if left.flags.isExternal && (op2 op left right).flags.specialLhs then
        let ok :=
          match op with
          | .rsha => ok && level == 0 && i right == 12#32
          | .and => ok && level == 0 && i right == 0xfff#32
          | _ => false
        (ok, errors ++ if ok then [] else [.invalidDeferredUse])
      else (ok, errors)

end ConstExpr

/-! ## Arithmetic -/

/-- Why the assembler ends without a result: a reported fatal error, or one of its crashes. -/
inductive Stop where
  | fatal | divideTrap | stackOverflow | nullPointer | hang | assertFailed
  deriving DecidableEq, Repr

theorem bind_eq_ok {ε α β : Type} {x : Except ε α} {f : α → Except ε β} {b : β} :
    x >>= f = .ok b ↔ ∃ a, x = .ok a ∧ f a = .ok b := by
  cases x with
  | error e =>
    constructor
    · rintro ⟨⟩
    · rintro ⟨a, ⟨⟩, _⟩
  | ok a =>
    constructor
    · intro h
      exact ⟨a, rfl, h⟩
    · rintro ⟨a', ha, h⟩
      obtain rfl := Except.ok.inj ha
      exact h

theorem map_eq_ok {ε α β : Type} {x : Except ε α} {f : α → β} {b : β} :
    x.map f = .ok b ↔ ∃ a, x = .ok a ∧ f a = b := by
  cases x with
  | error e =>
    constructor
    · rintro ⟨⟩
    · rintro ⟨a, ⟨⟩, _⟩
  | ok a =>
    constructor
    · intro h
      exact ⟨a, rfl, Except.ok.inj h⟩
    · rintro ⟨a', ha, h⟩
      obtain rfl := Except.ok.inj ha
      exact congrArg Except.ok h

def UnaryOp.apply : UnaryOp → Word → Word
  | neg, v => -v
  | compl, v => ~~~v

/-- The operators of `ce_eval`. The quotient of the least integer and -1 traps. -/
def BinaryOp.apply (undef : UndefinedShifts) (left right : Word) : BinaryOp → Except Stop Word
  | add => .ok (left + right)
  | sub => .ok (left - right)
  | mul => .ok (left * right)
  | xor => .ok (left ^^^ right)
  | and => .ok (left &&& right)
  | or => .ok (left ||| right)
  | lsh => .ok (undef.shl left right)
  | rsha => .ok (undef.sar left right)
  | rsh => .ok (undef.shr left right)
  | div =>
      if right = 0#32 then .error .fatal
      else if left = BitVec.intMin 32 ∧ right = -1#32 then .error .divideTrap
      else .ok (left.sdiv right)

/-! ## Symbols and evaluation -/

/-- A version of a symbol, or a name that had no definition when it was referred to. -/
inductive Ref where
  | bound (id : ℕ)
  | unbound (symbolname : Name)
  deriving DecidableEq, Repr

/-- `struct symbol`. A symbol with an expression was defined by `.set`, others are labels; `place` is
the index of the element that has the label, or of the node that follows the directive. -/
structure Symbol where
  name : Name
  ce : Option (ConstExpr Ref)
  place : ℕ
  reladdr : Word
  resolved : Bool
  unique : Bool
  global : Bool
  deriving DecidableEq

/-- `struct reloc_node`; the empty name makes it a null relocation. -/
structure RelocNode where
  name : Name
  insn : Option ℕ
  width : ℕ
  negate : Bool
  deriving DecidableEq, Repr

/-- What evaluation sees of `parse_data`: the symbols in the order of their creation, the addresses
of the elements, and whether the final placeholder has been appended. -/
structure Env where
  symbols : List Symbol
  reladdrs : List Word
  phantom : Bool

namespace Env

/-- `symbol_find`: the latest symbol of that name. -/
def symbolFind (env : Env) (name : Name) : Option ℕ :=
  (List.range env.symbols.length).reverse.find? fun id ↦
    env.symbols[id]?.any fun s ↦ sameSymbol s.name name

/-- What a `deferred` pointer leads to: nothing yet, or a node and perhaps its element. -/
def contextAt (env : Env) (k : ℕ) : Option (Option ℕ) :=
  if k < env.reladdrs.length then some (some k)
  else if env.phantom then some none
  else none

def reladdr (env : Env) (k : ℕ) : Word := env.reladdrs.getD k 0#32

/-- The `.set` symbol that a reference is bound to, with its expression. -/
def boundSet (env : Env) : Ref → Option (Symbol × ConstExpr Ref)
  | .bound id => env.symbols[id]?.bind fun s ↦ s.ce.map fun ce ↦ (s, ce)
  | .unbound _ => none

/-- The name a reference is looked up by. -/
def refName (env : Env) : Ref → Name
  | .bound id => (env.symbols[id]?.map Symbol.name).getD []
  | .unbound symbolname => symbolname

end Env

/-- The flags `DO_RELOCATION` and `RHS_NEGATE`. -/
structure EvalFlags where
  relocate : Bool
  negate : Bool
  deriving DecidableEq, Repr

/-- The value, when evaluation is complete, and the relocations it added. -/
abbrev Eval := Except Stop (Option Word × List RelocNode)

/-- An evaluator to use for the expressions of `.set` symbols. -/
abbrev Evaluator := Option ℕ → EvalFlags → ℕ → ConstExpr Ref → Eval

/-- `symbol_lookup`: whether the name was found, and the value. -/
def symbolLookup (env : Env) (sub : Evaluator) (name : Name) : Except Stop (Option Word) :=
  match (env.symbolFind name).bind fun id ↦ env.symbols[id]? with
  | none => .ok none
  | some s =>
    match s.ce with
    | none => .ok (some s.reladdr)
    | some ce =>
      if s.name = name then .error .fatal  -- bad use before definition
      else
        (sub ((env.contextAt s.place).bind id) { relocate := false, negate := false } 0 ce).map
          fun result ↦ result.1

/-- `ce_eval`, given an evaluator for the expressions of `.set` symbols. -/
def ceEvalWith (undef : UndefinedShifts) (env : Env) (sub : Evaluator) (context : Option ℕ)
    (flags : EvalFlags) (width : ℕ) : ConstExpr Ref → Eval
  | .ref _ r =>
    match env.boundSet r with
    | some (s, ce) =>
      match env.contextAt s.place with
      | none => .ok (none, [])  -- cannot evaluate yet
      | some dc => do
        let (value, relocs) ← sub dc flags width ce
        match value with
        | some value => .ok (some value, relocs)
        | none =>
          if flags.relocate && dc.isSome then
            .ok (some 0#32, relocs ++ [{ name := [], insn := dc, width, negate := flags.negate }])
          else .ok (none, relocs)
    | none => do
      let name := env.refName r
      let found ← symbolLookup env sub name
      let reloc : RelocNode :=
        { name := if found.isSome then [] else strcopy name, insn := context, width
          negate := flags.negate }
      if flags.relocate then .ok (some (found.getD 0#32), [reloc]) else .ok (found, [])
  | .ici =>
    if flags.relocate then
      .ok (some ((context.map env.reladdr).getD 0#32),
        [{ name := [], insn := context, width, negate := flags.negate }])
    else .ok (context.map env.reladdr, [])
  | .imm i _ => .ok (some i, [])
  | .paren e => ceEvalWith undef env sub context flags width e
  | .op1 op left => do
    let (value, relocs) ← ceEvalWith undef env sub context flags width left
    .ok (value.map op.apply, relocs)
  | .op2 op left right => do
    let (leftValue, relocs) ← ceEvalWith undef env sub context flags width left
    match leftValue with
    | none => .ok (none, relocs)
    | some leftValue =>
      let rhsflags := if op = .sub then { flags with negate := !flags.negate } else flags
      let (rightValue, relocs') ← ceEvalWith undef env sub context rhsflags width right
      match rightValue with
      | none => .ok (none, relocs ++ relocs')
      | some rightValue => do
        let value ← op.apply undef leftValue rightValue
        .ok (some value, relocs ++ relocs')

/-- `ce_eval`. Symbols can refer to symbols; running out of fuel is running out of stack. -/
def ceEval (undef : UndefinedShifts) (env : Env) : ℕ → Evaluator
  | 0 => ceEvalWith undef env fun _ _ _ _ ↦ .error .stackOverflow
  | fuel + 1 => ceEvalWith undef env (ceEval undef env fuel)

/-! ## Expressions without symbols -/

/-- The value of an expression of integer constants. -/
def ConstExpr.constValue {ρ : Type} (undef : UndefinedShifts) : ConstExpr ρ → Except Stop Word
  | .ref _ _ | .ici => .ok 0#32
  | .imm i _ => .ok i
  | .paren e => e.constValue undef
  | .op1 op left => (left.constValue undef).map op.apply
  | .op2 op left right => do
    let leftValue ← left.constValue undef
    let rightValue ← right.constValue undef
    op.apply undef leftValue rightValue

/-- Evaluating constants depends on nothing and adds no relocation. -/
theorem ceEvalWith_of_not_deferred (undef : UndefinedShifts) (env : Env) (sub : Evaluator)
    (context : Option ℕ) (flags : EvalFlags) (width : ℕ) {e : ConstExpr Ref}
    (he : e.flags.isDeferred = false) :
    ceEvalWith undef env sub context flags width e =
      (e.constValue undef).map fun value ↦ (some value, []) := by
  induction e generalizing flags with
  | ref | ici => simp [ConstExpr.flags] at he
  | imm i isBits => rfl
  | paren e ih => exact ih flags he
  | op1 op left ih =>
    rw [ceEvalWith, ih flags he, ConstExpr.constValue]
    cases left.constValue undef <;> rfl
  | op2 op left right ihLeft ihRight =>
    have hboth : left.flags.isDeferred = false ∧ right.flags.isDeferred = false := by
      simpa [ConstExpr.flags, ExprFlags.or, ExprFlags.none] using he
    rw [ceEvalWith, ihLeft flags hboth.1, ConstExpr.constValue]
    cases left.constValue undef with
    | error stop => rfl
    | ok leftValue =>
      simp only [Except.map, bind, Except.bind]
      rw [ihRight _ hboth.2]
      cases right.constValue undef with
      | error stop => rfl
      | ok rightValue =>
        simp only [Except.map]
        cases op.apply undef leftValue rightValue <;> rfl

end Tenyr.Asm
