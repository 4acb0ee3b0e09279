import Tenyr.Asm.Statement

/-!
# Assembling a program

The actions of the grammar build elements, symbols and expressions to fix up from the statements of
a source; `assembly_fixup_insns` assigns addresses and evaluates `.set` symbols, and
`fixup_deferred_exprs` goes through the expressions from the last to the first, freeing the `.set`
definitions that each of them used.
-/

namespace Tenyr.Asm

open Isa Obj

/-! ## Sources -/

/-- `element` -/
inductive Element where
  | word (exprs : List (ConstExpr Name))
  | zero (size : ConstExpr Name)
  | utf32 (chars : List (BitVec 8))
  | illegal
  | insn (stmt : InsnStmt Name)
  | labelled (symbol : Name) (inner : Element)

/-- An element or a directive with its terminators. -/
inductive Statement where
  | element (e : Element)
  | global (symbol : Name)
  | set (symbol : Name) (e : ConstExpr Name)
  | option

abbrev Source := List Statement

/-! ## Parsing -/

/-- `struct element` after parsing, with the expression that is to be written into its word. -/
structure Elem where
  word : Word
  size : Word
  fixup : Option (DeferredExpr Ref)
  deriving DecidableEq

/-- The part of `parse_data` that the actions build. Globals are listed latest first. -/
structure ParseData where
  elems : List Elem
  symbols : List Symbol
  globals : List Name
  errors : List Diagnostic
  deriving DecidableEq

def ParseData.empty : ParseData where
  elems := []
  symbols := []
  globals := []
  errors := []

/-- What evaluation sees while parsing: no address is assigned yet. -/
def ParseData.env (pd : ParseData) : Env where
  symbols := pd.symbols
  reladdrs := pd.elems.map fun _ ↦ 0#32
  phantom := false

/-- `make_ref` -/
def makeRef (env : Env) (symbol : Name) : Ref :=
  match env.symbolFind symbol with
  | some id => .bound id
  | none => .unbound (strcopy symbol)

namespace ConstExpr

variable {ρ τ : Type} (f : ρ → τ)

def map : ConstExpr ρ → ConstExpr τ
  | ref isExternal r => .ref isExternal (f r)
  | ici => .ici
  | imm i isBits => .imm i isBits
  | paren e => .paren e.map
  | op1 op left => .op1 op left.map
  | op2 op left right => .op2 op left.map right.map

end ConstExpr

/-- The same right-hand side with its expression replaced. -/
def RhsPlain.map {ρ τ : Type} (f : ConstExpr ρ → ConstExpr τ) : RhsPlain ρ → RhsPlain τ
  | regRegImm x op y sign e => .regRegImm x op y sign (f e)
  | regReg x op y => .regReg x op y
  | reg x => .reg x
  | regImmReg x op e y => .regImmReg x op (f e) y
  | regImm x op e => .regImm x op (f e)
  | immRegReg e op x y => .immRegReg (f e) op x y
  | immReg e op x => .immReg (f e) op x
  | imm e => .imm (f e)
  | unaryRegImm op x sign e => .unaryRegImm op x sign (f e)
  | unaryRegReg op x y => .unaryRegReg op x y
  | unaryReg op x => .unaryReg op x

def InsnStmt.bind (env : Env) (s : InsnStmt Name) : InsnStmt Ref where
  lhsDeref := s.lhsDeref
  z := s.z
  arrow := s.arrow
  rhsDeref := s.rhsDeref
  rhs := s.rhs.map (ConstExpr.map (makeRef env))

section Parse

variable (undef : UndefinedShifts) (fuel : ℕ)

/-- `make_data` -/
def makeData (env : Env) : List (ConstExpr Name) → Except Stop (List Elem × List Diagnostic)
  | [] => .ok ([], [])
  | e :: rest => do
    let ce := e.map (makeRef env)
    let errors ← parseExpr undef env fuel true ce
    let (elems, errors') ← makeData env rest
    let elem : Elem :=
      { word := 0#32, size := 1#32
        fixup := some { ce, mult := 1#32, width := wordBitwidth, ignoreWidth := false } }
    .ok (elem :: elems, errors ++ errors')

/-- `make_zeros` -/
def makeZeros (env : Env) (size : ConstExpr Name) : Except Stop (List Elem × List Diagnostic) := do
  let ce := size.map (makeRef env)
  parseEvals (fun e ↦ (ceEvalConst undef env fuel e).map fun _ ↦ ()) true ce
  .ok ([{ word := 0#32, size := constI undef env fuel ce, fixup := none }],
    ce.makeErrors ++ if ce.flags.isDeferred then [.deferredSize] else [])

/-- `make_utf32`; characters are signed. -/
def makeUtf32 (chars : List (BitVec 8)) : List Elem :=
  chars.map fun c ↦ { word := c.signExtend 32, size := 1#32, fixup := none }

/-- The `element` rule: the elements, the labels of the first of them, and the errors. A label in
front of no element dereferences a null pointer. -/
def parseElement (env : Env) :
    Element → Except Stop (List Elem × List Name × List Diagnostic)
  | .word exprs => do
    let (elems, errors) ← makeData undef fuel env exprs
    .ok (elems, [], errors)
  | .zero size => do
    let (elems, errors) ← makeZeros undef fuel env size
    .ok (elems, [], errors)
  | .utf32 chars => .ok (makeUtf32 chars, [], [])
  | .illegal => .ok ([{ word := 0xffffffff#32, size := 1#32, fixup := none }], [], [])
  | .insn stmt => do
    let ((word, fixup), errors) ← parseInsn undef env fuel (stmt.bind env)
    .ok ([{ word, size := 1#32, fixup }], [], errors)
  | .labelled symbol inner => do
    let (elems, labels, errors) ← parseElement env inner
    if elems.isEmpty then .error .nullPointer
    else .ok (elems, labels ++ [symbol], errors)

/-- A symbol as `add_symbol_to_insn` and `make_set` create it. -/
def makeSymbol (name : Name) (ce : Option (ConstExpr Ref)) (place : ℕ) : Symbol where
  name := name
  ce := ce
  place := place
  reladdr := 0#32
  resolved := false
  unique := ce.isNone
  global := false

def parseStatement (pd : ParseData) : Statement → Except Stop ParseData
  | .element e => do
    let (elems, labels, errors) ← parseElement undef fuel pd.env e
    .ok { pd with
      elems := pd.elems ++ elems
      symbols := pd.symbols ++ labels.map fun name ↦ makeSymbol name none pd.elems.length
      errors := pd.errors ++ errors }
  | .global symbol => .ok { pd with globals := symbol :: pd.globals }
  | .set symbol e => do
    let ce := e.map (makeRef pd.env)
    let errors ← parseExpr undef pd.env fuel true ce
    .ok { pd with
      symbols := pd.symbols ++ [makeSymbol symbol (some ce) pd.elems.length]
      errors := pd.errors ++ errors }
  | .option => .ok pd

def parse (source : Source) : Except Stop ParseData :=
  source.foldlM (parseStatement undef fuel) .empty

end Parse

/-! ## Addresses and symbols -/

/-- The first pass of `assembly_fixup_insns` from an address on. -/
def addrsFrom (reladdr : Word) : List Elem → List Word
  | [] => []
  | e :: rest => reladdr :: addrsFrom (reladdr + e.size) rest

section Fixup

variable (undef : UndefinedShifts) (fuel : ℕ)

/-- The address of a label. -/
def resolveLabel (reladdrs : List Word) (s : Symbol) : Symbol :=
  if s.ce.isNone then { s with reladdr := reladdrs.getD s.place 0#32, resolved := true } else s

/-- The second pass of `assembly_fixup_insns`: `.set` symbols are evaluated without a context, the
latest first. -/
def resolveSets (env : Env) : List Symbol → Except Stop (List Symbol × List RelocNode)
  | [] => .ok ([], [])
  | s :: rest => do
    let (rest, relocs) ← resolveSets env rest
    match s.ce with
    | none => .ok (s :: rest, relocs)
    | some ce => do
      let (value, added) ←
        ceEval undef env fuel none { relocate := true, negate := false } wordBitwidth ce
      let s := match value with
        | some value => { s with reladdr := value, resolved := true }
        | none => s
      .ok (s :: rest, added.reverse ++ relocs)

/-- `mark_globals` -/
def markGlobals (globals : List Name) (env : Env) : List Symbol :=
  env.symbols.mapIdx fun id s ↦ { s with global := globals.any fun g ↦ env.symbolFind g == some id }

/-- `check_symbols` finds two labels of the same name. -/
def hasDuplicates (symbols : List Symbol) : Bool :=
  !decide ((symbols.filter Symbol.unique).map Symbol.name).Nodup

/-- `ce_free` of what an expression refers to, given how to free the expressions of symbols. -/
def ceFreeWith (sub : List Symbol → ConstExpr Ref → List Symbol) (symbols : List Symbol) :
    ConstExpr Ref → List Symbol
  | .ref _ (.bound id) =>
    match symbols[id]?.bind Symbol.ce with
    | some ce => (sub symbols ce).modify id fun s ↦ { s with ce := none }
    | none => symbols
  | .ref _ (.unbound _) | .ici | .imm _ _ => symbols
  | .paren e => ceFreeWith sub symbols e
  | .op1 _ left => ceFreeWith sub symbols left
  | .op2 _ left right => ceFreeWith sub (ceFreeWith sub symbols right) left

/-- `ce_free`. Expressions that have been evaluated lead through no more symbols than `fuel`. -/
def ceFree : ℕ → List Symbol → ConstExpr Ref → List Symbol
  | 0 => ceFreeWith fun symbols _ ↦ symbols
  | fuel + 1 => ceFreeWith (ceFree fuel)

/-- What `fixup_deferred_exprs` works on: the symbols that are left, the words done so far, the
relocations latest first, and whether a value was too large. -/
structure FixupState where
  symbols : List Symbol
  words : List Word
  relocs : List RelocNode
  tooLarge : Bool

/-- The body of `fixup_deferred_exprs` for the element at index `k`. -/
def fixupElem (reladdrs : List Word) (k : ℕ) (e : Elem) (st : FixupState) :
    Except Stop FixupState :=
  match e.fixup with
  | none => .ok { st with words := e.word :: st.words }
  | some d => do
    let env : Env := { symbols := st.symbols, reladdrs, phantom := true }
    let (value, added) ←
      ceEval undef env fuel (some k) { relocate := true, negate := false } d.width d.ce
    match value with
    | none => .error .fatal
    | some value =>
      let (word, large) := d.store e.word value
      .ok
        { symbols := ceFree fuel st.symbols d.ce
          words := word :: st.words
          relocs := added.reverse ++ st.relocs
          tooLarge := st.tooLarge || large }

/-- `fixup_deferred_exprs` on the elements from index `k` on, the last one first. -/
def fixupFrom (reladdrs : List Word) (k : ℕ) :
    List Elem → FixupState → Except Stop FixupState
  | [], st => .ok st
  | e :: rest, st => do
    let st ← fixupFrom reladdrs (k + 1) rest st
    fixupElem undef fuel reladdrs k e st

/-- What `assembly_inner` hands to the output format. -/
structure Assembled where
  elems : List Elem
  reladdrs : List Word
  words : List Word
  symbols : List Symbol
  relocs : List RelocNode
  deriving DecidableEq

/-- `assembly_inner` up to the output. -/
def assemblyInner (pd : ParseData) : Except Stop Assembled := do
  let reladdrs := addrsFrom 0#32 pd.elems
  let symbols := pd.symbols.map (resolveLabel reladdrs)
  let (symbols, relocs) ←
    resolveSets undef fuel { symbols, reladdrs, phantom := true } symbols
  let symbols := markGlobals pd.globals { symbols, reladdrs, phantom := true }
  if hasDuplicates symbols then .error .fatal
  else do
    let st ← fixupFrom undef fuel reladdrs 0 pd.elems
      { symbols, words := [], relocs, tooLarge := false }
    if st.tooLarge then .error .fatal
    else
      .ok
        { elems := pd.elems, reladdrs, words := st.words, symbols := st.symbols
          relocs := st.relocs }

/-- `do_assembly` up to the output; `none` when errors were reported. -/
def assemble (source : Source) : Except Stop (Option Assembled) := do
  let pd ← parse undef fuel source
  if pd.errors.isEmpty then (assemblyInner undef fuel pd).map some
  else .ok none

end Fixup

end Tenyr.Asm
