import Tenyr.Asm.Grammar

/-!
# Parsing

A parser by recursive descent with one token of lookahead, two after a unary operator. It finds what the
grammar derives from a text, which is unique.
-/

namespace Tenyr.Asm

open Isa Obj

/-! ## Constant expressions -/

/-- The operator of a token of `binop_expr`. -/
def Token.binaryOp : Token → Option BinaryOp
  | .char '+' => some .add
  | .char '-' => some .sub
  | .char '*' => some .mul
  | .char '/' => some .div
  | .char '^' => some .xor
  | .char '&' => some .and
  | .char '|' => some .or
  | .lsh => some .lsh
  | .rsha => some .rsha
  | .rsh => some .rsh
  | _ => none

/-- `t`, if it is the next token. -/
def expect (t : Token) (s : Scanner) : Option Scanner :=
  match yylex s with
  | (some t', s') => if t' = t then some s' else none
  | (none, _) => none

mutual

/-- `atom` -/
def parseAtom : ℕ → Scanner → Option (ConstExpr Name × Scanner)
  | 0, _ => none
  | fuel + 1, s =>
    match yylex s with
    | (some (.char '@'), s₁) =>
      match yylex s₁ with
      | (some (.symbol name), s') => some (.ref true name, s')
      | _ => none
    | (some (.char '('), s₁) => do
      let (e, s₂) ← parseExprAt fuel 0 s₁
      let s' ← expect (.char ')') s₂
      some (.paren e, s')
    | (some (.char '~'), s₁) => (parseAtom fuel s₁).map fun (e, s') ↦ (.op1 .compl e, s')
    | (some (.char '-'), s₁) => (parseAtom fuel s₁).map fun (e, s') ↦ (.op1 .neg e, s')
    | (some (.char '.'), s') => some (.ici, s')
    | (some (.loc name), s') => some (.ref false name, s')
    | (some t, s') => t.immediate.map fun (i, isBits) ↦ (.imm i isBits, s')
    | (none, _) => none

/-- `expr` with operators from a level on. -/
def parseExprAt : ℕ → ℕ → Scanner → Option (ConstExpr Name × Scanner)
  | 0, _, _ => none
  | fuel + 1, level, s => do
    let (e, s₁) ← parseAtom fuel s
    parseOps fuel level e s₁

/-- The operators behind an operand. -/
def parseOps : ℕ → ℕ → ConstExpr Name → Scanner → Option (ConstExpr Name × Scanner)
  | 0, _, _, _ => none
  | fuel + 1, level, left, s =>
    match (yylex s).1.bind Token.binaryOp with
    | some op =>
      if level ≤ op.level then do
        let (right, s₁) ← parseExprAt fuel (op.level + 1) (yylex s).2
        parseOps fuel level (.op2 op left right) s₁
      else some (left, s)
    | none => some (left, s)

end

/-! ## Instructions -/

/-- `regname` -/
def parseReg (s : Scanner) : Option (RegIndex × Scanner) :=
  match yylex s with
  | (some (.register c), s') => some (regIndex c, s')
  | _ => none

/-- `binop` -/
def parseBinop (s : Scanner) : Option (Binop × Scanner) :=
  match yylex s with
  | (some t, s') => t.binop.map fun op ↦ (op, s')
  | (none, _) => none

/-- `reloc_op` -/
def parseRelocOp (s : Scanner) : Option (RelocOp × Scanner) :=
  match yylex s with
  | (some (.char '+'), s') => some (.plus, s')
  | (some (.char '-'), s') => some (.minus, s')
  | _ => none

/-- `unary_op` -/
def parseUnaryOp (s : Scanner) : Option (InsnUnaryOp × Scanner) :=
  match yylex s with
  | (some (.char '~'), s') => some (.compl, s')
  | (some (.char '-'), s') => some (.neg, s')
  | _ => none

/-- `arrow` -/
def parseArrow (s : Scanner) : Option (Arrow × Scanner) :=
  match yylex s with
  | (some .tol, s') => some (.left, s')
  | (some .tor, s') => some (.right, s')
  | _ => none

/-- `rhs_plain` behind a register. -/
def parseAfterReg (fuel : ℕ) (x : RegIndex) (s : Scanner) : Option (RhsPlain Name × Scanner) :=
  match parseBinop s with
  | none => some (.reg x, s)
  | some (op, s₁) =>
    match parseReg s₁ with
    | some (y, s₂) =>
      match parseRelocOp s₂ with
      | some (sign, s₃) => (parseAtom fuel s₃).map fun (e, s') ↦ (.regRegImm x op y sign e, s')
      | none => some (.regReg x op y, s₂)
    | none => do
      let (e, s₂) ← parseAtom fuel s₁
      match expect (.char '+') s₂ with
      | some s₃ => (parseReg s₃).map fun (y, s') ↦ (.regImmReg x op e y, s')
      | none => some (.regImm x op e, s₂)

/-- `rhs_plain` behind a unary operator and a register. -/
def parseAfterUnary (fuel : ℕ) (op : InsnUnaryOp) (x : RegIndex) (s : Scanner) :
    Option (RhsPlain Name × Scanner) :=
  match parseRelocOp s with
  | none => some (.unaryReg op x, s)
  | some (sign, s₁) =>
    match sign, parseReg s₁ with
    | .plus, some (y, s') => some (.unaryRegReg op x y, s')
    | sign, _ => (parseAtom fuel s₁).map fun (e, s') ↦ (.unaryRegImm op x sign e, s')

/-- `rhs_plain` that starts with an expression. -/
def parseFromAtom (fuel : ℕ) (s : Scanner) : Option (RhsPlain Name × Scanner) := do
  let (e, s₁) ← parseAtom fuel s
  match parseBinop s₁ with
  | none => some (.imm e, s₁)
  | some (op, s₂) => do
    let (x, s₃) ← parseReg s₂
    match expect (.char '+') s₃ with
    | some s₄ => (parseReg s₄).map fun (y, s') ↦ (.immRegReg e op x y, s')
    | none => some (.immReg e op x, s₃)

/-- A register behind a unary operator, of which the second token decides. -/
def parseUnaryReg (s : Scanner) : Option ((InsnUnaryOp × RegIndex) × Scanner) := do
  let (op, s₁) ← parseUnaryOp s
  let (x, s') ← parseReg s₁
  some ((op, x), s')

/-- `rhs_plain` -/
def parseRhsPlain (fuel : ℕ) (s : Scanner) : Option (RhsPlain Name × Scanner) :=
  match parseReg s with
  | some (x, s₁) => parseAfterReg fuel x s₁
  | none =>
    match parseUnaryReg s with
    | some ((op, x), s₁) => parseAfterUnary fuel op x s₁
    | none => parseFromAtom fuel s

def parseBracketed {α : Type} (parse : Scanner → Option (α × Scanner)) (s : Scanner) :
    Option ((Bool × α) × Scanner) :=
  match expect (.char '[') s with
  | some s₁ => do
    let (a, s₂) ← parse s₁
    let s' ← expect (.char ']') s₂
    some ((true, a), s')
  | none => (parse s).map fun (a, s') ↦ ((false, a), s')

/-- `insn` with an arrow. -/
def parseInsnStmt (fuel : ℕ) (s : Scanner) : Option (InsnStmt Name × Scanner) := do
  let (lhs, s₁) ← parseBracketed parseReg s
  let (arrow, s₂) ← parseArrow (s₁.push .needarrow)
  let (rhs, s') ← parseBracketed (parseRhsPlain fuel) s₂.pop
  some (⟨lhs.1, lhs.2, arrow, rhs.1, rhs.2⟩, s')

/-! ## Programs -/

/-- As many phrases as there are. -/
def parseMany {α : Type} (parse : Scanner → Option (α × Scanner)) : ℕ → Scanner → List α × Scanner
  | 0, s => ([], s)
  | fuel + 1, s =>
    match parse s with
    | some (a, s₁) =>
      let (l, s') := parseMany parse fuel s₁
      (a :: l, s')
    | none => ([], s)

def parseNl (s : Scanner) : Option (Unit × Scanner) := (expect (.char '\n') s).map fun s' ↦ ((), s')

/-- `opt_nl` -/
def skipNl (fuel : ℕ) (s : Scanner) : Scanner := (parseMany parseNl fuel s).2

/-- `terminator` -/
def parseTerminator (s : Scanner) : Option (Unit × Scanner) :=
  match yylex s with
  | (some (.char '\n'), s') | (some (.char ';'), s') => some ((), s')
  | _ => none

/-- `STRSPAN` -/
def parseSpan (s : Scanner) : Option (Span × Scanner) :=
  match yylex s with
  | (some (.strspan span), s') => some (span, s')
  | _ => none

/-- `stringelt` -/
def parseStringelt (fuel : ℕ) (s : Scanner) : Option (StringLiteral × Scanner) := do
  let s₁ ← expect .opnquote s
  let (spans, s₂) := parseMany parseSpan fuel s₁
  let s' ← expect .clsquote s₂
  some (literalOf spans, s')

/-- `string` -/
def parseString (fuel : ℕ) (s : Scanner) : Option (List StringLiteral × Scanner) :=
  match parseMany (parseStringelt fuel) fuel s with
  | ([], _) => none
  | found => some found

/-- `expr_list` -/
def parseExprList : ℕ → Scanner → Option (List (ConstExpr Name) × Scanner)
  | 0, _ => none
  | fuel + 1, s => do
    let (e, s₁) ← parseExprAt fuel 0 s
    match expect (.char ',') s₁ with
    | some s₂ => (parseExprList fuel (skipNl fuel s₂)).map fun (rest, s') ↦ (e :: rest, s')
    | none => some ([e], s₁)

/-- `element`, and whether its action pops. -/
def parseElementText : ℕ → Scanner → Option ((Element × Bool) × Scanner)
  | 0, _ => none
  | fuel + 1, s =>
    match yylex s with
    | (some .word, s₁) =>
      (parseExprList fuel (skipNl fuel s₁)).map fun (exprs, s') ↦ ((.word exprs, true), s')
    | (some .zero, s₁) =>
      (parseExprAt fuel 0 (skipNl fuel s₁)).map fun (size, s') ↦ ((.zero size, true), s')
    | (some .utf32, s₁) =>
      (parseString fuel (skipNl fuel s₁)).map fun (literals, s') ↦ ((.utf32 (linkedChars literals), true), s')
    | (some .illegal, s') => some ((.illegal, false), s')
    | (some (.symbol name), s₁) | (some (.loc name), s₁) => do
      let s₂ ← expect (.char ':') s₁
      let ((inner, pops), s') ← parseElementText fuel (skipNl fuel s₂)
      some ((.labelled name inner, pops), s')
    | _ => (parseInsnStmt fuel s).map fun (stmt, s') ↦ ((.insn stmt, false), s')

/-- `SYMBOL` -/
def parseSymbol (s : Scanner) : Option (Name × Scanner) :=
  match yylex s with
  | (some (.symbol name), s') => some (name, s')
  | _ => none

/-- `element` or `directive` -/
def parseStatementText (fuel : ℕ) (s : Scanner) : Option ((Statement × Bool) × Scanner) :=
  match yylex s with
  | (some .global, s₁) =>
    (parseSymbol (skipNl fuel s₁)).map fun (name, s') ↦ ((.global name, false), s'.pop)
  | (some .set, s₁) => do
    let (name, s₂) ← parseSymbol (skipNl fuel s₁)
    let s₃ ← expect (.char ',') s₂
    let (e, s') ← parseExprAt fuel 0 s₃
    some ((.set name e, true), s')
  | (some .option, s₁) => do
    let (_, s₂) ← parseString fuel (skipNl fuel s₁)
    match expect (.char ',') s₂ with
    | some s₃ => (parseString fuel s₃).map fun (_, s') ↦ ((.option, true), s')
    | none => some ((.option, true), s₂)
  | _ => (parseElementText fuel s).map fun ((e, pops), s') ↦ ((.element e, pops), s')

/-- An `element` or a `directive`, and its terminators. -/
def parseLine (fuel : ℕ) (s : Scanner) : Option (Statement × Scanner) := do
  let ((stmt, pops), s₁) ← parseStatementText fuel s
  let ((), s₂) ← parseTerminator s₁
  some (stmt, (parseMany parseTerminator fuel (if pops then s₂.pop else s₂)).2)

/-- `top` -/
def parseTop (s : Scanner) : Option (Source × Scanner) :=
  let fuel := 2 * s.text.length + 3
  let (source, s₁) := parseMany (parseLine fuel) fuel (parseMany parseTerminator fuel s).2
  match yylex s₁ with
  | (none, s') => some (source, s')
  | (some _, _) => none

/-! ## Tokens -/

section

variable {s s₁ s' : Scanner} {t t' : Token}

theorem Reads.length_lt (h : Reads s t s') : s'.text.length < s.text.length := length_of_yylex h

theorem expect_eq_some_iff : expect t s = some s' ↔ Reads s t s' := by
  unfold expect Reads
  rcases hlex : yylex s with ⟨_ | t', s₁⟩
  · simp
  · by_cases ht : t' = t
    · simp [ht]
    · simp [ht]

theorem parseReg_eq_some_iff {x : RegIndex} : parseReg s = some (x, s') ↔ ReadsReg s x s' := by
  unfold parseReg ReadsReg Reads
  rcases hlex : yylex s with ⟨_ | t', s₁⟩
  · simp
  · cases t' <;> simp [and_comm]

theorem parseBinop_eq_some_iff {op : Binop} : parseBinop s = some (op, s') ↔ ReadsBinop s op s' := by
  unfold parseBinop ReadsBinop Reads
  rcases hlex : yylex s with ⟨_ | t', s₁⟩
  · simp
  · simp [Option.map_eq_some_iff, and_comm]

theorem parseRelocOp_eq_some_iff {sign : RelocOp} :
    parseRelocOp s = some (sign, s') ↔ Reads s sign.token s' := by
  unfold parseRelocOp Reads
  rcases hlex : yylex s with ⟨_ | t', s₁⟩
  · simp
  · split <;> cases sign <;> simp_all [RelocOp.token]

theorem parseUnaryOp_eq_some_iff {op : InsnUnaryOp} :
    parseUnaryOp s = some (op, s') ↔ Reads s op.token s' := by
  unfold parseUnaryOp Reads
  rcases hlex : yylex s with ⟨_ | t', s₁⟩
  · simp
  · split <;> cases op <;> simp_all [InsnUnaryOp.token]

theorem parseArrow_eq_some_iff {arrow : Arrow} :
    parseArrow s = some (arrow, s') ↔ Reads s arrow.token s' := by
  unfold parseArrow Reads
  rcases hlex : yylex s with ⟨_ | t', s₁⟩
  · simp
  · split <;> cases arrow <;> simp_all [Arrow.token]

theorem parseSymbol_eq_some_iff {name : Name} :
    parseSymbol s = some (name, s') ↔ Reads s (.symbol name) s' := by
  unfold parseSymbol Reads
  rcases hlex : yylex s with ⟨_ | t', s₁⟩
  · simp
  · cases t' <;> simp

end

/-! ## Expressions -/

/-- The operator that is next. -/
def nextOp (s : Scanner) : Option BinaryOp := (yylex s).1.bind Token.binaryOp

theorem binaryOp_token (op : BinaryOp) : op.token.binaryOp = some op := by
  cases op <;> rfl

theorem Token.binaryOp_eq_some_iff {t : Token} {op : BinaryOp} : t.binaryOp = some op ↔ t = op.token := by
  constructor
  · unfold Token.binaryOp
    split <;> simp_all <;> rintro rfl <;> rfl
  · rintro rfl
    exact binaryOp_token op

theorem nextOp_eq_some_iff {s : Scanner} {op : BinaryOp} :
    nextOp s = some op ↔ Reads s op.token (yylex s).2 := by
  unfold nextOp Reads
  rcases yylex s with ⟨_ | t, s'⟩
  · simp
  · simp [Token.binaryOp_eq_some_iff]

/-- All operators of a level or a higher one have been read. -/
def Stops (level : ℕ) (s : Scanner) : Prop := ∀ op, nextOp s = some op → op.level < level

/-- What is parsed is derived; behind an expression no operator of its level is left. -/
theorem parseExpr_sound (fuel : ℕ) :
    (∀ {s e s'}, parseAtom fuel s = some (e, s') → Derives .atom s e s') ∧
    (∀ {level s e s'}, parseExprAt fuel level s = some (e, s') →
      Derives (.expr level) s e s' ∧ Stops level s') ∧
    ∀ {level s₀ left s e s'}, parseOps fuel level left s = some (e, s') →
      Derives (.expr level) s₀ left s →
        (∀ op, nextOp s = some op → Derives (.expr op.level) s₀ left s) →
          Derives (.expr level) s₀ e s' ∧ Stops level s' := by
  induction fuel with
  | zero =>
    refine ⟨?_, ?_, ?_⟩
    · intro s e s' h
      cases h
    · intro level s e s' h
      cases h
    · intro level s₀ left s e s' h
      cases h
  | succ fuel ih =>
    obtain ⟨ihAtom, ihExpr, ihOps⟩ := ih
    refine ⟨?_, ?_, ?_⟩
    · intro s e s' h
      unfold parseAtom at h
      split at h
      · rename_i s₁ hlex
        split at h
        · rename_i name s₂ hlex'
          obtain ⟨rfl, rfl⟩ := Prod.mk.inj (Option.some.inj h)
          exact .eref hlex hlex'
        · cases h
      · rename_i s₁ hlex
        obtain ⟨⟨e₁, s₂⟩, he, h⟩ := Option.bind_eq_some_iff.mp h
        obtain ⟨s₃, hclose, h⟩ := Option.bind_eq_some_iff.mp h
        obtain ⟨rfl, rfl⟩ := Prod.mk.inj (Option.some.inj h)
        exact .paren hlex (ihExpr he).1 (expect_eq_some_iff.mp hclose)
      · rename_i s₁ hlex
        obtain ⟨⟨e₁, s₂⟩, he, h⟩ := Option.map_eq_some_iff.mp h
        obtain ⟨rfl, rfl⟩ := Prod.mk.inj h
        exact .unary (show Reads s UnaryOp.compl.token s₁ from hlex) (ihAtom he)
      · rename_i s₁ hlex
        obtain ⟨⟨e₁, s₂⟩, he, h⟩ := Option.map_eq_some_iff.mp h
        obtain ⟨rfl, rfl⟩ := Prod.mk.inj h
        exact .unary (show Reads s UnaryOp.neg.token s₁ from hlex) (ihAtom he)
      · rename_i s₁ hlex
        obtain ⟨rfl, rfl⟩ := Prod.mk.inj (Option.some.inj h)
        exact .dot hlex
      · rename_i name s₁ hlex
        obtain ⟨rfl, rfl⟩ := Prod.mk.inj (Option.some.inj h)
        exact .loc hlex
      · rename_i t s₁ _ _ _ _ _ _ hlex
        obtain ⟨⟨i, isBits⟩, hi, h⟩ := Option.map_eq_some_iff.mp h
        obtain ⟨rfl, rfl⟩ := Prod.mk.inj h
        exact .immediate hlex hi
      · cases h
    · intro level s e s' h
      unfold parseExprAt at h
      obtain ⟨⟨e₁, s₁⟩, he, h⟩ := Option.bind_eq_some_iff.mp h
      exact ihOps h (.atom level (ihAtom he)) fun op _ ↦ .atom op.level (ihAtom he)
    · intro level s₀ left s e s' h hleft hnext
      unfold parseOps at h
      change (match nextOp s with | some op => _ | none => _) = _ at h
      split at h
      · rename_i op hop
        split at h
        · rename_i hlevel
          obtain ⟨⟨right, s₁⟩, hright, h⟩ := Option.bind_eq_some_iff.mp h
          obtain ⟨hderives, hstops⟩ := ihExpr hright
          have hreads := nextOp_eq_some_iff.mp hop
          apply ihOps h
          · exact .binop hlevel (hnext op hop) hreads hderives
          · intro op' hop'
            exact .binop (Nat.lt_succ_iff.mp (hstops op' hop')) (hnext op hop) hreads hderives
        · rename_i hlevel
          obtain ⟨rfl, rfl⟩ := Prod.mk.inj (Option.some.inj h)
          refine ⟨hleft, fun op' hop' ↦ ?_⟩
          obtain rfl := Option.some.inj (hop.symm.trans hop')
          exact Nat.lt_of_not_le hlevel
      · rename_i hop
        obtain ⟨rfl, rfl⟩ := Prod.mk.inj (Option.some.inj h)
        refine ⟨hleft, fun op' hop' ↦ ?_⟩
        rw [hop] at hop'
        cases hop'

/-- The level of the operator at the root, or one above all. -/
def ConstExpr.rootLevel {ρ : Type} : ConstExpr ρ → ℕ
  | .op2 op _ _ => op.level
  | _ => 7

theorem BinaryOp.level_lt (op : BinaryOp) : op.level < 7 := by
  cases op <;> decide

theorem Derives.length_lt {phrase : Phrase} {s s' : Scanner} {e : ConstExpr Name}
    (h : Derives phrase s e s') : s'.text.length < s.text.length := by
  induction h with
  | eref hat hname => exact hname.length_lt.trans hat.length_lt
  | paren hopen _ hclose ih => exact (hclose.length_lt.trans ih).trans hopen.length_lt
  | unary hop _ ih => exact ih.trans hop.length_lt
  | immediate ht _ => exact ht.length_lt
  | dot hdot => exact hdot.length_lt
  | loc hname => exact hname.length_lt
  | atom _ _ ih => exact ih
  | binop _ _ hop _ ihLeft ihRight => exact (ihRight.trans hop.length_lt).trans ihLeft

/-- What the parser does where a phrase is derived. An expression is found up to its last operand; it goes
on if operators follow. -/
def Found : Phrase → Scanner → ConstExpr Name → Scanner → Prop
  | .atom, s, e, s' => ∀ fuel, 2 * s.text.length + 1 ≤ fuel → parseAtom fuel s = some (e, s')
  | .expr level, s, e, s' => level ≤ 7 → level ≤ e.rootLevel ∧
      ((∀ op, nextOp s' = some op → op.level ≤ e.rootLevel) →
        ∀ lower ≤ level, ∀ fuel, 2 * s.text.length + 2 ≤ fuel →
          ∃ fuel', 2 * s'.text.length + 1 ≤ fuel' ∧
            parseExprAt fuel lower s = parseOps fuel' lower e s')

/-- The parser does not go on before a token that is no operator of the level. -/
theorem parseOps_of_stops {fuel level : ℕ} {e : ConstExpr Name} {s : Scanner} (h : Stops level s) :
    parseOps (fuel + 1) level e s = some (e, s) := by
  rw [parseOps]
  change (match nextOp s with | some op => _ | none => _) = _
  cases hop : nextOp s with
  | none => rfl
  | some op => exact if_neg (Nat.not_le_of_lt (h op hop))

theorem Derives.found {phrase : Phrase} {s s' : Scanner} {e : ConstExpr Name}
    (h : Derives phrase s e s') : Found phrase s e s' := by
  have hatom : ∀ fuel n : ℕ, 2 * n + 1 ≤ fuel → ∃ fuel', fuel = fuel' + 1 ∧ 2 * n ≤ fuel' :=
    fun fuel n hfuel ↦ ⟨fuel - 1, by omega, by omega⟩
  induction h with
  | @eref s s₁ s' name hat hname =>
    intro fuel hfuel
    obtain ⟨fuel, rfl, -⟩ := hatom _ _ hfuel
    rw [Reads] at hat hname
    simp only [parseAtom, hat, hname]
  | @paren s s₁ s₂ s' e hopen he hclose ih =>
    intro fuel hfuel
    obtain ⟨fuel, rfl, hfuel⟩ := hatom _ _ hfuel
    have hlt := hopen.length_lt
    have hstops : Stops 0 s₂ := by
      intro op hop
      have hreads := nextOp_eq_some_iff.mp hop
      rw [Reads] at hreads hclose
      rw [hclose] at hreads
      cases op <;> cases (Prod.mk.inj hreads).1
    obtain ⟨fuel', hfuel', hparse⟩ := (ih (Nat.zero_le 7)).2
      (fun op hop ↦ absurd (hstops op hop) (Nat.not_lt_zero _)) 0 le_rfl fuel (by omega)
    obtain ⟨fuel', rfl, -⟩ := hatom _ _ hfuel'
    rw [parseOps_of_stops hstops] at hparse
    rw [Reads] at hopen
    simp only [parseAtom, hopen, hparse, Option.bind_eq_bind, Option.bind_some,
      expect_eq_some_iff.mpr hclose]
  | @unary s s₁ s' op e hop he ih =>
    intro fuel hfuel
    obtain ⟨fuel, rfl, hfuel⟩ := hatom _ _ hfuel
    have hlt := hop.length_lt
    have hinner := ih fuel (by omega)
    rw [Reads] at hop
    cases op <;> simp only [UnaryOp.token] at hop <;> simp only [parseAtom, hop, hinner, Option.map_some]
  | @immediate s s' t i isBits ht hi =>
    intro fuel hfuel
    obtain ⟨fuel, rfl, -⟩ := hatom _ _ hfuel
    rw [Reads] at ht
    cases t <;> simp_all [parseAtom, Token.immediate]
  | @dot s s' hdot =>
    intro fuel hfuel
    obtain ⟨fuel, rfl, -⟩ := hatom _ _ hfuel
    rw [Reads] at hdot
    simp only [parseAtom, hdot]
  | @loc s s' name hname =>
    intro fuel hfuel
    obtain ⟨fuel, rfl, -⟩ := hatom _ _ hfuel
    rw [Reads] at hname
    simp only [parseAtom, hname]
  | @atom s s' e level he ih =>
    intro hlevel
    have hroot : e.rootLevel = 7 := by
      cases he <;> rfl
    refine ⟨hroot ▸ hlevel, fun _ lower _ fuel hfuel ↦ ?_⟩
    have hlt := he.length_lt
    obtain ⟨fuel, rfl, hfuel⟩ := hatom _ _ (Nat.le_of_succ_le hfuel)
    refine ⟨fuel, by omega, ?_⟩
    simp only [parseExprAt, ih fuel (by omega), Option.bind_eq_bind, Option.bind_some]
  | @binop s s₁ s₂ s' op left right level hlevel hleft hop hright ihLeft ihRight =>
    intro _
    refine ⟨hlevel, fun hfollow lower hlower fuel hfuel ↦ ?_⟩
    have hop7 := op.level_lt
    obtain ⟨hrootLeft, hleft'⟩ := ihLeft hop7.le
    obtain ⟨hrootRight, hright'⟩ := ihRight hop7
    have hnext : nextOp s₁ = some op := by
      rw [nextOp, hop]
      exact binaryOp_token op
    have hlt := hop.length_lt
    have hlt' := hright.length_lt
    obtain ⟨fuel₁, hfuel₁, hparse⟩ := hleft' (fun op' hop' ↦ by
      rw [hnext] at hop'
      exact Option.some.inj hop' ▸ hrootLeft) lower (hlower.trans hlevel) fuel hfuel
    obtain ⟨fuel₁, rfl, hfuel₁⟩ := hatom _ _ hfuel₁
    obtain ⟨fuel₂, hfuel₂, hparse'⟩ := hright'
      (fun op' hop' ↦ ((hfollow op' hop').trans (Nat.le_succ _)).trans hrootRight) (op.level + 1) le_rfl
      fuel₁ (by omega)
    obtain ⟨fuel₂, rfl, -⟩ := hatom _ _ hfuel₂
    have hstops : Stops (op.level + 1) s' := fun op' hop' ↦ Nat.lt_succ_iff.mpr (hfollow op' hop')
    rw [parseOps_of_stops hstops] at hparse'
    refine ⟨fuel₁, by omega, ?_⟩
    have hscan : (yylex s₁).2 = s₂ := by rw [hop]
    rw [hparse, parseOps]
    change (match nextOp s₁ with | some op => _ | none => _) = _
    rw [hnext]
    simp only [hlower.trans hlevel, if_true, hscan, hparse', Option.bind_eq_bind, Option.bind_some]

/-! ## Right-hand sides -/

theorem parseAtom_sound {fuel : ℕ} {s s' : Scanner} {e : ConstExpr Name}
    (h : parseAtom fuel s = some (e, s')) : Derives .atom s e s' := (parseExpr_sound fuel).1 h

/-- The next token is one of a kind. -/
def Begins (kind : Token → Prop) (s : Scanner) : Prop := ∃ t s₁, Reads s t s₁ ∧ kind t

/-- The tokens that an atom starts with. -/
def Token.startsAtom : Token → Bool
  | .char c => c ∈ ['@', '(', '~', '-', '.']
  | .loc _ | .integer _ | .bitstring _ | .character _ => true
  | _ => false

theorem Derives.head {phrase : Phrase} {s s' : Scanner} {e : ConstExpr Name}
    (h : Derives phrase s e s') : Begins (fun t ↦ t.startsAtom = true) s := by
  induction h with
  | eref hat _ => exact ⟨_, _, hat, rfl⟩
  | paren hopen _ _ _ => exact ⟨_, _, hopen, rfl⟩
  | @unary _ _ _ op _ hop _ _ => exact ⟨_, _, hop, by cases op <;> rfl⟩
  | @immediate _ _ t _ _ ht hi =>
    refine ⟨_, _, ht, ?_⟩
    cases t <;> first | rfl | cases hi
  | dot hdot => exact ⟨_, _, hdot, rfl⟩
  | loc hname => exact ⟨_, _, hname, rfl⟩
  | atom _ _ ih => exact ih
  | binop _ _ _ _ ihLeft _ => exact ihLeft

section

variable {fuel : ℕ} {s s₁ s₂ s' : Scanner} {t : Token} {e : ConstExpr Name} {x : RegIndex}
  {r : RhsPlain Name}

theorem Reads.unique {t' : Token} (h : Reads s t s₁) (h' : Reads s t' s₂) : t = t' ∧ s₁ = s₂ := by
  rw [Reads] at h h'
  rw [h] at h'
  exact ⟨Option.some.inj (Prod.mk.inj h').1, (Prod.mk.inj h').2⟩

theorem Reads.parseReg_eq_none (h : Reads s t s₁) (ht : ∀ c, t ≠ .register c) : parseReg s = none := by
  rw [Option.eq_none_iff_forall_ne_some]
  rintro ⟨x, s'⟩ hreg
  obtain ⟨c, hc, -⟩ := parseReg_eq_some_iff.mp hreg
  exact ht c (h.unique hc).1

theorem Derives.parseReg_eq_none (h : Derives .atom s e s') : parseReg s = none := by
  obtain ⟨t, s₁, ht, hstart⟩ := h.head
  apply ht.parseReg_eq_none
  rintro c rfl
  cases hstart

/-- An atom is no unary operator in front of a register. -/
theorem Derives.parseUnaryReg_eq_none (h : Derives .atom s e s') : parseUnaryReg s = none := by
  rw [Option.eq_none_iff_forall_ne_some]
  rintro ⟨⟨op, x⟩, s₂⟩ hunary
  obtain ⟨⟨op', s₁⟩, hop, hunary⟩ := Option.bind_eq_some_iff.mp hunary
  obtain ⟨⟨x', s₂'⟩, hreg, -⟩ := Option.bind_eq_some_iff.mp hunary
  have hop := parseUnaryOp_eq_some_iff.mp hop
  cases h with
  | eref hat _ => cases op' <;> cases (hop.unique hat).1
  | paren hopen _ _ => cases op' <;> cases (hop.unique hopen).1
  | unary hop' he =>
    obtain ⟨-, rfl⟩ := hop.unique hop'
    rw [he.parseReg_eq_none] at hreg
    cases hreg
  | immediate ht hi =>
    obtain ⟨rfl, -⟩ := hop.unique ht
    cases op' <;> cases hi
  | dot hdot => cases op' <;> cases (hop.unique hdot).1
  | loc hname => cases op' <;> cases (hop.unique hname).1

theorem parseAfterReg_sound (hx : ReadsReg s x s₁) (h : parseAfterReg fuel x s₁ = some (r, s')) :
    DerivesRhsPlain s r s' := by
  unfold parseAfterReg at h
  split at h
  · obtain ⟨rfl, rfl⟩ := Prod.mk.inj (Option.some.inj h)
    exact .reg hx
  · rename_i op s₂ hop
    have hop := parseBinop_eq_some_iff.mp hop
    split at h
    · rename_i y s₃ hy
      have hy := parseReg_eq_some_iff.mp hy
      split at h
      · rename_i sign s₄ hsign
        obtain ⟨⟨e, s₅⟩, he, h⟩ := Option.map_eq_some_iff.mp h
        obtain ⟨rfl, rfl⟩ := Prod.mk.inj h
        exact .regRegImm hx hop hy (parseRelocOp_eq_some_iff.mp hsign) (parseAtom_sound he)
      · obtain ⟨rfl, rfl⟩ := Prod.mk.inj (Option.some.inj h)
        exact .regReg hx hop hy
    · obtain ⟨⟨e, s₃⟩, he, h⟩ := Option.bind_eq_some_iff.mp h
      have he := parseAtom_sound he
      dsimp only at h
      split at h
      · rename_i s₄ hplus
        obtain ⟨⟨y, s₅⟩, hy, h⟩ := Option.map_eq_some_iff.mp h
        obtain ⟨rfl, rfl⟩ := Prod.mk.inj h
        exact .regImmReg hx hop he (expect_eq_some_iff.mp hplus) (parseReg_eq_some_iff.mp hy)
      · obtain ⟨rfl, rfl⟩ := Prod.mk.inj (Option.some.inj h)
        exact .regImm hx hop he

theorem parseAfterUnary_sound {op : InsnUnaryOp} (hop : Reads s op.token s₁) (hx : ReadsReg s₁ x s₂)
    (h : parseAfterUnary fuel op x s₂ = some (r, s')) : DerivesRhsPlain s r s' := by
  unfold parseAfterUnary at h
  split at h
  · obtain ⟨rfl, rfl⟩ := Prod.mk.inj (Option.some.inj h)
    exact .unaryReg hop hx
  · rename_i sign s₃ hsign
    have hsign := parseRelocOp_eq_some_iff.mp hsign
    have hatom : ∀ {r}, (parseAtom fuel s₃).map (fun (e, s') ↦ (.unaryRegImm op x sign e, s')) = some (r, s') →
        DerivesRhsPlain s r s' := by
      intro r h
      obtain ⟨⟨e, s₄⟩, he, h⟩ := Option.map_eq_some_iff.mp h
      obtain ⟨rfl, rfl⟩ := Prod.mk.inj h
      exact .unaryRegImm hop hx hsign (parseAtom_sound he)
    cases sign with
    | minus => exact hatom h
    | plus =>
      cases hreg : parseReg s₃ with
      | none =>
        rw [hreg] at h
        exact hatom h
      | some found =>
        rw [hreg] at h
        obtain ⟨rfl, rfl⟩ := Prod.mk.inj (Option.some.inj h)
        exact .unaryRegReg hop hx hsign (parseReg_eq_some_iff.mp hreg)

theorem parseFromAtom_sound (h : parseFromAtom fuel s = some (r, s')) : DerivesRhsPlain s r s' := by
  obtain ⟨⟨e, s₁⟩, he, h⟩ := Option.bind_eq_some_iff.mp h
  have he := parseAtom_sound he
  dsimp only at h
  split at h
  · obtain ⟨rfl, rfl⟩ := Prod.mk.inj (Option.some.inj h)
    exact .imm he
  · rename_i op s₂ hop
    have hop := parseBinop_eq_some_iff.mp hop
    obtain ⟨⟨x, s₃⟩, hx, h⟩ := Option.bind_eq_some_iff.mp h
    have hx := parseReg_eq_some_iff.mp hx
    dsimp only at h
    split at h
    · rename_i s₄ hplus
      obtain ⟨⟨y, s₅⟩, hy, h⟩ := Option.map_eq_some_iff.mp h
      obtain ⟨rfl, rfl⟩ := Prod.mk.inj h
      exact .immRegReg he hop hx (expect_eq_some_iff.mp hplus) (parseReg_eq_some_iff.mp hy)
    · obtain ⟨rfl, rfl⟩ := Prod.mk.inj (Option.some.inj h)
      exact .immReg he hop hx

theorem parseRhsPlain_sound (h : parseRhsPlain fuel s = some (r, s')) : DerivesRhsPlain s r s' := by
  unfold parseRhsPlain at h
  split at h
  · rename_i x s₁ hx
    exact parseAfterReg_sound (parseReg_eq_some_iff.mp hx) h
  · split at h
    · rename_i op x s₁ hunary
      obtain ⟨⟨op', s₂⟩, hop, hunary⟩ := Option.bind_eq_some_iff.mp hunary
      obtain ⟨⟨x', s₃⟩, hreg, heq⟩ := Option.bind_eq_some_iff.mp hunary
      obtain ⟨hpair, rfl⟩ := Prod.mk.inj (Option.some.inj heq)
      obtain ⟨rfl, rfl⟩ := Prod.mk.inj hpair
      exact parseAfterUnary_sound (parseUnaryOp_eq_some_iff.mp hop) (parseReg_eq_some_iff.mp hreg) h
    · exact parseFromAtom_sound h

/-- No operator is next, so that a right-hand side does not go on. -/
def NoBinop (s : Scanner) : Prop := parseBinop s = none

theorem NoBinop.parseRelocOp_eq_none (h : NoBinop s) : parseRelocOp s = none := by
  rw [Option.eq_none_iff_forall_ne_some]
  rintro ⟨sign, s'⟩ hsign
  have hsome : parseBinop s = some (if sign = .plus then .native .add else .native .subtract, s') := by
    apply parseBinop_eq_some_iff.mpr
    refine ⟨_, parseRelocOp_eq_some_iff.mp hsign, ?_⟩
    cases sign <;> rfl
  rw [h] at hsome
  cases hsome

theorem NoBinop.expect_eq_none (h : NoBinop s) : expect (.char '+') s = none := by
  rw [Option.eq_none_iff_forall_ne_some]
  intro s' hplus
  have hsome : parseBinop s = some (.native .add, s') :=
    parseBinop_eq_some_iff.mpr ⟨_, expect_eq_some_iff.mp hplus, rfl⟩
  rw [h] at hsome
  cases hsome

/-- A token that is no operator. -/
theorem Reads.noBinop (h : Reads s t s₁) (ht : t.binop = none) : NoBinop s := by
  rw [NoBinop, Option.eq_none_iff_forall_ne_some]
  rintro ⟨op, s'⟩ hop
  obtain ⟨t', ht', hbinop⟩ := parseBinop_eq_some_iff.mp hop
  obtain ⟨rfl, -⟩ := h.unique ht'
  rw [ht] at hbinop
  cases hbinop

theorem ReadsReg.length_lt (h : ReadsReg s x s') : s'.text.length < s.text.length := by
  obtain ⟨c, hc, -⟩ := h
  exact hc.length_lt

theorem ReadsBinop.length_lt {op : Binop} (h : ReadsBinop s op s') : s'.text.length < s.text.length := by
  obtain ⟨t, ht, -⟩ := h
  exact ht.length_lt

theorem DerivesRhsPlain.parse_eq (h : DerivesRhsPlain s r s') (hend : NoBinop s')
    (hfuel : 2 * s.text.length + 1 ≤ fuel) : parseRhsPlain fuel s = some (r, s') := by
  have hatom : ∀ {s₁ e s₂}, Derives .atom s₁ e s₂ → s₁.text.length ≤ s.text.length →
      parseAtom fuel s₁ = some (e, s₂) := fun he hle ↦ he.found fuel (by omega)
  have hunary : ∀ {op : InsnUnaryOp} {s₁ : Scanner}, Reads s op.token s₁ → parseReg s = none := by
    intro op s₁ hop
    apply hop.parseReg_eq_none
    rintro c hc
    cases op <;> cases hc
  have hunaryReg : ∀ {op : InsnUnaryOp} {s₁ x s₂}, Reads s op.token s₁ → ReadsReg s₁ x s₂ →
      parseUnaryReg s = some ((op, x), s₂) := by
    intro op s₁ x s₂ hop hx
    simp only [parseUnaryReg, parseUnaryOp_eq_some_iff.mpr hop, parseReg_eq_some_iff.mpr hx,
      Option.bind_eq_bind, Option.bind_some]
  unfold parseRhsPlain
  cases h with
  | regRegImm hx hop hy hsign he =>
    have hlt := (hsign.length_lt.trans hy.length_lt).trans (hop.length_lt.trans hx.length_lt)
    simp only [parseReg_eq_some_iff.mpr hx, parseAfterReg, parseBinop_eq_some_iff.mpr hop,
      parseReg_eq_some_iff.mpr hy, parseRelocOp_eq_some_iff.mpr hsign, hatom he hlt.le, Option.map_some]
  | regReg hx hop hy =>
    simp only [parseReg_eq_some_iff.mpr hx, parseAfterReg, parseBinop_eq_some_iff.mpr hop,
      parseReg_eq_some_iff.mpr hy, hend.parseRelocOp_eq_none]
  | reg hx =>
    rw [NoBinop] at hend
    simp only [parseReg_eq_some_iff.mpr hx, parseAfterReg, hend]
  | regImmReg hx hop he hplus hy =>
    have hlt := hop.length_lt.trans hx.length_lt
    simp only [parseReg_eq_some_iff.mpr hx, parseAfterReg, parseBinop_eq_some_iff.mpr hop,
      he.parseReg_eq_none, hatom he hlt.le, Option.bind_eq_bind, Option.bind_some,
      expect_eq_some_iff.mpr hplus, parseReg_eq_some_iff.mpr hy, Option.map_some]
  | regImm hx hop he =>
    have hlt := hop.length_lt.trans hx.length_lt
    simp only [parseReg_eq_some_iff.mpr hx, parseAfterReg, parseBinop_eq_some_iff.mpr hop,
      he.parseReg_eq_none, hatom he hlt.le, Option.bind_eq_bind, Option.bind_some, hend.expect_eq_none]
  | immRegReg he hop hx hplus hy =>
    simp only [he.parseReg_eq_none, he.parseUnaryReg_eq_none, parseFromAtom, hatom he le_rfl,
      Option.bind_eq_bind, Option.bind_some, parseBinop_eq_some_iff.mpr hop, parseReg_eq_some_iff.mpr hx,
      expect_eq_some_iff.mpr hplus, parseReg_eq_some_iff.mpr hy, Option.map_some]
  | immReg he hop hx =>
    simp only [he.parseReg_eq_none, he.parseUnaryReg_eq_none, parseFromAtom, hatom he le_rfl,
      Option.bind_eq_bind, Option.bind_some, parseBinop_eq_some_iff.mpr hop, parseReg_eq_some_iff.mpr hx,
      hend.expect_eq_none]
  | imm he =>
    rw [NoBinop] at hend
    simp only [he.parseReg_eq_none, he.parseUnaryReg_eq_none, parseFromAtom, hatom he le_rfl,
      Option.bind_eq_bind, Option.bind_some, hend]
  | @unaryRegImm _ _ _ _ op _ sign _ hop hx hsign he =>
    have hlt := (hsign.length_lt.trans hx.length_lt).trans hop.length_lt
    simp only [hunary hop, hunaryReg hop hx, parseAfterUnary, parseRelocOp_eq_some_iff.mpr hsign,
      he.parseReg_eq_none, hatom he hlt.le, Option.map_some]
  | unaryRegReg hop hx hplus hy =>
    have hsign := parseRelocOp_eq_some_iff.mpr (show Reads _ RelocOp.plus.token _ from hplus)
    simp only [hunary hop, hunaryReg hop hx, parseAfterUnary, hsign, parseReg_eq_some_iff.mpr hy]
  | unaryReg hop hx =>
    simp only [hunary hop, hunaryReg hop hx, parseAfterUnary, hend.parseRelocOp_eq_none]

theorem parseBracketed_sound {α : Type} {parse : Scanner → Option (α × Scanner)}
    {plain : Scanner → α → Scanner → Prop}
    (hparse : ∀ {s a s'}, parse s = some (a, s') → plain s a s') {a : Bool × α}
    (h : parseBracketed parse s = some (a, s')) : Bracketed plain s a s' := by
  unfold parseBracketed at h
  split at h
  · rename_i s₁ hopen
    obtain ⟨⟨b, s₂⟩, hb, h⟩ := Option.bind_eq_some_iff.mp h
    obtain ⟨s₃, hclose, h⟩ := Option.bind_eq_some_iff.mp h
    obtain ⟨rfl, rfl⟩ := Prod.mk.inj (Option.some.inj h)
    exact .deref (expect_eq_some_iff.mp hopen) (hparse hb) (expect_eq_some_iff.mp hclose)
  · obtain ⟨⟨b, s₂⟩, hb, h⟩ := Option.map_eq_some_iff.mp h
    obtain ⟨rfl, rfl⟩ := Prod.mk.inj h
    exact .plain (hparse hb)

theorem Reads.expect_eq_none {t' : Token} (h : Reads s t s₁) (ht : t ≠ t') : expect t' s = none := by
  rw [Option.eq_none_iff_forall_ne_some]
  intro s₂ hread
  exact ht (h.unique (expect_eq_some_iff.mp hread)).1

/-- A phrase without brackets is parsed right before what may follow it, a closing bracket for one. -/
theorem Bracketed.parse_eq {α : Type} {parse : Scanner → Option (α × Scanner)}
    {plain : Scanner → α → Scanner → Prop} {follow : Scanner → Prop} {a : Bool × α}
    (h : Bracketed plain s a s')
    (hparse : ∀ {s₁ a s₂}, plain s₁ a s₂ → follow s₂ → s₁.text.length ≤ s.text.length →
      parse s₁ = some (a, s₂))
    (head : ∀ {s₁ a s₂}, plain s₁ a s₂ → Begins (· ≠ .char '[') s₁)
    (hbracket : ∀ {s₁ s₂}, Reads s₁ (.char ']') s₂ → follow s₁) (hend : follow s') :
    parseBracketed parse s = some (a, s') := by
  unfold parseBracketed
  cases h with
  | plain ha =>
    obtain ⟨t, s₃, ht, hne⟩ := head ha
    simp only [ht.expect_eq_none hne, hparse ha hend le_rfl, Option.map_some]
  | deref hopen ha hclose =>
    simp only [expect_eq_some_iff.mpr hopen, hparse ha (hbracket hclose) hopen.length_lt.le,
      expect_eq_some_iff.mpr hclose, Option.bind_eq_bind, Option.bind_some]

theorem ReadsReg.head (h : ReadsReg s x s') : Begins (· ≠ .char '[') s := by
  obtain ⟨c, hc, -⟩ := h
  exact ⟨_, _, hc, Token.noConfusion⟩

theorem Derives.head_ne {phrase : Phrase} (h : Derives phrase s e s') {c : Char}
    (hc : (Token.char c).startsAtom = false) : Begins (· ≠ .char c) s := by
  obtain ⟨t, s₁, ht, hstart⟩ := h.head
  refine ⟨t, s₁, ht, ?_⟩
  rintro rfl
  exact Bool.false_ne_true (hc.symm.trans hstart)

theorem DerivesRhsPlain.head (h : DerivesRhsPlain s r s') : Begins (· ≠ .char '[') s := by
  have hunary : ∀ {op : InsnUnaryOp} {s₁ : Scanner}, Reads s op.token s₁ → Begins (· ≠ .char '[') s :=
    fun {op} {s₁} hop ↦ ⟨_, _, hop, by cases op <;> decide⟩
  cases h with
  | regRegImm hx | regReg hx | reg hx | regImmReg hx | regImm hx => exact hx.head
  | immRegReg he | immReg he | imm he => exact he.head_ne rfl
  | unaryRegImm hop | unaryRegReg hop | unaryReg hop => exact hunary hop

theorem parseInsnStmt_sound {stmt : InsnStmt Name} (h : parseInsnStmt fuel s = some (stmt, s')) :
    DerivesInsn s stmt s' := by
  obtain ⟨⟨lhs, s₁⟩, hlhs, h⟩ := Option.bind_eq_some_iff.mp h
  obtain ⟨⟨arrow, s₂⟩, harrow, h⟩ := Option.bind_eq_some_iff.mp h
  obtain ⟨⟨rhs, s₃⟩, hrhs, h⟩ := Option.bind_eq_some_iff.mp h
  obtain ⟨rfl, rfl⟩ := Prod.mk.inj (Option.some.inj h)
  exact .mk (parseBracketed_sound parseReg_eq_some_iff.mp hlhs) (parseArrow_eq_some_iff.mp harrow)
    (parseBracketed_sound parseRhsPlain_sound hrhs)

theorem Bracketed.length_lt {α : Type} {plain : Scanner → α → Scanner → Prop} {a : Bool × α}
    (h : Bracketed plain s a s')
    (hplain : ∀ {s₁ a s₂}, plain s₁ a s₂ → s₂.text.length < s₁.text.length) :
    s'.text.length < s.text.length := by
  cases h with
  | plain ha => exact hplain ha
  | deref hopen ha hclose => exact (hclose.length_lt.trans (hplain ha)).trans hopen.length_lt

theorem DerivesRhsPlain.length_lt (h : DerivesRhsPlain s r s') : s'.text.length < s.text.length := by
  cases h with
  | regRegImm hx hop hy hsign he =>
    exact ((he.length_lt.trans hsign.length_lt).trans hy.length_lt).trans (hop.length_lt.trans hx.length_lt)
  | regReg hx hop hy => exact hy.length_lt.trans (hop.length_lt.trans hx.length_lt)
  | reg hx => exact hx.length_lt
  | regImmReg hx hop he hplus hy =>
    exact ((hy.length_lt.trans hplus.length_lt).trans he.length_lt).trans (hop.length_lt.trans hx.length_lt)
  | regImm hx hop he => exact he.length_lt.trans (hop.length_lt.trans hx.length_lt)
  | immRegReg he hop hx hplus hy =>
    exact ((hy.length_lt.trans hplus.length_lt).trans hx.length_lt).trans (hop.length_lt.trans he.length_lt)
  | immReg he hop hx => exact hx.length_lt.trans (hop.length_lt.trans he.length_lt)
  | imm he => exact he.length_lt
  | unaryRegImm hop hx hsign he =>
    exact (he.length_lt.trans hsign.length_lt).trans (hx.length_lt.trans hop.length_lt)
  | unaryRegReg hop hx hplus hy =>
    exact (hy.length_lt.trans hplus.length_lt).trans (hx.length_lt.trans hop.length_lt)
  | unaryReg hop hx => exact hx.length_lt.trans hop.length_lt

theorem DerivesInsn.length_lt {stmt : InsnStmt Name} (h : DerivesInsn s stmt s') :
    s'.text.length < s.text.length := by
  cases h with
  | @mk s₁ s₂ _ lhs arrow rhs hlhs harrow hrhs =>
    have hlt : s'.text.length < s₂.text.length := hrhs.length_lt DerivesRhsPlain.length_lt
    have hlt' : s₂.text.length < s₁.text.length := harrow.length_lt
    exact (hlt.trans hlt').trans (hlhs.length_lt ReadsReg.length_lt)

theorem DerivesInsn.parse_eq {stmt : InsnStmt Name} (h : DerivesInsn s stmt s') (hend : NoBinop s')
    (hfuel : 2 * s.text.length + 1 ≤ fuel) : parseInsnStmt fuel s = some (stmt, s') := by
  cases h with
  | @mk s₁ s₂ _ lhs arrow rhs hlhs harrow hrhs =>
    have hlt := hlhs.length_lt ReadsReg.length_lt
    have hlt' : s₂.text.length < s₁.text.length := harrow.length_lt
    have hlhs' : parseBracketed parseReg s = some (lhs, s₁) :=
      hlhs.parse_eq (fun hx _ _ ↦ parseReg_eq_some_iff.mpr hx) ReadsReg.head (fun _ ↦ trivial) trivial
    have hrhs' : parseBracketed (parseRhsPlain fuel) s₂.pop = some (rhs, s') := by
      apply hrhs.parse_eq
      · intro s₃ r s₄ hr hnone hle
        have hle' : s₃.text.length ≤ s₂.text.length := hle
        exact hr.parse_eq hnone (by omega)
      · exact DerivesRhsPlain.head
      · exact fun hclose ↦ hclose.noBinop rfl
      · exact hend
    simp only [parseInsnStmt, hlhs', parseArrow_eq_some_iff.mpr harrow, hrhs', Option.bind_eq_bind,
      Option.bind_some]

end

/-! ## Repetitions -/

section

variable {α : Type} {phrase : Scanner → α → Scanner → Prop} {s s₁ s' : Scanner} {a : α} {l : List α}

theorem many_nil_iff : Many phrase s [] s' ↔ s = s' := by
  constructor
  · intro h
    generalize hl : ([] : List α) = l at h
    cases h with
    | nil => rfl
    | snoc => exact absurd hl.symm (List.append_ne_nil_of_right_ne_nil _ (List.cons_ne_nil _ _))
  · rintro rfl
    exact .nil s

theorem Many.cons (ha : phrase s a s₁) (h : Many phrase s₁ l s') : Many phrase s (a :: l) s' := by
  induction h with
  | nil => exact .snoc (.nil s) ha
  | snoc _ hb ih => exact .snoc ih hb

theorem many_cons_iff :
    Many phrase s (a :: l) s' ↔ ∃ s₁, phrase s a s₁ ∧ Many phrase s₁ l s' := by
  constructor
  · intro h
    generalize hl : a :: l = l' at h
    induction h generalizing l with
    | nil => cases hl
    | @snoc s₁ s' l₀ b hmany hb ih =>
      cases l₀ with
      | nil =>
        obtain ⟨rfl, rfl⟩ := List.cons.inj hl
        obtain rfl := many_nil_iff.mp hmany
        exact ⟨s', hb, .nil s'⟩
      | cons c l₁ =>
        obtain ⟨rfl, rfl⟩ := List.cons.inj hl
        obtain ⟨s₂, ha, hrest⟩ := ih rfl
        exact ⟨s₂, ha, .snoc hrest hb⟩
  · rintro ⟨s₁, ha, h⟩
    exact .cons ha h

theorem Many.length_le (h : Many phrase s l s')
    (hlt : ∀ {s₁ a s₂}, phrase s₁ a s₂ → s₂.text.length < s₁.text.length) :
    s'.text.length ≤ s.text.length := by
  induction h with
  | nil => exact le_rfl
  | snoc _ ha ih => exact (hlt ha).le.trans ih

theorem parseMany_sound {parse : Scanner → Option (α × Scanner)}
    (hparse : ∀ {s a s'}, parse s = some (a, s') → phrase s a s') (fuel : ℕ) (s : Scanner) :
    Many phrase s (parseMany parse fuel s).1 (parseMany parse fuel s).2 := by
  induction fuel generalizing s with
  | zero => exact .nil s
  | succ fuel ih =>
    rw [parseMany]
    cases ha : parse s with
    | none => exact .nil s
    | some found => exact .cons (hparse ha) (ih found.2)

/-- `follow` is what phrases are parsed before: another one, or what ends the repetition. -/
theorem Many.parse_eq {parse : Scanner → Option (α × Scanner)} {follow : Scanner → Prop}
    (h : Many phrase s l s')
    (hparse : ∀ {s₁ a s₂}, phrase s₁ a s₂ → follow s₂ → s₁.text.length ≤ s.text.length →
      parse s₁ = some (a, s₂))
    (hlt : ∀ {s₁ a s₂}, phrase s₁ a s₂ → s₂.text.length < s₁.text.length)
    (hfollow : ∀ {s₁ a s₂}, phrase s₁ a s₂ → follow s₁) (hend : follow s') (hnone : parse s' = none)
    {fuel : ℕ} (hfuel : s.text.length < fuel) : parseMany parse fuel s = (l, s') := by
  induction l generalizing s fuel with
  | nil =>
    obtain rfl := many_nil_iff.mp h
    obtain ⟨fuel, rfl⟩ : ∃ fuel', fuel = fuel' + 1 := ⟨fuel - 1, by omega⟩
    rw [parseMany, hnone]
  | cons a l ih =>
    obtain ⟨s₁, ha, hrest⟩ := many_cons_iff.mp h
    obtain ⟨fuel, rfl⟩ : ∃ fuel', fuel = fuel' + 1 := ⟨fuel - 1, by omega⟩
    have hlt₁ := hlt ha
    have hfollow₁ : follow s₁ := by
      cases l with
      | nil => exact many_nil_iff.mp hrest ▸ hend
      | cons b l =>
        obtain ⟨s₂, hb, -⟩ := many_cons_iff.mp hrest
        exact hfollow hb
    have hparse₁ : ∀ {s₂ b s₃}, phrase s₂ b s₃ → follow s₃ → s₂.text.length ≤ s₁.text.length →
        parse s₂ = some (b, s₃) := fun hb hf hle ↦ hparse hb hf (hle.trans hlt₁.le)
    rw [parseMany, hparse ha hfollow₁ le_rfl]
    dsimp only
    rw [ih hrest hparse₁ (by omega)]

end

section

variable {s s' : Scanner} {t : Token} {fuel : ℕ}

theorem parseNl_eq_some_iff {u : Unit} : parseNl s = some (u, s') ↔ ReadsNl s u s' := by
  unfold parseNl ReadsNl
  rw [Option.map_eq_some_iff]
  simp only [Prod.mk.injEq, expect_eq_some_iff]
  constructor
  · rintro ⟨s₁, h, -, rfl⟩
    exact h
  · exact fun h ↦ ⟨s', h, trivial, rfl⟩

theorem parseTerminator_eq_some_iff {u : Unit} :
    parseTerminator s = some (u, s') ↔ ReadsTerminator s u s' := by
  unfold parseTerminator ReadsTerminator Reads
  rcases hlex : yylex s with ⟨_ | t', s₁⟩
  · simp
  · split <;> simp_all

theorem parseSpan_eq_some_iff {span : Span} : parseSpan s = some (span, s') ↔ ReadsSpan s span s' := by
  unfold parseSpan ReadsSpan Reads
  rcases hlex : yylex s with ⟨_ | t', s₁⟩
  · simp
  · cases t' <;> simp [and_comm]

theorem ReadsTerminator.length_lt {u : Unit} (h : ReadsTerminator s u s') :
    s'.text.length < s.text.length := by
  rcases h with h | h
  · exact h.length_lt
  · exact h.length_lt

theorem optNl_skipNl (fuel : ℕ) (s : Scanner) : OptNl s (skipNl fuel s) :=
  ⟨_, parseMany_sound parseNl_eq_some_iff.mp fuel s⟩

theorem OptNl.skipNl_eq (h : OptNl s s') (hend : parseNl s' = none) (hfuel : s.text.length < fuel) :
    skipNl fuel s = s' := by
  obtain ⟨l, h⟩ := h
  have hmany := h.parse_eq (fun ha _ _ ↦ parseNl_eq_some_iff.mpr ha) Reads.length_lt (fun _ ↦ trivial)
    trivial hend hfuel
  rw [skipNl, hmany]

theorem OptNl.length_le (h : OptNl s s') : s'.text.length ≤ s.text.length := by
  obtain ⟨l, h⟩ := h
  exact h.length_le Reads.length_lt

/-! ## Statements -/

theorem Begins.expect_eq_none {kind : Token → Prop} (h : Begins kind s) (ht : ¬kind t) :
    expect t s = none := by
  obtain ⟨t', s₁, hread, hk⟩ := h
  apply hread.expect_eq_none
  rintro rfl
  exact ht hk

theorem Begins.parseNl_eq_none {kind : Token → Prop} (h : Begins kind s) (hnl : ¬kind (.char '\n')) :
    parseNl s = none := by
  rw [parseNl, h.expect_eq_none hnl, Option.map_none]

theorem parseStringelt_sound {literal : StringLiteral} (h : parseStringelt fuel s = some (literal, s')) :
    DerivesStringelt s literal s' := by
  obtain ⟨s₁, hopen, h⟩ := Option.bind_eq_some_iff.mp h
  obtain ⟨s₂, hclose, h⟩ := Option.bind_eq_some_iff.mp h
  obtain ⟨rfl, rfl⟩ := Prod.mk.inj (Option.some.inj h)
  exact .mk (expect_eq_some_iff.mp hopen) (parseMany_sound parseSpan_eq_some_iff.mp fuel s₁)
    (expect_eq_some_iff.mp hclose)

theorem DerivesStringelt.parse_eq {literal : StringLiteral} (h : DerivesStringelt s literal s')
    (hfuel : s.text.length < fuel) : parseStringelt fuel s = some (literal, s') := by
  cases h with
  | @mk s₁ s₂ _ spans hopen hspans hclose =>
    have hnone : parseSpan s₂ = none := by
      rw [Option.eq_none_iff_forall_ne_some]
      rintro ⟨span, s₃⟩ hspan
      cases (hclose.unique (parseSpan_eq_some_iff.mp hspan)).1
    have hmany := hspans.parse_eq (fun ha _ _ ↦ parseSpan_eq_some_iff.mpr ha) Reads.length_lt
      (fun _ ↦ trivial) trivial hnone (hopen.length_lt.trans hfuel)
    simp only [parseStringelt, expect_eq_some_iff.mpr hopen, hmany, expect_eq_some_iff.mpr hclose,
      Option.bind_eq_bind, Option.bind_some]

theorem DerivesStringelt.length_lt {literal : StringLiteral} (h : DerivesStringelt s literal s') :
    s'.text.length < s.text.length := by
  cases h with
  | mk hopen hspans hclose =>
    exact (hclose.length_lt.trans_le (hspans.length_le Reads.length_lt)).trans hopen.length_lt

theorem parseString_sound {literals : List StringLiteral} (h : parseString fuel s = some (literals, s')) :
    DerivesString s literals s' := by
  have hmany : Many DerivesStringelt s (parseMany (parseStringelt fuel) fuel s).1
      (parseMany (parseStringelt fuel) fuel s).2 := parseMany_sound parseStringelt_sound fuel s
  unfold parseString at h
  generalize parseMany (parseStringelt fuel) fuel s = found at h hmany
  obtain ⟨_ | ⟨literal, rest⟩, s₁⟩ := found
  · cases h
  · obtain ⟨rfl, rfl⟩ := Prod.mk.inj (Option.some.inj h)
    exact ⟨List.cons_ne_nil _ _, hmany⟩

theorem DerivesString.parse_eq {literals : List StringLiteral} (h : DerivesString s literals s')
    (hend : expect .opnquote s' = none) (hfuel : s.text.length < fuel) :
    parseString fuel s = some (literals, s') := by
  have hnone : parseStringelt fuel s' = none := by
    rw [parseStringelt, hend]
    rfl
  obtain ⟨hne, hmany⟩ := h
  have hparse := hmany.parse_eq (fun ha _ hle ↦ ha.parse_eq (hle.trans_lt hfuel))
    DerivesStringelt.length_lt (fun _ ↦ trivial) trivial hnone hfuel
  unfold parseString
  rw [hparse]
  cases literals with
  | nil => exact absurd rfl hne
  | cons => rfl

theorem DerivesString.length_lt {literals : List StringLiteral} (h : DerivesString s literals s') :
    s'.text.length < s.text.length := by
  obtain ⟨hne, hmany⟩ := h
  obtain ⟨literal, rest, rfl⟩ := List.exists_cons_of_ne_nil hne
  obtain ⟨s₁, hfirst, hrest⟩ := many_cons_iff.mp hmany
  exact (hrest.length_le DerivesStringelt.length_lt).trans_lt hfirst.length_lt

theorem DerivesString.head {literals : List StringLiteral} (h : DerivesString s literals s') :
    Begins (· = .opnquote) s := by
  obtain ⟨hne, hmany⟩ := h
  obtain ⟨literal, rest, rfl⟩ := List.exists_cons_of_ne_nil hne
  obtain ⟨s₁, hfirst, -⟩ := many_cons_iff.mp hmany
  cases hfirst with
  | mk hopen => exact ⟨_, _, hopen, rfl⟩

/-- The tokens that end a statement. -/
def Token.Ends (t : Token) : Prop := t = .char '\n' ∨ t = .char ';'

theorem ReadsTerminator.begins {u : Unit} (h : ReadsTerminator s u s') : Begins Token.Ends s := by
  rcases h with h | h
  · exact ⟨_, _, h, .inl rfl⟩
  · exact ⟨_, _, h, .inr rfl⟩

theorem Begins.noBinop (h : Begins Token.Ends s) : NoBinop s := by
  obtain ⟨t, s₁, ht, hends⟩ := h
  apply ht.noBinop
  rcases hends with rfl | rfl <;> rfl

theorem Begins.nextOp_eq_none (h : Begins Token.Ends s) : nextOp s = none := by
  obtain ⟨t, s₁, ht, hends⟩ := h
  rw [nextOp, ht]
  rcases hends with rfl | rfl <;> rfl

theorem Derives.parseExprAt_eq {e : ConstExpr Name} (h : Derives (.expr 0) s e s')
    (hend : nextOp s' = none) (hfuel : 2 * s.text.length + 2 ≤ fuel) :
    parseExprAt fuel 0 s = some (e, s') := by
  have hnone : ∀ {op}, nextOp s' ≠ some op := by
    intro op
    rw [hend]
    exact (Option.some_ne_none op).symm
  obtain ⟨fuel', hfuel', hparse⟩ :=
    (h.found (Nat.zero_le 7)).2 (fun op hop ↦ absurd hop hnone) 0 le_rfl fuel hfuel
  obtain ⟨fuel', rfl⟩ : ∃ fuel'', fuel' = fuel'' + 1 := ⟨fuel' - 1, by omega⟩
  rw [hparse, parseOps_of_stops fun op hop ↦ absurd hop hnone]

theorem parseExprAt_sound {level : ℕ} {e : ConstExpr Name} (h : parseExprAt fuel level s = some (e, s')) :
    Derives (.expr level) s e s' := ((parseExpr_sound fuel).2.1 h).1

theorem parseExprList_sound {exprs : List (ConstExpr Name)}
    (h : parseExprList fuel s = some (exprs, s')) : DerivesExprList s exprs s' := by
  induction fuel generalizing s exprs with
  | zero => cases h
  | succ fuel ih =>
    obtain ⟨⟨e, s₁⟩, he, h⟩ := Option.bind_eq_some_iff.mp h
    dsimp only at h
    split at h
    · rename_i s₂ hcomma
      obtain ⟨⟨rest, s₃⟩, hrest, h⟩ := Option.map_eq_some_iff.mp h
      obtain ⟨rfl, rfl⟩ := Prod.mk.inj h
      exact .cons (parseExprAt_sound he) (expect_eq_some_iff.mp hcomma) (optNl_skipNl fuel s₂) (ih hrest)
    · obtain ⟨rfl, rfl⟩ := Prod.mk.inj (Option.some.inj h)
      exact .one (parseExprAt_sound he)

theorem DerivesExprList.length_lt {exprs : List (ConstExpr Name)} (h : DerivesExprList s exprs s') :
    s'.text.length < s.text.length := by
  induction h with
  | one he => exact he.length_lt
  | cons he hcomma hnl _ ih =>
    exact (ih.trans_le hnl.length_le).trans (hcomma.length_lt.trans he.length_lt)

theorem DerivesExprList.head {exprs : List (ConstExpr Name)} (h : DerivesExprList s exprs s') :
    Begins (fun t ↦ t.startsAtom = true) s := by
  cases h with
  | one he | cons he => exact he.head

theorem DerivesExprList.parse_eq {exprs : List (ConstExpr Name)} (h : DerivesExprList s exprs s')
    (hend : Begins Token.Ends s') (hfuel : 2 * s.text.length + 3 ≤ fuel) :
    parseExprList fuel s = some (exprs, s') := by
  induction h generalizing fuel with
  | one he =>
    obtain ⟨fuel, rfl⟩ : ∃ fuel', fuel = fuel' + 1 := ⟨fuel - 1, by omega⟩
    have hcomma := hend.expect_eq_none (t := .char ',') (by simp [Token.Ends])
    simp only [parseExprList, he.parseExprAt_eq hend.nextOp_eq_none (by omega : _ ≤ fuel), hcomma,
      Option.bind_eq_bind, Option.bind_some]
  | @cons s s₁ s₂ s₃ s' e rest he hcomma hnl hrest ih =>
    obtain ⟨fuel, rfl⟩ : ∃ fuel', fuel = fuel' + 1 := ⟨fuel - 1, by omega⟩
    have hlt := he.length_lt
    have hlt' := hcomma.length_lt
    have hle := hnl.length_le
    have hop : nextOp s₁ = none := by
      rw [nextOp, hcomma]
      rfl
    have hskip : skipNl fuel s₂ = s₃ :=
      hnl.skipNl_eq (hrest.head.parseNl_eq_none Bool.false_ne_true) (by omega)
    simp only [parseExprList, he.parseExprAt_eq hop (by omega : _ ≤ fuel), expect_eq_some_iff.mpr hcomma,
      hskip, ih hend (by omega : _ ≤ fuel), Option.bind_eq_bind, Option.bind_some, Option.map_some]

theorem parseElementText_sound {e : Element} {pops : Bool}
    (h : parseElementText fuel s = some ((e, pops), s')) : DerivesElement s e pops s' := by
  induction fuel generalizing s e pops with
  | zero => cases h
  | succ fuel ih =>
    have hlabel : ∀ {name s₁}, ReadsSymbol s name s₁ → (do
        let s₂ ← expect (.char ':') s₁
        let ((inner, pops), s') ← parseElementText fuel (skipNl fuel s₂)
        some ((.labelled name inner, pops), s')) = some ((e, pops), s') → DerivesElement s e pops s' := by
      intro name s₁ hname h
      obtain ⟨s₂, hcolon, h⟩ := Option.bind_eq_some_iff.mp h
      obtain ⟨⟨⟨inner, pops'⟩, s₃⟩, hinner, h⟩ := Option.bind_eq_some_iff.mp h
      obtain ⟨hpair, rfl⟩ := Prod.mk.inj (Option.some.inj h)
      obtain ⟨rfl, rfl⟩ := Prod.mk.inj hpair
      exact .labelled hname (expect_eq_some_iff.mp hcolon) (optNl_skipNl fuel s₂) (ih hinner)
    unfold parseElementText at h
    split at h
    · rename_i s₁ hlex
      obtain ⟨⟨exprs, s₂⟩, hexprs, h⟩ := Option.map_eq_some_iff.mp h
      obtain ⟨hpair, rfl⟩ := Prod.mk.inj h
      obtain ⟨rfl, rfl⟩ := Prod.mk.inj hpair
      exact .word hlex (optNl_skipNl fuel s₁) (parseExprList_sound hexprs)
    · rename_i s₁ hlex
      obtain ⟨⟨size, s₂⟩, hsize, h⟩ := Option.map_eq_some_iff.mp h
      obtain ⟨hpair, rfl⟩ := Prod.mk.inj h
      obtain ⟨rfl, rfl⟩ := Prod.mk.inj hpair
      exact .zero hlex (optNl_skipNl fuel s₁) (parseExprAt_sound hsize)
    · rename_i s₁ hlex
      obtain ⟨⟨literals, s₂⟩, hstring, h⟩ := Option.map_eq_some_iff.mp h
      obtain ⟨hpair, rfl⟩ := Prod.mk.inj h
      obtain ⟨rfl, rfl⟩ := Prod.mk.inj hpair
      exact .utf32 hlex (optNl_skipNl fuel s₁) (parseString_sound hstring)
    · rename_i s₁ hlex
      obtain ⟨hpair, rfl⟩ := Prod.mk.inj (Option.some.inj h)
      obtain ⟨rfl, rfl⟩ := Prod.mk.inj hpair
      exact .illegal hlex
    · rename_i name s₁ hlex
      exact hlabel (.inl hlex) h
    · rename_i name s₁ hlex
      exact hlabel (.inr hlex) h
    · obtain ⟨⟨stmt, s₂⟩, hstmt, h⟩ := Option.map_eq_some_iff.mp h
      obtain ⟨hpair, rfl⟩ := Prod.mk.inj h
      obtain ⟨rfl, rfl⟩ := Prod.mk.inj hpair
      exact .insn (parseInsnStmt_sound hstmt)

/-- The tokens that an instruction starts with. -/
theorem DerivesInsn.head {stmt : InsnStmt Name} (h : DerivesInsn s stmt s') :
    Begins (fun t ↦ t = .char '[' ∨ ∃ c, t = .register c) s := by
  cases h with
  | mk hlhs =>
    cases hlhs with
    | plain hx =>
      obtain ⟨c, hc, -⟩ := hx
      exact ⟨_, _, hc, .inr ⟨c, rfl⟩⟩
    | deref hopen => exact ⟨_, _, hopen, .inl rfl⟩

theorem DerivesElement.length_lt {e : Element} {pops : Bool} (h : DerivesElement s e pops s') :
    s'.text.length < s.text.length := by
  induction h with
  | word hword hnl hexprs => exact (hexprs.length_lt.trans_le hnl.length_le).trans hword.length_lt
  | zero hzero hnl hsize => exact (hsize.length_lt.trans_le hnl.length_le).trans hzero.length_lt
  | utf32 hutf32 hnl hstring => exact (hstring.length_lt.trans_le hnl.length_le).trans hutf32.length_lt
  | illegal hillegal => exact hillegal.length_lt
  | insn hinsn => exact hinsn.length_lt
  | labelled hname hcolon hnl _ ih =>
    have hrest := (ih.trans_le hnl.length_le).trans hcolon.length_lt
    rcases hname with hname | hname
    · exact hrest.trans hname.length_lt
    · exact hrest.trans hname.length_lt

/-- The tokens that an element starts with. -/
def Token.startsElement : Token → Bool
  | .char c => c == '['
  | .word | .zero | .utf32 | .illegal | .register _ | .symbol _ | .loc _ => true
  | _ => false

theorem DerivesElement.head {e : Element} {pops : Bool} (h : DerivesElement s e pops s') :
    Begins (fun t ↦ t.startsElement = true) s := by
  cases h with
  | word hword => exact ⟨_, _, hword, rfl⟩
  | zero hzero => exact ⟨_, _, hzero, rfl⟩
  | utf32 hutf32 => exact ⟨_, _, hutf32, rfl⟩
  | illegal hillegal => exact ⟨_, _, hillegal, rfl⟩
  | insn hinsn =>
    obtain ⟨t, s₁, ht, rfl | ⟨c, rfl⟩⟩ := hinsn.head
    · exact ⟨_, _, ht, rfl⟩
    · exact ⟨_, _, ht, rfl⟩
  | labelled hname =>
    rcases hname with hname | hname
    · exact ⟨_, _, hname, rfl⟩
    · exact ⟨_, _, hname, rfl⟩

theorem DerivesElement.parse_eq {e : Element} {pops : Bool} (h : DerivesElement s e pops s')
    (hend : Begins Token.Ends s') (hfuel : 2 * s.text.length + 2 ≤ fuel) :
    parseElementText fuel s = some ((e, pops), s') := by
  induction h generalizing fuel with
  | @word s s₁ s₂ s' exprs hword hnl hexprs =>
    obtain ⟨fuel, rfl⟩ : ∃ fuel', fuel = fuel' + 1 := ⟨fuel - 1, by omega⟩
    have hlt := hword.length_lt
    have hle := hnl.length_le
    have hskip : skipNl fuel s₁ = s₂ :=
      hnl.skipNl_eq (hexprs.head.parseNl_eq_none Bool.false_ne_true) (by omega)
    rw [Reads] at hword
    simp only [parseElementText, hword, hskip, hexprs.parse_eq hend (by omega : _ ≤ fuel), Option.map_some]
  | @zero s s₁ s₂ s' size hzero hnl hsize =>
    obtain ⟨fuel, rfl⟩ : ∃ fuel', fuel = fuel' + 1 := ⟨fuel - 1, by omega⟩
    have hlt := hzero.length_lt
    have hle := hnl.length_le
    have hskip : skipNl fuel s₁ = s₂ :=
      hnl.skipNl_eq (hsize.head.parseNl_eq_none Bool.false_ne_true) (by omega)
    rw [Reads] at hzero
    simp only [parseElementText, hzero, hskip,
      hsize.parseExprAt_eq hend.nextOp_eq_none (by omega : _ ≤ fuel), Option.map_some]
  | @utf32 s s₁ s₂ s' literals hutf32 hnl hstring =>
    obtain ⟨fuel, rfl⟩ : ∃ fuel', fuel = fuel' + 1 := ⟨fuel - 1, by omega⟩
    have hlt := hutf32.length_lt
    have hle := hnl.length_le
    have hskip : skipNl fuel s₁ = s₂ :=
      hnl.skipNl_eq (hstring.head.parseNl_eq_none Token.noConfusion) (by omega)
    have hquote := hend.expect_eq_none (t := .opnquote) (by simp [Token.Ends])
    rw [Reads] at hutf32
    simp only [parseElementText, hutf32, hskip, hstring.parse_eq hquote (by omega : _ < fuel),
      Option.map_some]
  | illegal hillegal =>
    obtain ⟨fuel, rfl⟩ : ∃ fuel', fuel = fuel' + 1 := ⟨fuel - 1, by omega⟩
    rw [Reads] at hillegal
    simp only [parseElementText, hillegal]
  | @insn s s' stmt hinsn =>
    obtain ⟨fuel, rfl⟩ : ∃ fuel', fuel = fuel' + 1 := ⟨fuel - 1, by omega⟩
    have hparse := hinsn.parse_eq hend.noBinop (by omega : _ ≤ fuel)
    obtain ⟨t, s₁, ht, hkind⟩ := hinsn.head
    rw [Reads] at ht
    rcases hkind with rfl | ⟨c, rfl⟩
    · simp only [parseElementText, ht, hparse, Option.map_some]
    · simp only [parseElementText, ht, hparse, Option.map_some]
  | @labelled s s₁ s₂ s₃ s' name inner pops hname hcolon hnl hinner ih =>
    obtain ⟨fuel, rfl⟩ : ∃ fuel', fuel = fuel' + 1 := ⟨fuel - 1, by omega⟩
    have hle := hnl.length_le
    have hlt := hcolon.length_lt
    rcases hname with hname | hname
    · have hlt' := hname.length_lt
      have hskip : skipNl fuel s₂ = s₃ := hnl.skipNl_eq (hinner.head.parseNl_eq_none Bool.false_ne_true) (by omega)
      rw [Reads] at hname
      simp only [parseElementText, hname, expect_eq_some_iff.mpr hcolon, hskip,
        ih hend (by omega : _ ≤ fuel), Option.bind_eq_bind, Option.bind_some]
    · have hlt' := hname.length_lt
      have hskip : skipNl fuel s₂ = s₃ := hnl.skipNl_eq (hinner.head.parseNl_eq_none Bool.false_ne_true) (by omega)
      rw [Reads] at hname
      simp only [parseElementText, hname, expect_eq_some_iff.mpr hcolon, hskip,
        ih hend (by omega : _ ≤ fuel), Option.bind_eq_bind, Option.bind_some]

theorem parseStatementText_sound {stmt : Statement} {pops : Bool}
    (h : parseStatementText fuel s = some ((stmt, pops), s')) : DerivesStatement s stmt pops s' := by
  unfold parseStatementText at h
  split at h
  · rename_i s₁ hlex
    obtain ⟨⟨name, s₂⟩, hname, h⟩ := Option.map_eq_some_iff.mp h
    obtain ⟨hpair, rfl⟩ := Prod.mk.inj h
    obtain ⟨rfl, rfl⟩ := Prod.mk.inj hpair
    exact .global hlex (optNl_skipNl fuel s₁) (parseSymbol_eq_some_iff.mp hname)
  · rename_i s₁ hlex
    obtain ⟨⟨name, s₂⟩, hname, h⟩ := Option.bind_eq_some_iff.mp h
    obtain ⟨s₃, hcomma, h⟩ := Option.bind_eq_some_iff.mp h
    obtain ⟨⟨e, s₄⟩, he, h⟩ := Option.bind_eq_some_iff.mp h
    obtain ⟨hpair, rfl⟩ := Prod.mk.inj (Option.some.inj h)
    obtain ⟨rfl, rfl⟩ := Prod.mk.inj hpair
    exact .set hlex (optNl_skipNl fuel s₁) (parseSymbol_eq_some_iff.mp hname)
      (expect_eq_some_iff.mp hcomma) (parseExprAt_sound he)
  · rename_i s₁ hlex
    obtain ⟨⟨key, s₂⟩, hkey, h⟩ := Option.bind_eq_some_iff.mp h
    dsimp only at h
    split at h
    · rename_i s₃ hcomma
      obtain ⟨⟨value, s₄⟩, hvalue, h⟩ := Option.map_eq_some_iff.mp h
      obtain ⟨hpair, rfl⟩ := Prod.mk.inj h
      obtain ⟨rfl, rfl⟩ := Prod.mk.inj hpair
      exact .optionValue hlex (optNl_skipNl fuel s₁) (parseString_sound hkey)
        (expect_eq_some_iff.mp hcomma) (parseString_sound hvalue)
    · obtain ⟨hpair, rfl⟩ := Prod.mk.inj (Option.some.inj h)
      obtain ⟨rfl, rfl⟩ := Prod.mk.inj hpair
      exact .option hlex (optNl_skipNl fuel s₁) (parseString_sound hkey)
  · obtain ⟨⟨⟨e, pops'⟩, s₂⟩, he, h⟩ := Option.map_eq_some_iff.mp h
    obtain ⟨hpair, rfl⟩ := Prod.mk.inj h
    obtain ⟨rfl, rfl⟩ := Prod.mk.inj hpair
    exact .element (parseElementText_sound he)

theorem DerivesStatement.parse_eq {stmt : Statement} {pops : Bool} (h : DerivesStatement s stmt pops s')
    (hend : Begins Token.Ends s') (hfuel : 2 * s.text.length + 2 ≤ fuel) :
    parseStatementText fuel s = some ((stmt, pops), s') := by
  have hsymbol : ∀ {s₁ name s₂}, Reads s₁ (.symbol name) s₂ → parseNl s₁ = none := by
    intro s₁ name s₂ hname
    rw [parseNl, hname.expect_eq_none Token.noConfusion, Option.map_none]
  cases h with
  | element he =>
    have hparse := he.parse_eq hend hfuel
    obtain ⟨t, s₁, ht, hstart⟩ := he.head
    rw [Reads] at ht
    unfold parseStatementText
    split
    · rename_i hlex
      cases ht.symm.trans hlex
      cases hstart
    · rename_i hlex
      cases ht.symm.trans hlex
      cases hstart
    · rename_i hlex
      cases ht.symm.trans hlex
      cases hstart
    · rw [hparse, Option.map_some]
  | @global s₁ s₂ s₃ name hglobal hnl hname =>
    have hlt := hglobal.length_lt
    have hskip : skipNl fuel s₁ = s₂ := hnl.skipNl_eq (hsymbol hname) (by omega)
    rw [Reads] at hglobal
    simp only [parseStatementText, hglobal, hskip, parseSymbol_eq_some_iff.mpr hname, Option.map_some]
  | @set s₁ s₂ s₃ s₄ _ name e hset hnl hname hcomma he =>
    have hlt := hset.length_lt
    have hlt' := hname.length_lt
    have hlt'' := hcomma.length_lt
    have hle := hnl.length_le
    have hskip : skipNl fuel s₁ = s₂ := hnl.skipNl_eq (hsymbol hname) (by omega)
    rw [Reads] at hset
    simp only [parseStatementText, hset, hskip, parseSymbol_eq_some_iff.mpr hname,
      expect_eq_some_iff.mpr hcomma, he.parseExprAt_eq hend.nextOp_eq_none (by omega : _ ≤ fuel),
      Option.bind_eq_bind, Option.bind_some]
  | @option s₁ s₂ _ key hoption hnl hkey =>
    have hlt := hoption.length_lt
    have hle := hnl.length_le
    have hskip : skipNl fuel s₁ = s₂ :=
      hnl.skipNl_eq (hkey.head.parseNl_eq_none Token.noConfusion) (by omega)
    have hquote := hend.expect_eq_none (t := .opnquote) (by simp [Token.Ends])
    have hcomma := hend.expect_eq_none (t := .char ',') (by simp [Token.Ends])
    rw [Reads] at hoption
    simp only [parseStatementText, hoption, hskip, hkey.parse_eq hquote (by omega : _ < fuel), hcomma,
      Option.bind_eq_bind, Option.bind_some]
  | @optionValue s₁ s₂ s₃ s₄ _ key value hoption hnl hkey hcomma hvalue =>
    have hlt := hoption.length_lt
    have hlt' := hkey.length_lt
    have hlt'' := hcomma.length_lt
    have hle := hnl.length_le
    have hskip : skipNl fuel s₁ = s₂ :=
      hnl.skipNl_eq (hkey.head.parseNl_eq_none Token.noConfusion) (by omega)
    have hquote := hend.expect_eq_none (t := .opnquote) (by simp [Token.Ends])
    have hquote' : expect .opnquote _ = none := hcomma.expect_eq_none Token.noConfusion
    rw [Reads] at hoption
    simp only [parseStatementText, hoption, hskip, hkey.parse_eq hquote' (by omega : _ < fuel),
      expect_eq_some_iff.mpr hcomma, hvalue.parse_eq hquote (by omega : _ < fuel), Option.bind_eq_bind,
      Option.bind_some, Option.map_some]

theorem DerivesStatement.head {stmt : Statement} {pops : Bool} (h : DerivesStatement s stmt pops s') :
    Begins (fun t ↦ ¬t.Ends) s := by
  cases h with
  | element he =>
    obtain ⟨t, s₁, ht, hstart⟩ := he.head
    refine ⟨t, s₁, ht, ?_⟩
    rintro (rfl | rfl) <;> cases hstart
  | global hglobal => exact ⟨_, _, hglobal, by simp [Token.Ends]⟩
  | set hset => exact ⟨_, _, hset, by simp [Token.Ends]⟩
  | option hoption | optionValue hoption => exact ⟨_, _, hoption, by simp [Token.Ends]⟩

/-! ## The text as a whole -/

theorem parseTerminator_eq_none (h : ∀ {s'}, ¬ReadsTerminator s () s') : parseTerminator s = none := by
  rw [Option.eq_none_iff_forall_ne_some]
  exact fun found hfound ↦ h (parseTerminator_eq_some_iff.mp hfound)

/-- Terminators have an end before a statement. -/
theorem Begins.parseTerminator_eq_none (h : Begins (fun t ↦ ¬t.Ends) s) : parseTerminator s = none := by
  obtain ⟨t, s₁, ht, hends⟩ := h
  apply Tenyr.Asm.parseTerminator_eq_none
  rintro s' (h | h)
  · exact hends (.inl (ht.unique h).1)
  · exact hends (.inr (ht.unique h).1)

theorem parseLine_sound {stmt : Statement} (h : parseLine fuel s = some (stmt, s')) :
    DerivesLine s stmt s' := by
  obtain ⟨⟨⟨stmt', pops⟩, s₁⟩, hstmt, h⟩ := Option.bind_eq_some_iff.mp h
  obtain ⟨⟨u, s₂⟩, hterm, h⟩ := Option.bind_eq_some_iff.mp h
  obtain ⟨rfl, rfl⟩ := Prod.mk.inj (Option.some.inj h)
  exact .mk (parseStatementText_sound hstmt) (parseTerminator_eq_some_iff.mp hterm)
    ⟨_, parseMany_sound parseTerminator_eq_some_iff.mp _ _⟩

theorem DerivesStatement.length_lt {stmt : Statement} {pops : Bool} (h : DerivesStatement s stmt pops s') :
    s'.text.length < s.text.length := by
  cases h with
  | element he => exact he.length_lt
  | global hglobal hnl hname => exact (Reads.length_lt hname).trans_le (hnl.length_le.trans hglobal.length_lt.le)
  | set hset hnl hname hcomma he =>
    exact ((he.length_lt.trans hcomma.length_lt).trans hname.length_lt).trans_le
      (hnl.length_le.trans hset.length_lt.le)
  | option hoption hnl hkey => exact hkey.length_lt.trans_le (hnl.length_le.trans hoption.length_lt.le)
  | optionValue hoption hnl hkey hcomma hvalue =>
    exact ((hvalue.length_lt.trans hcomma.length_lt).trans hkey.length_lt).trans_le
      (hnl.length_le.trans hoption.length_lt.le)

theorem DerivesLine.parse_eq {stmt : Statement} (h : DerivesLine s stmt s')
    (hend : parseTerminator s' = none) (hfuel : 2 * s.text.length + 2 ≤ fuel) :
    parseLine fuel s = some (stmt, s') := by
  cases h with
  | @mk s₁ s₂ _ _ pops hstmt hterm hmore =>
    obtain ⟨l, hmore⟩ := hmore
    have hlt := hstmt.length_lt
    have hlt' := hterm.length_lt
    have htext : (if pops then s₂.pop else s₂).text.length = s₂.text.length := by
      cases pops <;> rfl
    have hmany := hmore.parse_eq (fun ha _ _ ↦ parseTerminator_eq_some_iff.mpr ha)
      ReadsTerminator.length_lt (fun _ ↦ trivial) trivial hend (by omega : _ < fuel)
    simp only [parseLine, hstmt.parse_eq hterm.begins hfuel, parseTerminator_eq_some_iff.mpr hterm, hmany,
      Option.bind_eq_bind, Option.bind_some]

theorem OptTerminators.length_le (h : OptTerminators s s') : s'.text.length ≤ s.text.length := by
  obtain ⟨l, h⟩ := h
  exact h.length_le ReadsTerminator.length_lt

theorem DerivesLine.length_lt {stmt : Statement} (h : DerivesLine s stmt s') :
    s'.text.length < s.text.length := by
  cases h with
  | @mk s₁ s₂ _ _ pops hstmt hterm hmore =>
    have htext : (if pops then s₂.pop else s₂).text.length = s₂.text.length := by
      cases pops <;> rfl
    exact ((hmore.length_le.trans_eq htext).trans_lt hterm.length_lt).trans hstmt.length_lt

theorem DerivesLine.parseTerminator_eq_none {stmt : Statement} (h : DerivesLine s stmt s') :
    parseTerminator s = none := by
  cases h with
  | mk hstmt => exact hstmt.head.parseTerminator_eq_none

theorem parseLine_eq_none (h : yylex s = (none, s')) : parseLine fuel s = none := by
  cases fuel with
  | zero => simp [parseLine, parseStatementText, parseElementText, h]
  | succ fuel =>
    simp [parseLine, parseStatementText, parseElementText, parseInsnStmt, parseBracketed, parseReg, expect, h]

theorem parseTop_sound {source : Source} (h : parseTop s = some (source, s')) : DerivesTop s source s' := by
  unfold parseTop at h
  dsimp only at h
  generalize 2 * s.text.length + 3 = fuel at h
  have hterm : OptTerminators s (parseMany parseTerminator fuel s).2 :=
    ⟨_, parseMany_sound parseTerminator_eq_some_iff.mp fuel s⟩
  generalize (parseMany parseTerminator fuel s).2 = s₁ at h hterm
  have hlines : Many DerivesLine s₁ (parseMany (parseLine fuel) fuel s₁).1
      (parseMany (parseLine fuel) fuel s₁).2 := parseMany_sound parseLine_sound fuel s₁
  split at h
  · rename_i hend
    obtain ⟨rfl, rfl⟩ := Prod.mk.inj (Option.some.inj h)
    exact .mk hterm hlines hend
  · cases h

theorem DerivesTop.parse_eq {source : Source} (h : DerivesTop s source s') :
    parseTop s = some (source, s') := by
  cases h with
  | @mk s₁ s₂ _ _ hterm hlines hend =>
    have hle := hterm.length_le
    have hstop : parseTerminator s₂ = none := by
      rw [parseTerminator, hend]
    have hstop₁ : parseTerminator s₁ = none := by
      cases source with
      | nil => exact many_nil_iff.mp hlines ▸ hstop
      | cons stmt source =>
        obtain ⟨s₃, hline, -⟩ := many_cons_iff.mp hlines
        exact hline.parseTerminator_eq_none
    obtain ⟨l, hterm⟩ := hterm
    have hskip := hterm.parse_eq (fun ha _ _ ↦ parseTerminator_eq_some_iff.mpr ha)
      ReadsTerminator.length_lt (fun _ ↦ trivial) trivial hstop₁
      (by omega : _ < 2 * s.text.length + 3)
    have hline : ∀ {s₃ stmt s₄}, DerivesLine s₃ stmt s₄ → parseTerminator s₄ = none →
        s₃.text.length ≤ s₁.text.length → parseLine (2 * s.text.length + 3) s₃ = some (stmt, s₄) :=
      fun h hnone hle' ↦ h.parse_eq hnone (by omega)
    have hparse := hlines.parse_eq hline DerivesLine.length_lt DerivesLine.parseTerminator_eq_none hstop
      (parseLine_eq_none hend) (by omega : _ < 2 * s.text.length + 3)
    simp only [parseTop, hskip, hparse, hend]

/-- The parser accepts what the grammar derives from a text, with the same statements in the same order;
so no text has two derivations that differ in them. -/
theorem parseTop_iff (s s' : Scanner) (source : Source) :
    parseTop s = some (source, s') ↔ DerivesTop s source s' :=
  ⟨parseTop_sound, DerivesTop.parse_eq⟩

end

end Tenyr.Asm
