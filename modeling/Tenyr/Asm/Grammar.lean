import Tenyr.Asm.Lexer

/-!
# The grammar

The productions of `parser.y`, from one state of the scanner to another; the semantic value of a phrase
is what its actions are given. The precedences of the operators of constant expressions are levels.
-/

namespace Tenyr.Asm

open Isa Obj

/-- The next token is `t`. -/
def Reads (s : Scanner) (t : Token) (s' : Scanner) : Prop := yylex s = (some t, s')

/-! ## Constant expressions -/

/-- `const_unary_op` -/
def UnaryOp.token : UnaryOp → Token
  | neg => .char '-'
  | compl => .char '~'

/-- The operators of `binop_expr`. -/
def BinaryOp.token : BinaryOp → Token
  | add => .char '+'
  | sub => .char '-'
  | mul => .char '*'
  | div => .char '/'
  | xor => .char '^'
  | and => .char '&'
  | or => .char '|'
  | lsh => .lsh
  | rsha => .rsha
  | rsh => .rsh

/-- The place of an operator among the `%left` lines. -/
def BinaryOp.level : BinaryOp → ℕ
  | or => 0
  | xor => 1
  | and => 2
  | lsh | rsha | rsh => 4
  | add | sub => 5
  | mul | div => 6

/-- `atom`, or an `expr` that is no `binop_expr` of a lower level than the given one outside of
parentheses. -/
inductive Phrase where
  | atom
  | expr (level : ℕ)

/-- `immediate` -/
def Token.immediate : Token → Option (Word × Bool)
  | .integer i => some (i, false)
  | .bitstring i | .character i => some (i, true)
  | _ => none

inductive Derives : Phrase → Scanner → ConstExpr Name → Scanner → Prop where
  | eref {s s₁ s' : Scanner} {name : Name} (hat : Reads s (.char '@') s₁)
      (hname : Reads s₁ (.symbol name) s') : Derives .atom s (.ref true name) s'
  | paren {s s₁ s₂ s' : Scanner} {e : ConstExpr Name} (hopen : Reads s (.char '(') s₁)
      (he : Derives (.expr 0) s₁ e s₂) (hclose : Reads s₂ (.char ')') s') : Derives .atom s (.paren e) s'
  | unary {s s₁ s' : Scanner} {op : UnaryOp} {e : ConstExpr Name} (hop : Reads s op.token s₁)
      (he : Derives .atom s₁ e s') : Derives .atom s (.op1 op e) s'
  | immediate {s s' : Scanner} {t : Token} {i : Word} {isBits : Bool} (ht : Reads s t s')
      (hi : t.immediate = some (i, isBits)) : Derives .atom s (.imm i isBits) s'
  | dot {s s' : Scanner} (hdot : Reads s (.char '.') s') : Derives .atom s .ici s'
  | loc {s s' : Scanner} {name : Name} (hname : Reads s (.loc name) s') :
      Derives .atom s (.ref false name) s'
  | atom {s s' : Scanner} {e : ConstExpr Name} (level : ℕ) (he : Derives .atom s e s') :
      Derives (.expr level) s e s'
  | binop {s s₁ s₂ s' : Scanner} {op : BinaryOp} {left right : ConstExpr Name} {level : ℕ}
      (hlevel : level ≤ op.level) (hleft : Derives (.expr op.level) s left s₁)
      (hop : Reads s₁ op.token s₂) (hright : Derives (.expr (op.level + 1)) s₂ right s') :
      Derives (.expr level) s (.op2 op left right) s'

/-! ## Instructions -/

/-- `binop` -/
def Token.binop : Token → Option Binop
  | .char '+' => some (.native .add)
  | .char '-' => some (.native .subtract)
  | .char '*' => some (.native .multiply)
  | .char '<' => some (.native .compareLt)
  | .eq => some (.native .compareEq)
  | .ge => some (.native .compareGe)
  | .char '|' => some (.native .bitwiseOr)
  | .orn => some (.native .bitwiseOrn)
  | .char '&' => some (.native .bitwiseAnd)
  | .andn => some (.native .bitwiseAndn)
  | .char '^' => some (.native .bitwiseXor)
  | .lsh => some (.native .shiftLeft)
  | .rsha => some (.native .shiftRightArith)
  | .rsh => some (.native .shiftRightLogic)
  | .pack => some (.native .pack)
  | .char '@' => some (.native .testBit)
  | .char '>' => some .gt
  | .le => some .le
  | _ => none

/-- `unary_op` -/
def InsnUnaryOp.token : InsnUnaryOp → Token
  | compl => .char '~'
  | neg => .char '-'

/-- `reloc_op` -/
def RelocOp.token : RelocOp → Token
  | plus => .char '+'
  | minus => .char '-'

/-- `arrow` -/
def Arrow.token : Arrow → Token
  | left => .tol
  | right => .tor

/-- `toupper($REGISTER) - 'A'` -/
def regIndex (c : Char) : RegIndex := BitVec.ofNat 4 (c.toUpper.toNat - 'A'.toNat)

/-- `regname` -/
def ReadsReg (s : Scanner) (x : RegIndex) (s' : Scanner) : Prop :=
  ∃ c, Reads s (.register c) s' ∧ regIndex c = x

def ReadsBinop (s : Scanner) (op : Binop) (s' : Scanner) : Prop :=
  ∃ t, Reads s t s' ∧ t.binop = some op

/-- `rhs_plain` -/
inductive DerivesRhsPlain : Scanner → RhsPlain Name → Scanner → Prop where
  | regRegImm {s s₁ s₂ s₃ s₄ s' : Scanner} {x y : RegIndex} {op : Binop} {sign : RelocOp}
      {e : ConstExpr Name} (hx : ReadsReg s x s₁) (hop : ReadsBinop s₁ op s₂) (hy : ReadsReg s₂ y s₃)
      (hsign : Reads s₃ sign.token s₄) (he : Derives .atom s₄ e s') :
      DerivesRhsPlain s (.regRegImm x op y sign e) s'
  | regReg {s s₁ s₂ s' : Scanner} {x y : RegIndex} {op : Binop} (hx : ReadsReg s x s₁)
      (hop : ReadsBinop s₁ op s₂) (hy : ReadsReg s₂ y s') : DerivesRhsPlain s (.regReg x op y) s'
  | reg {s s' : Scanner} {x : RegIndex} (hx : ReadsReg s x s') : DerivesRhsPlain s (.reg x) s'
  | regImmReg {s s₁ s₂ s₃ s₄ s' : Scanner} {x y : RegIndex} {op : Binop} {e : ConstExpr Name}
      (hx : ReadsReg s x s₁) (hop : ReadsBinop s₁ op s₂) (he : Derives .atom s₂ e s₃)
      (hplus : Reads s₃ (.char '+') s₄) (hy : ReadsReg s₄ y s') :
      DerivesRhsPlain s (.regImmReg x op e y) s'
  | regImm {s s₁ s₂ s' : Scanner} {x : RegIndex} {op : Binop} {e : ConstExpr Name}
      (hx : ReadsReg s x s₁) (hop : ReadsBinop s₁ op s₂) (he : Derives .atom s₂ e s') :
      DerivesRhsPlain s (.regImm x op e) s'
  | immRegReg {s s₁ s₂ s₃ s₄ s' : Scanner} {x y : RegIndex} {op : Binop} {e : ConstExpr Name}
      (he : Derives .atom s e s₁) (hop : ReadsBinop s₁ op s₂) (hx : ReadsReg s₂ x s₃)
      (hplus : Reads s₃ (.char '+') s₄) (hy : ReadsReg s₄ y s') :
      DerivesRhsPlain s (.immRegReg e op x y) s'
  | immReg {s s₁ s₂ s' : Scanner} {x : RegIndex} {op : Binop} {e : ConstExpr Name}
      (he : Derives .atom s e s₁) (hop : ReadsBinop s₁ op s₂) (hx : ReadsReg s₂ x s') :
      DerivesRhsPlain s (.immReg e op x) s'
  | imm {s s' : Scanner} {e : ConstExpr Name} (he : Derives .atom s e s') :
      DerivesRhsPlain s (.imm e) s'
  | unaryRegImm {s s₁ s₂ s₃ s' : Scanner} {op : InsnUnaryOp} {x : RegIndex} {sign : RelocOp}
      {e : ConstExpr Name} (hop : Reads s op.token s₁) (hx : ReadsReg s₁ x s₂)
      (hsign : Reads s₂ sign.token s₃) (he : Derives .atom s₃ e s') :
      DerivesRhsPlain s (.unaryRegImm op x sign e) s'
  | unaryRegReg {s s₁ s₂ s₃ s' : Scanner} {op : InsnUnaryOp} {x y : RegIndex}
      (hop : Reads s op.token s₁) (hx : ReadsReg s₁ x s₂) (hplus : Reads s₂ (.char '+') s₃)
      (hy : ReadsReg s₃ y s') : DerivesRhsPlain s (.unaryRegReg op x y) s'
  | unaryReg {s s₁ s' : Scanner} {op : InsnUnaryOp} {x : RegIndex} (hop : Reads s op.token s₁)
      (hx : ReadsReg s₁ x s') : DerivesRhsPlain s (.unaryReg op x) s'

/-- A phrase, or the same in brackets. -/
inductive Bracketed {α : Type} (plain : Scanner → α → Scanner → Prop) :
    Scanner → Bool × α → Scanner → Prop where
  | plain {s s' : Scanner} {a : α} (ha : plain s a s') : Bracketed plain s (false, a) s'
  | deref {s s₁ s₂ s' : Scanner} {a : α} (hopen : Reads s (.char '[') s₁) (ha : plain s₁ a s₂)
      (hclose : Reads s₂ (.char ']') s') : Bracketed plain s (true, a) s'

def Scanner.push (s : Scanner) (cond : StartCond) : Scanner := { s with toLexState := s.toLexState.push cond }

def Scanner.pop (s : Scanner) : Scanner := { s with toLexState := s.toLexState.pop }

/-- `insn`, with the pushing and popping around its arrow. Nothing else can be reduced where it is done,
so the parser does it before it reads the next token. -/
inductive DerivesInsn : Scanner → InsnStmt Name → Scanner → Prop where
  | mk {s s₁ s₂ s' : Scanner} {lhs : Bool × RegIndex} {arrow : Arrow} {rhs : Bool × RhsPlain Name}
      (hlhs : Bracketed ReadsReg s lhs s₁) (harrow : Reads (s₁.push .needarrow) arrow.token s₂)
      (hrhs : Bracketed DerivesRhsPlain s₂.pop rhs s') :
      DerivesInsn s ⟨lhs.1, lhs.2, arrow, rhs.1, rhs.2⟩ s'

/-! ## Programs -/

/-- Any number of phrases. -/
inductive Many {α : Type} (phrase : Scanner → α → Scanner → Prop) : Scanner → List α → Scanner → Prop where
  | nil (s : Scanner) : Many phrase s [] s
  | snoc {s s₁ s' : Scanner} {l : List α} {a : α} (hmany : Many phrase s l s₁) (ha : phrase s₁ a s') :
      Many phrase s (l ++ [a]) s'

/-- `'\n'` -/
def ReadsNl (s : Scanner) (_ : Unit) (s' : Scanner) : Prop := Reads s (.char '\n') s'

/-- `opt_nl` -/
def OptNl (s s' : Scanner) : Prop := ∃ l, Many ReadsNl s l s'

/-- `terminator` -/
def ReadsTerminator (s : Scanner) (_ : Unit) (s' : Scanner) : Prop :=
  Reads s (.char '\n') s' ∨ Reads s (.char ';') s'

/-- `opt_terminators` -/
def OptTerminators (s s' : Scanner) : Prop := ∃ l, Many ReadsTerminator s l s'

/-- `symbol` -/
def ReadsSymbol (s : Scanner) (name : Name) (s' : Scanner) : Prop :=
  Reads s (.symbol name) s' ∨ Reads s (.loc name) s'

/-- `STRSPAN` -/
def ReadsSpan (s : Scanner) (span : Span) (s' : Scanner) : Prop := Reads s (.strspan span) s'

/-- What the spans have been matched in. -/
def literalOf (spans : List Span) : StringLiteral :=
  spans.flatMap fun
    | .run chars => chars.map .plain
    | .escape e => [.escape e]

/-- `stringelt` -/
inductive DerivesStringelt : Scanner → StringLiteral → Scanner → Prop where
  | mk {s s₁ s₂ s' : Scanner} {spans : List Span} (hopen : Reads s .opnquote s₁)
      (hspans : Many ReadsSpan s₁ spans s₂) (hclose : Reads s₂ .clsquote s') :
      DerivesStringelt s (literalOf spans) s'

/-- `string` -/
def DerivesString (s : Scanner) (literals : List StringLiteral) (s' : Scanner) : Prop :=
  literals ≠ [] ∧ Many DerivesStringelt s literals s'

/-- The characters that are linked for `make_utf32`. -/
def linkedChars : List StringLiteral → List (BitVec 8)
  | [] => []
  | first :: rest => (stringChars (stringOf first rest).1 (stringOf first rest).2).getD []

/-- `expr_list` -/
inductive DerivesExprList : Scanner → List (ConstExpr Name) → Scanner → Prop where
  | one {s s' : Scanner} {e : ConstExpr Name} (he : Derives (.expr 0) s e s') :
      DerivesExprList s [e] s'
  | cons {s s₁ s₂ s₃ s' : Scanner} {e : ConstExpr Name} {rest : List (ConstExpr Name)}
      (he : Derives (.expr 0) s e s₁) (hcomma : Reads s₁ (.char ',') s₂) (hnl : OptNl s₂ s₃)
      (hrest : DerivesExprList s₃ rest s') : DerivesExprList s (e :: rest) s'

/-- `element`, and whether its action pops a start condition. An expression or a string can go on, so the
parser has read the token behind it when it does that. -/
inductive DerivesElement : Scanner → Element → Bool → Scanner → Prop where
  | word {s s₁ s₂ s' : Scanner} {exprs : List (ConstExpr Name)} (hword : Reads s .word s₁)
      (hnl : OptNl s₁ s₂) (hexprs : DerivesExprList s₂ exprs s') :
      DerivesElement s (.word exprs) true s'
  | zero {s s₁ s₂ s' : Scanner} {size : ConstExpr Name} (hzero : Reads s .zero s₁) (hnl : OptNl s₁ s₂)
      (hsize : Derives (.expr 0) s₂ size s') : DerivesElement s (.zero size) true s'
  | utf32 {s s₁ s₂ s' : Scanner} {literals : List StringLiteral} (hutf32 : Reads s .utf32 s₁)
      (hnl : OptNl s₁ s₂) (hstring : DerivesString s₂ literals s') :
      DerivesElement s (.utf32 (linkedChars literals)) true s'
  | illegal {s s' : Scanner} (h : Reads s .illegal s') : DerivesElement s .illegal false s'
  | insn {s s' : Scanner} {stmt : InsnStmt Name} (h : DerivesInsn s stmt s') :
      DerivesElement s (.insn stmt) false s'
  | labelled {s s₁ s₂ s₃ s' : Scanner} {name : Name} {inner : Element} {pops : Bool}
      (hname : ReadsSymbol s name s₁) (hcolon : Reads s₁ (.char ':') s₂) (hnl : OptNl s₂ s₃)
      (hinner : DerivesElement s₃ inner pops s') : DerivesElement s (.labelled name inner) pops s'

/-- `element` or `directive`. Nothing can follow the symbol of a `.global`, so its action pops before
the next token is read. -/
inductive DerivesStatement : Scanner → Statement → Bool → Scanner → Prop where
  | element {s s' : Scanner} {e : Element} {pops : Bool} (h : DerivesElement s e pops s') :
      DerivesStatement s (.element e) pops s'
  | global {s s₁ s₂ s' : Scanner} {name : Name} (hglobal : Reads s .global s₁) (hnl : OptNl s₁ s₂)
      (hname : Reads s₂ (.symbol name) s') : DerivesStatement s (.global name) false s'.pop
  | set {s s₁ s₂ s₃ s₄ s' : Scanner} {name : Name} {e : ConstExpr Name} (hset : Reads s .set s₁)
      (hnl : OptNl s₁ s₂) (hname : Reads s₂ (.symbol name) s₃) (hcomma : Reads s₃ (.char ',') s₄)
      (he : Derives (.expr 0) s₄ e s') : DerivesStatement s (.set name e) true s'
  | option {s s₁ s₂ s' : Scanner} {key : List StringLiteral} (hoption : Reads s .option s₁)
      (hnl : OptNl s₁ s₂) (hkey : DerivesString s₂ key s') : DerivesStatement s .option true s'
  | optionValue {s s₁ s₂ s₃ s₄ s' : Scanner} {key value : List StringLiteral}
      (hoption : Reads s .option s₁) (hnl : OptNl s₁ s₂) (hkey : DerivesString s₂ key s₃)
      (hcomma : Reads s₃ (.char ',') s₄) (hvalue : DerivesString s₄ value s') :
      DerivesStatement s .option true s'

/-- An `element` or a `directive`, and its terminators. -/
inductive DerivesLine : Scanner → Statement → Scanner → Prop where
  | mk {s s₁ s₂ s' : Scanner} {stmt : Statement} {pops : Bool} (hstmt : DerivesStatement s stmt pops s₁)
      (hterm : ReadsTerminator s₁ () s₂)
      (hmore : OptTerminators (if pops then s₂.pop else s₂) s') : DerivesLine s stmt s'

/-- `top`, up to the end of the text. -/
inductive DerivesTop : Scanner → Source → Scanner → Prop where
  | mk {s s₁ s₂ s' : Scanner} {source : Source} (hterm : OptTerminators s s₁)
      (hlines : Many DerivesLine s₁ source s₂) (hend : yylex s₂ = (none, s')) : DerivesTop s source s'

end Tenyr.Asm
