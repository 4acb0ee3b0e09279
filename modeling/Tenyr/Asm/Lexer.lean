import Tenyr.Asm.Strings
import Tenyr.Lib.Pattern

/-!
# The lexer

The rules of `lexer.l` in their order, with the start conditions they apply in and what their actions do
to the stack of start conditions and to `yylval`. A text is a list of characters of one byte each.
-/

namespace Tenyr.Asm

open Isa Obj Lib Pattern

/-! ## Tokens -/

/-- What `yylex` returns. A character stands for itself. -/
inductive Token where
  | char (c : Char)
  | illegal
  | register (c : Char)
  | symbol (text : Name)
  | loc (text : Name)
  | opnquote | clsquote
  | strspan (span : Span)
  | word | utf32 | global | set | zero | option
  | lsh | ge | le | eq | andn | orn | rsha | rsh | pack | tol | tor
  | bitstring (i : Word)
  | integer (i : Word)
  | character (i : Word)
  deriving DecidableEq, Repr

/-- Start conditions, `INITIAL` among them. -/
inductive StartCond where
  | initial | ignoreNl | needarrow | charlit | charend | charesc | comment | linecomment | string
  deriving DecidableEq, Repr

/-- The conditions declared with `%s`, in which rules without a condition apply as well. -/
def StartCond.inclusive : StartCond → Bool
  | initial | ignoreNl | needarrow => true
  | charlit | charend | charesc | comment | linecomment | string => false

/-- The part of the state that the actions change. Below the start conditions is `INITIAL`. -/
structure LexState where
  conds : List StartCond
  /-- The characters of the literal, last first. -/
  saved : List (BitVec 8)
  errors : ℕ
  deriving DecidableEq, Repr

def LexState.cond (s : LexState) : StartCond := s.conds.headD .initial

/-- `PUSH` -/
def LexState.push (s : LexState) (cond : StartCond) : LexState := { s with conds := cond :: s.conds }

/-- `POP` -/
def LexState.pop (s : LexState) : LexState := { s with conds := s.conds.tail }

def LexState.error (s : LexState) : LexState := { s with errors := s.errors + 1 }

/-- `savechr` in a character literal -/
def LexState.save (s : LexState) (c : BitVec 8) : LexState := { s with saved := c :: s.saved }

/-! ## Numbers -/

def digitValue (c : Char) : ℕ :=
  if '0' ≤ c ∧ c ≤ '9' then c.toNat - '0'.toNat
  else if 'a' ≤ c ∧ c ≤ 'z' then c.toNat - 'a'.toNat + 10
  else if 'A' ≤ c ∧ c ≤ 'Z' then c.toNat - 'A'.toNat + 10
  else 36

/-- The number that digits make, up to the first character that is none. -/
def scanBase (base : ℕ) : ℕ → List Char → ℕ
  | value, [] => value
  | value, c :: text =>
    if digitValue c < base then scanBase base (base * value + digitValue c) text else value

/-- `strtoll` without a sign. Base 0 is for C's notation; numbers that are too large become
`LLONG_MAX`. -/
def strtoll (text : List Char) (base : ℕ) : ℕ :=
  let value :=
    match base, text with
    | 0, '0' :: 'x' :: digits | 0, '0' :: 'X' :: digits => scanBase 16 0 digits
    | 0, '0' :: digits => scanBase 8 0 digits
    | 0, text => scanBase 10 0 text
    | base, text => scanBase base 0 text
  min value (2 ^ 63 - 1)

/-- `numberise`, as the `int32_t` it is stored in. -/
def numberise (text : List Char) (base : ℕ) : Word :=
  BitVec.ofNat 32 (strtoll (text.filter (· != '_')) base)

/-! ## Escapes -/

def byte (c : Char) : BitVec 8 := BitVec.ofNat 8 c.toNat

/-- The escapes that `translate_escape` knows. -/
def escapeOf : Char → Option Escape
  | '\\' => some .backslash
  | '\'' => some .quote
  | '"' => some .doubleQuote
  | '0' => some .nul
  | 'b' => some .b
  | 'f' => some .f
  | 'n' => some .n
  | 'r' => some .r
  | 't' => some .t
  | 'v' => some .v
  | _ => none

/-! ## Patterns -/

/-- `%option case-insensitive` -/
def eitherCase (p : Char → Bool) (c : Char) : Bool := p c.toLower || p c.toUpper

def letter (c : Char) : Pattern Char := one (eitherCase (· == c))

/-- Quoted text. -/
def literal : List Char → Pattern Char
  | [] => blank
  | [c] => letter c
  | c :: text => seq (letter c) (literal text)

def among (chars : List Char) : Char → Bool := chars.contains

def within (lo hi : Char) (c : Char) : Bool := lo ≤ c && c ≤ hi

def isRegname : Char → Bool := eitherCase (within 'A' 'P')

def isDigitOf (hi : Char) (c : Char) : Bool := within '0' hi c || c == '_'

def isHexnum (c : Char) : Bool := isDigitOf '9' c || eitherCase (within 'a' 'f') c

/-- `[A-Z0-9_]` -/
def isSymbolChar (c : Char) : Bool := eitherCase (within 'A' 'Z') c || isDigitOf '9' c

def isWhite : Char → Bool := among ['\t', '\x0c', '\x0b', '\r', ' ']

/-- Any character but a newline. -/
def dot : Pattern Char := one (· != '\n')

def regname : Pattern Char := one isRegname

def symbolPattern : Pattern Char :=
  alt (seq (one fun c ↦ eitherCase (within 'A' 'Z') c || c == '_')
      (seq (one isSymbolChar) (upTo 29 (one isSymbolChar))))
    (seq (one fun c ↦ eitherCase (within 'Q' 'Z') c || c == '_') (upTo 30 (one isSymbolChar)))

def localPattern : Pattern Char :=
  seq (literal ['.', 'L']) (seq (one isSymbolChar) (upTo 30 (one isSymbolChar)))

def hexnum : Pattern Char := seq (literal ['0', 'x']) (oneOrMore (one isHexnum))

def octnum : Pattern Char := seq (literal ['0']) (oneOrMore (one (isDigitOf '7')))

def binnum : Pattern Char := seq (literal ['0', 'b']) (oneOrMore (one (isDigitOf '1')))

def decnum : Pattern Char := oneOrMore (one (isDigitOf '9'))

def selfPattern : Pattern Char :=
  one (among [']', '[', '|', '&', '+', '*', '^', '>', '<', '.', ',', ':', '@', '(', ')', '~', ';', '/', '-'])

def escchar : Pattern Char :=
  one (eitherCase (among ['\\', '"', '\'', '0', 'n', 'b', 'r', 't', 'f', 'v']))

def white : Pattern Char := one isWhite

def edge : Pattern Char := alt white (letter '\n')

/-- `\r?\n` -/
def lineEnd : Pattern Char := seq (upTo 1 (letter '\r')) (letter '\n')

/-! ## Actions -/

/-- What an action does, given `yytext`. -/
abbrev Action := List Char → LexState → LexState × Option Token

def skip : Action := fun _ s ↦ (s, none)

def give (t : Token) : Action := fun _ s ↦ (s, some t)

def giveText (t : List Char → Token) : Action := fun yytext s ↦ (s, some (t yytext))

def pushing (cond : StartCond) (t : Option Token) : Action := fun _ s ↦ (s.push cond, t)

def popping (t : Option Token) : Action := fun _ s ↦ (s.pop, t)

/-- `<string>\\{escchar}` -/
def stringEscape : Action := fun yytext s ↦
  match escapeOf (yytext.getD 1 '\n') with
  | some e => (s, some (.strspan (.escape e)))
  | none => (s.error, some (.strspan (.run [0xff#8])))

/-- `'` -/
def openCharacter : Action := fun _ s ↦ ({ (s.push .charend).push .charlit with saved := [] }, none)

/-- `<charlit>.` -/
def plainCharacter : Action := fun yytext s ↦ ((s.save (byte (yytext.headD '\n'))).pop, none)

/-- `<charesc>{escchar}` -/
def characterEscape : Action := fun yytext s ↦
  match escapeOf (yytext.headD '\n') with
  | some e => ((s.save e.translate).pop.pop, none)
  | none => ((s.error.save 0xff#8).pop.pop, none)

/-- `<charesc>.` -/
def badEscape : Action := fun _ s ↦ (s.error.pop, none)

/-- `<charend>"'"`; the value is that of the character saved last. -/
def closeCharacter : Action := fun _ s ↦
  (s.pop, some (.character ((s.saved.headD 0#8).signExtend 32)))

def unexpected : Action := fun _ s ↦ (s.error, none)

/-! ## Rules -/

/-- The start conditions of a rule. -/
inductive Scope where
  | plain
  | only (cond : StartCond)
  | all

def Scope.active (cond : StartCond) : Scope → Bool
  | plain => cond.inclusive
  | only c => c == cond
  | all => true

structure LexerRule where
  scope : Scope
  pattern : Pattern Char
  action : Action

/-- A directive with the character behind it. -/
def directive (text : List Char) (t : Token) : LexerRule :=
  ⟨.plain, seq (literal text) edge, pushing .ignoreNl (some t)⟩

/-- An operator of several characters. -/
def operator (text : List Char) (t : Token) : LexerRule := ⟨.plain, literal text, give t⟩

def lexerRules : List LexerRule :=
  [⟨.plain, letter '\t', skip⟩,
    operator ['i', 'l', 'l', 'e', 'g', 'a', 'l'] .illegal,
    ⟨.plain, regname, giveText fun yytext ↦ .register (yytext.headD 'A')⟩,
    ⟨.plain, symbolPattern, giveText .symbol⟩,
    ⟨.plain, localPattern, giveText .loc⟩,
    ⟨.plain, letter '"', pushing .string (some .opnquote)⟩,
    ⟨.only .string, letter '"', popping (some .clsquote)⟩,
    ⟨.only .string, seq (letter '\\') escchar, stringEscape⟩,
    ⟨.only .string, oneOrMore (one fun c ↦ !among ['\\', '"'] c),
      giveText fun yytext ↦ .strspan (.run (yytext.map byte))⟩,
    directive ['.', 'w', 'o', 'r', 'd'] .word,
    directive ['.', 'u', 't', 'f', '3', '2'] .utf32,
    directive ['.', 'g', 'l', 'o', 'b', 'a', 'l'] .global,
    directive ['.', 's', 'e', 't'] .set,
    directive ['.', 'z', 'e', 'r', 'o'] .zero,
    directive ['.', 'o', 'p', 't', 'i', 'o', 'n'] .option,
    ⟨.plain, selfPattern, giveText fun yytext ↦ .char (yytext.headD '\n')⟩,
    operator ['<', '<', '<'] .lsh,
    operator ['<', '<'] .lsh,
    operator ['>', '='] .ge,
    operator ['<', '='] .le,
    operator ['=', '='] .eq,
    operator ['&', '~'] .andn,
    operator ['|', '~'] .orn,
    operator ['>', '>'] .rsha,
    operator ['>', '>', '>'] .rsh,
    operator ['^', '^'] .pack,
    ⟨.only .needarrow, literal ['<', '-'], give .tol⟩,
    operator ['-', '>'] .tor,
    ⟨.plain, alt hexnum octnum, giveText fun yytext ↦ .bitstring (numberise yytext 0)⟩,
    ⟨.plain, binnum, giveText fun yytext ↦ .bitstring (numberise (yytext.drop 2) 2)⟩,
    ⟨.plain, decnum, giveText fun yytext ↦ .integer (numberise yytext 10)⟩,
    ⟨.plain, oneOrMore white, skip⟩,
    ⟨.plain, alt (literal ['/', '/']) (letter '#'), pushing .linecomment none⟩,
    ⟨.only .linecomment, seq (letter '\\') lineEnd, skip⟩,
    ⟨.only .linecomment, lineEnd, popping (some (.char '\n'))⟩,
    ⟨.only .linecomment, dot, skip⟩,
    ⟨.plain, literal ['/', '*'], pushing .comment none⟩,
    ⟨.only .comment, literal ['*', '/'], popping none⟩,
    ⟨.only .comment, dot, skip⟩,
    ⟨.plain, letter '\'', openCharacter⟩,
    ⟨.only .charlit, letter '\\', pushing .charesc none⟩,
    ⟨.only .charlit, dot, plainCharacter⟩,
    ⟨.only .charesc, lineEnd, popping none⟩,
    ⟨.only .charesc, escchar, characterEscape⟩,
    ⟨.only .charesc, dot, badEscape⟩,
    ⟨.only .charend, letter '\'', closeCharacter⟩,
    ⟨.all, letter '\n', give (.char '\n')⟩,
    ⟨.all, dot, unexpected⟩]

/-- The rules that apply in a start condition. -/
def activeRules (cond : StartCond) : List (Action × Pattern Char) :=
  (lexerRules.filter fun rule ↦ rule.scope.active cond).map fun rule ↦ (rule.action, rule.pattern)

/-! ## Scanning -/

structure Scanner extends LexState where
  text : List Char
  deriving DecidableEq, Repr

/-- One match and its action. -/
def scanMatch (s : Scanner) : Option (Scanner × Option Token) :=
  match longest (activeRules s.cond) s.text with
  | none => none
  | some (action, n) =>
    let (state, t) := action (s.text.take n) s.toLexState
    some ({ toLexState := state, text := s.text.drop n }, t)

/-- `yylex` with at most as many matches as `fuel`. -/
def yylexWithin : ℕ → Scanner → Option Token × Scanner
  | 0, s => (none, s)
  | fuel + 1, s =>
    match scanMatch s with
    | none => (none, s)
    | some (s, some t) => (some t, s)
    | some (s, none) => yylexWithin fuel s

/-- `yylex`: the next token, or none at the end of the text. -/
def yylex (s : Scanner) : Option Token × Scanner := yylexWithin s.text.length s

/-! ## Progress -/

/-- No rule matches nothing. -/
theorem accepted_activeRules (cond : StartCond) : accepted (activeRules cond) = none := by
  cases cond <;> rfl

theorem length_of_scanMatch {s s' : Scanner} {t : Option Token} (h : scanMatch s = some (s', t)) :
    s'.text.length < s.text.length := by
  unfold scanMatch at h
  cases hfound : longest (activeRules s.cond) s.text with
  | none =>
    rw [hfound] at h
    cases h
  | some found =>
    obtain ⟨action, n⟩ := found
    rw [hfound] at h
    obtain ⟨rfl, -⟩ := Prod.mk.inj (Option.some.inj h)
    obtain ⟨hle, hfirst, -⟩ := longest_eq_some_iff.mp hfound
    have hpos : n ≠ 0 := by
      rintro rfl
      rw [List.take_zero, firstMatch_nil_iff, accepted_activeRules] at hfirst
      cases hfirst
    rw [List.length_drop]
    omega

theorem yylexWithin_eq {s : Scanner} {fuel : ℕ} (h : s.text.length ≤ fuel) :
    yylexWithin fuel s = yylex s := by
  unfold yylex
  generalize hlength : s.text.length = length at h
  induction length using Nat.strongRecOn generalizing s fuel with
  | ind length ih =>
    cases hmatch : scanMatch s with
    | none => cases fuel <;> cases length <;> simp [yylexWithin, hmatch]
    | some found =>
      obtain ⟨s', t⟩ := found
      have hlt := length_of_scanMatch hmatch
      have hrest : ∀ k, s'.text.length ≤ k → yylexWithin k s' = yylexWithin s'.text.length s' :=
        fun k hk ↦ ih _ (by omega) rfl hk
      obtain ⟨fuel, rfl⟩ : ∃ fuel', fuel = fuel' + 1 := ⟨fuel - 1, by omega⟩
      obtain ⟨length, rfl⟩ : ∃ length', length = length' + 1 := ⟨length - 1, by omega⟩
      cases t with
      | some t => simp only [yylexWithin, hmatch]
      | none =>
        simp only [yylexWithin, hmatch]
        rw [hrest fuel (by omega), hrest length (by omega)]

/-- A token takes something of the text. -/
theorem length_of_yylex {s s' : Scanner} {t : Token} (h : yylex s = (some t, s')) :
    s'.text.length < s.text.length := by
  have hwithin : ∀ fuel s, yylexWithin fuel s = (some t, s') → s'.text.length < s.text.length := by
    intro fuel
    induction fuel with
    | zero => exact fun s h ↦ absurd (Prod.mk.inj h).1 (Option.some_ne_none t).symm
    | succ fuel ih =>
      intro s h
      rw [yylexWithin] at h
      cases hmatch : scanMatch s with
      | none =>
        rw [hmatch] at h
        exact absurd (Prod.mk.inj h).1 (Option.some_ne_none t).symm
      | some found =>
        obtain ⟨s₁, t₁⟩ := found
        have hlt := length_of_scanMatch hmatch
        rw [hmatch] at h
        cases t₁ with
        | some t₁ => exact (Prod.mk.inj h).2 ▸ hlt
        | none => exact (ih s₁ h).trans hlt
  exact hwithin _ s h

theorem yylex_nil {s : Scanner} (h : s.text = []) : yylex s = (none, s) := by
  rw [yylex, h]
  rfl

theorem yylex_of_token {s s' : Scanner} {t : Token} (h : scanMatch s = some (s', some t)) :
    yylex s = (some t, s') := by
  have hlt := length_of_scanMatch h
  rw [← yylexWithin_eq (Nat.le_succ s.text.length), yylexWithin, h]

theorem yylex_of_skip {s s' : Scanner} (h : scanMatch s = some (s', none)) : yylex s = yylex s' := by
  have hlt := length_of_scanMatch h
  rw [← yylexWithin_eq (Nat.le_succ s.text.length), yylexWithin, h]
  exact yylexWithin_eq hlt.le

end Tenyr.Asm
