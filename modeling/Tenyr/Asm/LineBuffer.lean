import Mathlib.Algebra.GroupWithZero.Nat
import Mathlib.Data.List.Basic
import Mathlib.Data.List.Infix
import Mathlib.Data.Nat.Notation
import Mathlib.Logic.Function.Basic

/-!
# The buffers for lines

Whatever the lexer matches is copied behind what it has matched before, and one of the rules that match the
end of a line begins another one. A text that does not fit is cut where the buffer ends, and the zero behind it
is written into what follows.
-/

namespace Tenyr.Asm

/-- `LINE_LEN` -/
def lineLen : ℕ := 512

/-- The rules of the lexer. -/
inductive LexRule where
  | tab | illegal | regname | symbol | localSymbol
  | openQuote | closeQuote | stringEscape | stringRun
  | word | utf32 | global | set | zero | option
  | self | operator | bitString | binaryNumber | decimal | white
  | beginLineComment | lineCommentEscapedNewline | endLineComment | lineCommentChar
  | beginComment | endComment | commentChar
  | beginCharacter | characterEscape | characterPlain
  | escapedNewline | escapedChar | badEscape | endCharacter
  | newline | unexpected
  deriving DecidableEq, Repr

/-- A rule, and `yytext`. -/
structure Match where
  rule : LexRule
  yytext : List UInt8
  deriving DecidableEq, Repr

def Match.yyleng (m : Match) : ℕ := m.yytext.length

/-- `lexstate`, with the bytes of the two lines and of `savep` behind them. -/
structure Lexstate where
  savecol : ℕ
  swap : Bool
  bytes : ℕ → UInt8

/-- Where `savep` points for a line, as long as nothing has overwritten it. -/
def savelineStart (swap : Bool) : ℕ := if swap then lineLen else 0

/-- `&saveline[index]` is written to. -/
def Lexstate.store (s : Lexstate) (w : ℕ × UInt8) : Lexstate :=
  { s with bytes := Function.update s.bytes (savelineStart s.swap + w.1) w.2 }

/-- `strcopy(&saveline[index], ...)`: what it writes where. -/
def strcopyStores (index : ℕ) (src : List UInt8) : List (ℕ × UInt8) :=
  src.mapIdx (fun k c ↦ (index + k, c)) ++ [(index + src.length - 1, 0)]

/-- `MIN(yyleng, LINE_LEN - savecol)` -/
def savedLength (savecol yyleng : ℕ) : ℕ := min yyleng (lineLen - savecol)

/-- What `YY_USER_ACTION` writes where. -/
def userStores (savecol : ℕ) (yytext : List UInt8) : List (ℕ × UInt8) :=
  let len := savedLength savecol yytext.length
  strcopyStores savecol ((yytext ++ [0]).take (len + 1)) ++ [(savecol + len, 0)]

/-- `YY_USER_ACTION` -/
def userAction (s : Lexstate) (m : Match) : Lexstate :=
  { (userStores s.savecol m.yytext).foldl Lexstate.store s with
    savecol := s.savecol + savedLength s.savecol m.yyleng }

/-- What the newline rule writes where. -/
def newlineStores : List (ℕ × UInt8) := [(0, 0)]

/-- The action of a rule. -/
def ruleAction (s : Lexstate) (rule : LexRule) : Lexstate :=
  if rule = .newline then newlineStores.foldl Lexstate.store { s with swap := !s.swap, savecol := 0 }
  else s

def lexMatch (s : Lexstate) (m : Match) : Lexstate := ruleAction (userAction s m) m.rule

/-- Before the first match. -/
def lexInit (bytes : ℕ → UInt8) : Lexstate where
  savecol := 0
  swap := false
  bytes

/-- Nothing is written but to the current line. -/
def OnlyLine (s s' : Lexstate) : Prop :=
  ∀ offset, offset < savelineStart s'.swap ∨ savelineStart s'.swap + lineLen ≤ offset →
    s'.bytes offset = s.bytes offset

/-- One match writes to the current line only, and to the next one if that begins. -/
structure SavesInside (s : Lexstate) (m : Match) : Prop where
  index : ∀ w ∈ userStores s.savecol m.yytext, w.1 < lineLen
  newline : m.rule = .newline → ∀ w ∈ newlineStores, w.1 < lineLen
  action : OnlyLine s (userAction s m)
  rule : OnlyLine (userAction s m) (lexMatch s m)

def SavesInsideFrom (s : Lexstate) : List Match → Prop
  | [] => True
  | m :: ms => SavesInside s m ∧ SavesInsideFrom (lexMatch s m) ms

/-- Whatever the matches are, from the start, and whatever memory has in it. -/
def AllSavedInside (ms : List Match) : Prop := ∀ bytes, SavesInsideFrom (lexInit bytes) ms

/-- Matches of which only the last one may be an end of line that begins another line. -/
def OneLine (line : List Match) : Prop := ∀ m ∈ line.dropLast, m.rule ≠ .newline

/-- Whatever is matched in one line is shorter than the buffer. -/
def ShortLines (ms : List Match) : Prop :=
  ∀ line, line <:+: ms → OneLine line → (line.map Match.yyleng).sum < lineLen

/-! ## One match -/

section

variable {s : Lexstate} {m : Match} {ms : List Match} {col : ℕ} {yytext : List UInt8}

theorem savedLength_le (savecol yyleng : ℕ) : savedLength savecol yyleng ≤ yyleng := Nat.min_le_left _ _

theorem mem_userStores_le {w : ℕ × UInt8} (hw : w ∈ userStores col yytext) :
    w.1 ≤ col + savedLength col yytext.length := by
  have hle := savedLength_le col yytext.length
  have hlength : ((yytext ++ [0]).take (savedLength col yytext.length + 1)).length =
      savedLength col yytext.length + 1 := by
    rw [List.length_take, List.length_append, List.length_singleton]
    omega
  rw [userStores, List.mem_append, strcopyStores, List.mem_append, hlength] at hw
  rcases hw with (hcopied | hzero) | hend
  · rw [List.mem_mapIdx] at hcopied
    obtain ⟨k, hk, rfl⟩ := hcopied
    rw [hlength] at hk
    exact Nat.add_le_add_left (Nat.le_of_lt_succ hk) col
  · obtain rfl := List.mem_singleton.mp hzero
    exact Nat.le_refl _
  · obtain rfl := List.mem_singleton.mp hend
    exact Nat.le_refl _

/-- What is written stays in the line exactly when the zero behind it does. -/
theorem userStores_lt_iff :
    (∀ w ∈ userStores col yytext, w.1 < lineLen) ↔ col + yytext.length < lineLen := by
  constructor
  · intro h
    have hend : col + savedLength col yytext.length < lineLen :=
      h (_, 0) (List.mem_append_right _ (List.mem_singleton.mpr rfl))
    rw [savedLength] at hend
    omega
  · intro h w hw
    have hle := mem_userStores_le hw
    have hsaved := savedLength_le col yytext.length
    omega

@[simp]
theorem swap_foldl_store (stores : List (ℕ × UInt8)) :
    (stores.foldl Lexstate.store s).swap = s.swap := by
  induction stores generalizing s with
  | nil => rfl
  | cons w stores ih => exact ih

theorem onlyLine_foldl_store {stores : List (ℕ × UInt8)} (h : ∀ w ∈ stores, w.1 < lineLen) :
    OnlyLine s (stores.foldl Lexstate.store s) := by
  induction stores generalizing s with
  | nil => exact fun _ _ ↦ rfl
  | cons w stores ih =>
    rw [List.forall_mem_cons] at h
    intro offset hoffset
    have hrest := ih h.2 (s := s.store w) offset hoffset
    refine hrest.trans (Function.update_of_ne ?_ _ _)
    rintro rfl
    rw [List.foldl_cons, swap_foldl_store] at hoffset
    have hindex := h.1
    change savelineStart s.swap + w.1 < savelineStart s.swap ∨
      savelineStart s.swap + lineLen ≤ savelineStart s.swap + w.1 at hoffset
    omega

theorem savesInside_iff : SavesInside s m ↔ s.savecol + m.yyleng < lineLen := by
  constructor
  · exact fun h ↦ userStores_lt_iff.mp h.index
  · intro h
    have hindex := userStores_lt_iff.mpr h
    have hnewline : ∀ w ∈ newlineStores, w.1 < lineLen := by decide
    refine ⟨hindex, fun _ ↦ hnewline, onlyLine_foldl_store hindex, ?_⟩
    rw [lexMatch, ruleAction]
    split
    · exact onlyLine_foldl_store hnewline
    · exact fun _ _ ↦ rfl

/-! ## Lines -/

/-- Every match fits behind what was matched in its line before it, from a column on. -/
def FitsFrom : ℕ → List Match → Prop
  | _, [] => True
  | col, m :: ms =>
    col + m.yyleng < lineLen ∧ FitsFrom (if m.rule = .newline then 0 else col + m.yyleng) ms

theorem savecol_lexMatch (h : s.savecol + m.yyleng < lineLen) :
    (lexMatch s m).savecol = if m.rule = .newline then 0 else s.savecol + m.yyleng := by
  have hwhole : savedLength s.savecol m.yyleng = m.yyleng := Nat.min_eq_left (by omega)
  rw [lexMatch, ruleAction]
  split
  · rfl
  · change s.savecol + savedLength s.savecol m.yyleng = _
    rw [hwhole]

theorem savesInsideFrom_iff : SavesInsideFrom s ms ↔ FitsFrom s.savecol ms := by
  induction ms generalizing s with
  | nil => exact Iff.rfl
  | cons m ms ih =>
    rw [SavesInsideFrom, FitsFrom, savesInside_iff, ih]
    apply and_congr_right
    intro hfits
    rw [savecol_lexMatch hfits]

theorem oneLine_cons {line : List Match} (hline : line ≠ []) :
    OneLine (m :: line) ↔ m.rule ≠ .newline ∧ OneLine line := by
  rw [OneLine, List.dropLast_cons_of_ne_nil hline, List.forall_mem_cons]
  rfl

/-- What fits is what a line has in it from its first match on. -/
theorem fitsFrom_iff : FitsFrom col ms ↔
    (∀ line, line <+: ms → line ≠ [] → OneLine line → col + (line.map Match.yyleng).sum < lineLen) ∧
      ShortLines ms := by
  induction ms generalizing col with
  | nil =>
    refine iff_of_true trivial ⟨?_, ?_⟩
    · exact fun line hbegins hne ↦ absurd (List.prefix_nil.mp hbegins) hne
    · intro line hinside _
      rw [List.infix_nil.mp hinside]
      decide
  | cons m ms ih =>
    rw [FitsFrom, ih]
    constructor
    · rintro ⟨hfirst, hbegins, hshort⟩
      have hcons : ∀ line, line <+: m :: ms → line ≠ [] → OneLine line →
          col + (line.map Match.yyleng).sum < lineLen := by
        intro line hline hne hone
        obtain ⟨rest, rfl⟩ : ∃ rest, line = m :: rest := by
          cases line with
          | nil => exact absurd rfl hne
          | cons m' rest => exact ⟨rest, by rw [(List.cons_prefix_cons.mp hline).1]⟩
        rw [List.map_cons, List.sum_cons]
        by_cases hrest : rest = []
        · rw [hrest]
          exact hfirst
        · obtain ⟨hrule, hone'⟩ := (oneLine_cons hrest).mp hone
          have hlt := hbegins rest (List.cons_prefix_cons.mp hline).2 hrest hone'
          rw [if_neg hrule] at hlt
          omega
      refine ⟨hcons, ?_⟩
      intro line hinside hone
      rcases List.infix_cons_iff.mp hinside with hline | hline
      · by_cases hne : line = []
        · rw [hne]
          decide
        · have hlt := hcons line hline hne hone
          omega
      · exact hshort line hline hone
    · rintro ⟨hbegins, hshort⟩
      have htail : ShortLines ms :=
        fun line hinside ↦ hshort line (hinside.trans (List.suffix_cons m ms).isInfix)
      refine ⟨?_, ?_, htail⟩
      · have hlt := hbegins [m] (List.prefix_append [m] ms) (List.cons_ne_nil _ _) fun _ h ↦ nomatch h
        rwa [List.map_singleton, List.sum_singleton] at hlt
      · intro line hline hne hone
        split
        · rw [Nat.zero_add]
          exact htail line hline.isInfix hone
        · rename_i hrule
          have hlt := hbegins (m :: line) (List.cons_prefix_cons.mpr ⟨rfl, hline⟩)
            (List.cons_ne_nil _ _) ((oneLine_cons hne).mpr ⟨hrule, hone⟩)
          rw [List.map_cons, List.sum_cons, ← Nat.add_assoc] at hlt
          exact hlt

end

/-- Nothing is written behind a line exactly when whatever is matched in one line is shorter than the buffer
is long. -/
theorem allSavedInside_iff (ms : List Match) : AllSavedInside ms ↔ ShortLines ms := by
  constructor
  · intro h
    exact (fitsFrom_iff.mp (savesInsideFrom_iff.mp (h fun _ ↦ 0))).2
  · intro h bytes
    rw [savesInsideFrom_iff, fitsFrom_iff]
    refine ⟨?_, h⟩
    intro line hbegins _ hone
    change 0 + _ < lineLen
    rw [Nat.zero_add]
    exact h line hbegins.isInfix hone

theorem not_allSavedInside_of_le {m : Match} (h : lineLen ≤ m.yyleng) : ¬ AllSavedInside [m] := by
  intro hinside
  have hfits : 0 + m.yyleng < lineLen := savesInside_iff.mp (hinside fun _ ↦ 0).1
  omega

/-- A match of as many blanks as there are bytes in a line. -/
theorem not_allSavedInside_blanks :
    ¬ AllSavedInside [{ rule := .white, yytext := List.replicate lineLen 32 }] :=
  not_allSavedInside_of_le (Nat.le_of_eq List.length_replicate.symm)

end Tenyr.Asm
