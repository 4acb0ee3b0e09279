import Mathlib.Tactic.FinCases
import Tenyr.Asm.Disassembly

/-!
# Lexing printed text

The tokens that are read back from what the disassembler prints: white space is passed over, names,
operators and numbers are followed by a character that ends them, and comments end their line.
-/

namespace Tenyr.Asm

open Isa Obj Lib Pattern

/-! ## Matches -/

section

variable {s : Scanner} {rest : List Char} {c : Char}

theorem scanMatch_append (text : List Char) (action : Action)
    (hacc : accepted (text.foldl advance (activeRules s.cond)) = some action)
    (hdead : advance (text.foldl advance (activeRules s.cond)) c = []) (htext : s.text = text ++ c :: rest) :
    scanMatch s = some ({ toLexState := (action text s.toLexState).1, text := c :: rest },
      (action text s.toLexState).2) := by
  rw [scanMatch, htext, longest_append hacc hdead]
  simp

theorem scanMatch_append_of_closed (text : List Char) (action : Action)
    (hacc : accepted (text.foldl advance (activeRules s.cond)) = some action)
    (hdead : ∀ c, advance (text.foldl advance (activeRules s.cond)) c = []) (htext : s.text = text ++ rest) :
    scanMatch s = some ({ toLexState := (action text s.toLexState).1, text := rest },
      (action text s.toLexState).2) := by
  rw [scanMatch, htext, longest_append_of_closed hacc hdead]
  simp

end

/-! ## White space -/

/-- What white space leaves of the rules matches white space alone. -/
theorem longest_white {cond : StartCond} (hcond : cond = .initial ∨ cond = .needarrow) {c : Char}
    (hc : isWhite c = true) (text : List Char) :
    longest (advance (activeRules cond) c) text = longest [(skip, many white)] text := by
  have hrules : ∀ rules : List (Action × Pattern Char),
      (∀ d, advance rules d = advance [(skip, many white)] d) → accepted rules = some skip →
        longest rules text = longest [(skip, many white)] text := by
    intro rules hadvance haccepted
    cases text with
    | nil =>
      rw [longest_nil_right, haccepted]
      rfl
    | cons d text =>
      rw [longest_cons, hadvance, haccepted, longest_cons]
      rfl
  have hmem : c = '\t' ∨ c = '\x0c' ∨ c = '\x0b' ∨ c = '\r' ∨ c = ' ' := by
    simpa [isWhite, among] using hc
  have hwhite : ∀ d, advance [(skip, many white), (unexpected, blank)] d = advance [(skip, many white)] d :=
    fun d ↦ by cases hd : isWhite d <;> simp [advance, Pattern.deriv, white, hd, andThen, isNever]
  have htab : ∀ d, advance [(skip, blank), (skip, many white), (unexpected, blank)] d =
      advance [(skip, many white)] d :=
    fun d ↦ by cases hd : isWhite d <;> simp [advance, Pattern.deriv, white, hd, andThen, isNever]
  rcases hcond with rfl | rfl <;> rcases hmem with rfl | rfl | rfl | rfl | rfl
  · exact hrules _ htab rfl
  · exact hrules _ hwhite rfl
  · exact hrules _ hwhite rfl
  · exact hrules _ hwhite rfl
  · exact hrules _ hwhite rfl
  · exact hrules _ htab rfl
  · exact hrules _ hwhite rfl
  · exact hrules _ hwhite rfl
  · exact hrules _ hwhite rfl
  · exact hrules _ hwhite rfl

theorem scanMatch_white {s : Scanner} (hcond : s.cond = .initial ∨ s.cond = .needarrow) {c : Char}
    {text : List Char} (htext : s.text = c :: text) (hc : isWhite c = true) :
    scanMatch s = some ({ s with text := text.dropWhile isWhite }, none) := by
  rw [scanMatch, htext, longest_cons, longest_white hcond hc, white, longest_many_one]
  have hdrop : text.drop (text.takeWhile isWhite).length = text.dropWhile isWhite := by
    have hsplit : text.takeWhile isWhite ++ text.dropWhile isWhite = text :=
      List.takeWhile_append_dropWhile
    nth_rewrite 2 [← hsplit]
    exact List.drop_left
  simp [skip, hdrop]

/-- White space in front of a token is passed over. -/
theorem yylex_dropWhile {s : Scanner} (hcond : s.cond = .initial ∨ s.cond = .needarrow) :
    yylex s = yylex { s with text := s.text.dropWhile isWhite } := by
  cases htext : s.text with
  | nil => rw [List.dropWhile_nil, ← htext]
  | cons c text =>
    cases hc : isWhite c with
    | true =>
      rw [yylex_of_skip (scanMatch_white hcond htext hc), List.dropWhile_cons_of_pos hc]
    | false =>
      rw [List.dropWhile_cons_of_neg (by simp [hc]), ← htext]

theorem yylex_space {s : Scanner} (hcond : s.cond = .initial ∨ s.cond = .needarrow) (text : List Char) :
    yylex { s with text := ' ' :: text } = yylex { s with text } := by
  have hspace := yylex_dropWhile (s := { s with text := ' ' :: text }) hcond
  have htext := yylex_dropWhile (s := { s with text }) hcond
  rw [hspace, htext]
  rfl

/-! ## Tokens -/

section

variable {s s' : Scanner} {rest : List Char} {c : Char} {action : Action} {t : Token}

theorem Reads.space {text : List Char} (hcond : s.cond = .initial ∨ s.cond = .needarrow)
    (h : Reads { s with text } t s') : Reads { s with text := ' ' :: text } t s' :=
  (yylex_space hcond text).trans h

theorem Reads.skip {text : List Char} (h : Reads (scan text) t s') : Reads (scan (' ' :: text)) t s' :=
  Reads.space (s := scan text) (.inl rfl) h

theorem yylex_spaces (k : ℕ) (text : List Char) :
    yylex (scan (List.replicate k ' ' ++ text)) = yylex (scan text) := by
  induction k with
  | zero => rfl
  | succ k ih => exact (yylex_space (s := scan []) (.inl rfl) _).trans ih

theorem Reads.spaces {text : List Char} (k : ℕ) (h : Reads (scan text) t s') :
    Reads (scan (List.replicate k ' ' ++ text)) t s' :=
  (yylex_spaces k text).trans h

theorem reads_append (text : List Char)
    (hacc : accepted (text.foldl advance (activeRules .initial)) = some action)
    (hdead : advance (text.foldl advance (activeRules .initial)) c = [])
    (haction : action text (scan []).toLexState = ((scan []).toLexState, some t)) :
    Reads (scan (text ++ c :: rest)) t (scan (c :: rest)) := by
  have hmatch := scanMatch_append (s := scan (text ++ c :: rest)) text action hacc hdead rfl
  have haction' : action text (scan (text ++ c :: rest)).toLexState = ((scan []).toLexState, some t) :=
    haction
  rw [haction'] at hmatch
  exact yylex_of_token hmatch

theorem reads_closed (text : List Char)
    (hacc : accepted (text.foldl advance (activeRules .initial)) = some action)
    (hdead : ∀ c, advance (text.foldl advance (activeRules .initial)) c = [])
    (haction : action text (scan []).toLexState = ((scan []).toLexState, some t)) :
    Reads (scan (text ++ rest)) t (scan rest) := by
  have hmatch := scanMatch_append_of_closed (s := scan (text ++ rest)) text action hacc hdead rfl
  have haction' : action text (scan (text ++ rest)).toLexState = ((scan []).toLexState, some t) := haction
  rw [haction'] at hmatch
  exact yylex_of_token hmatch

/-- What follows an operand. -/
def EndsOperand (c : Char) : Prop := c = ' ' ∨ c = ']'

theorem readsReg_regName (x : RegIndex) (hc : EndsOperand c) :
    ReadsReg (scan (regName x :: c :: rest)) x (scan (c :: rest)) := by
  have hread : ∀ n : Fin 16, ReadsReg (scan (regName (.ofFin n) :: c :: rest)) (.ofFin n) (scan (c :: rest)) := by
    intro n
    rcases hc with rfl | rfl <;> fin_cases n <;>
      exact ⟨_, reads_append [_] rfl rfl rfl, rfl⟩
  exact hread x.toFin

theorem reads_open : Reads (scan ('[' :: rest)) (.char '[') (scan rest) :=
  reads_closed ['['] rfl (fun _ ↦ rfl) rfl

theorem reads_close : Reads (scan (']' :: rest)) (.char ']') (scan rest) :=
  reads_closed [']'] rfl (fun _ ↦ rfl) rfl

theorem reads_plus : Reads (scan ('+' :: rest)) (.char '+') (scan rest) :=
  reads_closed ['+'] rfl (fun _ ↦ rfl) rfl

theorem reads_minus {d : ℕ} (hd : 0 < d) (hd' : d < 10) :
    Reads (scan ('-' :: d.digitChar :: rest)) (.char '-') (scan (d.digitChar :: rest)) := by
  interval_cases d <;> exact reads_append ['-'] rfl rfl rfl

theorem reads_nl : Reads (scan ('\n' :: rest)) (.char '\n') (scan rest) :=
  reads_closed ['\n'] rfl (fun _ ↦ rfl) rfl

/-- The operator of an instruction and the spaces around it. -/
theorem readsBinop_printOp (op : Op) (text : List Char) :
    ∃ k, ReadsBinop (scan (' ' :: printOp (opName op) ++ ' ' :: text)) (.native op)
      (scan (List.replicate k ' ' ++ text)) := by
  cases op
  case add => exact ⟨2, _, (reads_append ['+'] rfl rfl rfl).skip.skip, rfl⟩
  case subtract => exact ⟨2, _, (reads_append ['-'] rfl rfl rfl).skip.skip, rfl⟩
  case multiply => exact ⟨2, _, (reads_append ['*'] rfl rfl rfl).skip.skip, rfl⟩
  case testBit => exact ⟨2, _, (reads_append ['@'] rfl rfl rfl).skip.skip, rfl⟩
  case compareLt => exact ⟨2, _, (reads_append ['<'] rfl rfl rfl).skip.skip, rfl⟩
  case bitwiseOr => exact ⟨2, _, (reads_append ['|'] rfl rfl rfl).skip.skip, rfl⟩
  case bitwiseAnd => exact ⟨2, _, (reads_append ['&'] rfl rfl rfl).skip.skip, rfl⟩
  case bitwiseXor => exact ⟨2, _, (reads_append ['^'] rfl rfl rfl).skip.skip, rfl⟩
  case pack => exact ⟨1, _, (reads_append ['^', '^'] rfl rfl rfl).skip.skip, rfl⟩
  case compareEq => exact ⟨1, _, (reads_append ['=', '='] rfl rfl rfl).skip.skip, rfl⟩
  case compareGe => exact ⟨1, _, (reads_append ['>', '='] rfl rfl rfl).skip.skip, rfl⟩
  case bitwiseOrn => exact ⟨1, _, (reads_append ['|', '~'] rfl rfl rfl).skip.skip, rfl⟩
  case bitwiseAndn => exact ⟨1, _, (reads_append ['&', '~'] rfl rfl rfl).skip.skip, rfl⟩
  case shiftLeft => exact ⟨1, _, (reads_append ['<', '<'] rfl rfl rfl).skip.skip, rfl⟩
  case shiftRightArith => exact ⟨1, _, (reads_append ['>', '>'] rfl rfl rfl).skip.skip, rfl⟩
  case shiftRightLogic => exact ⟨1, _, (reads_append ['>', '>', '>'] rfl rfl rfl).skip, rfl⟩

end

/-! ## Numbers -/

theorem mem_toDigits {b n : ℕ} (hb : 1 < b) {c : Char} (hc : c ∈ Nat.toDigits b n) :
    ∃ d < b, c = d.digitChar := by
  induction n using Nat.strongRecOn with
  | ind n ih =>
    by_cases hn : n < b
    · rw [Nat.toDigits_of_lt_base hn, List.mem_singleton] at hc
      exact ⟨n, hn, hc⟩
    · have hbase : b ≤ n := not_lt.mp hn
      rw [Nat.toDigits_of_base_le hb hbase, List.mem_append, List.mem_singleton] at hc
      rcases hc with hc | rfl
      · exact ih (n / b) (Nat.div_lt_self (by omega) hb) hc
      · exact ⟨n % b, Nat.mod_lt _ (by omega), rfl⟩

theorem digitValue_digitChar {d : ℕ} (h : d < 16) : digitValue d.digitChar = d := by
  interval_cases d <;> rfl

/-- The digits of a number build it up. -/
theorem scanBase_toDigits {b : ℕ} (hb : 1 < b) (hb' : b ≤ 16) (n : ℕ) (text : List Char) :
    scanBase b 0 (Nat.toDigits b n ++ text) = scanBase b n text := by
  induction n using Nat.strongRecOn generalizing text with
  | ind n ih =>
    by_cases hn : n < b
    · rw [Nat.toDigits_of_lt_base hn, List.singleton_append, scanBase,
        digitValue_digitChar (hn.trans_le hb'), if_pos hn]
      simp
    · have hbase : b ≤ n := not_lt.mp hn
      have hdigit : n % b < b := Nat.mod_lt _ (by omega)
      calc
        scanBase b 0 (Nat.toDigits b n ++ text) =
            scanBase b 0 (Nat.toDigits b (n / b) ++ ((n % b).digitChar :: text)) := by
          rw [Nat.toDigits_of_base_le hb hbase, List.append_assoc, List.singleton_append]
        _ = scanBase b (n / b) ((n % b).digitChar :: text) :=
          ih (n / b) (Nat.div_lt_self (by omega) hb) _
        _ = scanBase b (b * (n / b) + n % b) text := by
          rw [scanBase, digitValue_digitChar (hdigit.trans_le hb'), if_pos hdigit]
        _ = scanBase b n text := by rw [Nat.div_add_mod]

theorem scanBase_zeros {b : ℕ} (hb : 0 < b) (k : ℕ) (text : List Char) :
    scanBase b 0 (List.replicate k '0' ++ text) = scanBase b 0 text := by
  induction k with
  | zero => rfl
  | succ k ih =>
    rw [List.replicate_succ, List.cons_append, scanBase, show digitValue '0' = 0 from rfl, if_pos hb]
    exact ih

theorem filter_toDigits {b : ℕ} (hb : 1 < b) (hb' : b ≤ 16) (n : ℕ) :
    (Nat.toDigits b n).filter (· != '_') = Nat.toDigits b n := by
  apply List.filter_eq_self.mpr
  intro c hc
  obtain ⟨d, hd, rfl⟩ := mem_toDigits hb hc
  have hd' : d < 16 := hd.trans_le hb'
  interval_cases d <;> rfl

theorem numberise_toDigits {n : ℕ} (hn : n < 2 ^ 63) :
    numberise (Nat.toDigits 10 n) 10 = BitVec.ofNat 32 n := by
  have hscan := scanBase_toDigits (b := 10) (by decide) (by decide) n []
  rw [List.append_nil, scanBase] at hscan
  have hstrtoll : strtoll (Nat.toDigits 10 n) 10 = min (scanBase 10 0 (Nat.toDigits 10 n)) (2 ^ 63 - 1) := by
    simp [strtoll]
  rw [numberise, filter_toDigits (by decide) (by decide), hstrtoll, hscan,
    min_eq_left (Nat.le_sub_one_of_lt hn)]

theorem numberise_printHexWord (w : Word) : numberise (printHexWord w) 0 = w := by
  have hfilter : (printHexWord w).filter (· != '_') = printHexWord w := by
    rw [printHexWord, Scan.printHex8, Scan.printHex]
    simp [List.filter_append, filter_toDigits]
  have hscan : scanBase 16 0 (Scan.printHex8 w) = w.toNat := by
    have h := scanBase_toDigits (b := 16) (by decide) (by decide) w.toNat []
    rw [List.append_nil, scanBase] at h
    rw [Scan.printHex8, scanBase_zeros (by decide), Scan.printHex, h]
  have hlt : w.toNat < 2 ^ 63 := w.isLt.trans (by decide)
  rw [numberise, hfilter]
  change BitVec.ofNat 32 (min (scanBase 16 0 (Scan.printHex8 w)) (2 ^ 63 - 1)) = w
  rw [hscan, min_eq_left (Nat.le_sub_one_of_lt hlt), BitVec.ofNat_toNat, BitVec.setWidth_eq]

/-- A number that is not zero starts with a digit that is not. -/
theorem exists_toDigits_cons {n : ℕ} (hn : 0 < n) :
    ∃ d digits, Nat.toDigits 10 n = d.digitChar :: digits ∧ 0 < d ∧ d < 10 := by
  induction n using Nat.strongRecOn with
  | ind n ih =>
    by_cases hlt : n < 10
    · exact ⟨n, [], Nat.toDigits_of_lt_base hlt, hn, hlt⟩
    · have hbase : 10 ≤ n := not_lt.mp hlt
      obtain ⟨d, digits, hdigits, hd⟩ := ih (n / 10) (by omega) (by omega)
      exact ⟨d, digits ++ [(n % 10).digitChar],
        by rw [Nat.toDigits_of_base_le (by decide) hbase, hdigits, List.cons_append], hd⟩

/-- Digits behind the first one leave the rule that takes any number of them. -/
theorem foldl_advance_digits {p : Char → Bool} (action : Action) {digits : List Char}
    (h : ∀ c ∈ digits, p c = true) :
    ∃ others, digits.foldl advance [(action, many (one p)), (unexpected, blank)] =
      (action, many (one p)) :: others ∧ ∀ c, advance others c = [] := by
  cases digits with
  | nil => exact ⟨_, rfl, fun c ↦ rfl⟩
  | cons c digits =>
    refine ⟨[], ?_, fun c ↦ rfl⟩
    have hfirst : advance [(action, many (one p)), (unexpected, blank)] c = [(action, many (one p))] := by
      simp [advance, Pattern.deriv, h c List.mem_cons_self, andThen, isNever]
    rw [List.foldl_cons, hfirst]
    exact foldl_advance_many_one fun d hd ↦ h d (List.mem_cons_of_mem c hd)

theorem advance_cons_eq_nil {rule : Action × Pattern Char} {rules : List (Action × Pattern Char)} {c : Char}
    (hrule : advance [rule] c = []) (hrules : advance rules c = []) : advance (rule :: rules) c = [] := by
  rw [advance, List.map_cons, ← List.singleton_append, List.filter_append]
  exact List.append_eq_nil_iff.mpr ⟨hrule, hrules⟩

section

variable {c : Char} {rest : List Char}

theorem reads_decimal {n : ℕ} (hn : n < 2 ^ 63) (hc : EndsOperand c) :
    Reads (scan (Nat.toDigits 10 n ++ c :: rest)) (.integer (BitVec.ofNat 32 n)) (scan (c :: rest)) := by
  have haction : ∀ s, giveText (fun yytext ↦ .integer (numberise yytext 10)) (Nat.toDigits 10 n) s =
      (s, some (.integer (BitVec.ofNat 32 n))) := by
    intro s
    rw [giveText, numberise_toDigits hn]
  have hend : isDigitOf '9' c = false := by rcases hc with rfl | rfl <;> rfl
  rcases Nat.eq_zero_or_pos n with rfl | hpos
  · rcases hc with rfl | rfl
    · exact reads_append ['0'] rfl rfl (haction _)
    · exact reads_append ['0'] rfl rfl (haction _)
  · obtain ⟨d, digits, hdigits, hd⟩ := exists_toDigits_cons hpos
    have hall : ∀ e ∈ digits, isDigitOf '9' e = true := by
      intro e he
      obtain ⟨k, hk, rfl⟩ := mem_toDigits (b := 10) (n := n) (by decide)
        (hdigits ▸ List.mem_cons_of_mem _ he)
      interval_cases k <;> rfl
    have hfirst : advance (activeRules .initial) d.digitChar =
        [(giveText fun yytext ↦ .integer (numberise yytext 10), many (one (isDigitOf '9'))),
          (unexpected, blank)] := by
      obtain ⟨hd, hd'⟩ := hd
      interval_cases d <;> rfl
    obtain ⟨others, hothers, hdead⟩ :=
      foldl_advance_digits (giveText fun yytext ↦ .integer (numberise yytext 10)) hall
    have hfold : (Nat.toDigits 10 n).foldl advance (activeRules .initial) =
        (giveText fun yytext ↦ .integer (numberise yytext 10), many (one (isDigitOf '9'))) :: others := by
      rw [hdigits, List.foldl_cons, hfirst, hothers]
    apply reads_append _ _ _ (haction _)
    · rw [hfold]
      rfl
    · rw [hfold]
      exact advance_cons_eq_nil (by rw [advance_many_one, hend]; rfl) (hdead c)

theorem reads_printHexWord (w : Word) (hc : EndsOperand c) :
    Reads (scan (printHexWord w ++ c :: rest)) (.bitstring w) (scan (c :: rest)) := by
  have haction : ∀ s, giveText (fun yytext ↦ .bitstring (numberise yytext 0)) (printHexWord w) s =
      (s, some (.bitstring w)) := by
    intro s
    rw [giveText, numberise_printHexWord]
  have hend : isHexnum c = false := by rcases hc with rfl | rfl <;> rfl
  have hall : ∀ e ∈ Scan.printHex8 w, isHexnum e = true := by
    intro e he
    rw [Scan.printHex8, List.mem_append] at he
    rcases he with he | he
    · rw [List.eq_of_mem_replicate he]
      rfl
    · obtain ⟨k, hk, rfl⟩ := mem_toDigits (b := 16) (by decide) he
      interval_cases k <;> rfl
  obtain ⟨e, digits, hdigits⟩ : ∃ e digits, Scan.printHex8 w = e :: digits := by
    apply List.exists_cons_of_ne_nil
    exact List.append_ne_nil_of_right_ne_nil _ Nat.toDigits_ne_nil
  have hradix : (['0', 'x'].foldl advance (activeRules .initial)) =
      [(giveText fun yytext ↦ .bitstring (numberise yytext 0),
        seq (one isHexnum) (many (one isHexnum)))] := rfl
  have hfirst : advance [((giveText fun yytext ↦ .bitstring (numberise yytext 0) : Action),
      seq (one isHexnum) (many (one isHexnum)))] e =
      [(giveText fun yytext ↦ .bitstring (numberise yytext 0), many (one isHexnum))] := by
    have he : isHexnum e = true := hall e (hdigits ▸ List.mem_cons_self)
    simp [advance, Pattern.deriv, nullable, he, andThen, isNever]
  have hfold : (printHexWord w).foldl advance (activeRules .initial) =
      [(giveText fun yytext ↦ .bitstring (numberise yytext 0), many (one isHexnum))] := by
    change (Scan.printHex8 w).foldl advance (['0', 'x'].foldl advance (activeRules .initial)) = _
    rw [hradix, hdigits, List.foldl_cons, hfirst]
    exact foldl_advance_many_one fun d hd ↦ hall d (hdigits ▸ List.mem_cons_of_mem e hd)
  apply reads_append _ _ _ (haction _)
  · rw [hfold]
    rfl
  · rw [hfold, advance_many_one, hend]
    rfl

end

/-! ## Comments -/

/-- Upper and lower case are the same for what is not a letter. -/
theorem eitherCase_eq {k : Char} (hk : k.toNat < 65 ∨ (90 < k.toNat ∧ k.toNat < 97)) (c : Char) :
    eitherCase (· == k) c = (c == k) := by
  have hlower : c.toLower = k ↔ c = k := by
    unfold Char.toLower
    split
    · rename_i h
      simp only [Char.ext_iff, ← UInt32.toNat_inj, UInt32.le_iff_toNat_le, ge_iff_le, UInt32.toNat_add,
        Char.toNat] at h hk ⊢
      simp at *
      omega
    · rfl
  have hupper : c.toUpper = k ↔ c = k := by
    unfold Char.toUpper
    split
    · rename_i h
      simp only [Char.ext_iff, ← UInt32.toNat_inj, UInt32.le_iff_toNat_le, UInt32.toNat_add,
        Char.toNat] at h hk ⊢
      simp at *
      omega
    · rfl
  rw [eitherCase, Bool.eq_iff_iff, Bool.or_eq_true, beq_iff_eq, beq_iff_eq, beq_iff_eq, hlower, hupper,
    or_self]

/-- The scanner in a comment up to the end of the line. -/
def comment (text : List Char) : Scanner := (scan text).push .linecomment

/-- Characters that stay on their line. -/
def StaysOnLine (c : Char) : Prop := c ≠ '\n' ∧ c ≠ '\r'

instance : DecidablePred StaysOnLine := fun c ↦ inferInstanceAs (Decidable (c ≠ '\n' ∧ c ≠ '\r'))

section

variable {c d : Char} {text rest : List Char}

theorem deriv_lineEnd (hc : StaysOnLine c) : lineEnd.deriv c = never := by
  have hcr : eitherCase (· == '\r') c = false := by
    rw [eitherCase_eq (by decide), beq_eq_false_iff_ne]
    exact hc.2
  have hnl : eitherCase (· == '\n') c = false := by
    rw [eitherCase_eq (by decide), beq_eq_false_iff_ne]
    exact hc.1
  simp [lineEnd, Pattern.deriv, letter, nullable, hcr, hnl, andThen, orElse]

/-- A character of a comment, unless it is a backslash that goes on to the next line. -/
theorem scanMatch_comment (hc : StaysOnLine c) (hd : c = '\\' → StaysOnLine d) :
    scanMatch (comment (c :: d :: rest)) = some (comment (d :: rest), none) := by
  have hnl : eitherCase (· == '\n') c = false := by
    rw [eitherCase_eq (by decide), beq_eq_false_iff_ne]
    exact hc.1
  have hdot : (c != '\n') = true := bne_iff_ne.mpr hc.1
  have hrules : activeRules .linecomment =
      [(skip, seq (letter '\\') lineEnd), (popping (some (.char '\n')), lineEnd), (skip, dot),
        (give (.char '\n'), letter '\n'), (unexpected, dot)] := rfl
  by_cases hslash : c = '\\'
  · subst hslash
    have hfirst : [('\\' : Char)].foldl advance (activeRules .linecomment) =
        [(skip, lineEnd), (skip, blank), (unexpected, blank)] := rfl
    apply scanMatch_append ['\\'] skip
    · rw [show (comment ('\\' :: d :: rest)).cond = .linecomment from rfl, hfirst]
      rfl
    · rw [show (comment ('\\' :: d :: rest)).cond = .linecomment from rfl, hfirst]
      simp [advance, deriv_lineEnd (hd rfl), Pattern.deriv, isNever]
    · rfl
  · have hback : eitherCase (· == '\\') c = false := by
      rw [eitherCase_eq (by decide), beq_eq_false_iff_ne]
      exact hslash
    have hfirst : [c].foldl advance (activeRules .linecomment) = [(skip, blank), (unexpected, blank)] := by
      rw [hrules]
      simp [advance, deriv_lineEnd hc, Pattern.deriv, letter, dot, nullable, hback, hnl, hdot, andThen, isNever]
    apply scanMatch_append [c] skip
    · rw [show (comment (c :: d :: rest)).cond = .linecomment from rfl, hfirst]
      rfl
    · rw [show (comment (c :: d :: rest)).cond = .linecomment from rfl, hfirst]
      rfl
    · rfl

/-- A comment ends with its line. -/
theorem yylex_comment (h : ∀ c ∈ text, StaysOnLine c) (hlast : text.getLast? ≠ some '\\')
    (rest : List Char) : yylex (comment (text ++ '\n' :: rest)) = (some (.char '\n'), scan rest) := by
  induction text with
  | nil =>
    apply yylex_of_token
    exact scanMatch_append_of_closed (s := comment ('\n' :: rest)) ['\n']
      (popping (some (.char '\n'))) rfl (fun _ ↦ rfl) rfl
  | cons c text ih =>
    have hc := h c List.mem_cons_self
    have htext : ∀ c ∈ text, StaysOnLine c := fun d hd ↦ h d (List.mem_cons_of_mem c hd)
    cases text with
    | nil =>
      have hslash : c ≠ '\\' := fun heq ↦ hlast (by rw [heq]; rfl)
      exact (yylex_of_skip (scanMatch_comment hc fun heq ↦ absurd heq hslash)).trans (ih htext (by simp))
    | cons d text =>
      have hlast' : (d :: text).getLast? ≠ some '\\' := by rwa [List.getLast?_cons_cons] at hlast
      exact (yylex_of_skip (scanMatch_comment hc fun _ ↦ htext d List.mem_cons_self)).trans (ih htext hlast')

theorem reads_comment (h : ∀ c ∈ text, StaysOnLine c) (hlast : text.getLast? ≠ some '\\')
    (rest : List Char) : Reads (scan ('#' :: text ++ '\n' :: rest)) (.char '\n') (scan rest) := by
  have hopen : scanMatch (scan ('#' :: text ++ '\n' :: rest)) = some (comment (text ++ '\n' :: rest), none) :=
    scanMatch_append_of_closed (s := scan ('#' :: text ++ '\n' :: rest)) ['#']
      (pushing .linecomment none) rfl (fun _ ↦ rfl) rfl
  exact (yylex_of_skip hopen).trans (yylex_comment h hlast rest)

end

end Tenyr.Asm
