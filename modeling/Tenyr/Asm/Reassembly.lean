import Tenyr.Asm.Assembled
import Tenyr.Asm.Binding
import Tenyr.Asm.Spelling

/-!
# Assembling a disassembly

Each printed line is derived as an instruction statement that is assembled to the word it was printed for,
whatever is printed in its comment. So the text as a whole is assembled to the words it was printed for.
-/

namespace Tenyr.Asm

open Isa Obj Lib Lib.Pulling

/-! ## Instructions -/

section

variable {s s₀ s' : Scanner} {text rest : List Char}

theorem DerivesRhsPlain.congr_yylex {r : RhsPlain Name} (h : DerivesRhsPlain s r s')
    (hlex : yylex s₀ = yylex s) : DerivesRhsPlain s₀ r s' := by
  have hread : ∀ {t s₁}, Reads s t s₁ → Reads s₀ t s₁ := fun h ↦ hlex.trans h
  have hreg : ∀ {x s₁}, ReadsReg s x s₁ → ReadsReg s₀ x s₁ := fun ⟨c, h, hc⟩ ↦ ⟨c, hread h, hc⟩
  cases h with
  | regRegImm hx hop hy hsign he => exact .regRegImm (hreg hx) hop hy hsign he
  | regReg hx hop hy => exact .regReg (hreg hx) hop hy
  | reg hx => exact .reg (hreg hx)
  | regImmReg hx hop he hplus hy => exact .regImmReg (hreg hx) hop he hplus hy
  | regImm hx hop he => exact .regImm (hreg hx) hop he
  | immRegReg he hop hx hplus hy => exact .immRegReg (he.congr_yylex hlex) hop hx hplus hy
  | immReg he hop hx => exact .immReg (he.congr_yylex hlex) hop hx
  | imm he => exact .imm (he.congr_yylex hlex)
  | unaryRegImm hop hx hsign he => exact .unaryRegImm (hread hop) hx hsign he
  | unaryRegReg hop hx hplus hy => exact .unaryRegReg (hread hop) hx hplus hy
  | unaryReg hop hx => exact .unaryReg (hread hop) hx

theorem Spells.spaces {r : RhsPlain Name} (h : Spells text r) (k : ℕ) {c : Char} (hc : EndsOperand c) :
    DerivesRhsPlain (scan (List.replicate k ' ' ++ (text ++ c :: rest))) r (scan (c :: rest)) :=
  (h c rest hc).congr_yylex (yylex_spaces k _)

theorem Reads.needarrow {t : Token} (h : Reads ((scan text).push .needarrow) t s') :
    Reads ((scan (' ' :: text)).push .needarrow) t s' :=
  Reads.space (s := (scan text).push .needarrow) (.inr rfl) h

/-- `arrows` -/
def arrowOf (dd : BitVec 2) : Arrow := if dd = 1#2 then .right else .left

theorem reads_needarrow (arrow : List Char) {t : Token} {c : Char}
    (hacc : accepted (arrow.foldl advance (activeRules .needarrow)) = some (give t))
    (hdead : advance (arrow.foldl advance (activeRules .needarrow)) c = []) :
    Reads ((scan (arrow ++ c :: rest)).push .needarrow) t ((scan (c :: rest)).push .needarrow) :=
  yylex_of_token (scanMatch_append (s := (scan (arrow ++ c :: rest)).push .needarrow) arrow (give t) hacc hdead rfl)

theorem reads_arrow (dd : BitVec 2) (k : ℕ) (text : List Char) :
    Reads ((scan (List.replicate k ' ' ++ ' ' :: arrowName dd ++ ' ' :: text)).push .needarrow)
      (arrowOf dd).token ((scan (' ' :: text)).push .needarrow) := by
  induction k with
  | zero =>
    unfold arrowName arrowOf
    split
    · exact (reads_needarrow ['-', '>'] rfl rfl).needarrow
    · exact (reads_needarrow ['<', '-'] rfl rfl).needarrow
  | succ k ih => exact ih.needarrow

theorem bracketed_lhs (deref : Bool) (z : RegIndex) (text : List Char) :
    ∃ k, Bracketed ReadsReg (scan ((brackets deref).1 :: regName z :: (brackets deref).2 :: ' ' :: text))
      (deref, z) (scan (List.replicate k ' ' ++ ' ' :: text)) := by
  cases deref with
  | true => exact ⟨0, .deref reads_open (readsReg_regName z (.inr rfl)) reads_close⟩
  | false => exact ⟨1, .plain ((readsReg_regName z endsOperand_space).spaces 1)⟩

theorem bracketed_rhs (deref : Bool) {r : RhsPlain Name} (h : Spells text r) (rest : List Char) :
    ∃ k, Bracketed DerivesRhsPlain (scan (' ' :: (brackets deref).1 :: (text ++ (brackets deref).2 :: rest)))
      (deref, r) (scan (List.replicate k ' ' ++ rest)) := by
  cases deref with
  | true => exact ⟨0, .deref reads_open.skip (h _ _ (.inr rfl)) reads_close⟩
  | false => exact ⟨1, .plain (h.spaces 2 endsOperand_space)⟩

end

/-- A statement that is assembled to a word. -/
structure InsnStmt.Encodes (stmt : InsnStmt Name) (w : Word) : Prop where
  rhs : ∃ e?, Tenyr.Asm.Encodes stmt.rhs e? w
  dd : stmt.dd = fieldDd w
  z : stmt.z = fieldZ w
  arrows : stmt.arrowErrors = []

/-- What is printed for a word is read as a statement that is assembled to it. -/
theorem derivesInsn_printInsn (verbose : Bool) (w : Word) :
    ∃ text stmt, printInsn verbose w = some text ∧ stmt.Encodes w ∧
      ∀ rest, ∃ k, DerivesInsn (scan (text ++ rest)) stmt (scan (List.replicate k ' ' ++ rest)) := by
  obtain ⟨operands, rhs, e?, hprint, hspells, hencodes⟩ := readBack_printedOperands verbose w
  refine ⟨_, ⟨fieldDd w == 2#2, fieldZ w, arrowOf (fieldDd w), (fieldDd w).getLsbD 0, rhs⟩,
    congrArg (Option.map _) hprint, ⟨⟨e?, hencodes⟩, ?_, rfl, ?_⟩, ?_⟩
  · simp only [InsnStmt.dd, arrowOf]
    rcases fieldDd_cases w with h | h | h | h <;> rw [h] <;> rfl
  · have hmodes : ∀ dd : BitVec 2, (dd == 2#2 && dd.getLsbD 0) = false ∧
        (arrowOf dd == .right && !dd.getLsbD 0) = false := by decide
    obtain ⟨hboth, hright⟩ := hmodes (fieldDd w)
    rw [InsnStmt.arrowErrors, hboth, hright]
    rfl
  · intro rest
    obtain ⟨k, hlhs⟩ := bracketed_lhs (fieldDd w == 2#2) (fieldZ w) (arrowName (fieldDd w) ++
      ' ' :: (brackets ((fieldDd w).getLsbD 0)).1 ::
        (operands ++ (brackets ((fieldDd w).getLsbD 0)).2 :: rest))
    obtain ⟨k', hrhs⟩ := bracketed_rhs ((fieldDd w).getLsbD 0) hspells rest
    have harrow := reads_arrow (fieldDd w) k ((brackets ((fieldDd w).getLsbD 0)).1 ::
        (operands ++ (brackets ((fieldDd w).getLsbD 0)).2 :: rest))
    refine ⟨k', ?_⟩
    simp only [List.append_assoc, List.cons_append, List.nil_append] at hlhs harrow ⊢
    exact .mk hlhs harrow hrhs

/-! ## Lines -/

theorem staysOnLine_of_all {text : List Char} (h : text.all (fun c ↦ decide (StaysOnLine c)) = true) :
    ∀ c ∈ text, StaysOnLine c := by
  simpa only [List.all_eq_true, decide_eq_true_iff] using h

theorem staysOnLine_printHexWord (w : Word) : ∀ c ∈ printHexWord w, StaysOnLine c := by
  intro c hc
  rw [printHexWord, Lib.Scan.printHex8, List.mem_cons, List.mem_cons, List.mem_append] at hc
  rcases hc with rfl | rfl | hc | hc
  · decide
  · decide
  · rw [List.eq_of_mem_replicate hc]
    decide
  · obtain ⟨d, hd, rfl⟩ := mem_toDigits (b := 16) (by decide) hc
    interval_cases d <;> decide

theorem getLast?_printHexWord (w : Word) : (printHexWord w).getLast? ≠ some '\\' := by
  intro h
  have hmem : '\\' ∈ printHexWord w := List.mem_of_getLast? h
  rw [printHexWord, Lib.Scan.printHex8, List.mem_cons, List.mem_cons, List.mem_append] at hmem
  rcases hmem with h | h | h | h
  · cases h
  · cases h
  · cases List.eq_of_mem_replicate h
  · obtain ⟨d, hd, h⟩ := mem_toDigits (b := 16) (by decide) h
    interval_cases d <;> cases h

theorem staysOnLine_isPrintable {ch : Word} {buf : List Char} (h : isPrintable ch = some buf) :
    ∀ c ∈ buf, StaysOnLine c := by
  unfold isPrintable at h
  split at h
  case h_10 =>
    split at h
    · rename_i hrange
      obtain rfl := Option.some.inj h
      have hstays : ∀ n < 0x7f, 0x20 ≤ n → StaysOnLine (Char.ofNat n) := by decide
      intro c hc
      rw [List.mem_singleton.mp hc]
      exact hstays _ hrange.2 hrange.1
    · cases h
  all_goals
    obtain rfl := Option.some.inj h
    exact staysOnLine_of_all (by decide)

/-- Characters that are not printed as they are are spelled with a backslash. -/
theorem staysOnLine_printChar (w : Word) : ∀ c ∈ printChar w, StaysOnLine c := by
  have hspace : ∀ n, ∀ c ∈ List.replicate n ' ', StaysOnLine c := by
    intro n c hc
    rw [List.eq_of_mem_replicate hc]
    decide
  unfold printChar
  split
  · rename_i buf h
    simp only [List.forall_mem_append]
    exact ⟨⟨⟨staysOnLine_of_all (by decide), staysOnLine_isPrintable h⟩, staysOnLine_of_all (by decide)⟩,
      hspace _⟩
  · exact hspace _

/-- The comment of a line. -/
def lineComment (i : Fmt.Element) : List Char :=
  [' '] ++ printData i.word ++ [' ', ';', ' '] ++ printChar i.word ++
    [' ', ';', ' ', '.', 'a', 'd', 'd', 'r', ' '] ++ printHexWord i.reladdr

theorem reads_lineComment (i : Fmt.Element) (rest : List Char) :
    Reads (scan ('#' :: lineComment i ++ '\n' :: rest)) (.char '\n') (scan rest) := by
  apply reads_comment
  · simp only [lineComment, printData, List.forall_mem_append]
    have hsep : ∀ c ∈ [' ', ';', ' '], StaysOnLine c := staysOnLine_of_all (by decide)
    exact ⟨⟨⟨⟨⟨staysOnLine_of_all (by decide), staysOnLine_of_all (by decide), staysOnLine_printHexWord _⟩, hsep⟩,
      staysOnLine_printChar _⟩, staysOnLine_of_all (by decide)⟩, staysOnLine_printHexWord _⟩
  · have hne : printHexWord i.reladdr ≠ [] := List.cons_ne_nil _ _
    rw [lineComment, List.getLast?_append_of_ne_nil _ hne]
    exact getLast?_printHexWord _

theorem derivesLine_of_insn {stmt : InsnStmt Name} {text tail rest : List Char} {k : ℕ}
    (hinsn : DerivesInsn (scan text) stmt (scan (List.replicate k ' ' ++ tail)))
    (htail : Reads (scan tail) (.char '\n') (scan rest)) :
    DerivesLine (scan text) (.element (.insn stmt)) (scan rest) :=
  .mk (.element (.insn hinsn)) (.inl (htail.spaces k)) ⟨[], .nil _⟩

theorem derivesLine_printLine (verbose quiet : Bool) (i : Fmt.Element) :
    ∃ text stmt, printLine verbose quiet i = some text ∧ stmt.Encodes i.word ∧
      ∀ rest, DerivesLine (scan (text ++ rest)) (.element (.insn stmt)) (scan rest) := by
  obtain ⟨insn, stmt, hprint, hstmt, hinsn⟩ := derivesInsn_printInsn verbose i.word
  refine ⟨_, stmt, congrArg (Option.map _) hprint, hstmt, fun rest ↦ ?_⟩
  cases quiet with
  | true =>
    obtain ⟨k, hinsn⟩ := hinsn ('\n' :: rest)
    have hline := derivesLine_of_insn hinsn reads_nl
    simpa using hline
  | false =>
    obtain ⟨k, hinsn⟩ := hinsn (List.replicate (30 - insn.length : ℤ).natAbs ' ' ++
      ('#' :: lineComment i ++ '\n' :: rest))
    have hline := derivesLine_of_insn hinsn ((reads_lineComment i rest).spaces _)
    simpa [lineComment] using hline

/-! ## Assembling -/

/-- An element that is fixed up to a word whatever the symbols are. -/
structure Elem.FixesTo (e : Elem) (w : Word) : Prop where
  size : e.size = 1#32
  done : e.fixup = none → e.word = w
  fixup : ∀ d, e.fixup = some d →
    ∃ l : Literal, d.ce = l.expr ∧ d.store e.word (BitVec.ofInt 32 l.value) = (w, false)

theorem RhsPlain.make_i {ρ : Type} (i : ConstExpr ρ → Word) (r : RhsPlain ρ) (h : r.expr? = none) :
    (r.make i).i = 0#32 := by
  cases r with
  | regReg x op y => rfl
  | reg x => rfl
  | unaryRegReg op x y => rfl
  | unaryReg op x => rfl
  | regRegImm | regImmReg | regImm | immRegReg | immReg | imm | unaryRegImm => cases h

section

variable (undef : UndefinedShifts) (fuel : ℕ) {stmt : InsnStmt Name} {w : Word}

theorem InsnStmt.Encodes.parse (h : stmt.Encodes w) (env : Env) :
    ∃ e, parseElement undef fuel env (.insn stmt) = .ok ([e], [], []) ∧ e.FixesTo w := by
  obtain ⟨⟨e?, hrhs⟩, hdd, hz, harrows⟩ := h
  obtain ⟨hagrees, hmult⟩ := hrhs.make env (constI undef env fuel) (Literal.constI_expr undef env fuel)
  generalize hr : (stmt.rhs.map (ConstExpr.map (makeRef env))).make (constI undef env fuel) = r
    at hagrees hmult
  have hexpr : (stmt.bind env).rhs.expr? = e?.map Literal.expr := by
    rw [InsnStmt.bind, RhsPlain.expr?_map, hrhs.expr, Option.map_map]
    exact congrArg (Option.map · e?) (funext fun e ↦ Literal.map_written env e)
  have hce : r.ce = e?.map Literal.expr := by
    rw [← hr, RhsPlain.make_ce]
    exact hexpr
  have himmediate : parseImmediate undef env fuel (stmt.bind env).rhs.expr? = .ok [] := by
    rw [hexpr]
    cases e? with
    | none => rfl
    | some e => exact Literal.parseExpr_expr undef env fuel e
  have hmake : (stmt.bind env).make (constI undef env fuel) = (r.word (fieldDd w) (fieldZ w) r.i,
      e?.map fun l ↦ ⟨l.expr, r.mult, r.width, r.ignoreWidth⟩) := by
    have hunfold : (stmt.bind env).make (constI undef env fuel) = (r.word stmt.dd stmt.z r.i,
        r.ce.map fun ce ↦ ⟨ce, r.mult, r.width, r.ignoreWidth⟩) := by
      rw [← hr]
      rfl
    rw [hunfold, hce, Option.map_map, hdd, hz]
    rfl
  have harrows' : (stmt.bind env).arrowErrors = [] := harrows
  have hparse : parseElement undef fuel env (.insn stmt) =
      .ok ([{ word := r.word (fieldDd w) (fieldZ w) r.i, size := 1#32
              fixup := e?.map fun l ↦ ⟨l.expr, r.mult, r.width, r.ignoreWidth⟩ }], [], []) := by
    rw [parseElement, parseInsn, himmediate, harrows', hmake]
    rfl
  refine ⟨_, hparse, ⟨rfl, ?_, ?_⟩⟩
  · intro hnone
    have he : e? = none := Option.map_eq_none_iff.mp hnone
    have hvalue := hrhs.value
    rw [he] at hvalue
    have hi : r.i = printedImm w := by
      rw [← hr, RhsPlain.make_i]
      · exact hvalue
      · rw [RhsPlain.expr?_map, hrhs.expr, he]
        rfl
    exact (congrArg (r.word (fieldDd w) (fieldZ w)) hi).trans hagrees.word_eq
  · intro d hd
    obtain ⟨l, rfl, rfl⟩ := Option.map_eq_some_iff.mp hd
    have hvalue : BitVec.ofInt 32 l.value * r.mult = printedImm w := by
      rw [hmult rfl, BitVec.mul_one]
      exact hrhs.value
    have hword := DeferredExpr.store_word r (fieldDd w) (fieldZ w) r.i (BitVec.ofInt 32 l.value) l.expr
    rw [hvalue, hagrees.word_eq] at hword
    refine ⟨l, rfl, Prod.ext hword ?_⟩
    simp only [DeferredExpr.store, hvalue, hagrees.fits, bne_self_eq_false, Bool.and_false]

/-- The statements of a text that are assembled to a list of words. -/
def Stands (stmt : Statement) (w : Word) : Prop := ∃ insn, stmt = .element (.insn insn) ∧ insn.Encodes w

theorem parse_stands {source : Source} {ws : List Word} (h : List.Forall₂ Stands source ws)
    (pd : ParseData) :
    ∃ elems, source.foldlM (parseStatement undef fuel) pd = .ok { pd with elems := pd.elems ++ elems } ∧
      List.Forall₂ Elem.FixesTo elems ws := by
  induction h generalizing pd with
  | nil => exact ⟨[], by rw [List.foldlM_nil, List.append_nil]; rfl, .nil⟩
  | @cons stmt w source ws hstmt _ ih =>
    obtain ⟨insn, rfl, hinsn⟩ := hstmt
    obtain ⟨e, hparse, he⟩ := hinsn.parse undef fuel pd.env
    obtain ⟨elems, hrest, helems⟩ := ih { pd with elems := pd.elems ++ [e] }
    refine ⟨e :: elems, ?_, .cons he helems⟩
    have hstep : parseStatement undef fuel pd (.element (.insn insn)) =
        .ok { pd with elems := pd.elems ++ [e] } := by
      simp only [parseStatement, hparse, bind, Except.bind, List.map_nil, List.append_nil]
    rw [List.foldlM_cons, hstep]
    exact hrest.trans (by rw [List.append_assoc]; rfl)

theorem ceFree_expr (fuel : ℕ) (symbols : List Symbol) (l : Literal) :
    ceFree fuel symbols l.expr = symbols := by
  have hfree : ∀ (sub : List Symbol → ConstExpr Ref → List Symbol), ceFreeWith sub symbols l.expr = symbols := by
    intro sub
    induction l with
    | decnum | hexnum => rfl
    | paren l ih => exact ih
    | neg l ih => exact ih
  cases fuel <;> exact hfree _

theorem fixupFrom_fixesTo {elems : List Elem} {ws : List Word} (h : List.Forall₂ Elem.FixesTo elems ws)
    (reladdrs : List Word) (k : ℕ) (st : FixupState) :
    fixupFrom undef fuel reladdrs k elems st = .ok { st with words := ws ++ st.words } := by
  induction h generalizing k with
  | nil => rfl
  | @cons e w elems ws he _ ih =>
    rw [fixupFrom, ih]
    change fixupElem undef fuel reladdrs k e { st with words := ws ++ st.words } = _
    unfold fixupElem
    cases hfixup : e.fixup with
    | none =>
      rw [he.done hfixup]
      rfl
    | some d =>
      obtain ⟨l, hce, hstore⟩ := he.fixup d hfixup
      have hdeferred : l.expr.flags.isDeferred = false := by rw [Literal.flags_expr]
      have heval := ceEval_of_not_deferred undef
        { symbols := st.symbols, reladdrs, phantom := true } fuel (some k)
        { relocate := true, negate := false } d.width hdeferred
      rw [Literal.constValue_expr] at heval
      simp only [hce, heval, Except.map, bind, Except.bind, hstore, ceFree_expr, List.reverse_nil,
        List.nil_append, Bool.or_false, List.cons_append]

theorem assemblyInner_fixesTo {elems : List Elem} {ws : List Word}
    (h : List.Forall₂ Elem.FixesTo elems ws) :
    assemblyInner undef fuel { ParseData.empty with elems } = .ok
      { elems, reladdrs := addrsFrom 0#32 elems, words := ws, symbols := [], relocs := [] } := by
  have hfixup := fixupFrom_fixesTo undef fuel h (addrsFrom 0#32 elems) 0
    { symbols := [], words := [], relocs := [], tooLarge := false }
  rw [List.append_nil] at hfixup
  have hunique : hasDuplicates [] = false := rfl
  have hglobals : markGlobals [] { symbols := [], reladdrs := addrsFrom 0#32 elems, phantom := true } = [] := rfl
  simp only [assemblyInner, ParseData.empty, List.map_nil, resolveSets, bind, Except.bind, hglobals, hunique,
    hfixup, Bool.false_eq_true, if_false]

/-! ## The disassembler and the assembler -/

/-- The lines that are printed for a list of elements, and the statements that stand in them. -/
theorem derives_lines (verbose quiet : Bool) {print : Fmt.Element → List Char}
    (hprint : ∀ i, printLine verbose quiet i = some (print i)) (elements : List Fmt.Element) :
    ∃ source, Many DerivesLine (scan (elements.flatMap print)) source (scan []) ∧
      List.Forall₂ Stands source (elements.map Fmt.Element.word) := by
  induction elements with
  | nil => exact ⟨[], .nil _, .nil⟩
  | cons i elements ih =>
    obtain ⟨source, hlines, hstands⟩ := ih
    obtain ⟨text, stmt, htext, hstmt, hline⟩ := derivesLine_printLine verbose quiet i
    obtain rfl : text = print i := Option.some.inj (htext.symm.trans (hprint i))
    exact ⟨.element (.insn stmt) :: source, .cons (hline (elements.flatMap print)) hlines,
      .cons ⟨stmt, rfl, hstmt⟩ hstands⟩

theorem doAssembly_lines {verbose quiet : Bool} {print : Fmt.Element → List Char}
    (hprint : ∀ i, printLine verbose quiet i = some (print i)) (elements : List Fmt.Element) :
    ∃ elems, List.Forall₂ Elem.FixesTo elems (elements.map Fmt.Element.word) ∧
      doAssembly undef fuel (elements.flatMap print) = .ok (some
        { elems, reladdrs := addrsFrom 0#32 elems, words := elements.map Fmt.Element.word, symbols := []
          relocs := [] }) := by
  obtain ⟨source, hlines, hstands⟩ := derives_lines verbose quiet hprint elements
  have htop : DerivesTop (scan (elements.flatMap print)) source (scan []) :=
    .mk ⟨[], .nil _⟩ hlines (yylex_nil rfl)
  obtain ⟨elems, hparse, helems⟩ := parse_stands undef fuel hstands ParseData.empty
  have hinner := assemblyInner_fixesTo undef fuel helems
  have hparse' : parse undef fuel source = .ok { ParseData.empty with elems } := hparse
  refine ⟨elems, helems, ?_⟩
  simp only [doAssembly, htop.parse_eq, hparse', bind, Except.bind]
  rw [hinner]
  rfl

end

/-- There is a format for the operands of every word. -/
theorem exists_printLine (verbose quiet : Bool) :
    ∃ print : Fmt.Element → List Char, ∀ i, printLine verbose quiet i = some (print i) := by
  have hsome : ∀ i, ∃ text, printLine verbose quiet i = some text := fun i ↦
    (derivesLine_printLine verbose quiet i).imp fun _ ⟨_, h, _⟩ ↦ h
  choose print hprint using hsome
  exact ⟨print, hprint⟩

/-- A file of any format that is disassembled, in any of the styles, and assembled again has the same
words, in the same order, and nothing else. -/
theorem doAssembly_doDisassembly (undef : UndefinedShifts) (fuel : ℕ) (verbose quiet : Bool)
    (state : Fmt.FileState) :
    ∃ print answers, (∀ i, printLine verbose quiet i = some (print i)) ∧
      Pulls Fmt.input state answers ∧
      ∀ rounds > answers.length, ∃ text a,
        Fmt.doDisassembly print rounds state = some (.ok text) ∧
          doAssembly undef fuel text = .ok (some a) ∧
          a.words = (items answers).map Fmt.Element.word ∧ a.elems.length = (items answers).length ∧
          a.symbols = [] ∧ a.relocs = [] := by
  obtain ⟨print, hprint⟩ := exists_printLine verbose quiet
  obtain ⟨answers, hanswers⟩ := Fmt.exists_pulls_input state
  refine ⟨print, answers, hprint, hanswers, fun rounds hrounds ↦ ?_⟩
  obtain ⟨elems, helems, hassembly⟩ := doAssembly_lines undef fuel hprint (items answers)
  have hlength : elems.length = (items answers).length := by
    rw [helems.length_eq, List.length_map]
  exact ⟨_, _, Fmt.doDisassembly_eq print hanswers hrounds, hassembly, rfl, hlength, rfl, rfl⟩

end Tenyr.Asm
