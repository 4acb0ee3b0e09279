import Tenyr.Asm.Program

/-!
# What assembling preserves

The passes of the assembler one at a time: which errors they stop with, and what they keep of the
symbols and elements that parsing made.
-/

namespace Tenyr.Asm

open Isa Obj

/-! ## Errors -/

/-- The ways in which evaluating an expression stops the assembler. -/
def Stop.InEval (stop : Stop) : Prop :=
  stop = .fatal ∨ stop = .divideTrap ∨ stop = .stackOverflow

/-- A computation that stops only as evaluation does. -/
def StopsInEval {α : Type} (x : Except Stop α) : Prop := ∀ stop, x = .error stop → stop.InEval

namespace StopsInEval

variable {α β : Type}

theorem ok (a : α) : StopsInEval (.ok a) := by
  rintro stop ⟨⟩

theorem fatal : StopsInEval (.error .fatal : Except Stop α) := by
  rintro stop ⟨⟩
  exact .inl rfl

theorem bind {x : Except Stop α} {f : α → Except Stop β} (hx : StopsInEval x)
    (hf : ∀ a, StopsInEval (f a)) : StopsInEval (x >>= f) := by
  cases x with
  | error stop =>
    rintro stop' ⟨⟩
    exact hx stop rfl
  | ok a => exact hf a

theorem map {x : Except Stop α} (f : α → β) (hx : StopsInEval x) : StopsInEval (x.map f) := by
  cases x with
  | error stop =>
    rintro stop' ⟨⟩
    exact hx stop rfl
  | ok a => exact ok (f a)

end StopsInEval

theorem stopsInEval_apply (undef : UndefinedShifts) (op : BinaryOp) (left right : Word) :
    StopsInEval (op.apply undef left right) := by
  cases op with
  | div =>
    rw [BinaryOp.apply]
    split
    · exact .fatal
    · split
      · rintro stop ⟨⟩
        exact .inr (.inl rfl)
      · exact .ok _
  | add | sub | mul | xor | and | or | lsh | rsha | rsh => exact .ok _

section

variable (undef : UndefinedShifts)

theorem stopsInEval_symbolLookup (env : Env) {sub : Evaluator}
    (hsub : ∀ context flags width e, StopsInEval (sub context flags width e)) (name : Name) :
    StopsInEval (symbolLookup env sub name) := by
  unfold symbolLookup
  split
  · exact .ok _
  · split
    · exact .ok _
    · split
      · exact .fatal
      · exact .map _ (hsub _ _ _ _)

theorem stopsInEval_ceEvalWith (env : Env) {sub : Evaluator}
    (hsub : ∀ context flags width e, StopsInEval (sub context flags width e))
    (context : Option ℕ) (flags : EvalFlags) (width : ℕ) (e : ConstExpr Ref) :
    StopsInEval (ceEvalWith undef env sub context flags width e) := by
  induction e generalizing flags with
  | ref isExternal r =>
    rw [ceEvalWith]
    split
    · split
      · exact .ok _
      · apply StopsInEval.bind (hsub _ _ _ _)
        rintro ⟨value, relocs⟩
        cases value with
        | some value => exact .ok _
        | none =>
          dsimp only
          split
          · exact .ok _
          · exact .ok _
    · apply StopsInEval.bind (stopsInEval_symbolLookup env hsub _)
      intro found
      dsimp only
      split
      · exact .ok _
      · exact .ok _
  | ici =>
    rw [ceEvalWith]
    split
    · exact .ok _
    · exact .ok _
  | imm i isBits => exact .ok _
  | paren e ih => exact ih flags
  | op1 op left ih =>
    rw [ceEvalWith]
    apply StopsInEval.bind (ih flags)
    rintro ⟨value, relocs⟩
    exact .ok _
  | op2 op left right ihLeft ihRight =>
    rw [ceEvalWith]
    apply StopsInEval.bind (ihLeft flags)
    rintro ⟨leftValue, relocs⟩
    cases leftValue with
    | none => exact .ok _
    | some leftValue =>
      apply StopsInEval.bind (ihRight _)
      rintro ⟨rightValue, relocs'⟩
      cases rightValue with
      | none => exact .ok _
      | some rightValue =>
        apply StopsInEval.bind (stopsInEval_apply undef op _ _)
        intro value
        exact .ok _

theorem stopsInEval_ceEval (env : Env) (fuel : ℕ) (context : Option ℕ) (flags : EvalFlags)
    (width : ℕ) (e : ConstExpr Ref) : StopsInEval (ceEval undef env fuel context flags width e) := by
  induction fuel generalizing context flags width e with
  | zero =>
    apply stopsInEval_ceEvalWith
    rintro context flags width e stop ⟨⟩
    exact .inr (.inr rfl)
  | succ fuel ih => exact stopsInEval_ceEvalWith undef env ih context flags width e

variable (fuel : ℕ)

theorem stopsInEval_parseEvals {ρ : Type} {eval : ConstExpr ρ → Except Stop Unit}
    (heval : ∀ e, StopsInEval (eval e)) (asExpr : Bool) (e : ConstExpr ρ) :
    StopsInEval (parseEvals eval asExpr e) := by
  induction e generalizing asExpr with
  | ref isExternal r =>
    rw [parseEvals]
    split
    · exact heval _
    · exact .ok _
  | ici =>
    rw [parseEvals]
    split
    · exact heval _
    · exact .ok _
  | imm i isBits =>
    rw [parseEvals]
    split
    · exact heval _
    · exact .ok _
  | paren e ih => exact ih true
  | op1 op left ih => exact .bind (ih false) fun _ ↦ heval _
  | op2 op left right ihLeft ihRight =>
    exact .bind (ihLeft true) fun _ ↦ .bind (ihRight true) fun _ ↦ heval _

theorem stopsInEval_ceEvalConst (env : Env) (e : ConstExpr Ref) :
    StopsInEval ((ceEvalConst undef env fuel e).map fun _ ↦ ()) :=
  .map _ (.map _ (stopsInEval_ceEval undef env fuel _ _ _ e))

theorem stopsInEval_parseExpr (env : Env) (asExpr : Bool) (e : ConstExpr Ref) :
    StopsInEval (parseExpr undef env fuel asExpr e) :=
  .bind (stopsInEval_parseEvals (stopsInEval_ceEvalConst undef fuel env) asExpr e) fun _ ↦ .ok _

theorem stopsInEval_parseInsn (env : Env) (s : InsnStmt Ref) :
    StopsInEval (parseInsn undef env fuel s) := by
  refine .bind ?_ fun _ ↦ .ok _
  unfold parseImmediate
  split
  · exact .ok _
  · exact stopsInEval_parseExpr undef fuel env false _

theorem stopsInEval_makeData (env : Env) (exprs : List (ConstExpr Name)) :
    StopsInEval (makeData undef fuel env exprs) := by
  induction exprs with
  | nil => exact .ok _
  | cons e rest ih =>
    exact .bind (stopsInEval_parseExpr undef fuel env true _) fun _ ↦ .bind ih fun _ ↦ .ok _

theorem stopsInEval_makeZeros (env : Env) (size : ConstExpr Name) :
    StopsInEval (makeZeros undef fuel env size) :=
  .bind (stopsInEval_parseEvals (stopsInEval_ceEvalConst undef fuel env) true _) fun _ ↦ .ok _

/-! ## Parsing -/

/-- An element that yields nothing: an empty string. -/
def Element.isEmpty : Element → Bool
  | .word exprs => exprs.isEmpty
  | .utf32 chars => chars.isEmpty
  | .labelled _ inner => inner.isEmpty
  | .zero _ | .illegal | .insn _ => false

/-- A label in front of an element that yields nothing. -/
def Element.labelsNothing : Element → Bool
  | .labelled _ inner => inner.isEmpty
  | .word _ | .zero _ | .utf32 _ | .illegal | .insn _ => false

theorem makeData_length {env : Env} {exprs : List (ConstExpr Name)}
    {result : List Elem × List Diagnostic} (h : makeData undef fuel env exprs = .ok result) :
    result.1.length = exprs.length := by
  induction exprs generalizing result with
  | nil =>
    obtain rfl := Except.ok.inj h
    rfl
  | cons e rest ih =>
    rw [makeData, bind_eq_ok] at h
    obtain ⟨errors, _, h⟩ := h
    rw [bind_eq_ok] at h
    obtain ⟨tail, htail, h⟩ := h
    obtain rfl := Except.ok.inj h
    simpa using ih htail

/-- Whatever has an expression to fix up takes one word, and the field is within it. -/
def Elem.Sound (e : Elem) : Prop :=
  ∀ d, e.fixup = some d → e.size = 1#32 ∧ 0 < d.width ∧ d.width ≤ 32

theorem Elem.sound_of_fixup_none {e : Elem} (h : e.fixup = none) : e.Sound := by
  intro d hd
  rw [h] at hd
  cases hd

theorem makeData_sound {env : Env} {exprs : List (ConstExpr Name)}
    {result : List Elem × List Diagnostic} (h : makeData undef fuel env exprs = .ok result) :
    ∀ e ∈ result.1, e.Sound := by
  induction exprs generalizing result with
  | nil =>
    obtain rfl := Except.ok.inj h
    simp
  | cons e rest ih =>
    rw [makeData, bind_eq_ok] at h
    obtain ⟨errors, _, h⟩ := h
    rw [bind_eq_ok] at h
    obtain ⟨tail, htail, h⟩ := h
    obtain rfl := Except.ok.inj h
    intro e' he'
    rcases List.mem_cons.mp he' with rfl | he'
    · intro d hd
      obtain rfl := Option.some.inj hd
      refine ⟨rfl, ?_⟩
      simp only [wordBitwidth]
      omega
    · exact ih htail e' he'

theorem parseInsn_sound {env : Env} {s : InsnStmt Ref}
    {result : (Word × Option (DeferredExpr Ref)) × List Diagnostic}
    (h : parseInsn undef env fuel s = .ok result) :
    ({ word := result.1.1, size := 1#32, fixup := result.1.2 } : Elem).Sound := by
  rw [parseInsn, bind_eq_ok] at h
  obtain ⟨errors, _, h⟩ := h
  obtain rfl := Except.ok.inj h
  intro d hd
  refine ⟨rfl, ?_⟩
  simp only [InsnStmt.make, makeInsnGeneral] at hd
  obtain ⟨ce, _, rfl⟩ := Option.map_eq_some_iff.mp hd
  dsimp only
  split
  · exact ⟨by decide, by decide⟩
  · exact ⟨by decide, by decide⟩

theorem parseElement_sound {env : Env} {e : Element}
    {result : List Elem × List Name × List Diagnostic}
    (h : parseElement undef fuel env e = .ok result) : ∀ e' ∈ result.1, e'.Sound := by
  induction e generalizing result with
  | word exprs =>
    rw [parseElement, bind_eq_ok] at h
    obtain ⟨data, hdata, h⟩ := h
    obtain rfl := Except.ok.inj h
    exact makeData_sound undef fuel hdata
  | zero size =>
    rw [parseElement, bind_eq_ok] at h
    obtain ⟨data, hdata, h⟩ := h
    obtain rfl := Except.ok.inj h
    rw [makeZeros, bind_eq_ok] at hdata
    obtain ⟨_, _, hdata⟩ := hdata
    obtain rfl := Except.ok.inj hdata
    intro e' he'
    obtain rfl := List.mem_singleton.mp he'
    exact Elem.sound_of_fixup_none rfl
  | utf32 chars =>
    obtain rfl := Except.ok.inj h
    intro e' he'
    obtain ⟨c, _, rfl⟩ := List.mem_map.mp he'
    exact Elem.sound_of_fixup_none rfl
  | illegal =>
    obtain rfl := Except.ok.inj h
    intro e' he'
    obtain rfl := List.mem_singleton.mp he'
    exact Elem.sound_of_fixup_none rfl
  | insn stmt =>
    rw [parseElement, bind_eq_ok] at h
    obtain ⟨parsed, hparsed, h⟩ := h
    obtain rfl := Except.ok.inj h
    intro e' he'
    obtain rfl := List.mem_singleton.mp he'
    exact parseInsn_sound undef fuel hparsed
  | labelled symbol inner ih =>
    rw [parseElement, bind_eq_ok] at h
    obtain ⟨⟨elems, labels, errors⟩, hinner, h⟩ := h
    dsimp only at h
    split at h
    · cases h
    · obtain rfl := Except.ok.inj h
      have hsound := ih hinner
      exact hsound

/-- A label is accepted in front of at least one element only. -/
theorem parseElement_eq_ok {env : Env} {e : Element}
    {result : List Elem × List Name × List Diagnostic}
    (h : parseElement undef fuel env e = .ok result) :
    e.labelsNothing = false ∧ result.1.isEmpty = e.isEmpty ∧
      (result.2.1 ≠ [] → result.1 ≠ []) := by
  induction e generalizing result with
  | word exprs =>
    rw [parseElement, bind_eq_ok] at h
    obtain ⟨data, hdata, h⟩ := h
    obtain rfl := Except.ok.inj h
    refine ⟨rfl, ?_, fun hlabels ↦ absurd rfl hlabels⟩
    rw [Element.isEmpty, Bool.eq_iff_iff, List.isEmpty_iff_length_eq_zero,
      List.isEmpty_iff_length_eq_zero, makeData_length undef fuel hdata]
  | zero size =>
    rw [parseElement, bind_eq_ok] at h
    obtain ⟨data, hdata, h⟩ := h
    obtain rfl := Except.ok.inj h
    rw [makeZeros, bind_eq_ok] at hdata
    obtain ⟨_, _, hdata⟩ := hdata
    obtain rfl := Except.ok.inj hdata
    exact ⟨rfl, rfl, fun hlabels ↦ absurd rfl hlabels⟩
  | utf32 chars =>
    obtain rfl := Except.ok.inj h
    refine ⟨rfl, ?_, fun hlabels ↦ absurd rfl hlabels⟩
    cases chars <;> rfl
  | illegal =>
    obtain rfl := Except.ok.inj h
    exact ⟨rfl, rfl, fun hlabels ↦ absurd rfl hlabels⟩
  | insn stmt =>
    rw [parseElement, bind_eq_ok] at h
    obtain ⟨parsed, _, h⟩ := h
    obtain rfl := Except.ok.inj h
    exact ⟨rfl, rfl, fun hlabels ↦ absurd rfl hlabels⟩
  | labelled symbol inner ih =>
    rw [parseElement, bind_eq_ok] at h
    obtain ⟨⟨elems, labels, errors⟩, hinner, h⟩ := h
    obtain ⟨_, hempty, _⟩ := ih hinner
    dsimp only at h hempty
    split at h
    · cases h
    · rename_i hne
      obtain rfl := Except.ok.inj h
      have hfalse : inner.isEmpty = false := by
        rw [← hempty]
        simpa using hne
      exact ⟨hfalse, hempty, fun _ ↦ by simpa using hne⟩

theorem Element.isEmpty_of_labelsNothing {e : Element} (h : e.labelsNothing = true) :
    e.isEmpty = true := by
  cases e with
  | labelled symbol inner => exact h
  | word | zero | utf32 | illegal | insn => cases h

/-- Parsing an element stops as evaluation does, or at a label of nothing. -/
theorem parseElement_eq_error {env : Env} {e : Element} {stop : Stop}
    (h : parseElement undef fuel env e = .error stop) :
    stop.InEval ∨ (stop = .nullPointer ∧ e.labelsNothing = true) := by
  induction e generalizing stop with
  | word exprs =>
    exact .inl (StopsInEval.bind (stopsInEval_makeData undef fuel env exprs) (fun _ ↦ .ok _) stop h)
  | zero size =>
    exact .inl (StopsInEval.bind (stopsInEval_makeZeros undef fuel env size) (fun _ ↦ .ok _) stop h)
  | utf32 chars => cases h
  | illegal => cases h
  | insn stmt =>
    exact .inl (StopsInEval.bind (stopsInEval_parseInsn undef fuel env _) (fun _ ↦ .ok _) stop h)
  | labelled symbol inner ih =>
    rw [parseElement] at h
    cases hinner : parseElement undef fuel env inner with
    | error stop' =>
      rw [hinner] at h
      obtain rfl := Except.error.inj h
      rcases ih hinner with heval | ⟨hnull, hnothing⟩
      · exact .inl heval
      · exact .inr ⟨hnull, Element.isEmpty_of_labelsNothing hnothing⟩
    | ok result =>
      rw [hinner] at h
      change (if result.1.isEmpty then _ else _) = _ at h
      split at h
      · rename_i hempty
        obtain rfl := Except.error.inj h
        rw [(parseElement_eq_ok undef fuel hinner).2.1] at hempty
        exact .inr ⟨rfl, hempty⟩
      · cases h

theorem parseStatement_eq_ok {pd pd' : ParseData} {e : Element}
    (h : parseStatement undef fuel pd (.element e) = .ok pd') : e.labelsNothing = false := by
  rw [parseStatement, bind_eq_ok] at h
  obtain ⟨result, helement, _⟩ := h
  exact (parseElement_eq_ok undef fuel helement).1

theorem parseStatement_eq_error {pd : ParseData} {s : Statement} {stop : Stop}
    (h : parseStatement undef fuel pd s = .error stop) :
    stop.InEval ∨ (stop = .nullPointer ∧ ∃ e, s = .element e ∧ e.labelsNothing = true) := by
  cases s with
  | element e =>
    rw [parseStatement] at h
    cases helement : parseElement undef fuel pd.env e with
    | error stop' =>
      rw [helement] at h
      obtain rfl := Except.error.inj h
      rcases parseElement_eq_error undef fuel helement with heval | ⟨hnull, hnothing⟩
      · exact .inl heval
      · exact .inr ⟨hnull, e, rfl, hnothing⟩
    | ok result =>
      rw [helement] at h
      cases h
  | global symbol => cases h
  | set symbol e =>
    exact .inl (StopsInEval.bind (stopsInEval_parseExpr undef fuel _ true _) (fun _ ↦ .ok _) stop h)
  | option => cases h

/-- What is parsed to the end has no label in front of nothing. -/
theorem foldlM_parseStatement_eq_ok {source : Source} {pd pd' : ParseData}
    (h : source.foldlM (parseStatement undef fuel) pd = .ok pd') {e : Element}
    (he : .element e ∈ source) : e.labelsNothing = false := by
  induction source generalizing pd with
  | nil => cases he
  | cons s rest ih =>
    rw [List.foldlM_cons, bind_eq_ok] at h
    obtain ⟨pd₁, hs, hrest⟩ := h
    rcases List.mem_cons.mp he with rfl | he
    · exact parseStatement_eq_ok undef fuel hs
    · exact ih hrest he

theorem foldlM_parseStatement_eq_error {source : Source} {pd : ParseData} {stop : Stop}
    (h : source.foldlM (parseStatement undef fuel) pd = .error stop) :
    stop.InEval ∨ (stop = .nullPointer ∧ ∃ e, .element e ∈ source ∧ e.labelsNothing = true) := by
  induction source generalizing pd with
  | nil => cases h
  | cons s rest ih =>
    rw [List.foldlM_cons] at h
    cases hs : parseStatement undef fuel pd s with
    | error stop' =>
      rw [hs] at h
      obtain rfl := Except.error.inj h
      rcases parseStatement_eq_error undef fuel hs with heval | ⟨hnull, e, rfl, hnothing⟩
      · exact .inl heval
      · exact .inr ⟨hnull, e, List.mem_cons_self, hnothing⟩
    | ok pd₁ =>
      rw [hs] at h
      rcases ih h with heval | ⟨hnull, e, hmem, hnothing⟩
      · exact .inl heval
      · exact .inr ⟨hnull, e, List.mem_cons_of_mem _ hmem, hnothing⟩

/-- What every statement keeps: labels are on elements, and expressions in single words. -/
structure ParseData.Valid (pd : ParseData) : Prop where
  label : ∀ s ∈ pd.symbols, s.ce = none → s.place < pd.elems.length
  fixup : ∀ e ∈ pd.elems, e.Sound

theorem parseStatement_valid {pd pd' : ParseData} {s : Statement} (hpd : pd.Valid)
    (h : parseStatement undef fuel pd s = .ok pd') : pd'.Valid := by
  cases s with
  | element e =>
    rw [parseStatement, bind_eq_ok] at h
    obtain ⟨⟨elems, labels, errors⟩, helement, h⟩ := h
    obtain rfl := Except.ok.inj h
    refine ⟨?_, ?_⟩
    · intro s hs hce
      rw [List.length_append]
      rcases List.mem_append.mp hs with hs | hs
      · have := hpd.label s hs hce
        omega
      · obtain ⟨name, hname, rfl⟩ := List.mem_map.mp hs
        have hne := (parseElement_eq_ok undef fuel helement).2.2 (List.ne_nil_of_mem hname)
        have := List.length_pos_of_ne_nil hne
        change pd.elems.length < pd.elems.length + elems.length
        change 0 < elems.length at this
        omega
    · intro e' he'
      rcases List.mem_append.mp he' with he' | he'
      · exact hpd.fixup e' he'
      · exact parseElement_sound undef fuel helement e' he'
  | global symbol =>
    obtain rfl := Except.ok.inj h
    exact ⟨hpd.label, hpd.fixup⟩
  | set symbol e =>
    rw [parseStatement, bind_eq_ok] at h
    obtain ⟨errors, _, h⟩ := h
    obtain rfl := Except.ok.inj h
    refine ⟨?_, hpd.fixup⟩
    intro s hs hce
    rcases List.mem_append.mp hs with hs | hs
    · exact hpd.label s hs hce
    · obtain rfl := List.mem_singleton.mp hs
      cases hce
  | option =>
    obtain rfl := Except.ok.inj h
    exact hpd

/-- What each statement preserves, parsing preserves. -/
theorem foldlM_parseStatement_invariant {Inv : ParseData → Prop}
    (hstep : ∀ pd s pd', Inv pd → parseStatement undef fuel pd s = .ok pd' → Inv pd')
    {source : Source} {pd pd' : ParseData} (hpd : Inv pd)
    (h : source.foldlM (parseStatement undef fuel) pd = .ok pd') : Inv pd' := by
  induction source generalizing pd with
  | nil =>
    obtain rfl := Except.ok.inj h
    exact hpd
  | cons s rest ih =>
    rw [List.foldlM_cons, bind_eq_ok] at h
    obtain ⟨pd₁, hs, hrest⟩ := h
    exact ih (hstep pd s pd₁ hpd hs) hrest

theorem parse_valid {source : Source} {pd : ParseData} (h : parse undef fuel source = .ok pd) :
    pd.Valid := by
  apply foldlM_parseStatement_invariant undef fuel
    (fun pd s pd' ↦ parseStatement_valid undef fuel) ?_ h
  exact ⟨by simp [ParseData.empty], by simp [ParseData.empty]⟩

/-! ## Fixing up -/

theorem stopsInEval_resolveSets (env : Env) (symbols : List Symbol) :
    StopsInEval (resolveSets undef fuel env symbols) := by
  induction symbols with
  | nil => exact .ok _
  | cons s rest ih =>
    apply StopsInEval.bind ih
    rintro ⟨rest, relocs⟩
    dsimp only
    split
    · exact .ok _
    · apply StopsInEval.bind (stopsInEval_ceEval undef env fuel _ _ _ _)
      rintro ⟨value, added⟩
      exact .ok _

theorem stopsInEval_fixupFrom (reladdrs : List Word) (k : ℕ) (elems : List Elem)
    (st : FixupState) : StopsInEval (fixupFrom undef fuel reladdrs k elems st) := by
  induction elems generalizing k with
  | nil => exact .ok _
  | cons e rest ih =>
    apply StopsInEval.bind (ih (k + 1))
    intro st
    unfold fixupElem
    split
    · exact .ok _
    · apply StopsInEval.bind (stopsInEval_ceEval undef _ fuel _ _ _ _)
      rintro ⟨value, added⟩
      cases value with
      | none => exact .fatal
      | some value => exact .ok _

theorem stopsInEval_assemblyInner (pd : ParseData) :
    StopsInEval (assemblyInner undef fuel pd) := by
  apply StopsInEval.bind (stopsInEval_resolveSets undef fuel _ _)
  rintro ⟨symbols, relocs⟩
  dsimp only
  split
  · exact .fatal
  · apply StopsInEval.bind (stopsInEval_fixupFrom undef fuel _ _ _ _)
    intro st
    split
    · exact .fatal
    · exact .ok _

end

/-! ## Symbols -/

/-- A symbol whose expression has been freed. -/
def Symbol.free (s : Symbol) : Symbol := { s with ce := none }

/-- The symbols that are left when some expressions have been freed. -/
def Freed (symbols symbols' : List Symbol) : Prop :=
  ∀ id : ℕ, symbols'[id]? = symbols[id]? ∨ symbols'[id]? = symbols[id]?.map Symbol.free

namespace Freed

theorem refl (symbols : List Symbol) : Freed symbols symbols := fun _ ↦ .inl rfl

theorem trans {a b c : List Symbol} (hab : Freed a b) (hbc : Freed b c) : Freed a c := by
  intro id
  rcases hab id with hab | hab
  · rcases hbc id with hbc | hbc
    · exact .inl (hbc.trans hab)
    · exact .inr (by rw [hbc, hab])
  · rcases hbc id with hbc | hbc
    · exact .inr (hbc.trans hab)
    · refine .inr ?_
      rw [hbc, hab, Option.map_map]
      rfl

theorem modify (symbols : List Symbol) (id : ℕ) :
    Freed symbols (symbols.modify id fun s ↦ { s with ce := none }) := by
  intro id'
  rw [List.getElem?_modify]
  by_cases h : id = id'
  · subst h
    right
    simp only [if_true]
    rfl
  · left
    simp [h]

/-- What freeing keeps of each symbol. -/
theorem getElem? {symbols symbols' : List Symbol} (h : Freed symbols symbols') {id : ℕ}
    {s : Symbol} (hs : symbols[id]? = some s) :
    symbols'[id]? = some s ∨ symbols'[id]? = some s.free := by
  rcases h id with h | h
  · exact .inl (h.trans hs)
  · exact .inr (by rw [h, hs]; rfl)

theorem length_eq {symbols symbols' : List Symbol} (h : Freed symbols symbols') :
    symbols'.length = symbols.length := by
  have hnone : ∀ id : ℕ, symbols'[id]? = none ↔ symbols[id]? = none := by
    intro id
    rcases h id with h | h
    · rw [h]
    · rw [h, Option.map_eq_none_iff]
  apply Nat.le_antisymm
  · exact List.getElem?_eq_none_iff.mp ((hnone _).mpr (List.getElem?_eq_none le_rfl))
  · exact List.getElem?_eq_none_iff.mp ((hnone _).mp (List.getElem?_eq_none le_rfl))

end Freed

theorem freed_ceFreeWith {sub : List Symbol → ConstExpr Ref → List Symbol}
    (hsub : ∀ symbols e, Freed symbols (sub symbols e)) (symbols : List Symbol)
    (e : ConstExpr Ref) : Freed symbols (ceFreeWith sub symbols e) := by
  induction e generalizing symbols with
  | ref isExternal r =>
    cases r with
    | bound id =>
      rw [ceFreeWith]
      split
      · exact (hsub _ _).trans (.modify _ _)
      · exact .refl _
    | unbound symbolname => exact .refl _
  | ici | imm => exact .refl _
  | paren e ih => exact ih symbols
  | op1 op left ih => exact ih symbols
  | op2 op left right ihLeft ihRight => exact (ihRight symbols).trans (ihLeft _)

theorem freed_ceFree (fuel : ℕ) (symbols : List Symbol) (e : ConstExpr Ref) :
    Freed symbols (ceFree fuel symbols e) := by
  induction fuel generalizing symbols e with
  | zero => exact freed_ceFreeWith (fun symbols _ ↦ .refl symbols) symbols e
  | succ fuel ih => exact freed_ceFreeWith ih symbols e

theorem markGlobals_getElem? (globals : List Name) (env : Env) {id : ℕ} {s : Symbol}
    (hs : env.symbols[id]? = some s) :
    ∃ isGlobal, (markGlobals globals env)[id]? = some { s with global := isGlobal } := by
  rw [markGlobals, List.getElem?_mapIdx, hs]
  exact ⟨_, rfl⟩

section

variable (undef : UndefinedShifts) (fuel : ℕ)

/-- Evaluating `.set` symbols gives them values and leaves labels alone. -/
theorem resolveSets_getElem? {env : Env} {symbols symbols' : List Symbol} {relocs : List RelocNode}
    (h : resolveSets undef fuel env symbols = .ok (symbols', relocs)) {id : ℕ} {s : Symbol}
    (hs : symbols[id]? = some s) :
    ∃ s', symbols'[id]? = some s' ∧ s'.name = s.name ∧ s'.ce = s.ce ∧ s'.place = s.place ∧
      (s.ce = none → s' = s) := by
  induction symbols generalizing symbols' relocs id with
  | nil => cases hs
  | cons t rest ih =>
    rw [resolveSets, bind_eq_ok] at h
    obtain ⟨⟨rest', relocs'⟩, hrest, h⟩ := h
    dsimp only at h
    cases hce : t.ce with
    | none =>
      rw [hce] at h
      obtain ⟨rfl, rfl⟩ := Prod.mk.inj (Except.ok.inj h)
      cases id with
      | zero =>
        obtain rfl := Option.some.inj hs
        exact ⟨t, rfl, rfl, rfl, rfl, fun _ ↦ rfl⟩
      | succ id => exact ih hrest hs
    | some ce =>
      rw [hce] at h
      dsimp only at h
      rw [bind_eq_ok] at h
      obtain ⟨⟨value, added⟩, _, h⟩ := h
      obtain ⟨rfl, rfl⟩ := Prod.mk.inj (Except.ok.inj h)
      cases id with
      | zero =>
        obtain rfl := Option.some.inj hs
        have hce' : t.ce ≠ none := by simp [hce]
        cases value with
        | none => exact ⟨t, rfl, rfl, rfl, rfl, fun _ ↦ rfl⟩
        | some value => exact ⟨_, rfl, rfl, hce.symm, rfl, fun hnone ↦ absurd hnone hce'⟩
      | succ id => exact ih hrest hs

/-- A `.set` symbol is given the value of its expression without a context. -/
theorem resolveSets_set {env : Env} {symbols symbols' : List Symbol} {relocs : List RelocNode}
    (h : resolveSets undef fuel env symbols = .ok (symbols', relocs)) {id : ℕ} {s : Symbol}
    (hs : symbols[id]? = some s) {ce : ConstExpr Ref} (hce : s.ce = some ce) :
    ∃ value added, ceEval undef env fuel none { relocate := true, negate := false } wordBitwidth ce =
        .ok (value, added) ∧
      symbols'[id]? = some
        (value.elim s fun value ↦ { s with reladdr := value, resolved := true }) := by
  induction symbols generalizing symbols' relocs id with
  | nil => cases hs
  | cons t rest ih =>
    rw [resolveSets, bind_eq_ok] at h
    obtain ⟨⟨rest', relocs'⟩, hrest, h⟩ := h
    dsimp only at h
    cases id with
    | zero =>
      obtain rfl := Option.some.inj hs
      rw [hce] at h
      dsimp only at h
      rw [bind_eq_ok] at h
      obtain ⟨⟨value, added⟩, heval, h⟩ := h
      obtain ⟨rfl, rfl⟩ := Prod.mk.inj (Except.ok.inj h)
      refine ⟨value, added, heval, ?_⟩
      cases value with
      | none => rfl
      | some value =>
        exact congrArg
          (fun ce ↦ some ({ t with ce, reladdr := value, resolved := true } : Symbol)) hce.symm
    | succ id =>
      have htail : ∃ t', symbols' = t' :: rest' := by
        split at h
        · obtain ⟨rfl, _⟩ := Prod.mk.inj (Except.ok.inj h)
          exact ⟨_, rfl⟩
        · rw [bind_eq_ok] at h
          obtain ⟨⟨value, added⟩, _, h⟩ := h
          obtain ⟨rfl, _⟩ := Prod.mk.inj (Except.ok.inj h)
          exact ⟨_, rfl⟩
      obtain ⟨t', rfl⟩ := htail
      exact ih hrest hs

theorem resolveSets_length {env : Env} {symbols symbols' : List Symbol} {relocs : List RelocNode}
    (h : resolveSets undef fuel env symbols = .ok (symbols', relocs)) :
    symbols'.length = symbols.length := by
  induction symbols generalizing symbols' relocs with
  | nil =>
    obtain ⟨rfl, _⟩ := Prod.mk.inj (Except.ok.inj h)
    rfl
  | cons s rest ih =>
    rw [resolveSets, bind_eq_ok] at h
    obtain ⟨⟨rest', relocs'⟩, hrest, h⟩ := h
    dsimp only at h
    split at h
    · obtain ⟨rfl, _⟩ := Prod.mk.inj (Except.ok.inj h)
      simp [ih hrest]
    · rw [bind_eq_ok] at h
      obtain ⟨⟨value, added⟩, _, h⟩ := h
      obtain ⟨rfl, _⟩ := Prod.mk.inj (Except.ok.inj h)
      simp [ih hrest]

theorem fixupFrom_spec {reladdrs : List Word} {k : ℕ} {elems : List Elem} {st st' : FixupState}
    (h : fixupFrom undef fuel reladdrs k elems st = .ok st') :
    st'.words.length = elems.length + st.words.length ∧ Freed st.symbols st'.symbols := by
  induction elems generalizing k st' with
  | nil =>
    obtain rfl := Except.ok.inj h
    exact ⟨by simp, .refl _⟩
  | cons e rest ih =>
    rw [fixupFrom, bind_eq_ok] at h
    obtain ⟨st₁, hrest, h⟩ := h
    obtain ⟨hlength, hfreed⟩ := ih hrest
    unfold fixupElem at h
    split at h
    · obtain rfl := Except.ok.inj h
      refine ⟨?_, hfreed⟩
      rw [List.length_cons, hlength, List.length_cons]
      omega
    · rw [bind_eq_ok] at h
      obtain ⟨⟨value, added⟩, _, h⟩ := h
      cases value with
      | none => cases h
      | some value =>
        obtain rfl := Except.ok.inj h
        refine ⟨?_, hfreed.trans (freed_ceFree fuel _ _)⟩
        rw [List.length_cons, hlength, List.length_cons]
        omega

end

/-- The symbols of a program with the addresses of its labels. -/
def ParseData.labels (pd : ParseData) : List Symbol :=
  pd.symbols.map (resolveLabel (addrsFrom 0#32 pd.elems))

/-- What evaluation sees when the first pass is done. -/
def ParseData.finalEnv (pd : ParseData) : Env where
  symbols := pd.labels
  reladdrs := addrsFrom 0#32 pd.elems
  phantom := true

section

variable {undef : UndefinedShifts} {fuel : ℕ} {pd : ParseData} {a : Assembled}

/-- The passes of an assembly that ends with an output. -/
structure Passes (undef : UndefinedShifts) (fuel : ℕ) (pd : ParseData) (a : Assembled) where
  symbols : List Symbol
  relocs : List RelocNode
  st : FixupState
  resolve : resolveSets undef fuel pd.finalEnv pd.labels = .ok (symbols, relocs)
  unique : hasDuplicates
    (markGlobals pd.globals { symbols, reladdrs := addrsFrom 0#32 pd.elems, phantom := true }) = false
  fixup : fixupFrom undef fuel (addrsFrom 0#32 pd.elems) 0 pd.elems
    { symbols := markGlobals pd.globals
        { symbols, reladdrs := addrsFrom 0#32 pd.elems, phantom := true }
      words := [], relocs, tooLarge := false } = .ok st
  small : st.tooLarge = false
  result : a =
    { elems := pd.elems, reladdrs := addrsFrom 0#32 pd.elems, words := st.words
      symbols := st.symbols, relocs := st.relocs }

theorem assemblyInner_eq_ok (h : assemblyInner undef fuel pd = .ok a) :
    Nonempty (Passes undef fuel pd a) := by
  rw [assemblyInner, bind_eq_ok] at h
  obtain ⟨⟨symbols, relocs⟩, hresolve, h⟩ := h
  dsimp only at h
  split at h
  · cases h
  · rename_i hunique
    rw [bind_eq_ok] at h
    obtain ⟨st, hfixup, h⟩ := h
    split at h
    · cases h
    · rename_i hsmall
      exact ⟨⟨symbols, relocs, st, hresolve, Bool.eq_false_iff.mpr hunique, hfixup,
        Bool.eq_false_iff.mpr hsmall, (Except.ok.inj h).symm⟩⟩

theorem assemble_eq_some {source : Source} (hpd : parse undef fuel source = .ok pd)
    (h : assemble undef fuel source = .ok (some a)) :
    pd.errors = [] ∧ assemblyInner undef fuel pd = .ok a := by
  rw [assemble, hpd] at h
  change (if pd.errors.isEmpty then _ else _) = _ at h
  split at h
  · rename_i hempty
    rw [map_eq_ok] at h
    obtain ⟨a', hinner, ha⟩ := h
    obtain rfl := Option.some.inj ha
    exact ⟨List.isEmpty_iff.mp hempty, hinner⟩
  · cases h

namespace Passes

theorem elems_eq (p : Passes undef fuel pd a) : a.elems = pd.elems := by
  rw [p.result]

theorem reladdrs_eq (p : Passes undef fuel pd a) : a.reladdrs = addrsFrom 0#32 pd.elems := by
  rw [p.result]

theorem words_length (p : Passes undef fuel pd a) : a.words.length = pd.elems.length := by
  rw [p.result]
  simpa using (fixupFrom_spec undef fuel p.fixup).1

theorem freed (p : Passes undef fuel pd a) :
    Freed (markGlobals pd.globals
      { symbols := p.symbols, reladdrs := addrsFrom 0#32 pd.elems, phantom := true }) a.symbols := by
  have hsymbols : a.symbols = p.st.symbols := congrArg Assembled.symbols p.result
  rw [hsymbols]
  exact (fixupFrom_spec undef fuel p.fixup).2

/-- The symbols that parsing made are all still there. -/
theorem symbols_getElem? (p : Passes undef fuel pd a) {id : ℕ} {s : Symbol}
    (hs : pd.symbols[id]? = some s) : ∃ s', a.symbols[id]? = some s' := by
  have hlabel : pd.labels[id]? = some (resolveLabel (addrsFrom 0#32 pd.elems) s) := by
    rw [ParseData.labels, List.getElem?_map, hs]
    rfl
  obtain ⟨t, ht, _⟩ := resolveSets_getElem? undef fuel p.resolve hlabel
  obtain ⟨isGlobal, hmarked⟩ := markGlobals_getElem? pd.globals
    { symbols := p.symbols, reladdrs := addrsFrom 0#32 pd.elems, phantom := true } ht
  rcases p.freed.getElem? hmarked with hfreed | hfreed
  · exact ⟨_, hfreed⟩
  · exact ⟨_, hfreed⟩

/-- The value a label is emitted with is the address of its element. -/
theorem label_reladdr (p : Passes undef fuel pd a) {id : ℕ} {s s' : Symbol}
    (hs : pd.symbols[id]? = some s) (hce : s.ce = none) (hs' : a.symbols[id]? = some s') :
    s'.reladdr = (addrsFrom 0#32 pd.elems).getD s.place 0#32 := by
  have hlabel : pd.labels[id]? = some (resolveLabel (addrsFrom 0#32 pd.elems) s) := by
    rw [ParseData.labels, List.getElem?_map, hs]
    rfl
  obtain ⟨t, ht, _, _, _, hkeep⟩ := resolveSets_getElem? undef fuel p.resolve hlabel
  have hresolved : resolveLabel (addrsFrom 0#32 pd.elems) s =
      { s with reladdr := (addrsFrom 0#32 pd.elems).getD s.place 0#32, resolved := true } := by
    rw [resolveLabel, hce]
    rfl
  have hreladdr : t.reladdr = (addrsFrom 0#32 pd.elems).getD s.place 0#32 := by
    rw [hkeep (by rw [hresolved]; exact hce), hresolved]
  obtain ⟨isGlobal, hmarked⟩ := markGlobals_getElem? pd.globals
    { symbols := p.symbols, reladdrs := addrsFrom 0#32 pd.elems, phantom := true } ht
  rcases p.freed.getElem? hmarked with hfreed | hfreed
  · obtain rfl := Option.some.inj (hs'.symm.trans hfreed)
    exact hreladdr
  · obtain rfl := Option.some.inj (hs'.symm.trans hfreed)
    exact hreladdr

end Passes

end

end Tenyr.Asm
