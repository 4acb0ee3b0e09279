import Tenyr.Asm.Lookup

/-!
# What the pass over the expressions has freed

An expression that has been fixed up takes the definitions of all `.set` symbols it led to with it.
As the pass goes from the last element to the first, an element finds those definitions that no
element behind it leads to.
-/

namespace Tenyr.Asm

open Isa Obj

/-! ## Definitions -/

/-- The definition of a symbol, as far as it has not been freed. -/
def definition (symbols : List Symbol) (id : ℕ) : Option (ConstExpr Ref) :=
  symbols[id]?.bind Symbol.ce

/-- The expression leads to the definition of the symbol, perhaps through others. -/
inductive Leads (pd : ParseData) : ConstExpr Ref → ℕ → Prop
  | direct {e ce : ConstExpr Ref} {id : ℕ} (href : .bound id ∈ e.refs)
      (hdef : definition pd.symbols id = some ce) : Leads pd e id
  | through {e ce : ConstExpr Ref} {id id' : ℕ} (href : .bound id ∈ e.refs)
      (hdef : definition pd.symbols id = some ce) (hleads : Leads pd ce id') : Leads pd e id'

/-- The element with index `k` leads to the definition. -/
def ParseData.Uses (pd : ParseData) (k id : ℕ) : Prop :=
  ∃ e d, pd.elems[k]? = some e ∧ e.fixup = some d ∧ Leads pd d.ce id

/-- Definitions are freed together with all they lead to. -/
structure FreedWhole (pd : ParseData) (symbols : List Symbol) : Prop where
  kept : ∀ id, definition symbols id = definition pd.symbols id ∨ definition symbols id = none
  whole : ∀ id ce, definition pd.symbols id = some ce → definition symbols id = none →
    ∀ id', Leads pd ce id' → definition symbols id' = none

/-- What an expression leads to has been freed, and nothing else. -/
structure Frees (pd : ParseData) (e : ConstExpr Ref) (symbols symbols' : List Symbol) : Prop where
  whole : FreedWhole pd symbols'
  freed : ∀ id, definition symbols' id = none ↔ definition symbols id = none ∨ Leads pd e id

section

variable {pd : ParseData} {symbols symbols' : List Symbol} {e : ConstExpr Ref}

theorem FreedWhole.original (h : FreedWhole pd symbols) {id : ℕ} {ce : ConstExpr Ref}
    (hdef : definition symbols id = some ce) : definition pd.symbols id = some ce := by
  rcases h.kept id with hkept | hnone
  · rw [← hkept]
    exact hdef
  · rw [hdef] at hnone
    cases hnone

/-- Freeing never brings a definition back. -/
theorem Frees.earlier (h : Frees pd e symbols symbols') (hwhole : FreedWhole pd symbols) {id : ℕ}
    {ce : ConstExpr Ref} (hdef : definition symbols' id = some ce) :
    definition symbols id = some ce := by
  cases hbefore : definition symbols id with
  | none =>
    rw [(h.freed id).mpr (.inl hbefore)] at hdef
    cases hdef
  | some ce' =>
    have horiginal := h.whole.original hdef
    rw [hwhole.original hbefore] at horiginal
    exact horiginal

theorem definition_modify (symbols : List Symbol) (id id' : ℕ) :
    definition (symbols.modify id fun s ↦ { s with ce := none }) id' =
      if id = id' then none else definition symbols id' := by
  unfold definition
  rw [List.getElem?_modify]
  by_cases h : id = id'
  · subst h
    cases symbols[id]? <;> simp
  · simp [h]

theorem leads_ref_iff {isExternal : Bool} {id id' : ℕ} :
    Leads pd (.ref isExternal (.bound id)) id' ↔
      ∃ ce, definition pd.symbols id = some ce ∧ (id' = id ∨ Leads pd ce id') := by
  constructor
  · intro h
    cases h with
    | direct href hdef =>
      obtain rfl := Ref.bound.inj (List.mem_singleton.mp href)
      exact ⟨_, hdef, .inl rfl⟩
    | through href hdef hleads =>
      obtain rfl := Ref.bound.inj (List.mem_singleton.mp href)
      exact ⟨_, hdef, .inr hleads⟩
  · rintro ⟨ce, hdef, rfl | hleads⟩
    · exact .direct (List.mem_singleton_self _) hdef
    · exact .through (List.mem_singleton_self _) hdef hleads

theorem leads_op2_iff {op : BinaryOp} {left right : ConstExpr Ref} {id : ℕ} :
    Leads pd (.op2 op left right) id ↔ Leads pd left id ∨ Leads pd right id := by
  constructor
  · intro h
    cases h with
    | direct href hdef =>
      rcases List.mem_append.mp href with hleft | hright
      · exact .inl (.direct hleft hdef)
      · exact .inr (.direct hright hdef)
    | through href hdef hleads =>
      rcases List.mem_append.mp href with hleft | hright
      · exact .inl (.through hleft hdef hleads)
      · exact .inr (.through hright hdef hleads)
  · rintro (h | h)
    · cases h with
      | direct href hdef => exact .direct (List.mem_append_left _ href) hdef
      | through href hdef hleads => exact .through (List.mem_append_left _ href) hdef hleads
    · cases h with
      | direct href hdef => exact .direct (List.mem_append_right _ href) hdef
      | through href hdef hleads => exact .through (List.mem_append_right _ href) hdef hleads

/-- An expression without references leads nowhere. -/
theorem not_leads_of_refs (h : e.refs = []) (id : ℕ) : ¬ Leads pd e id := by
  intro hleads
  cases hleads with
  | direct href => simp [h] at href
  | through href => simp [h] at href

/-- Expressions with the same references lead to the same definitions. -/
theorem leads_congr {e' : ConstExpr Ref} (h : e.refs = e'.refs) {id : ℕ} (hleads : Leads pd e id) :
    Leads pd e' id := by
  cases hleads with
  | direct href hdef => exact .direct (h ▸ href) hdef
  | through href hdef hthrough => exact .through (h ▸ href) hdef hthrough

theorem Frees.none (hwhole : FreedWhole pd symbols)
    (h : ∀ id, Leads pd e id → definition symbols id = none) : Frees pd e symbols symbols where
  whole := hwhole
  freed id := ⟨.inl, fun h' ↦ h'.elim (fun hnone ↦ hnone) (h id)⟩

theorem Frees.congr {e' : ConstExpr Ref} (h : Frees pd e symbols symbols') (hrefs : e.refs = e'.refs) :
    Frees pd e' symbols symbols' where
  whole := h.whole
  freed id := (h.freed id).trans (or_congr_right ⟨leads_congr hrefs, leads_congr hrefs.symm⟩)

/-- After what a definition leads to, the definition itself is freed. -/
theorem Frees.bound {isExternal : Bool} {id : ℕ} {ce : ConstExpr Ref}
    (horiginal : definition pd.symbols id = some ce) (h : Frees pd ce symbols symbols') :
    Frees pd (.ref isExternal (.bound id)) symbols
      (symbols'.modify id fun s ↦ { s with ce := Option.none }) := by
  constructor
  · constructor
    · intro id'
      rw [definition_modify]
      split
      · exact .inr rfl
      · exact h.whole.kept id'
    · intro id' ce' horiginal' hnone id'' hleads
      rw [definition_modify] at hnone ⊢
      split at hnone
      · rename_i heq
        subst heq
        obtain rfl := Option.some.inj (horiginal.symm.trans horiginal')
        split
        · rfl
        · exact (h.freed id'').mpr (.inr hleads)
      · split
        · rfl
        · exact h.whole.whole id' ce' horiginal' hnone id'' hleads
  · intro id'
    rw [definition_modify, leads_ref_iff]
    by_cases heq : id = id'
    · subst heq
      rw [if_pos rfl]
      exact ⟨fun _ ↦ .inr ⟨ce, horiginal, .inl rfl⟩, fun _ ↦ rfl⟩
    · rw [if_neg heq, h.freed id']
      constructor
      · rintro (hnone | hleads)
        · exact .inl hnone
        · exact .inr ⟨ce, horiginal, .inr hleads⟩
      · rintro (hnone | ⟨ce', horiginal', rfl | hleads⟩)
        · exact .inl hnone
        · exact absurd rfl heq
        · obtain rfl := Option.some.inj (horiginal.symm.trans horiginal')
          exact .inr hleads

/-- The right operand is freed first. -/
theorem Frees.op2 {op : BinaryOp} {left right : ConstExpr Ref} {symbols'' : List Symbol}
    (hright : Frees pd right symbols symbols') (hleft : Frees pd left symbols' symbols'') :
    Frees pd (.op2 op left right) symbols symbols'' where
  whole := hleft.whole
  freed id := by
    calc
      _ ↔ definition symbols' id = Option.none ∨ Leads pd left id := hleft.freed id
      _ ↔ (definition symbols id = Option.none ∨ Leads pd right id) ∨ Leads pd left id :=
        or_congr_left (hright.freed id)
      _ ↔ definition symbols id = Option.none ∨ Leads pd (.op2 op left right) id := by
        rw [leads_op2_iff, or_assoc]
        exact or_congr_right or_comm

/-! ## Freeing -/

/-- `ce_free` frees what an expression leads to, if it does so with the definitions of its
references. -/
theorem frees_ceFreeWith {sub : List Symbol → ConstExpr Ref → List Symbol}
    (hwhole : FreedWhole pd symbols)
    (hsub : ∀ symbols₁ id ce, FreedWhole pd symbols₁ →
      (∀ id ce, definition symbols₁ id = some ce → definition symbols id = some ce) →
      .bound id ∈ e.refs → definition symbols₁ id = some ce →
        Frees pd ce symbols₁ (sub symbols₁ ce)) :
    Frees pd e symbols (ceFreeWith sub symbols e) := by
  induction e generalizing symbols with
  | ref isExternal r =>
    cases r with
    | unbound symbolname =>
      apply Frees.none hwhole
      intro id hleads
      cases hleads with
      | direct href => cases List.mem_singleton.mp href
      | through href => cases List.mem_singleton.mp href
    | bound id =>
      rw [ceFreeWith]
      cases hdef : symbols[id]?.bind Symbol.ce with
      | none =>
        apply Frees.none hwhole
        intro id' hleads
        obtain ⟨ce, horiginal, rfl | hthrough⟩ := leads_ref_iff.mp hleads
        · exact hdef
        · exact hwhole.whole id ce horiginal hdef id' hthrough
      | some ce =>
        apply Frees.bound (hwhole.original hdef)
        exact hsub symbols id ce hwhole (fun _ _ h ↦ h) (List.mem_singleton_self _) hdef
  | ici => exact Frees.none hwhole fun id hleads ↦ absurd hleads (not_leads_of_refs rfl id)
  | imm => exact Frees.none hwhole fun id hleads ↦ absurd hleads (not_leads_of_refs rfl id)
  | paren e ih => exact (ih hwhole hsub).congr rfl
  | op1 op left ih => exact (ih hwhole hsub).congr rfl
  | op2 op left right ihLeft ihRight =>
    have hright := ihRight hwhole fun symbols₁ id ce hwhole₁ hearlier href ↦
      hsub symbols₁ id ce hwhole₁ hearlier (List.mem_append_right _ href)
    apply hright.op2
    apply ihLeft hright.whole
    intro symbols₁ id ce hwhole₁ hearlier href
    apply hsub symbols₁ id ce hwhole₁ _ (List.mem_append_left _ href)
    exact fun id ce hdef ↦ hright.earlier hwhole (hearlier id ce hdef)

/-- An expression leads through no more than `n` definitions that are still there. -/
def Shallow (symbols : List Symbol) : ℕ → ConstExpr Ref → Prop
  | 0, e => ∀ id, .bound id ∈ e.refs → definition symbols id = none
  | n + 1, e => ∀ id ce, .bound id ∈ e.refs → definition symbols id = some ce → Shallow symbols n ce

theorem Shallow.mono (hearlier : ∀ id ce, definition symbols' id = some ce →
    definition symbols id = some ce) {n : ℕ} (h : Shallow symbols n e) : Shallow symbols' n e := by
  induction n generalizing e with
  | zero =>
    intro id href
    cases hdef : definition symbols' id with
    | none => rfl
    | some ce =>
      have hstill := hearlier id ce hdef
      rw [h id href] at hstill
      cases hstill
  | succ n ih =>
    intro id ce href hdef
    exact ih (h id ce href (hearlier id ce hdef))

theorem frees_ceFree {n : ℕ} (hwhole : FreedWhole pd symbols) (h : Shallow symbols n e) :
    Frees pd e symbols (ceFree n symbols e) := by
  induction n generalizing symbols e with
  | zero =>
    apply frees_ceFreeWith hwhole
    intro symbols₁ id ce _ hearlier href hdef
    have hstill := hearlier id ce hdef
    rw [h id href] at hstill
    cases hstill
  | succ n ih =>
    apply frees_ceFreeWith hwhole
    intro symbols₁ id ce hwhole₁ hearlier href hdef
    apply ih hwhole₁
    exact (h id ce href (hearlier id ce hdef)).mono hearlier

end

/-! ## Evaluating -/

/-- What an expression has a value under, its references have values for. -/
theorem ConstExpr.refs_ok {ρ : Type} {undef : UndefinedShifts} {here : Word}
    {refs : ρ → Except Stop Word} {e : ConstExpr ρ} {v : Word}
    (h : e.value undef here refs = .ok v) : ∀ r ∈ e.refs, ∃ w, refs r = .ok w := by
  induction e generalizing v with
  | ref isExternal r =>
    intro r' hr'
    obtain rfl := List.mem_singleton.mp hr'
    exact ⟨v, h⟩
  | ici | imm => exact fun r hr ↦ (List.not_mem_nil hr).elim
  | paren e ih => exact ih h
  | op1 op left ih =>
    rw [value, map_eq_ok] at h
    obtain ⟨w, hleft, -⟩ := h
    exact ih hleft
  | op2 op left right ihLeft ihRight =>
    rw [value, bind_eq_ok] at h
    obtain ⟨w, hleft, h⟩ := h
    rw [bind_eq_ok] at h
    obtain ⟨w', hright, -⟩ := h
    intro r hr
    rcases List.mem_append.mp hr with hr | hr
    · exact ihLeft hleft r hr
    · exact ihRight hright r hr

section

variable {undef : UndefinedShifts} {env : Env}

/-- In the context of the element after a directive, `.` is the address of that element. -/
theorem hereValue_next (place : ℕ) :
    hereValue env (if place < env.reladdrs.length then some place else none) =
      env.reladdr place := by
  unfold hereValue Env.reladdr
  split
  · rfl
  · rename_i h
    rw [List.getD_eq_getElem?_getD, List.getElem?_eq_none (not_lt.mp h)]
    rfl

theorem boundSet_eq_some {id : ℕ} {s : Symbol} {ce : ConstExpr Ref}
    (hs : env.symbols[id]? = some s) (hce : s.ce = some ce) :
    env.boundSet (.bound id) = some (s, ce) := by
  simp [Env.boundSet, hs, hce]

/-- A reference to a `.set` symbol whose definition is there has the value of the definition, where
`.` is the address of the element after the directive. -/
theorem refValue_set (hphantom : env.phantom = true) {n id : ℕ} {s : Symbol} {ce : ConstExpr Ref}
    (hs : env.symbols[id]? = some s) (hce : s.ce = some ce) :
    refValue undef env (symbolEvaluator undef env (n + 1)) (.bound id) =
      ce.value undef (env.reladdr s.place) (refValue undef env (symbolEvaluator undef env n)) := by
  have hn := uniform_symbolEvaluator undef hphantom n
  have hvalue := @ceEvalWith_value undef env (symbolEvaluator undef env n) hphantom hn
    (if s.place < env.reladdrs.length then some s.place else none) false 0 ce
  rw [hereValue_next] at hvalue
  rw [refValue, ceEvalWith, boundSet_eq_some hs hce]
  simp only [contextAt_of_phantom hphantom]
  rw [symbolEvaluator, ceEval_eq]
  rcases map_fst_eq_iff.mp hvalue with ⟨stop, heval, hstop⟩ | ⟨v, relocs, heval, hv⟩
  · rw [heval, hstop]
    rfl
  · rw [heval, hv]
    rfl

/-- Evaluation that comes to an end leads through no more definitions than it has fuel for. -/
theorem shallow_of_value (hphantom : env.phantom = true) {n : ℕ} {here : Word}
    {e : ConstExpr Ref} {v : Word}
    (h : e.value undef here (refValue undef env (symbolEvaluator undef env n)) = .ok v) :
    Shallow env.symbols n e := by
  induction n generalizing e here v with
  | zero =>
    intro id href
    cases hdef : definition env.symbols id with
    | none => rfl
    | some ce =>
      obtain ⟨s, hs, hce⟩ := Option.bind_eq_some_iff.mp hdef
      obtain ⟨w, hw⟩ := ConstExpr.refs_ok h _ href
      unfold refValue at hw
      rw [ceEvalWith, boundSet_eq_some hs hce] at hw
      simp only [contextAt_of_phantom hphantom] at hw
      cases hw
  | succ n ih =>
    intro id ce href hdef
    obtain ⟨s, hs, hce⟩ := Option.bind_eq_some_iff.mp hdef
    obtain ⟨w, hw⟩ := ConstExpr.refs_ok h _ href
    rw [refValue_set hphantom hs hce] at hw
    exact ih hw

end

/-! ## The pass -/

section

variable {undef : UndefinedShifts} {fuel : ℕ} {pd : ParseData} {a : Assembled}

theorem fixupFrom_frees {k₀ : ℕ} {elems : List Elem} {st st' : FixupState}
    (h : fixupFrom undef fuel (addrsFrom 0#32 pd.elems) k₀ elems st = .ok st')
    (hwhole : FreedWhole pd st.symbols) :
    FreedWhole pd st'.symbols ∧ ∀ id, definition st'.symbols id = none ↔
      definition st.symbols id = none ∨
        ∃ e ∈ elems, ∃ d, e.fixup = some d ∧ Leads pd d.ce id := by
  induction elems generalizing k₀ st' with
  | nil =>
    obtain rfl := Except.ok.inj h
    exact ⟨hwhole, fun id ↦ ⟨.inl, fun h ↦ h.elim (fun h ↦ h) fun ⟨_, he, _⟩ ↦
      (List.not_mem_nil he).elim⟩⟩
  | cons e rest ih =>
    rw [fixupFrom, bind_eq_ok] at h
    obtain ⟨st₁, hrest, h⟩ := h
    obtain ⟨hwhole₁, hfreed₁⟩ := ih hrest
    unfold fixupElem at h
    cases hfixup : e.fixup with
    | none =>
      rw [hfixup] at h
      obtain rfl := Except.ok.inj h
      refine ⟨hwhole₁, fun id ↦ (hfreed₁ id).trans (or_congr_right ?_)⟩
      constructor
      · rintro ⟨e', he', d, hd, hleads⟩
        exact ⟨e', List.mem_cons_of_mem _ he', d, hd, hleads⟩
      · rintro ⟨e', he', d, hd, hleads⟩
        rcases List.mem_cons.mp he' with rfl | he'
        · rw [hfixup] at hd
          cases hd
        · exact ⟨e', he', d, hd, hleads⟩
    | some d =>
      rw [hfixup] at h
      dsimp only at h
      rw [bind_eq_ok] at h
      obtain ⟨⟨value, added⟩, heval, h⟩ := h
      cases value with
      | none => cases h
      | some value =>
        obtain rfl := Except.ok.inj h
        have hvalue := @ceEvalWith_value undef (pd.envWith st₁.symbols) _ rfl
          (@uniform_symbolEvaluator undef (pd.envWith st₁.symbols) rfl fuel) (some k₀) false d.width d.ce
        rw [← ceEval_eq] at hvalue
        change (ceEval undef (pd.envWith st₁.symbols) fuel (some k₀) _ d.width d.ce).map _ = _
          at hvalue
        have hshallow : Shallow st₁.symbols fuel d.ce := by
          rcases map_fst_eq_iff.mp hvalue with ⟨stop, hstop, -⟩ | ⟨v, relocs, -, hv⟩
          · have hok : ceEval undef (pd.envWith st₁.symbols) fuel (some k₀)
                { relocate := true, negate := false } d.width d.ce = .ok (some value, added) := heval
            rw [hok] at hstop
            cases hstop
          · exact shallow_of_value rfl hv
        have hfrees := frees_ceFree hwhole₁ hshallow
        refine ⟨hfrees.whole, fun id ↦ ?_⟩
        rw [hfrees.freed id, hfreed₁ id, or_assoc]
        apply or_congr_right
        constructor
        · rintro (⟨e', he', d', hd', hleads⟩ | hleads)
          · exact ⟨e', List.mem_cons_of_mem _ he', d', hd', hleads⟩
          · exact ⟨e, List.mem_cons_self, d, hfixup, hleads⟩
        · rintro ⟨e', he', d', hd', hleads⟩
          rcases List.mem_cons.mp he' with rfl | he'
          · obtain rfl := Option.some.inj (hfixup.symm.trans hd')
            exact .inr hleads
          · exact .inl ⟨e', he', d', hd', hleads⟩

namespace Started

/-- Before the pass every definition is there. -/
theorem definition_marked (q : Started undef fuel pd) (id : ℕ) :
    definition q.marked id = definition pd.symbols id := by
  unfold definition
  cases hs : pd.symbols[id]? with
  | some s =>
    obtain ⟨s', hs', _, _, hce, _⟩ := q.marked_getElem? hs
    rw [hs']
    exact hce
  | none =>
    have hlength : q.marked.length ≤ id := by
      rw [q.marked_length]
      exact List.getElem?_eq_none_iff.mp hs
    rw [List.getElem?_eq_none hlength]

theorem freedWhole_marked (q : Started undef fuel pd) : FreedWhole pd q.marked where
  kept id := .inl (q.definition_marked id)
  whole id ce hdef hnone := by
    rw [q.definition_marked, hdef] at hnone
    cases hnone

/-- Where the pass reaches an element, the definitions that are gone are those that elements behind it
lead to. -/
theorem Reaches.definition_eq_none_iff {q : Started undef fuel pd} {k : ℕ} {before : FixupState}
    (h : q.Reaches k before) (id : ℕ) :
    definition before.symbols id = none ↔
      definition pd.symbols id = none ∨ ∃ j, k < j ∧ pd.Uses j id := by
  obtain ⟨_, hfreed⟩ := fixupFrom_frees h q.freedWhole_marked
  rw [hfreed id, q.definition_marked]
  apply or_congr_right
  constructor
  · rintro ⟨e, he, d, hd, hleads⟩
    obtain ⟨i, hi⟩ := List.mem_iff_getElem?.mp he
    rw [List.getElem?_drop] at hi
    exact ⟨k + 1 + i, by omega, e, d, hi, hd, hleads⟩
  · rintro ⟨j, hj, e, d, he, hd, hleads⟩
    refine ⟨e, ?_, d, hd, hleads⟩
    apply List.mem_iff_getElem?.mpr
    refine ⟨j - (k + 1), ?_⟩
    rw [List.getElem?_drop, Nat.add_sub_of_le hj]
    exact he

/-- A definition that no element behind leads to is still there. -/
theorem Reaches.definition_eq {q : Started undef fuel pd} {k : ℕ} {before : FixupState}
    (h : q.Reaches k before) {id : ℕ} (hunused : ∀ j, k < j → ¬ pd.Uses j id) :
    definition before.symbols id = definition pd.symbols id := by
  rcases (fixupFrom_frees h q.freedWhole_marked).1.kept id with hkept | hnone
  · exact hkept
  · rcases (h.definition_eq_none_iff id).mp hnone with hdef | ⟨j, hj, huses⟩
    · rw [hnone, hdef]
    · exact absurd huses (hunused j hj)

end Started

end

end Tenyr.Asm
