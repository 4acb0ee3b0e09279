import Tenyr.Asm.Resolution

/-!
# What references are bound to

Every reference in the expressions of a parsed program was made where its name occurs, and a name of
fewer than 32 characters was bound to the nearest symbol of that name in front of it.
-/

namespace Tenyr.Asm

open Isa Obj

/-! ## Where references come from -/

namespace ConstExpr

variable {ρ τ : Type}

/-- Binding names binds each of them where it stands. -/
theorem mem_refs_map {f : ρ → τ} {e : ConstExpr ρ} {r : τ} (h : r ∈ (e.map f).refs) :
    ∃ x ∈ e.names, r = f x.2 := by
  induction e with
  | ref isExternal name =>
    obtain rfl := List.mem_singleton.mp h
    exact ⟨(isExternal, name), List.mem_singleton_self _, rfl⟩
  | ici | imm => exact (List.not_mem_nil h).elim
  | paren e ih => exact ih h
  | op1 op left ih => exact ih h
  | op2 op left right ihLeft ihRight =>
    rcases List.mem_append.mp h with h | h
    · obtain ⟨x, hx, hr⟩ := ihLeft h
      exact ⟨x, List.mem_append_left _ hx, hr⟩
    · obtain ⟨x, hx, hr⟩ := ihRight h
      exact ⟨x, List.mem_append_right _ hx, hr⟩

end ConstExpr

/-- The expressions of an element as they stand in the source. -/
def Element.exprs : Element → List (ConstExpr Name)
  | word exprs => exprs
  | zero size => [size]
  | utf32 _ | illegal => []
  | insn stmt => stmt.rhs.expr?.toList
  | labelled _ inner => inner.exprs

theorem Element.names_eq (e : Element) : e.names = e.exprs.flatMap ConstExpr.names := by
  induction e with
  | word | utf32 | illegal => rfl
  | zero size => exact (List.append_nil _).symm
  | insn stmt =>
    rw [names, exprs]
    cases stmt.rhs.expr? with
    | none => rfl
    | some e => exact (List.append_nil _).symm
  | labelled symbol inner ih => exact ih

theorem RhsPlain.expr?_map {ρ τ : Type} (f : ConstExpr ρ → ConstExpr τ) (r : RhsPlain ρ) :
    (r.map f).expr? = r.expr?.map f := by
  cases r <;> rfl

section

variable {undef : UndefinedShifts} {fuel : ℕ}

theorem makeData_ce {env : Env} {exprs : List (ConstExpr Name)}
    {result : List Elem × List Diagnostic} (h : makeData undef fuel env exprs = .ok result)
    {e : Elem} (he : e ∈ result.1) {d : DeferredExpr Ref} (hd : e.fixup = some d) :
    ∃ x ∈ exprs, d.ce = x.map (makeRef env) := by
  induction exprs generalizing result with
  | nil =>
    obtain rfl := Except.ok.inj h
    cases he
  | cons e₀ rest ih =>
    rw [makeData, bind_eq_ok] at h
    obtain ⟨errors, _, h⟩ := h
    rw [bind_eq_ok] at h
    obtain ⟨tail, htail, h⟩ := h
    obtain rfl := Except.ok.inj h
    rcases List.mem_cons.mp he with rfl | he
    · obtain rfl := Option.some.inj hd
      exact ⟨e₀, List.mem_cons_self, rfl⟩
    · obtain ⟨x, hx, hce⟩ := ih htail he
      exact ⟨x, List.mem_cons_of_mem _ hx, hce⟩

theorem parseInsn_ce {env : Env} {stmt : InsnStmt Name}
    {result : (Word × Option (DeferredExpr Ref)) × List Diagnostic}
    (h : parseInsn undef env fuel (stmt.bind env) = .ok result) {d : DeferredExpr Ref}
    (hd : result.1.2 = some d) : ∃ x ∈ (Element.insn stmt).exprs, d.ce = x.map (makeRef env) := by
  rw [parseInsn, bind_eq_ok] at h
  obtain ⟨errors, _, h⟩ := h
  obtain rfl := Except.ok.inj h
  simp only [InsnStmt.make, makeInsnGeneral] at hd
  obtain ⟨ce, hce, rfl⟩ := Option.map_eq_some_iff.mp hd
  rw [RhsPlain.make_ce] at hce
  change (stmt.rhs.map (ConstExpr.map (makeRef env))).expr? = some ce at hce
  rw [RhsPlain.expr?_map] at hce
  obtain ⟨e, he, rfl⟩ := Option.map_eq_some_iff.mp hce
  exact ⟨e, Option.mem_toList.mpr he, rfl⟩

/-- What is to be fixed up is an expression of the source with its names bound. -/
theorem parseElement_ce {env : Env} {e : Element}
    {result : List Elem × List Name × List Diagnostic}
    (h : parseElement undef fuel env e = .ok result) {elem : Elem} (helem : elem ∈ result.1)
    {d : DeferredExpr Ref} (hd : elem.fixup = some d) : ∃ x ∈ e.exprs, d.ce = x.map (makeRef env) := by
  induction e generalizing result with
  | word exprs =>
    rw [parseElement, bind_eq_ok] at h
    obtain ⟨data, hdata, h⟩ := h
    obtain rfl := Except.ok.inj h
    exact makeData_ce hdata helem hd
  | zero size =>
    rw [parseElement, bind_eq_ok] at h
    obtain ⟨data, hdata, h⟩ := h
    obtain rfl := Except.ok.inj h
    rw [makeZeros, bind_eq_ok] at hdata
    obtain ⟨_, _, hdata⟩ := hdata
    obtain rfl := Except.ok.inj hdata
    obtain rfl := List.mem_singleton.mp helem
    cases hd
  | utf32 chars =>
    obtain rfl := Except.ok.inj h
    obtain ⟨c, _, rfl⟩ := List.mem_map.mp helem
    cases hd
  | illegal =>
    obtain rfl := Except.ok.inj h
    obtain rfl := List.mem_singleton.mp helem
    cases hd
  | insn stmt =>
    rw [parseElement, bind_eq_ok] at h
    obtain ⟨parsed, hparsed, h⟩ := h
    obtain rfl := Except.ok.inj h
    obtain rfl := List.mem_singleton.mp helem
    exact parseInsn_ce hparsed hd
  | labelled symbol inner ih =>
    rw [parseElement, bind_eq_ok] at h
    obtain ⟨⟨elems, labels, errors⟩, hinner, h⟩ := h
    dsimp only at h
    split at h
    · cases h
    · obtain rfl := Except.ok.inj h
      exact ih hinner helem

theorem parseElement_refs {env : Env} {e : Element}
    {result : List Elem × List Name × List Diagnostic}
    (h : parseElement undef fuel env e = .ok result) {elem : Elem} (helem : elem ∈ result.1)
    {d : DeferredExpr Ref} (hd : elem.fixup = some d) {r : Ref} (hr : r ∈ d.ce.refs) :
    ∃ x ∈ e.names, r = makeRef env x.2 := by
  obtain ⟨e', he', hce⟩ := parseElement_ce h helem hd
  rw [hce] at hr
  obtain ⟨x, hx, hxr⟩ := ConstExpr.mem_refs_map hr
  rw [Element.names_eq]
  exact ⟨x, List.mem_flatMap.mpr ⟨e', he', hx⟩, hxr⟩

/-- A reference in an expression of an element or of a symbol. -/
def ParseData.Mentions (pd : ParseData) (r : Ref) : Prop :=
  (∃ e ∈ pd.elems, ∃ d, e.fixup = some d ∧ r ∈ d.ce.refs) ∨
    ∃ s ∈ pd.symbols, ∃ ce, s.ce = some ce ∧ r ∈ ce.refs

/-- References of a statement are bound to what was parsed before it. -/
theorem parseStatement_mentions {pd pd' : ParseData} {s : Statement}
    (h : parseStatement undef fuel pd s = .ok pd') {r : Ref} (hr : pd'.Mentions r) :
    pd.Mentions r ∨ ∃ x ∈ s.names, r = makeRef pd.env x.2 := by
  cases s with
  | element e =>
    rw [parseStatement, bind_eq_ok] at h
    obtain ⟨⟨elems, labels, errors⟩, helement, h⟩ := h
    obtain rfl := Except.ok.inj h
    rcases hr with ⟨elem, helem, d, hd, hr⟩ | ⟨t, ht, ce, hce, hr⟩
    · rcases List.mem_append.mp helem with hold | hnew
      · exact .inl (.inl ⟨elem, hold, d, hd, hr⟩)
      · exact .inr (parseElement_refs helement hnew hd hr)
    · rcases List.mem_append.mp ht with hold | hnew
      · exact .inl (.inr ⟨t, hold, ce, hce, hr⟩)
      · obtain ⟨name, _, rfl⟩ := List.mem_map.mp hnew
        cases hce
  | global symbol =>
    obtain rfl := Except.ok.inj h
    exact .inl hr
  | set symbol e =>
    rw [parseStatement, bind_eq_ok] at h
    obtain ⟨errors, _, h⟩ := h
    obtain rfl := Except.ok.inj h
    rcases hr with hr | ⟨t, ht, ce, hce, hr⟩
    · exact .inl (.inl hr)
    · rcases List.mem_append.mp ht with hold | hnew
      · exact .inl (.inr ⟨t, hold, ce, hce, hr⟩)
      · obtain rfl := List.mem_singleton.mp hnew
        obtain rfl := Option.some.inj hce
        exact .inr (ConstExpr.mem_refs_map hr)
  | option =>
    obtain rfl := Except.ok.inj h
    exact .inl hr

theorem Occurs.append {source after : Source} {pd₀ : ParseData} {name : Name}
    (h : Occurs undef fuel source pd₀ name) : Occurs undef fuel (source ++ after) pd₀ name := by
  obtain ⟨before, s, rest, isExternal, rfl, hparse, hmem⟩ := h
  exact ⟨before, s, rest ++ after, isExternal, by simp, hparse, hmem⟩

/-- Every reference was made where its name occurs. -/
theorem parse_mentions {source : Source} {pd : ParseData} (h : parse undef fuel source = .ok pd)
    {r : Ref} (hr : pd.Mentions r) :
    ∃ pd₀ name, Occurs undef fuel source pd₀ name ∧ r = makeRef pd₀.env name := by
  induction source using List.reverseRecOn generalizing pd with
  | nil =>
    obtain rfl := Except.ok.inj h
    rcases hr with ⟨e, he, _⟩ | ⟨s, hs, _⟩
    · exact (List.not_mem_nil he).elim
    · exact (List.not_mem_nil hs).elim
  | append_singleton before s ih =>
    rw [parse, List.foldlM_append, bind_eq_ok] at h
    obtain ⟨pd₁, hbefore, hs⟩ := h
    rw [List.foldlM_cons, bind_eq_ok] at hs
    obtain ⟨pd₂, hs, hnil⟩ := hs
    obtain rfl := Except.ok.inj hnil
    rcases parseStatement_mentions hs hr with hold | ⟨⟨isExternal, name⟩, hx, rfl⟩
    · obtain ⟨pd₀, name, hoccurs, href⟩ := ih hbefore hold
      exact ⟨pd₀, name, hoccurs.append, href⟩
    · exact ⟨pd₁, name, ⟨before, s, [], isExternal, rfl, hbefore, hx⟩, rfl⟩

end

/-! ## The nearest definition -/

/-- The last symbol of a name has a certain number. -/
def Nearest (symbols : List Symbol) (name : Name) (id : ℕ) : Prop :=
  (∃ s, symbols[id]? = some s ∧ s.name = name) ∧
    ∀ id' s, id < id' → symbols[id']? = some s → s.name ≠ name

theorem Nearest.unique {symbols : List Symbol} {name : Name} {id id' : ℕ}
    (h : Nearest symbols name id) (h' : Nearest symbols name id') : id = id' := by
  obtain ⟨⟨s, hs, hname⟩, hlast⟩ := h
  obtain ⟨⟨s', hs', hname'⟩, hlast'⟩ := h'
  rcases lt_trichotomy id id' with hlt | heq | hlt
  · exact absurd hname' (hlast id' s' hlt hs')
  · exact heq
  · exact absurd hname (hlast' id s hlt hs)

section

variable {env : Env} {name : Name} {id : ℕ}

theorem any_sameSymbol_iff (hshort : name.length < symbolLen) :
    (env.symbols[id]?.any fun s ↦ sameSymbol s.name name) = true ↔
      ∃ s, env.symbols[id]? = some s ∧ s.name = name := by
  rw [Option.any_eq_true]
  refine exists_congr fun s ↦ and_congr_right fun _ ↦ ?_
  rw [sameSymbol_iff, take_symbolLen_eq_iff hshort]

theorem nearest_of_symbolFind (hshort : name.length < symbolLen)
    (h : env.symbolFind name = some id) : Nearest env.symbols name id := by
  obtain ⟨hfound, before, after, hrange, hbefore⟩ := List.find?_eq_some_iff_append.mp h
  refine ⟨(any_sameSymbol_iff hshort).mp hfound, ?_⟩
  intro id' s hlt hs hname
  have hlength : id' < env.symbols.length := (List.getElem?_eq_some_iff.mp hs).1
  have hmem : id' ∈ (List.range env.symbols.length).reverse := by
    rw [List.mem_reverse, List.mem_range]
    exact hlength
  have hsorted : (List.range env.symbols.length).reverse.Pairwise (· > ·) :=
    List.pairwise_reverse.mpr List.pairwise_lt_range
  rw [hrange] at hmem hsorted
  have hafter := (List.pairwise_cons.mp (List.pairwise_append.mp hsorted).2.1).1
  rcases List.mem_append.mp hmem with hmem | hmem
  · have hnot := hbefore id' hmem
    rw [(any_sameSymbol_iff hshort).mpr ⟨s, hs, hname⟩] at hnot
    cases hnot
  · rcases List.mem_cons.mp hmem with rfl | hmem
    · exact lt_irrefl _ hlt
    · exact lt_asymm hlt (hafter id' hmem)

/-- Looking up a short name finds the last symbol of that name. -/
theorem symbolFind_eq_some_iff (hshort : name.length < symbolLen) :
    env.symbolFind name = some id ↔ Nearest env.symbols name id := by
  refine ⟨nearest_of_symbolFind hshort, fun h ↦ ?_⟩
  cases hfind : env.symbolFind name with
  | none =>
    obtain ⟨s, hs, hname⟩ := h.1
    have hlength : id < env.symbols.length := (List.getElem?_eq_some_iff.mp hs).1
    have hnot := List.find?_eq_none.mp hfind id (by simpa using hlength)
    exact absurd ((any_sameSymbol_iff hshort).mpr ⟨s, hs, hname⟩) hnot
  | some id' => rw [(nearest_of_symbolFind hshort hfind).unique h]

/-- A reference is bound to the nearest symbol of its name. -/
theorem makeRef_eq_bound_iff {pd₀ : ParseData} (hshort : name.length < symbolLen) :
    makeRef pd₀.env name = .bound id ↔ Nearest pd₀.symbols name id := by
  have hfind := @symbolFind_eq_some_iff pd₀.env name id hshort
  rw [show pd₀.symbols = pd₀.env.symbols from rfl, ← hfind, makeRef]
  cases pd₀.env.symbolFind name with
  | none => simp
  | some id' => simp

end

/-! ## Definitions refer backwards -/

/-- The expression of a symbol is bound to symbols in front of it only. -/
def ParseData.Backward (pd : ParseData) : Prop :=
  ∀ (id : ℕ) s ce, pd.symbols[id]? = some s → s.ce = some ce →
    ∀ id', .bound id' ∈ ce.refs → id' < id

theorem makeRef_bound_lt {pd₀ : ParseData} {name : Name} {id : ℕ}
    (h : makeRef pd₀.env name = .bound id) : id < pd₀.symbols.length := by
  rcases makeRef_cases pd₀ name with ⟨id', u, hu, _, href⟩ | ⟨_, href⟩
  · obtain rfl := Ref.bound.inj (href.symm.trans h)
    exact (List.getElem?_eq_some_iff.mp hu).1
  · rw [href] at h
    cases h

section

variable {undef : UndefinedShifts} {fuel : ℕ}

theorem parseStatement_backward {pd pd' : ParseData} {s : Statement} (hpd : pd.Backward)
    (h : parseStatement undef fuel pd s = .ok pd') : pd'.Backward := by
  cases s with
  | element e =>
    rw [parseStatement, bind_eq_ok] at h
    obtain ⟨⟨elems, labels, errors⟩, _, h⟩ := h
    obtain rfl := Except.ok.inj h
    intro id s ce hs hce
    rcases lt_or_ge id pd.symbols.length with hlt | hge
    · rw [List.getElem?_append_left hlt] at hs
      exact hpd id s ce hs hce
    · rw [List.getElem?_append_right hge] at hs
      obtain ⟨name, _, rfl⟩ := List.mem_map.mp (List.mem_of_getElem? hs)
      cases hce
  | global symbol =>
    obtain rfl := Except.ok.inj h
    exact hpd
  | set symbol e =>
    rw [parseStatement, bind_eq_ok] at h
    obtain ⟨errors, _, h⟩ := h
    obtain rfl := Except.ok.inj h
    intro id s ce hs hce id' hid'
    rcases lt_or_ge id pd.symbols.length with hlt | hge
    · rw [List.getElem?_append_left hlt] at hs
      exact hpd id s ce hs hce id' hid'
    · rw [List.getElem?_append_right hge] at hs
      obtain rfl := List.mem_singleton.mp (List.mem_of_getElem? hs)
      obtain rfl := Option.some.inj hce
      obtain ⟨x, _, hx⟩ := ConstExpr.mem_refs_map hid'
      exact (makeRef_bound_lt hx.symm).trans_le hge
  | option =>
    obtain rfl := Except.ok.inj h
    exact hpd

theorem parse_backward {source : Source} {pd : ParseData} (h : parse undef fuel source = .ok pd) :
    pd.Backward := by
  apply foldlM_parseStatement_invariant undef fuel
    (fun pd s pd' ↦ parseStatement_backward) ?_ h
  intro id s ce hs
  cases hs

end

end Tenyr.Asm
