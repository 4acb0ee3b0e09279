import Tenyr.Asm.Binding
import Tenyr.Asm.Freeing

/-!
# Values of references to `.set` symbols

A reference behind a `.set` directive means the value of the expression of the nearest definition,
where `.` is the address of the element after the directive. An element finds that definition unless
an element behind it led to it before; then the reference is looked up by its name among all symbols
of the program.
-/

namespace Tenyr.Asm

open Isa Obj

/-! ## Meaning -/

section

variable (undef : UndefinedShifts) (fuel : ℕ)

/-- What a reference means. One to a label means the address of the label that its name leads to. -/
inductive Means (pd : ParseData) : Ref → Word → Prop
  | set {id : ℕ} {s : Symbol} {ce : ConstExpr Ref} {v : Word} {w : Ref → Word}
      (hs : pd.symbols[id]? = some s) (hce : s.ce = some ce) (hrefs : ∀ r ∈ ce.refs, Means pd r (w r))
      (hv : ce.value undef (pd.address s) (fun r ↦ .ok (w r)) = .ok v) : Means pd (.bound id) v
  | label {r : Ref} {t : Symbol} (hr : pd.finalEnv.boundSet r = none)
      (ht : IsLast pd.symbols (fun t ↦ t.ce = none ∧
        t.name.take symbolLen = (pd.finalEnv.refName r).take symbolLen) t) : Means pd r (pd.address t)
  | undefined {r : Ref} (hr : pd.finalEnv.boundSet r = none)
      (hnone : ∀ t ∈ pd.symbols, t.name.take symbolLen ≠ (pd.finalEnv.refName r).take symbolLen) :
      Means pd r 0#32

/-- A name that is referred to behind a `.set` of that name, and the number of its nearest definition
there. -/
structure SetReference (source : Source) (pd₀ : ParseData) (name : Name) (id : ℕ) : Prop where
  occurs : Occurs undef fuel source pd₀ name
  behind : ∃ s ∈ pd₀.symbols, s.name = name ∧ s.ce.isSome
  nearest : Nearest pd₀.symbols name id

/-- The value a reference is evaluated to where the pass has left certain symbols. -/
def storedValue (pd : ParseData) (before : FixupState) (r : Ref) : Except Stop Word :=
  refValue undef (pd.envWith before.symbols)
    (symbolEvaluator undef (pd.envWith before.symbols) fuel) r

end

/-- No element behind the one with index `k` leads to the definition. -/
def ParseData.StillDefined (pd : ParseData) (k id : ℕ) : Prop :=
  (∃ ce, definition pd.symbols id = some ce) ∧ ∀ j, k < j → ¬ pd.Uses j id

/-- The references whose values go into the element with index `k`, through definitions too. -/
inductive ParseData.Meets (pd : ParseData) (k : ℕ) : Ref → Prop
  | direct {e : Elem} {d : DeferredExpr Ref} {r : Ref} (he : pd.elems[k]? = some e)
      (hd : e.fixup = some d) (hr : r ∈ d.ce.refs) : pd.Meets k r
  | through {id : ℕ} {ce : ConstExpr Ref} {r : Ref} (hmeets : pd.Meets k (.bound id))
      (hdefined : pd.StillDefined k id) (hdef : definition pd.symbols id = some ce)
      (hr : r ∈ ce.refs) : pd.Meets k r

section

variable (undef : UndefinedShifts)

/-- The value of an expression for a value of `.`, where its references have their meanings. -/
def ExprMeans (pd : ParseData) (here : Word) (ce : ConstExpr Ref) (v : Word) : Prop :=
  ∃ w : Ref → Word, (∀ r ∈ ce.refs, Means undef pd r (w r)) ∧
    ce.value undef here (fun r ↦ .ok (w r)) = .ok v

/-- What a name is found to be by its last definition in the program: a label, or an expression that an
element behind led to, whose value was taken with `.` standing for 0. -/
def TableValue (pd : ParseData) (k : ℕ) (name : Name) (v : Word) : Prop :=
  ∃ last t, Nearest pd.symbols name last ∧ pd.symbols[last]? = some t ∧
    ((t.ce = none ∧ v = pd.address t) ∨
      ∃ ce, t.ce = some ce ∧ (∃ j, k < j ∧ pd.Uses j last) ∧ ExprMeans undef pd 0#32 ce v)

/-- A reference has its value if its definition is there, or if the last one in the program has the
same value. -/
def KeepsValue (pd : ParseData) (k : ℕ) (name : Name) (id : ℕ) : Prop :=
  pd.StillDefined k id ∨ ∀ v, Means undef pd (.bound id) v → TableValue undef pd k name v

end

/-! ## What a reference means -/

section

variable {undef : UndefinedShifts} {pd : ParseData}

theorem boundSet_finalEnv_set {id : ℕ} {s : Symbol} {ce : ConstExpr Ref}
    (hs : pd.symbols[id]? = some s) (hce : s.ce = some ce) :
    pd.finalEnv.boundSet (.bound id) = some (resolveLabel (addrsFrom 0#32 pd.elems) s, ce) := by
  apply boundSet_eq_some
  · change pd.labels[id]? = _
    rw [labels_getElem?, hs]
    rfl
  · rw [resolveLabel_ce, hce]

/-- A reference means one value. -/
theorem Means.unique {r : Ref} {v v' : Word} (h : Means undef pd r v) (h' : Means undef pd r v') :
    v = v' := by
  induction h generalizing v' with
  | @set id s ce v w hs hce hrefs hv ih =>
    cases h' with
    | @set _ s' ce' _ w' hs' hce' hrefs' hv' =>
      obtain rfl := Option.some.inj (hs.symm.trans hs')
      obtain rfl := Option.some.inj (hce.symm.trans hce')
      have hsame : ce.value undef (pd.address s) (fun r ↦ .ok (w r)) =
          ce.value undef (pd.address s) fun r ↦ .ok (w' r) := by
        apply ConstExpr.value_congr
        intro r hr
        exact congrArg Except.ok (ih r hr (hrefs' r hr))
      rw [hv, hv'] at hsame
      exact Except.ok.inj hsame
    | label hr =>
      rw [boundSet_finalEnv_set hs hce] at hr
      cases hr
    | undefined hr =>
      rw [boundSet_finalEnv_set hs hce] at hr
      cases hr
  | label hr ht =>
    cases h' with
    | set hs' hce' =>
      rw [boundSet_finalEnv_set hs' hce'] at hr
      cases hr
    | label _ ht' => rw [ht.unique ht']
    | undefined _ hnone => exact absurd ht.prop.2 (hnone _ ht.mem)
  | undefined hr hnone =>
    cases h' with
    | set hs' hce' =>
      rw [boundSet_finalEnv_set hs' hce'] at hr
      cases hr
    | label _ ht => exact absurd ht.prop.2 (hnone _ ht.mem)
    | undefined => rfl

theorem ExprMeans.unique {here : Word} {ce : ConstExpr Ref} {v v' : Word}
    (h : ExprMeans undef pd here ce v) (h' : ExprMeans undef pd here ce v') : v = v' := by
  obtain ⟨w, hw, hv⟩ := h
  obtain ⟨w', hw', hv'⟩ := h'
  have hsame : ce.value undef here (fun r ↦ .ok (w r)) = ce.value undef here fun r ↦ .ok (w' r) := by
    apply ConstExpr.value_congr
    intro r hr
    exact congrArg Except.ok ((hw r hr).unique (hw' r hr))
  rw [hv, hv'] at hsame
  exact Except.ok.inj hsame

/-- A reference to a `.set` symbol means the value of its expression. -/
theorem means_set_iff {id : ℕ} {s : Symbol} {ce : ConstExpr Ref} {v : Word}
    (hs : pd.symbols[id]? = some s) (hce : s.ce = some ce) :
    Means undef pd (.bound id) v ↔ ExprMeans undef pd (pd.address s) ce v := by
  constructor
  · intro h
    cases h with
    | @set _ s' ce' _ w hs' hce' hrefs hv =>
      obtain rfl := Option.some.inj (hs.symm.trans hs')
      obtain rfl := Option.some.inj (hce.symm.trans hce')
      exact ⟨w, hrefs, hv⟩
    | label hr =>
      rw [boundSet_finalEnv_set hs hce] at hr
      cases hr
    | undefined hr =>
      rw [boundSet_finalEnv_set hs hce] at hr
      cases hr
  · rintro ⟨w, hrefs, hv⟩
    exact .set hs hce hrefs hv

end

/-! ## Evaluating references -/

/-- The value of a reference whose definition is not there, if its name leads to a label or to nothing
that is still defined. -/
def plainValue (env : Env) (r : Ref) : Except Stop Word :=
  match (env.symbolFind (env.refName r)).bind fun id ↦ env.symbols[id]? with
  | none => .ok 0#32
  | some s => if s.ce.isNone then .ok s.reladdr else .error .fatal

section

variable {undef : UndefinedShifts} {pd : ParseData} {symbols : List Symbol}

/-- Symbols that have an expression at some point of the pass were defined by it. -/
theorem Reached.original (h : Reached pd symbols) {id : ℕ} {s' : Symbol} {ce : ConstExpr Ref}
    (hs' : symbols[id]? = some s') (hce' : s'.ce = some ce) :
    ∃ s, pd.symbols[id]? = some s ∧ s.ce = some ce ∧ s'.place = s.place := by
  cases hs : pd.symbols[id]? with
  | none =>
    have hid := congrArg (fun names : List Name ↦ names[id]?) h.names
    simp [hs, hs'] at hid
  | some s =>
    obtain ⟨t, ht, hplace, hce, _⟩ := h.kept id s hs
    obtain rfl := Option.some.inj (hs'.symm.trans ht)
    refine ⟨s, rfl, ?_, hplace⟩
    rcases hce with hce | hce
    · rw [← hce, hce']
    · rw [hce'] at hce
      cases hce

theorem Reached.name_eq (h : Reached pd symbols) {id : ℕ} {s s' : Symbol}
    (hs : pd.symbols[id]? = some s) (hs' : symbols[id]? = some s') : s'.name = s.name := by
  have hid := congrArg (fun names : List Name ↦ names[id]?) h.names
  simpa [hs, hs'] using hid

/-- Names of `.set` symbols are found by the whole name, so one that is still defined is a bad use. -/
theorem Reached.symbolLookup_set (hlexed : pd.Lexed) (h : Reached pd symbols) {sub : Evaluator}
    {name : Name} {id : ℕ} {s : Symbol} {ce : ConstExpr Ref}
    (hfind : (pd.envWith symbols).symbolFind name = some id) (hs : symbols[id]? = some s)
    (hce : s.ce = some ce) : symbolLookup (pd.envWith symbols) sub name = .error .fatal := by
  obtain ⟨t, ht, htce, _⟩ := h.original hs hce
  have hsymbol : isSymbol t.name = true := by
    rcases hlexed t (List.mem_of_getElem? ht) with hsymbol | ⟨hnone, _⟩
    · exact hsymbol
    · rw [htce] at hnone
      cases hnone
  have hsame := List.find?_some hfind
  change (symbols[id]?.any fun s ↦ sameSymbol s.name name) = true at hsame
  rw [hs, Option.any_some, h.name_eq ht hs, sameSymbol_iff] at hsame
  have hname : name = t.name := (take_symbolLen_eq_iff (length_of_isSymbol hsymbol)).mp hsame.symm
  rw [symbolLookup, hfind]
  change (match symbols[id]? with | none => _ | some s => _) = _
  rw [hs]
  dsimp only
  rw [hce]
  dsimp only
  rw [if_pos ((h.name_eq ht hs).trans hname.symm)]

/-- Evaluating a reference whose definition is not there. -/
theorem Reached.refValue_plain (hlexed : pd.Lexed) (h : Reached pd symbols) (sub : Evaluator) {r : Ref}
    (hr : (pd.envWith symbols).boundSet r = none) :
    refValue undef (pd.envWith symbols) sub r = plainValue (pd.envWith symbols) r := by
  rw [refValue, ceEvalWith, hr, plainValue]
  dsimp only
  cases hfind : (pd.envWith symbols).symbolFind ((pd.envWith symbols).refName r) with
  | none =>
    rw [symbolLookup, hfind]
    rfl
  | some id =>
    cases hs : symbols[id]? with
    | none =>
      rw [symbolLookup, hfind]
      change Except.map _ ((match symbols[id]? with | none => _ | some s => _) >>= _) =
        match symbols[id]? with | none => _ | some s => _
      rw [hs]
      rfl
    | some s =>
      have hbind : ((some id).bind fun id ↦ (pd.envWith symbols).symbols[id]?) = some s := hs
      rw [hbind]
      cases hce : s.ce with
      | none =>
        rw [symbolLookup, hfind, hbind]
        dsimp only
        rw [hce]
        rfl
      | some ce =>
        rw [h.symbolLookup_set hlexed hfind hs hce]
        simp [hce]
        rfl

/-- With enough fuel for the symbols in front of it, how much there is does not matter. -/
theorem Reached.refValue_fuel (hlexed : pd.Lexed) (hback : pd.Backward) (h : Reached pd symbols)
    {id : ℕ} {n m : ℕ} (hn : id < n) (hm : id < m) :
    refValue undef (pd.envWith symbols) (symbolEvaluator undef (pd.envWith symbols) n) (.bound id) =
      refValue undef (pd.envWith symbols) (symbolEvaluator undef (pd.envWith symbols) m)
        (.bound id) := by
  induction id using Nat.strong_induction_on generalizing n m with
  | h id ih =>
    cases hset : (pd.envWith symbols).boundSet (.bound id) with
    | none => rw [h.refValue_plain hlexed _ hset, h.refValue_plain hlexed _ hset]
    | some set =>
      obtain ⟨s, hs, hmap⟩ := Option.bind_eq_some_iff.mp hset
      obtain ⟨ce, hce, _⟩ := Option.map_eq_some_iff.mp hmap
      obtain ⟨n, rfl⟩ := Nat.exists_eq_add_of_lt hn
      obtain ⟨m, rfl⟩ := Nat.exists_eq_add_of_lt hm
      rw [refValue_set rfl hs hce, refValue_set rfl hs hce]
      apply ConstExpr.value_congr
      intro r hr
      cases r with
      | unbound symbolname => rw [h.refValue_plain hlexed _ rfl, h.refValue_plain hlexed _ rfl]
      | bound id' =>
        obtain ⟨t, ht, htce, _⟩ := h.original hs hce
        have hlt := hback id t ce ht htce id' hr
        exact ih id' hlt (by omega) (by omega)

/-- The value of a reference whose definition is there is that of the definition. -/
theorem Reached.refValue_defined (hlexed : pd.Lexed) (hback : pd.Backward) (h : Reached pd symbols)
    {fuel id : ℕ} (hfuel : id < fuel) {s : Symbol} {ce : ConstExpr Ref}
    (hs : pd.symbols[id]? = some s) (hdef : definition symbols id = some ce) :
    refValue undef (pd.envWith symbols) (symbolEvaluator undef (pd.envWith symbols) fuel)
        (.bound id) =
      ce.value undef (pd.address s)
        (refValue undef (pd.envWith symbols) (symbolEvaluator undef (pd.envWith symbols) fuel)) := by
  obtain ⟨s', hs', hce⟩ := Option.bind_eq_some_iff.mp hdef
  obtain ⟨t, ht, htce, hplace⟩ := h.original hs' hce
  obtain rfl := Option.some.inj (hs.symm.trans ht)
  obtain ⟨n, rfl⟩ := Nat.exists_eq_add_of_lt hfuel
  rw [refValue_set rfl hs' hce]
  have haddress : (pd.envWith symbols).reladdr s'.place = pd.address s := by
    rw [hplace]
    rfl
  rw [haddress]
  apply ConstExpr.value_congr
  intro r hr
  cases r with
  | unbound symbolname => rw [h.refValue_plain hlexed _ rfl, h.refValue_plain hlexed _ rfl]
  | bound id' =>
    have hlt := hback id s ce hs htce id' hr
    exact h.refValue_fuel hlexed hback (by omega) (by omega)

/-! ## Before anything is freed -/

theorem plainValue_finalEnv (pd : ParseData) (r : Ref) :
    plainValue pd.finalEnv r =
      match pd.lookup (pd.finalEnv.refName r) with
      | none => .ok 0#32
      | some t => if t.ce.isNone then .ok (pd.address t) else .error .fatal := by
  have hbind : ((pd.finalEnv.symbolFind (pd.finalEnv.refName r)).bind
      fun id ↦ pd.finalEnv.symbols[id]?) =
        (pd.lookup (pd.finalEnv.refName r)).map (resolveLabel (addrsFrom 0#32 pd.elems)) := by
    unfold ParseData.lookup
    cases pd.finalEnv.symbolFind (pd.finalEnv.refName r) with
    | none => rfl
    | some id => exact labels_getElem? pd id
  rw [plainValue, hbind]
  cases pd.lookup (pd.finalEnv.refName r) with
  | none => rfl
  | some t =>
    dsimp only [Option.map_some]
    rw [resolveLabel_ce]
    split
    · rename_i hce
      rw [resolveLabel, if_pos hce]
      rfl
    · rfl

/-- A reference that has a value before anything is freed keeps it. -/
theorem Reached.plainValue_eq (h : Reached pd symbols) {r : Ref} {v : Word}
    (hv : plainValue pd.finalEnv r = .ok v) : plainValue (pd.envWith symbols) r = .ok v := by
  rw [plainValue_finalEnv] at hv
  rw [plainValue, h.refName_eq, h.symbolFind_eq]
  cases hfind : pd.finalEnv.symbolFind (pd.finalEnv.refName r) with
  | none =>
    rw [ParseData.lookup, hfind] at hv
    exact hv
  | some id =>
    have hlength : id < pd.symbols.length := by
      have hmem := List.mem_of_find?_eq_some hfind
      rw [List.mem_reverse, List.mem_range] at hmem
      simpa [ParseData.finalEnv, ParseData.labels] using hmem
    obtain ⟨s', hs', _, hce, hlabel⟩ := h.kept id _ (List.getElem?_eq_getElem hlength)
    rw [ParseData.lookup, hfind, Option.bind_some, List.getElem?_eq_getElem hlength] at hv
    dsimp only at hv
    split at hv
    · rename_i hnone
      rw [Option.isNone_iff_eq_none] at hnone
      have hnone' : s'.ce = none := by
        rcases hce with hce | hce
        · exact hce.trans hnone
        · exact hce
      have hs : ((some id).bind fun id ↦ (pd.envWith symbols).symbols[id]?) = some s' := hs'
      rw [hs]
      dsimp only
      rw [hnone', Option.isNone_none, if_pos rfl, hlabel hnone]
      exact hv
    · cases hv

theorem means_of_plainValue {r : Ref} {v : Word} (hr : pd.finalEnv.boundSet r = none)
    (hv : plainValue pd.finalEnv r = .ok v) : Means undef pd r v := by
  rw [plainValue_finalEnv] at hv
  rcases lookup_cases pd (pd.finalEnv.refName r) with ⟨t, hlookup, hlast⟩ | ⟨hlookup, hnone⟩
  · rw [hlookup] at hv
    dsimp only at hv
    split at hv
    · rename_i hce
      obtain rfl := Except.ok.inj hv
      apply Means.label hr
      obtain ⟨before, after, hsymbols, hsame, hafter⟩ := hlast
      exact ⟨before, after, hsymbols, ⟨Option.isNone_iff_eq_none.mp hce, hsame⟩,
        fun b hb h ↦ hafter b hb h.2⟩
    · cases hv
  · rw [hlookup] at hv
    obtain rfl := Except.ok.inj hv
    exact .undefined hr hnone

/-- Before anything is freed, references are evaluated to what they mean. -/
theorem means_of_refValue (hlexed : pd.Lexed) {n : ℕ} {r : Ref} {v : Word}
    (hv : refValue undef pd.finalEnv (symbolEvaluator undef pd.finalEnv n) r = .ok v) :
    Means undef pd r v := by
  have hreached := reached_labels pd
  induction n generalizing r v with
  | zero =>
    cases hset : pd.finalEnv.boundSet r with
    | none =>
      have hplain := @Reached.refValue_plain undef pd pd.labels hlexed hreached
        (symbolEvaluator undef pd.finalEnv 0) r hset
      exact means_of_plainValue hset (hplain.symm.trans hv)
    | some set =>
      unfold refValue at hv
      rw [ceEvalWith, hset] at hv
      simp only [contextAt_of_phantom (show pd.finalEnv.phantom = true from rfl)] at hv
      cases hv
  | succ n ih =>
    cases hset : pd.finalEnv.boundSet r with
    | none =>
      have hplain := @Reached.refValue_plain undef pd pd.labels hlexed hreached
        (symbolEvaluator undef pd.finalEnv (n + 1)) r hset
      exact means_of_plainValue hset (hplain.symm.trans hv)
    | some set =>
      cases r with
      | unbound symbolname => cases hset
      | bound id =>
        obtain ⟨s', hs', hmap⟩ := Option.bind_eq_some_iff.mp hset
        obtain ⟨ce, hce, _⟩ := Option.map_eq_some_iff.mp hmap
        obtain ⟨s, hs, hsce, hplace⟩ := hreached.original hs' hce
        rw [refValue_set rfl hs' hce] at hv
        have haddress : pd.finalEnv.reladdr s'.place = pd.address s := by
          rw [hplace]
          rfl
        rw [haddress] at hv
        have hrefs := ConstExpr.refs_ok hv
        choose! w hw using hrefs
        apply Means.set hs hsce (fun r hr ↦ ih (hw r hr))
        rw [← hv]
        exact ConstExpr.value_congr undef _ fun r hr ↦ (hw r hr).symm

theorem boundSet_eq_none_iff {env : Env} {id : ℕ} :
    env.boundSet (.bound id) = none ↔ definition env.symbols id = none := by
  rw [Env.boundSet, definition, Option.bind_eq_none_iff, Option.bind_eq_none_iff]
  refine forall_congr' fun s ↦ imp_congr_right fun _ ↦ ?_
  exact Option.map_eq_none_iff

theorem symbolFind_finalEnv_iff {name : Name} (hshort : name.length < symbolLen) {id : ℕ} :
    pd.finalEnv.symbolFind name = some id ↔ Nearest pd.symbols name id := by
  have henv : pd.finalEnv.symbolFind name =
      ({ pd.finalEnv with symbols := pd.symbols } : Env).symbolFind name :=
    symbolFind_congr (names_labels pd) name
  rw [henv]
  exact symbolFind_eq_some_iff hshort

variable {fuel : ℕ}

/-- The table has the value of the expression for `.` standing for 0, and no reference in it is a bad
use. -/
theorem Started.marked_set (hlexed : pd.Lexed) (q : Started undef fuel pd) {id : ℕ} {s : Symbol}
    {ce : ConstExpr Ref} (hs : pd.symbols[id]? = some s) (hce : s.ce = some ce) :
    ∃ s', q.marked[id]? = some s' ∧ ExprMeans undef pd 0#32 ce s'.reladdr ∧
      ∀ r ∈ ce.refs, pd.finalEnv.boundSet r = none → ∃ v, plainValue pd.finalEnv r = .ok v := by
  have hlabel : pd.labels[id]? = some (resolveLabel (addrsFrom 0#32 pd.elems) s) := by
    rw [labels_getElem?, hs]
    rfl
  obtain ⟨value, added, heval, hsymbol⟩ :=
    resolveSets_set undef fuel q.resolve hlabel ((resolveLabel_ce _ s).trans hce)
  have hvalue := @ceEvalWith_value undef pd.finalEnv (symbolEvaluator undef pd.finalEnv fuel) rfl
    (@uniform_symbolEvaluator undef pd.finalEnv rfl fuel) none false wordBitwidth ce
  rw [← ceEval_eq, heval] at hvalue
  rcases map_fst_eq_iff.mp hvalue with ⟨stop, herror, _⟩ | ⟨v, relocs, hok, hv⟩
  · cases herror
  · obtain ⟨rfl, rfl⟩ := Prod.mk.inj (Except.ok.inj hok)
    obtain ⟨isGlobal, hmarked⟩ := markGlobals_getElem? pd.globals
      { symbols := q.symbols, reladdrs := addrsFrom 0#32 pd.elems, phantom := true } hsymbol
    refine ⟨_, hmarked, ?_, ?_⟩
    · have hrefs := ConstExpr.refs_ok hv
      choose! w hw using hrefs
      refine ⟨w, fun r hr ↦ means_of_refValue hlexed (hw r hr), ?_⟩
      rw [← ConstExpr.value_congr undef _ hw]
      exact hv
    · intro r hr hplain
      obtain ⟨w, hw⟩ := ConstExpr.refs_ok hv r hr
      have hsame := @Reached.refValue_plain undef pd pd.labels hlexed (reached_labels pd)
        (symbolEvaluator undef pd.finalEnv fuel) r hplain
      exact ⟨w, hsame.symm.trans hw⟩

/-- A reference whose definition is not there is evaluated to what the table has for its name. -/
theorem Started.Reaches.tableValue_iff (hlexed : pd.Lexed) {q : Started undef fuel pd} {k : ℕ}
    {before : FixupState} (h : q.Reaches k before) {name : Name} (hshort : name.length < symbolLen)
    {r : Ref} (hname : pd.finalEnv.refName r = name) (hdefined : ∃ last, Nearest pd.symbols name last)
    (hr : (pd.envWith before.symbols).boundSet r = none) {v : Word} :
    storedValue undef fuel pd before r = .ok v ↔ TableValue undef pd k name v := by
  obtain ⟨last, hnearest⟩ := hdefined
  obtain ⟨⟨t, ht, htname⟩, _⟩ := id hnearest
  obtain ⟨t', ht', _⟩ := h.reached.kept last t ht
  have hplain : storedValue undef fuel pd before r =
      if t'.ce.isNone then .ok t'.reladdr else .error .fatal := by
    rw [storedValue, h.reached.refValue_plain hlexed _ hr, plainValue, h.reached.refName_eq, hname,
      h.reached.symbolFind_eq, (symbolFind_finalEnv_iff hshort).mpr hnearest]
    have hs : ((some last).bind fun id ↦ (pd.envWith before.symbols).symbols[id]?) = some t' := ht'
    rw [hs]
  have htable : TableValue undef pd k name v ↔ ((t.ce = none ∧ v = pd.address t) ∨
      ∃ ce, t.ce = some ce ∧ (∃ j, k < j ∧ pd.Uses j last) ∧ ExprMeans undef pd 0#32 ce v) := by
    constructor
    · rintro ⟨last', u, hlast', hu, hvalue⟩
      obtain rfl := hlast'.unique hnearest
      obtain rfl := Option.some.inj (ht.symm.trans hu)
      exact hvalue
    · exact fun hvalue ↦ ⟨last, t, hnearest, ht, hvalue⟩
  rw [hplain, htable]
  cases hce : t.ce with
  | none =>
    obtain ⟨m, hm, _, _, hmce, hlabel⟩ := q.marked_getElem? ht
    have hsame : t'.ce = none ∧ t'.reladdr = pd.address t := by
      rcases h.freed.getElem? hm with hkeep | hfree
      · obtain rfl := Option.some.inj (ht'.symm.trans hkeep)
        exact ⟨hmce.trans hce, hlabel hce⟩
      · obtain rfl := Option.some.inj (ht'.symm.trans hfree)
        exact ⟨rfl, hlabel hce⟩
    rw [hsame.1, Option.isNone_none, if_pos rfl, hsame.2]
    simp [eq_comm]
  | some ce =>
    obtain ⟨m, hm, hmeans, _⟩ := q.marked_set hlexed ht hce
    have hreladdr : t'.reladdr = m.reladdr := by
      rcases h.freed.getElem? hm with hkeep | hfree
      · obtain rfl := Option.some.inj (ht'.symm.trans hkeep)
        rfl
      · obtain rfl := Option.some.inj (ht'.symm.trans hfree)
        rfl
    have hfreed : t'.ce = none ↔ ∃ j, k < j ∧ pd.Uses j last := by
      have hiff := h.definition_eq_none_iff last
      rw [definition, definition, ht', ht, Option.bind_some, Option.bind_some, hce] at hiff
      simpa using hiff
    by_cases hnone : t'.ce = none
    · rw [hnone, Option.isNone_none, if_pos rfl, hreladdr]
      constructor
      · intro hv
        obtain rfl := Except.ok.inj hv
        exact .inr ⟨ce, rfl, hfreed.mp hnone, hmeans⟩
      · rintro (⟨hnone, _⟩ | ⟨ce', hce', _, hvalue⟩)
        · cases hnone
        · obtain rfl := Option.some.inj hce'
          rw [hmeans.unique hvalue]
    · rw [if_neg (by simpa using hnone)]
      constructor
      · intro hv
        cases hv
      · rintro (⟨hnone', _⟩ | ⟨_, _, hused, _⟩)
        · cases hnone'
        · exact absurd (hfreed.mpr hused) hnone

end

/-! ## References behind a definition -/

section

variable {undef : UndefinedShifts} {fuel : ℕ} {source : Source} {pd pd₀ : ParseData}

theorem ParseData.Lexed.length_lt (hlexed : pd.Lexed) {s : Symbol} (hs : s ∈ pd.symbols)
    (hce : s.ce.isSome) : s.name.length < symbolLen := by
  rcases hlexed s hs with hsymbol | ⟨hnone, _⟩
  · exact length_of_isSymbol hsymbol
  · rw [hnone] at hce
    cases hce

theorem Occurs.symbols (hparse : parse undef fuel source = .ok pd) {name : Name}
    (h : Occurs undef fuel source pd₀ name) : ∃ symbols, pd.symbols = pd₀.symbols ++ symbols := by
  obtain ⟨before, s, after, _, rfl, hparsed, _⟩ := h
  exact parse_append hparse hparsed

/-- A reference behind a `.set` of its name is bound to the nearest definition. -/
theorem SetReference.bound (hparse : parse undef fuel source = .ok pd) (hlexed : pd.Lexed)
    {name : Name} {id : ℕ} (h : SetReference undef fuel source pd₀ name id) :
    name.length < symbolLen ∧ makeRef pd₀.env name = .bound id ∧
      ∃ s, pd.symbols[id]? = some s ∧ s.name = name := by
  obtain ⟨symbols, hsymbols⟩ := h.occurs.symbols hparse
  obtain ⟨s, hs, rfl, hce⟩ := h.behind
  have hshort : s.name.length < symbolLen := by
    apply hlexed.length_lt _ hce
    rw [hsymbols]
    exact List.mem_append_left _ hs
  refine ⟨hshort, (makeRef_eq_bound_iff hshort).mpr h.nearest, ?_⟩
  obtain ⟨t, ht, hname⟩ := h.nearest.1
  refine ⟨t, ?_, hname⟩
  rw [hsymbols, List.getElem?_append_left (List.getElem?_eq_some_iff.mp ht).1, ht]

/-- Every reference in the program to a `.set` symbol is behind it. -/
theorem setReference_of_mentions (hparse : parse undef fuel source = .ok pd) (hlexed : pd.Lexed)
    {id : ℕ} {s : Symbol} {ce : ConstExpr Ref} (hs : pd.symbols[id]? = some s)
    (hce : s.ce = some ce) (hmentions : pd.Mentions (.bound id)) :
    ∃ pd₀, SetReference undef fuel source pd₀ s.name id := by
  obtain ⟨pd₀, name, hoccurs, href⟩ := parse_mentions hparse hmentions
  obtain ⟨symbols, hsymbols⟩ := hoccurs.symbols hparse
  have hshort : s.name.length < symbolLen :=
    hlexed.length_lt (List.mem_of_getElem? hs) (Option.isSome_iff_exists.mpr ⟨ce, hce⟩)
  rcases makeRef_cases pd₀ name with ⟨id', u, hu, hname, hbound⟩ | ⟨_, hunbound⟩
  · obtain rfl := Ref.bound.inj (href.trans hbound)
    have hsame : pd.symbols[id]? = some u := by
      rw [hsymbols, List.getElem?_append_left (List.getElem?_eq_some_iff.mp hu).1, hu]
    obtain rfl := Option.some.inj (hs.symm.trans hsame)
    obtain rfl : name = s.name := (take_symbolLen_eq_iff hshort).mp hname.symm
    refine ⟨pd₀, hoccurs, ⟨s, List.mem_of_getElem? hu, rfl, ?_⟩, ?_⟩
    · exact Option.isSome_iff_exists.mpr ⟨ce, hce⟩
    · exact (makeRef_eq_bound_iff hshort).mp hbound
  · rw [hunbound] at href
    cases href

theorem ParseData.Meets.mentions {k : ℕ} {r : Ref} (h : pd.Meets k r) : pd.Mentions r := by
  cases h with
  | direct he hd hr => exact .inl ⟨_, List.mem_of_getElem? he, _, hd, hr⟩
  | through _ _ hdef hr =>
    obtain ⟨s, hs, hce⟩ := Option.bind_eq_some_iff.mp hdef
    exact .inr ⟨s, List.mem_of_getElem? hs, _, hce, hr⟩

variable {q : Started undef fuel pd} {k : ℕ} {before : FixupState}

theorem Started.Reaches.boundSet_eq_none (h : q.Reaches k before) {id : ℕ}
    (hnot : ¬ pd.StillDefined k id) : (pd.envWith before.symbols).boundSet (.bound id) = none := by
  rw [boundSet_eq_none_iff]
  apply (h.definition_eq_none_iff id).mpr
  by_contra hkept
  rw [not_or] at hkept
  apply hnot
  refine ⟨Option.ne_none_iff_exists'.mp hkept.1, ?_⟩
  intro j hj huses
  exact hkept.2 ⟨j, hj, huses⟩

/-- The table decides about references whose definition is gone or that are bound to a label. -/
theorem Started.Reaches.storedValue_iff (h : q.Reaches k before)
    (hparse : parse undef fuel source = .ok pd) (hlexed : pd.Lexed) {name : Name} {id : ℕ}
    (href : SetReference undef fuel source pd₀ name id) (hnot : ¬ pd.StillDefined k id) {v : Word} :
    storedValue undef fuel pd before (.bound id) = .ok v ↔ TableValue undef pd k name v := by
  obtain ⟨hshort, _, s, hs, hname⟩ := href.bound hparse hlexed
  apply h.tableValue_iff hlexed hshort
  · rw [refName_bound hs, hname]
  · cases hfind : pd.finalEnv.symbolFind name with
    | some last => exact ⟨last, (symbolFind_finalEnv_iff hshort).mp hfind⟩
    | none =>
      rcases lookup_cases pd name with ⟨t, hlookup, _⟩ | ⟨_, hnone⟩
      · rw [ParseData.lookup, hfind] at hlookup
        cases hlookup
      · rw [← hname] at hnone
        exact absurd rfl (hnone s (List.mem_of_getElem? hs))
  · exact h.boundSet_eq_none hnot

/-- Where all references that an element meets keep their values, they are evaluated to what they
mean. -/
theorem Started.Reaches.storedValue_of_keeps (h : q.Reaches k before)
    (hparse : parse undef fuel source = .ok pd) (hlexed : pd.Lexed)
    (hfuel : pd.symbols.length ≤ fuel)
    (hkeeps : ∀ pd₀ name id, SetReference undef fuel source pd₀ name id → pd.Meets k (.bound id) →
      KeepsValue undef pd k name id)
    {r : Ref} {v : Word} (hmeans : Means undef pd r v) {name : Name} {id : ℕ} (hr : r = .bound id)
    (href : SetReference undef fuel source pd₀ name id) (hmeets : pd.Meets k (.bound id)) :
    storedValue undef fuel pd before (.bound id) = .ok v := by
  induction hmeans generalizing pd₀ name id with
  | @set id₁ s ce v w hs hce hrefs hv ih =>
    obtain rfl := Ref.bound.inj hr
    have hdef : definition pd.symbols id₁ = some ce := Option.bind_eq_some_iff.mpr ⟨s, hs, hce⟩
    by_cases hdefined : pd.StillDefined k id₁
    · have hlength : id₁ < pd.symbols.length := (List.getElem?_eq_some_iff.mp hs).1
      have hstill : definition before.symbols id₁ = some ce :=
        (h.definition_eq hdefined.2).trans hdef
      unfold storedValue
      rw [h.reached.refValue_defined hlexed (parse_backward hparse) (by omega) hs hstill, ← hv]
      apply ConstExpr.value_congr
      intro r hr
      -- what the definition refers to is met too
      have hthrough := ParseData.Meets.through hmeets hdefined hdef hr
      cases hset : pd.finalEnv.boundSet r with
      | none =>
        obtain ⟨_, _, _, hplain⟩ := q.marked_set hlexed hs hce
        obtain ⟨v', hv'⟩ := hplain r hr hset
        rw [h.reached.refValue_plain hlexed _ (h.reached.boundSet_eq_none hset),
          h.reached.plainValue_eq hv', (means_of_plainValue hset hv').unique (hrefs r hr)]
      | some set =>
        cases r with
        | unbound symbolname => cases hset
        | bound id' =>
          obtain ⟨s', hs', hmap⟩ := Option.bind_eq_some_iff.mp hset
          obtain ⟨ce', hce', _⟩ := Option.map_eq_some_iff.mp hmap
          obtain ⟨t, ht, htce, _⟩ := (reached_labels pd).original hs' hce'
          obtain ⟨pd₁, href'⟩ := setReference_of_mentions hparse hlexed ht htce hthrough.mentions
          exact ih (.bound id') hr rfl href' hthrough
    · rcases hkeeps pd₀ name id₁ href hmeets with hstill | htable
      · exact absurd hstill hdefined
      · exact (h.storedValue_iff hparse hlexed href hdefined).mpr
          (htable v (.set hs hce hrefs hv))
  | @label r t hplain ht =>
    subst hr
    have hnot : ¬ pd.StillDefined k id := by
      rintro ⟨⟨ce, hdef⟩, _⟩
      obtain ⟨s, hs, hce⟩ := Option.bind_eq_some_iff.mp hdef
      rw [boundSet_finalEnv_set hs hce] at hplain
      cases hplain
    rcases hkeeps pd₀ name id href hmeets with hstill | htable
    · exact absurd hstill hnot
    · exact (h.storedValue_iff hparse hlexed href hnot).mpr (htable _ (.label hplain ht))
  | undefined _ hnone =>
    subst hr
    obtain ⟨_, _, s, hs, _⟩ := href.bound hparse hlexed
    rw [refName_bound hs] at hnone
    exact absurd rfl (hnone s (List.mem_of_getElem? hs))

/-- References behind a `.set` are evaluated to what they mean, in every element that the pass
reaches, exactly when each of them finds its definition or the same value in the table. -/
theorem set_references_mean_iff (hlexed : ∀ s ∈ source, s.Lexed)
    (hparse : parse undef fuel source = .ok pd) (q : Started undef fuel pd)
    (hfuel : pd.symbols.length ≤ fuel) :
    (∀ k before, q.Reaches k before → ∀ pd₀ name id, SetReference undef fuel source pd₀ name id →
        pd.Meets k (makeRef pd₀.env name) → ∀ v, Means undef pd (.bound id) v →
          storedValue undef fuel pd before (makeRef pd₀.env name) = .ok v) ↔
      ∀ k before, q.Reaches k before → ∀ pd₀ name id, SetReference undef fuel source pd₀ name id →
        pd.Meets k (.bound id) → KeepsValue undef pd k name id := by
  have hlexed' := parse_lexed hparse hlexed
  constructor
  · intro hright k before hreach pd₀ name id href hmeets
    by_cases hdefined : pd.StillDefined k id
    · exact .inl hdefined
    · refine .inr fun v hmeans ↦ ?_
      apply (hreach.storedValue_iff hparse hlexed' href hdefined).mp
      have hbound := (href.bound hparse hlexed').2.1
      have hvalue := hright k before hreach pd₀ name id href
      rw [hbound] at hvalue
      exact hvalue hmeets v hmeans
  · intro hkeeps k before hreach pd₀ name id href hmeets v hmeans
    rw [(href.bound hparse hlexed').2.1] at hmeets ⊢
    exact hreach.storedValue_of_keeps hparse hlexed' hfuel (hkeeps k before hreach) hmeans rfl href
      hmeets

/-- The word of an element is stored with the value of its expression under these values. -/
theorem Passes.word_of_storedValue {a : Assembled} (p : Passes undef fuel pd a) {e : Elem}
    {d : DeferredExpr Ref} (he : pd.elems[k]? = some e) (hd : e.fixup = some d) :
    ∃ before v, p.started.Reaches k before ∧
      d.ce.value undef ((addrsFrom 0#32 pd.elems).getD k 0#32) (storedValue undef fuel pd before) =
        .ok v ∧ a.words[k]? = some (d.store e.word v).1 := by
  obtain ⟨before, value, added, hbefore, heval, hword, _⟩ := p.fixup_at he hd
  refine ⟨before, value, hbefore, ?_, hword⟩
  have hvalue := @ceEvalWith_value undef (pd.envWith before.symbols)
    (symbolEvaluator undef (pd.envWith before.symbols) fuel) rfl
    (@uniform_symbolEvaluator undef (pd.envWith before.symbols) rfl fuel) (some k) false d.width d.ce
  rw [← ceEval_eq, heval] at hvalue
  rcases map_fst_eq_iff.mp hvalue with ⟨stop, herror, _⟩ | ⟨v, relocs, hok, hv⟩
  · cases herror
  · obtain ⟨hsome, _⟩ := Prod.mk.inj (Except.ok.inj hok)
    rw [Option.some.inj hsome]
    exact hv

/-- In an accepted program, an element whose references are all behind `.set` directives of their names,
and find what they mean, has the word that its expression means. -/
theorem word_of_keepsValue {a : Assembled} (hlexed : ∀ s ∈ source, s.Lexed)
    (hparse : parse undef fuel source = .ok pd) (hassemble : assemble undef fuel source = .ok (some a))
    (hfuel : pd.symbols.length ≤ fuel) {e : Elem} {d : DeferredExpr Ref} (he : pd.elems[k]? = some e)
    (hd : e.fixup = some d)
    (hbehind : ∀ r ∈ d.ce.refs, ∃ pd₀ name id, r = .bound id ∧ SetReference undef fuel source pd₀ name id)
    (hkeeps : ∀ pd₀ name id, SetReference undef fuel source pd₀ name id → pd.Meets k (.bound id) →
      KeepsValue undef pd k name id)
    {v : Word} (hv : ExprMeans undef pd ((addrsFrom 0#32 pd.elems).getD k 0#32) d.ce v) :
    a.words[k]? = some (d.store e.word v).1 := by
  obtain ⟨-, hinner⟩ := assemble_eq_some hparse hassemble
  obtain ⟨p⟩ := assemblyInner_eq_ok hinner
  obtain ⟨before, v', hreach, hv', hword⟩ := p.word_of_storedValue he hd
  obtain ⟨w, hmeans, hvalue⟩ := hv
  have hstored : ∀ r ∈ d.ce.refs, storedValue undef fuel pd before r = .ok (w r) := by
    intro r hr
    obtain ⟨pd₀, name, id, rfl, href⟩ := hbehind r hr
    exact hreach.storedValue_of_keeps hparse (parse_lexed hparse hlexed) hfuel hkeeps (hmeans _ hr) rfl href
      (.direct he hd hr)
  rw [ConstExpr.value_congr undef _ hstored, hvalue] at hv'
  rw [hword, Except.ok.inj hv']

end

/-! ## A symbol that is defined again -/

/-- `.set s, value` -/
def setTo (value : Word) : Statement := .set ['s'] (.imm value false)

/-- `.word @s` -/
def wordOf : Statement := .element (.word [.ref true ['s']])

/-- An element that has the value of a definition. -/
def wordOfBound (id : ℕ) : Elem where
  word := 0#32
  size := 1#32
  fixup := some { ce := .ref true (.bound id), mult := 1#32, width := wordBitwidth
                  ignoreWidth := false }

/-- A symbol that is defined again behind a reference, and another one by it: `.set t, @s + .`, `.zero 3` and
`.word 7, @t`. -/
def setTwice : Source :=
  [setTo 1#32, wordOf, setTo 2#32, .set ['t'] (.op2 .add (.ref true ['s']) .ici), .element (.zero (.imm 3#32 false)),
    .element (.word [.imm 7#32 false, .ref true ['t']])]

def setTwiceParsed : ParseData where
  elems :=
    [wordOfBound 0, { word := 0#32, size := 3#32, fixup := none },
      { word := 0#32, size := 1#32
        fixup := some { ce := .imm 7#32 false, mult := 1#32, width := wordBitwidth, ignoreWidth := false } },
      wordOfBound 2]
  symbols :=
    [makeSymbol ['s'] (some (.imm 1#32 false)) 0, makeSymbol ['s'] (some (.imm 2#32 false)) 1,
      makeSymbol ['t'] (some (.op2 .add (.ref true (.bound 1)) .ici)) 1]
  globals := []
  errors := []

/-- The last element leads to the later definitions. -/
theorem leads_setTwiceParsed {id : ℕ} (h : Leads setTwiceParsed (.ref true (.bound 2)) id) :
    id = 2 ∨ id = 1 := by
  cases h with
  | direct href _ => exact .inl (Ref.bound.inj (List.mem_singleton.mp href))
  | through href hdef hleads =>
    obtain rfl := Ref.bound.inj (List.mem_singleton.mp href)
    obtain rfl := Option.some.inj hdef
    cases hleads with
    | direct href _ => exact .inr (Ref.bound.inj (List.mem_singleton.mp href))
    | through href hdef hleads =>
      obtain rfl := Ref.bound.inj (List.mem_singleton.mp href)
      obtain rfl := Option.some.inj hdef
      exact absurd hleads (not_leads_of_refs rfl _)

theorem meets_setTwiceParsed {k : ℕ} {r : Ref} (h : setTwiceParsed.Meets k r) :
    (k = 0 ∧ r = .bound 0) ∨ (k = 3 ∧ (r = .bound 2 ∨ r = .bound 1)) := by
  induction h with
  | direct he hd hr =>
    rcases k with _ | _ | _ | _ | k
    · obtain rfl := Option.some.inj he
      obtain rfl := Option.some.inj hd
      exact .inl ⟨rfl, List.mem_singleton.mp hr⟩
    · obtain rfl := Option.some.inj he
      cases hd
    · obtain rfl := Option.some.inj he
      obtain rfl := Option.some.inj hd
      cases hr
    · obtain rfl := Option.some.inj he
      obtain rfl := Option.some.inj hd
      exact .inr ⟨rfl, .inl (List.mem_singleton.mp hr)⟩
    · cases he
  | through _ _ hdef hr ih =>
    rcases ih with ⟨_, hid⟩ | ⟨hk, hid | hid⟩
    · obtain rfl := Ref.bound.inj hid
      obtain rfl := Option.some.inj hdef
      cases hr
    · obtain rfl := Ref.bound.inj hid
      obtain rfl := Option.some.inj hdef
      exact .inr ⟨hk, .inr (List.mem_singleton.mp hr)⟩
    · obtain rfl := Ref.bound.inj hid
      obtain rfl := Option.some.inj hdef
      cases hr

/-- No definition is led to from two elements. -/
theorem stillDefined_setTwiceParsed {k id : ℕ} (h : setTwiceParsed.Meets k (.bound id)) :
    setTwiceParsed.StillDefined k id := by
  rcases meets_setTwiceParsed h with ⟨rfl, hid⟩ | ⟨rfl, hid⟩
  · obtain rfl := Ref.bound.inj hid
    refine ⟨⟨_, rfl⟩, ?_⟩
    rintro j hj ⟨e, d, he, hd, hleads⟩
    rcases j with _ | _ | _ | _ | j
    · cases hj
    · obtain rfl := Option.some.inj he
      cases hd
    · obtain rfl := Option.some.inj he
      obtain rfl := Option.some.inj hd
      exact not_leads_of_refs rfl _ hleads
    · obtain rfl := Option.some.inj he
      obtain rfl := Option.some.inj hd
      rcases leads_setTwiceParsed hleads with h | h <;> cases h
    · cases he
  · refine ⟨?_, ?_⟩
    · rcases hid with hid | hid
      · obtain rfl := Ref.bound.inj hid
        exact ⟨_, rfl⟩
      · obtain rfl := Ref.bound.inj hid
        exact ⟨_, rfl⟩
    · rintro j hj ⟨e, d, he, _⟩
      have hlt := (List.getElem?_eq_some_iff.mp he).1
      simp only [setTwiceParsed, List.length_cons, List.length_nil] at hlt
      omega

/-- Both references to `s` mean the definition in front of them. -/
theorem set_references_mean_twice :
    parse .masked 3 setTwice = .ok setTwiceParsed ∧
      ∃ q : Started .masked 3 setTwiceParsed, ∀ k before, q.Reaches k before → ∀ pd₀ name id,
        SetReference .masked 3 setTwice pd₀ name id → setTwiceParsed.Meets k (makeRef pd₀.env name) →
          ∀ v, Means .masked setTwiceParsed (.bound id) v →
            storedValue .masked 3 setTwiceParsed before (makeRef pd₀.env name) = .ok v := by
  have hparse : parse .masked 3 setTwice = .ok setTwiceParsed := rfl
  have hlexed : ∀ s ∈ setTwice, s.Lexed := by decide
  refine ⟨hparse, ⟨⟨_, _, rfl, rfl⟩, ?_⟩⟩
  apply (set_references_mean_iff hlexed hparse _ (by decide)).mpr
  exact fun _ _ _ _ _ _ _ hmeets ↦ .inl (stillDefined_setTwiceParsed hmeets)

/-- A symbol that is defined again behind two references, and referred to once more. -/
def setAgain : Source := [setTo 1#32, wordOf, wordOf, setTo 2#32, wordOf]

def setAgainParsed : ParseData where
  elems := [wordOfBound 0, wordOfBound 0, wordOfBound 1]
  symbols := [makeSymbol ['s'] (some (.imm 1#32 false)) 0, makeSymbol ['s'] (some (.imm 2#32 false)) 2]
  globals := []
  errors := []

/-- A definition whose value is in the table. -/
def resolvedTo (value : Word) (place : ℕ) : Symbol :=
  { makeSymbol ['s'] (some (.imm value false)) place with reladdr := value, resolved := true }

def setAgainStarted : Started .masked 2 setAgainParsed where
  symbols := [resolvedTo 1#32 0, resolvedTo 2#32 2]
  relocs := []
  resolve := rfl
  unique := rfl

/-- Where the pass reaches the first reference, both definitions are freed. -/
def setAgainBefore : FixupState where
  symbols := [(resolvedTo 1#32 0).free, (resolvedTo 2#32 2).free]
  words := [1#32, 2#32]
  relocs := []
  tooLarge := false

theorem setAgain_lexed : ∀ s ∈ setAgain, s.Lexed := by
  decide

/-- The first of two references gets the value of a later definition. -/
theorem not_set_references_mean_again :
    (∀ s ∈ setAgain, s.Lexed) ∧ parse .masked 2 setAgain = .ok setAgainParsed ∧
      setAgainParsed.symbols.length ≤ 2 ∧
      ¬ ∀ k before, setAgainStarted.Reaches k before → ∀ pd₀ name id,
        SetReference .masked 2 setAgain pd₀ name id → setAgainParsed.Meets k (makeRef pd₀.env name) →
          ∀ v, Means .masked setAgainParsed (.bound id) v →
            storedValue .masked 2 setAgainParsed before (makeRef pd₀.env name) = .ok v := by
  refine ⟨setAgain_lexed, rfl, by decide, ?_⟩
  intro h
  have hreach : setAgainStarted.Reaches 0 setAgainBefore := rfl
  have href : SetReference .masked 2 setAgain
      { ParseData.empty with symbols := [makeSymbol ['s'] (some (.imm 1#32 false)) 0] } ['s'] 0 := by
    refine ⟨⟨[setTo 1#32], wordOf, _, true, rfl, rfl, List.mem_singleton_self _⟩,
      ⟨_, List.mem_singleton_self _, rfl, rfl⟩, ⟨⟨_, rfl, rfl⟩, ?_⟩⟩
    intro id' s hlt hs
    have hlength := (List.getElem?_eq_some_iff.mp hs).1
    simp only [List.length_singleton] at hlength
    omega
  have hmeans : Means .masked setAgainParsed (.bound 0) 1#32 := by
    apply Means.set (w := fun _ ↦ 0#32) rfl rfl
    · exact fun r hr ↦ (List.not_mem_nil hr).elim
    · rfl
  have hmeets : setAgainParsed.Meets 0 (.bound 0) := .direct rfl rfl (List.mem_singleton_self _)
  have hvalue := h 0 setAgainBefore hreach _ _ _ href hmeets 1#32 hmeans
  have hstored : storedValue .masked 2 setAgainParsed setAgainBefore (.bound 0) = .ok 2#32 := rfl
  have hsame : Except.ok 2#32 = (Except.ok 1#32 : Except Stop Word) := hstored.symm.trans hvalue
  exact absurd hsame (by decide)

end Tenyr.Asm
