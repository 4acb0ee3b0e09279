import Tenyr.Asm.Meaning

/-!
# The pass over the expressions

`fixup_deferred_exprs` reaches the element with index `k` after all elements behind it. What it finds
there: symbols with their names, places and addresses, some of whose expressions have been freed.
-/

namespace Tenyr.Asm

open Isa Obj

/-! ## Names -/

/-- Lookups by name depend on nothing but the names. -/
theorem symbolFind_congr {env env' : Env}
    (h : env.symbols.map Symbol.name = env'.symbols.map Symbol.name) (name : Name) :
    env.symbolFind name = env'.symbolFind name := by
  have hlength : env.symbols.length = env'.symbols.length := by
    simpa using congrArg List.length h
  have hget : ∀ id : ℕ, (env.symbols[id]?.any fun s ↦ sameSymbol s.name name) =
      env'.symbols[id]?.any fun s ↦ sameSymbol s.name name := by
    intro id
    have hid := congrArg (fun names : List Name ↦ names[id]?) h
    simp only [List.getElem?_map] at hid
    cases hs : env.symbols[id]? with
    | none =>
      rw [hs, Option.map_none] at hid
      rw [Option.map_eq_none_iff.mp hid.symm]
    | some s =>
      rw [hs, Option.map_some] at hid
      obtain ⟨s', hs', hname⟩ := Option.map_eq_some_iff.mp hid.symm
      rw [hs', Option.any_some, Option.any_some, hname]
  rw [Env.symbolFind, Env.symbolFind, hlength]
  congr 1
  funext id
  exact hget id

theorem Freed.names {symbols symbols' : List Symbol} (h : Freed symbols symbols') :
    symbols'.map Symbol.name = symbols.map Symbol.name := by
  apply List.ext_getElem?
  intro id
  rw [List.getElem?_map, List.getElem?_map]
  rcases h id with hid | hid
  · rw [hid]
  · rw [hid, Option.map_map]
    rfl

/-! ## One element of the pass -/

section

variable {undef : UndefinedShifts} {fuel : ℕ} {reladdrs : List Word}

/-- The pass taken apart at one element. -/
theorem fixupFrom_at {elems : List Elem} {k₀ k : ℕ} {e : Elem} {st st' : FixupState}
    (he : elems[k]? = some e) (h : fixupFrom undef fuel reladdrs k₀ elems st = .ok st') :
    ∃ before after,
      fixupFrom undef fuel reladdrs (k₀ + k + 1) (elems.drop (k + 1)) st = .ok before ∧
      fixupElem undef fuel reladdrs (k₀ + k) e before = .ok after ∧
      (∃ words, words.length = k ∧ st'.words = words ++ after.words) ∧
      (st'.tooLarge = false → after.tooLarge = false) := by
  induction elems generalizing k₀ k st' with
  | nil => cases he
  | cons e' rest ih =>
    rw [fixupFrom, bind_eq_ok] at h
    obtain ⟨st₁, hrest, helem⟩ := h
    cases k with
    | zero =>
      obtain rfl := Option.some.inj he
      exact ⟨st₁, st', hrest, helem, ⟨[], rfl, rfl⟩, id⟩
    | succ k =>
      obtain ⟨before, after, hbefore, hafter, ⟨words, hwords, hst₁⟩, hlarge⟩ := ih he hrest
      have hindex : k₀ + 1 + k = k₀ + (k + 1) := by omega
      rw [hindex] at hbefore hafter
      refine ⟨before, after, hbefore, hafter, ?_⟩
      unfold fixupElem at helem
      split at helem
      · obtain rfl := Except.ok.inj helem
        exact ⟨⟨e'.word :: words, by simp [hwords], by simp [hst₁]⟩, hlarge⟩
      · rename_i d _
        rw [bind_eq_ok] at helem
        obtain ⟨⟨value, added⟩, _, helem⟩ := helem
        cases value with
        | none => cases helem
        | some value =>
          obtain rfl := Except.ok.inj helem
          refine ⟨⟨(d.store e'.word value).1 :: words, by simp [hwords],
            congrArg (List.cons _) hst₁⟩, ?_⟩
          intro hfalse
          exact hlarge (Bool.or_eq_false_iff.mp hfalse).1

end

/-! ## Elements and symbols during the pass -/

theorem length_addrsFrom (reladdr : Word) (elems : List Elem) :
    (addrsFrom reladdr elems).length = elems.length := by
  induction elems generalizing reladdr with
  | nil => rfl
  | cons e rest ih => simp [addrsFrom, ih]

/-- What evaluation sees while expressions are fixed up. -/
def ParseData.envWith (pd : ParseData) (symbols : List Symbol) : Env where
  symbols := symbols
  reladdrs := addrsFrom 0#32 pd.elems
  phantom := true

/-- Symbols of a program at some point of the pass. -/
structure Reached (pd : ParseData) (symbols : List Symbol) : Prop where
  names : symbols.map Symbol.name = pd.symbols.map Symbol.name
  kept : ∀ (id : ℕ) s, pd.symbols[id]? = some s → ∃ s', symbols[id]? = some s' ∧
    s'.place = s.place ∧ (s'.ce = s.ce ∨ s'.ce = none) ∧
      (s.ce = none → s'.reladdr = (addrsFrom 0#32 pd.elems).getD s.place 0#32)

theorem Reached.freed {pd : ParseData} {symbols symbols' : List Symbol}
    (h : Reached pd symbols) (hfreed : Freed symbols symbols') : Reached pd symbols' where
  names := hfreed.names.trans h.names
  kept id s hs := by
    obtain ⟨s', hs', hplace, hce, hlabel⟩ := h.kept id s hs
    rcases hfreed.getElem? hs' with hkeep | hfree
    · exact ⟨s', hkeep, hplace, hce, hlabel⟩
    · exact ⟨s'.free, hfree, hplace, .inr rfl, hlabel⟩

section

variable {undef : UndefinedShifts} {fuel : ℕ} {pd : ParseData} {a : Assembled}

/-- The passes up to the one over the expressions, which may still stop. -/
structure Started (undef : UndefinedShifts) (fuel : ℕ) (pd : ParseData) where
  symbols : List Symbol
  relocs : List RelocNode
  resolve : resolveSets undef fuel pd.finalEnv pd.labels = .ok (symbols, relocs)
  unique : hasDuplicates
    (markGlobals pd.globals { symbols, reladdrs := addrsFrom 0#32 pd.elems, phantom := true }) = false

namespace Started

/-- The symbols that the pass over the expressions starts with. -/
def marked (q : Started undef fuel pd) : List Symbol :=
  markGlobals pd.globals
    { symbols := q.symbols, reladdrs := addrsFrom 0#32 pd.elems, phantom := true }

/-- Every symbol is there before the pass, with its name, its place and its expression. -/
theorem marked_getElem? (q : Started undef fuel pd) {id : ℕ} {s : Symbol}
    (hs : pd.symbols[id]? = some s) :
    ∃ s', q.marked[id]? = some s' ∧ s'.name = s.name ∧ s'.place = s.place ∧ s'.ce = s.ce ∧
      (s.ce = none → s'.reladdr = (addrsFrom 0#32 pd.elems).getD s.place 0#32) := by
  have hlabel : pd.labels[id]? = some (resolveLabel (addrsFrom 0#32 pd.elems) s) := by
    rw [ParseData.labels, List.getElem?_map, hs]
    rfl
  obtain ⟨t, ht, hname, hce, hplace, hkeep⟩ := resolveSets_getElem? undef fuel q.resolve hlabel
  obtain ⟨isGlobal, hmarked⟩ := markGlobals_getElem? pd.globals
    { symbols := q.symbols, reladdrs := addrsFrom 0#32 pd.elems, phantom := true } ht
  have hsame : (resolveLabel (addrsFrom 0#32 pd.elems) s).name = s.name ∧
      (resolveLabel (addrsFrom 0#32 pd.elems) s).ce = s.ce ∧
        (resolveLabel (addrsFrom 0#32 pd.elems) s).place = s.place := by
    unfold resolveLabel
    split
    · exact ⟨rfl, rfl, rfl⟩
    · exact ⟨rfl, rfl, rfl⟩
  refine ⟨_, hmarked, hname.trans hsame.1, hplace.trans hsame.2.2, hce.trans hsame.2.1, ?_⟩
  intro hnone
  rw [hkeep (hsame.2.1.trans hnone), resolveLabel, hnone]
  rfl

theorem marked_length (q : Started undef fuel pd) : q.marked.length = pd.symbols.length := by
  rw [marked, markGlobals, List.length_mapIdx, resolveSets_length undef fuel q.resolve,
    ParseData.labels, List.length_map]

theorem reached_marked (q : Started undef fuel pd) : Reached pd q.marked := by
  refine ⟨?_, ?_⟩
  · apply List.ext_getElem?
    intro id
    rw [List.getElem?_map, List.getElem?_map]
    cases hs : pd.symbols[id]? with
    | some s =>
      obtain ⟨s', hs', hname, _⟩ := q.marked_getElem? hs
      rw [hs']
      exact congrArg some hname
    | none =>
      have hlength : q.marked.length ≤ id := by
        rw [q.marked_length]
        exact List.getElem?_eq_none_iff.mp hs
      rw [List.getElem?_eq_none hlength]
  · intro id s hs
    obtain ⟨s', hs', _, hplace, hce, hlabel⟩ := q.marked_getElem? hs
    exact ⟨s', hs', hplace, .inl hce, hlabel⟩

/-- The pass has reached the element with index `k`. -/
def Reaches (q : Started undef fuel pd) (k : ℕ) (before : FixupState) : Prop :=
  fixupFrom undef fuel (addrsFrom 0#32 pd.elems) (k + 1) (pd.elems.drop (k + 1))
    { symbols := q.marked, words := [], relocs := q.relocs, tooLarge := false } = .ok before

/-- Symbols that an element is reached with are those from the start, some of them freed. -/
theorem Reaches.freed {q : Started undef fuel pd} {k : ℕ} {before : FixupState}
    (h : q.Reaches k before) : Freed q.marked before.symbols :=
  (fixupFrom_spec undef fuel h).2

theorem Reaches.reached {q : Started undef fuel pd} {k : ℕ} {before : FixupState}
    (h : q.Reaches k before) : Reached pd before.symbols :=
  q.reached_marked.freed h.freed

end Started

namespace Passes

/-- The same passes without the last. -/
def started (p : Passes undef fuel pd a) : Started undef fuel pd where
  symbols := p.symbols
  relocs := p.relocs
  resolve := p.resolve
  unique := p.unique

/-- The symbols that the pass over the expressions starts with. -/
def marked (p : Passes undef fuel pd a) : List Symbol :=
  markGlobals pd.globals
    { symbols := p.symbols, reladdrs := addrsFrom 0#32 pd.elems, phantom := true }

theorem reached_marked (p : Passes undef fuel pd a) : Reached pd p.marked :=
  p.started.reached_marked

/-- The pass has reached the element with index `k`. -/
def Before (p : Passes undef fuel pd a) (k : ℕ) (before : FixupState) : Prop :=
  fixupFrom undef fuel (addrsFrom 0#32 pd.elems) (k + 1) (pd.elems.drop (k + 1))
    { symbols := p.marked, words := [], relocs := p.relocs, tooLarge := false } = .ok before

theorem Before.reached {p : Passes undef fuel pd a} {k : ℕ} {before : FixupState}
    (h : p.Before k before) : Reached pd before.symbols :=
  p.reached_marked.freed (fixupFrom_spec undef fuel h).2

/-- What the pass finds at an element is determined by the program. -/
theorem Before.unique {p p' : Passes undef fuel pd a} {k : ℕ} {before before' : FixupState}
    (h : p.Before k before) (h' : p'.Before k before') : before = before' := by
  have hresolve := Except.ok.inj (p.resolve.symm.trans p'.resolve)
  obtain ⟨hsymbols, hrelocs⟩ := Prod.mk.inj hresolve
  have hmarked : p.marked = p'.marked := by
    rw [marked, marked, hsymbols]
  unfold Before at h h'
  rw [hmarked, hrelocs, h'] at h
  exact (Except.ok.inj h).symm

/-- A word with an expression is stored with the value of the expression in its field. -/
theorem fixup_at (p : Passes undef fuel pd a) {k : ℕ} {e : Elem} {d : DeferredExpr Ref}
    (he : pd.elems[k]? = some e) (hd : e.fixup = some d) :
    ∃ before value added, p.Before k before ∧
      ceEval undef (pd.envWith before.symbols) fuel (some k)
        { relocate := true, negate := false } d.width d.ce = .ok (some value, added) ∧
      a.words[k]? = some (d.store e.word value).1 ∧ (d.store e.word value).2 = false := by
  obtain ⟨before, after, hbefore, hafter, ⟨words, hlength, hwords⟩, hlarge⟩ :=
    fixupFrom_at he p.fixup
  rw [Nat.zero_add] at hbefore hafter
  unfold fixupElem at hafter
  rw [hd] at hafter
  dsimp only at hafter
  rw [bind_eq_ok] at hafter
  obtain ⟨⟨value, added⟩, heval, hafter⟩ := hafter
  cases value with
  | none => cases hafter
  | some value =>
    obtain rfl := Except.ok.inj hafter
    refine ⟨before, value, added, hbefore, heval, ?_, ?_⟩
    · rw [p.result]
      change p.st.words[k]? = _
      rw [hwords, List.getElem?_append_right (by omega), hlength, Nat.sub_self]
      rfl
    · exact (Bool.or_eq_false_iff.mp (hlarge p.small)).2

/-- A word without an expression is left as it was made. -/
theorem word_of_fixup_none (p : Passes undef fuel pd a) {k : ℕ} {e : Elem}
    (he : pd.elems[k]? = some e) (hd : e.fixup = none) : a.words[k]? = some e.word := by
  obtain ⟨before, after, _, hafter, ⟨words, hlength, hwords⟩, _⟩ := fixupFrom_at he p.fixup
  unfold fixupElem at hafter
  rw [hd] at hafter
  obtain rfl := Except.ok.inj hafter
  rw [p.result]
  change p.st.words[k]? = _
  rw [hwords, List.getElem?_append_right (by omega), hlength, Nat.sub_self]
  rfl

end Passes

end

end Tenyr.Asm
