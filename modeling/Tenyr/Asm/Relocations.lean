import Tenyr.Asm.Linear
import Tenyr.Asm.Overflow

/-!
# Relocations of a program

An address in an expression leaves a relocation at the element with the expression. The addresses in
the definition of a `.set` symbol leave theirs at the element behind the directive, and a reference to a
`.set` symbol whose definition has been freed leaves one as a label does. The relocations of an assembled
program are those of its elements and those of its definitions, which are evaluated for the symbol table.
-/

namespace Tenyr.Asm

open Isa Obj

/-! ## What an expression leaves -/

/-- A relocation that an evaluation leaves, and whether a reference to a `.set` symbol is the cause. -/
structure Leaving where
  reloc : RelocNode
  bySet : Bool

/-- The element behind the directive that defined a symbol, if there is one. -/
def ParseData.nextElem (pd : ParseData) (id : ℕ) : Option ℕ :=
  (pd.symbols[id]?.map Symbol.place).filter fun place ↦ place < pd.elems.length

open Classical in
/-- The definition of a symbol where the pass over the expressions comes to the element with index `k`. -/
noncomputable def ParseData.definitionAt (pd : ParseData) (k id : ℕ) : Option (ConstExpr Ref) :=
  if pd.StillDefined k id then definition pd.symbols id else none

section

variable (pd : ParseData) (defs : ℕ → Option (ConstExpr Ref)) (width : ℕ)

/-- The definition that a leaf leads to, and the element behind its directive. -/
def ParseData.definedBy : ConstExpr Ref → Option (Option ℕ × ConstExpr Ref)
  | .ref _ (.bound id) => (defs id).map fun ce ↦ (pd.nextElem id, ce)
  | .ref _ (.unbound _) | .ici | .imm _ _ | .paren _ | .op1 _ _ | .op2 _ _ _ => none

/-- What a leaf leaves, where `defs` are the definitions that are there: a relocation in its context, or
what the leaves of its definition leave. No more definitions than `fuel` lead to each other. -/
def ParseData.leavings (fuel : ℕ) (bySet : Bool) (context : Option ℕ) (leaf : ConstExpr Ref × Bool) :
    List Leaving :=
  match pd.definedBy defs leaf.1 with
  | none => [{ reloc := pd.plainReloc context width leaf, bySet := bySet || !pd.isPlain leaf.1 }]
  | some (place, ce) =>
    match fuel with
    | 0 => []
    | fuel + 1 => (ce.leaves leaf.2).flatMap (ParseData.leavings fuel true place)

/-- What an expression leaves, the latest first. -/
def ParseData.exprLeavings (fuel : ℕ) (bySet : Bool) (context : Option ℕ) (e : ConstExpr Ref) :
    List Leaving :=
  ((e.leaves false).flatMap (pd.leavings defs width fuel bySet context)).reverse

end

/-- What the expression of an element leaves. -/
noncomputable def ParseData.elemLeavings (pd : ParseData) (fuel : ℕ) (elem : Elem × ℕ) : List Leaving :=
  match elem.1.fixup with
  | none => []
  | some d => pd.exprLeavings (pd.definitionAt elem.2) d.width fuel false (some elem.2) d.ce

/-- What the definition of a symbol leaves when the table is made. -/
def ParseData.symbolLeavings (pd : ParseData) (fuel : ℕ) (s : Symbol) : List Leaving :=
  match s.ce with
  | none => []
  | some ce => pd.exprLeavings (definition pd.symbols) wordBitwidth fuel true none ce

/-- What a program leaves, in the order of the object file. -/
noncomputable def ParseData.programLeavings (pd : ParseData) (fuel : ℕ) : List Leaving :=
  pd.elems.zipIdx.flatMap (pd.elemLeavings fuel) ++ pd.symbols.flatMap (pd.symbolLeavings fuel)

/-- Every `.set` symbol that is referred to is defined by constants. -/
def ParseData.ConstantSets (pd : ParseData) : Prop :=
  ∀ id ce, pd.Mentions (.bound id) → definition pd.symbols id = some ce → ce.leaves false = []

section

variable {undef : UndefinedShifts} {pd : ParseData} {symbols : List Symbol}

theorem ConstExpr.leaf_cases {ρ : Type} {e : ConstExpr ρ} {negate : Bool} {leaf : ConstExpr ρ × Bool}
    (h : leaf ∈ e.leaves negate) : leaf.1 = .ici ∨ ∃ isExternal r, leaf.1 = .ref isExternal r := by
  induction e generalizing negate with
  | ref isExternal r =>
    obtain rfl := List.mem_singleton.mp h
    exact .inr ⟨isExternal, r, rfl⟩
  | ici =>
    obtain rfl := List.mem_singleton.mp h
    exact .inl rfl
  | imm => cases h
  | paren e ih => exact ih h
  | op1 op left ih => exact ih h
  | op2 op left right ihLeft ihRight =>
    rcases List.mem_append.mp h with h | h
    · exact ihLeft h
    · exact ihRight h

/-- Where the symbols of a program are looked up, a name is found if it is that of a symbol. -/
theorem Reached.symbolLookup_isSome (hlexed : pd.Lexed) (h : Reached pd symbols) {sub : Evaluator}
    {name : Name} {found : Option Word}
    (hfound : symbolLookup (pd.envWith symbols) sub name = .ok found) :
    found.isSome = (pd.lookup name).isSome := by
  cases hlookup : pd.lookup name with
  | none =>
    rw [h.symbolLookup_none sub hlookup] at hfound
    obtain rfl := Except.ok.inj hfound
    rfl
  | some t =>
    obtain ⟨id, hfind, ht⟩ := Option.bind_eq_some_iff.mp hlookup
    obtain ⟨s, hs, -⟩ := h.kept id t ht
    rw [← h.symbolFind_eq] at hfind
    cases hce : s.ce with
    | some ce =>
      rw [h.symbolLookup_set hlexed hfind hs hce] at hfound
      cases hfound
    | none =>
      have hbind : ((some id).bind fun id ↦ (pd.envWith symbols).symbols[id]?) = some s := hs
      rw [symbolLookup, hfind, hbind] at hfound
      dsimp only at hfound
      rw [hce] at hfound
      rw [← Except.ok.inj hfound]
      rfl

theorem Reached.nextElem_eq (h : Reached pd symbols) {id : ℕ} {s : Symbol} (hs : symbols[id]? = some s) :
    (pd.envWith symbols).contextAt s.place = some (pd.nextElem id) := by
  have hplace : pd.symbols[id]?.map Symbol.place = some s.place := by
    have hlength : symbols.length = pd.symbols.length := by
      simpa using congrArg List.length h.names
    have hid : id < pd.symbols.length := by
      rw [← hlength]
      exact (List.getElem?_eq_some_iff.mp hs).1
    obtain ⟨s', hs', hplace, -⟩ := h.kept id _ (List.getElem?_eq_getElem hid)
    obtain rfl := Option.some.inj (hs.symm.trans hs')
    rw [List.getElem?_eq_getElem hid, Option.map_some, hplace]
  have hphantom : (pd.envWith symbols).phantom = true := rfl
  rw [contextAt_of_phantom hphantom, ParseData.nextElem, hplace]
  have hlength : (pd.envWith symbols).reladdrs.length = pd.elems.length := length_addrsFrom _ _
  rw [hlength, Option.filter]
  simp

/-- The relocation of a leaf that leads to no definition. -/
theorem Reached.leafRelocs_plain (hlexed : pd.Lexed) (h : Reached pd symbols) {sub : Evaluator}
    {context : Option ℕ} {width : ℕ} {e : ConstExpr Ref} {negate : Bool} {leaf : ConstExpr Ref × Bool}
    (hleaf : leaf ∈ e.leaves negate) (hplain : pd.definedBy (definition symbols) leaf.1 = none)
    {value : Option Word} {relocs : List RelocNode}
    (heval : ceEvalWith undef (pd.envWith symbols) sub context { relocate := true, negate := leaf.2 }
      width leaf.1 = .ok (value, relocs)) : relocs = [pd.plainReloc context width leaf] := by
  obtain ⟨part, sign⟩ := leaf
  rcases ConstExpr.leaf_cases hleaf with rfl | ⟨isExternal, r, rfl⟩
  · obtain ⟨-, rfl⟩ := Prod.mk.inj (Except.ok.inj heval)
    rfl
  · have hset : (pd.envWith symbols).boundSet r = none := by
      cases r with
      | unbound symbolname => rfl
      | bound id => exact boundSet_eq_none_iff.mpr (Option.map_eq_none_iff.mp hplain)
    rw [ceEvalWith, hset] at heval
    dsimp only at heval
    obtain ⟨found, hfound, heval⟩ := bind_eq_ok.mp heval
    obtain ⟨-, rfl⟩ := Prod.mk.inj (Except.ok.inj heval)
    rw [h.symbolLookup_isSome hlexed hfound, h.refName_eq]
    rfl

/-- The relocations of a leaf that leads to a definition are those of the definition. -/
theorem Reached.leafRelocs_set (h : Reached pd symbols) {fuel : ℕ} {context : Option ℕ} {width : ℕ}
    {leaf : ConstExpr Ref × Bool} {place : Option ℕ} {ce : ConstExpr Ref}
    (hset : pd.definedBy (definition symbols) leaf.1 = some (place, ce))
    {value : Option Word} {relocs : List RelocNode}
    (heval : ceEval undef (pd.envWith symbols) fuel context { relocate := true, negate := leaf.2 } width
      leaf.1 = .ok (value, relocs)) :
    symbolEvaluator undef (pd.envWith symbols) fuel place { relocate := true, negate := leaf.2 } width ce =
      .ok (value, relocs) := by
  obtain ⟨part, sign⟩ := leaf
  unfold ParseData.definedBy at hset
  split at hset
  · rename_i isExternal id hpart
    dsimp only at hpart
    subst hpart
    obtain ⟨ce', hdef, heq⟩ := Option.map_eq_some_iff.mp hset
    obtain ⟨rfl, rfl⟩ := Prod.mk.inj heq
    obtain ⟨s, hs, hce⟩ := Option.bind_eq_some_iff.mp hdef
    have hbound : (pd.envWith symbols).boundSet (.bound id) = some (s, ce') := boundSet_eq_some hs hce
    rw [ceEval_eq, ceEvalWith, hbound] at heval
    dsimp only at heval
    rw [h.nextElem_eq hs] at heval
    obtain ⟨⟨value', relocs'⟩, hsub, heval⟩ := bind_eq_ok.mp heval
    -- with relocation the value of the definition is complete
    have huniform := @uniform_symbolEvaluator undef (pd.envWith symbols) rfl fuel
    obtain ⟨word, rfl⟩ := Option.isSome_iff_exists.mp (huniform.complete _ _ _ _ _ _ hsub)
    rw [← Except.ok.inj heval]
    exact hsub
  · cases hset
  · cases hset
  · cases hset
  · cases hset
  · cases hset
  · cases hset

theorem leavings_plain {defs : ℕ → Option (ConstExpr Ref)} {width fuel : ℕ} {bySet : Bool}
    {context : Option ℕ} {leaf : ConstExpr Ref × Bool} (h : pd.definedBy defs leaf.1 = none) :
    pd.leavings defs width fuel bySet context leaf =
      [{ reloc := pd.plainReloc context width leaf, bySet := bySet || !pd.isPlain leaf.1 }] := by
  rw [ParseData.leavings.eq_def, h]

theorem leavings_set {defs : ℕ → Option (ConstExpr Ref)} {width fuel : ℕ} {bySet : Bool}
    {context place : Option ℕ} {leaf : ConstExpr Ref × Bool} {ce : ConstExpr Ref}
    (h : pd.definedBy defs leaf.1 = some (place, ce)) :
    pd.leavings defs width (fuel + 1) bySet context leaf =
      (ce.leaves leaf.2).flatMap (pd.leavings defs width fuel true place) := by
  rw [ParseData.leavings.eq_def, h]

/-- Evaluating an expression leaves the relocations that its leaves leave. -/
theorem Reached.relocs_eq (hlexed : pd.Lexed) (h : Reached pd symbols) {fuel : ℕ} (bySet : Bool)
    {context : Option ℕ} {negate : Bool} {width : ℕ} {e : ConstExpr Ref} {value : Option Word}
    {relocs : List RelocNode}
    (heval : ceEval undef (pd.envWith symbols) fuel context { relocate := true, negate } width e =
      .ok (value, relocs)) :
    relocs = ((e.leaves negate).flatMap
      (pd.leavings (definition symbols) width fuel bySet context)).map Leaving.reloc := by
  induction fuel using Nat.strong_induction_on generalizing bySet context negate e value relocs with
  | h fuel ih =>
    rw [ceEval_eq] at heval
    obtain ⟨hrelocs, hleaves⟩ := ceEvalWith_relocs rfl
      (@uniform_symbolEvaluator undef (pd.envWith symbols) rfl fuel) context heval
    rw [hrelocs, List.map_flatMap]
    apply List.flatMap_congr
    intro leaf hleaf
    obtain ⟨value', hvalue⟩ := hleaves leaf hleaf
    cases hset : pd.definedBy (definition symbols) leaf.1 with
    | none =>
      rw [h.leafRelocs_plain hlexed hleaf hset hvalue, leavings_plain hset]
      rfl
    | some set =>
      obtain ⟨place, ce⟩ := set
      rw [← ceEval_eq] at hvalue
      have hsub := h.leafRelocs_set hset hvalue
      cases fuel with
      | zero => cases hsub
      | succ fuel =>
        rw [leavings_set hset]
        exact ih fuel (Nat.lt_succ_self fuel) true hsub

end

/-! ## Where relocations are left -/

section

variable {pd : ParseData} {defs : ℕ → Option (ConstExpr Ref)} {width fuel : ℕ} {context : Option ℕ}

theorem nextElem_lt {id k : ℕ} (h : pd.nextElem id = some k) : k < pd.elems.length := by
  obtain ⟨-, hlt⟩ := Option.filter_eq_some_iff.mp h
  exact of_decide_eq_true hlt

theorem definedBy_place {e ce : ConstExpr Ref} {place : Option ℕ}
    (h : pd.definedBy defs e = some (place, ce)) {k : ℕ} (hplace : place = some k) :
    k < pd.elems.length := by
  unfold ParseData.definedBy at h
  split at h
  · obtain ⟨ce', -, heq⟩ := Option.map_eq_some_iff.mp h
    obtain ⟨rfl, -⟩ := Prod.mk.inj heq
    exact nextElem_lt hplace
  all_goals cases h

/-- Relocations have the width of the field, and are in the context or behind a directive. -/
theorem mem_leavings {bySet : Bool} {leaf : ConstExpr Ref × Bool} {l : Leaving}
    (h : l ∈ pd.leavings defs width fuel bySet context leaf) :
    l.reloc.width = width ∧ (bySet = true → l.bySet = true) ∧
      ∀ k, l.reloc.insn = some k → context = some k ∨ k < pd.elems.length := by
  induction fuel using Nat.strong_induction_on generalizing bySet context leaf with
  | h fuel ih =>
    cases hset : pd.definedBy defs leaf.1 with
    | none =>
      rw [leavings_plain hset] at h
      obtain rfl := List.mem_singleton.mp h
      refine ⟨rfl, fun hset ↦ ?_, fun k hk ↦ .inl hk⟩
      rw [hset]
      rfl
    | some set =>
      obtain ⟨place, ce⟩ := set
      cases fuel with
      | zero =>
        rw [ParseData.leavings.eq_def, hset] at h
        cases h
      | succ fuel =>
        rw [leavings_set hset] at h
        obtain ⟨leaf', -, hl⟩ := List.mem_flatMap.mp h
        obtain ⟨hwidth, hbySet, hinsn⟩ := ih fuel (Nat.lt_succ_self fuel) hl
        refine ⟨hwidth, fun _ ↦ hbySet rfl, fun k hk ↦ .inr ?_⟩
        rcases hinsn k hk with hplace | hlt
        · exact definedBy_place hset hplace
        · exact hlt

theorem mem_exprLeavings {bySet : Bool} {e : ConstExpr Ref} {l : Leaving}
    (h : l ∈ pd.exprLeavings defs width fuel bySet context e) :
    l.reloc.width = width ∧ (bySet = true → l.bySet = true) ∧
      ∀ k, l.reloc.insn = some k → context = some k ∨ k < pd.elems.length := by
  obtain ⟨leaf, -, hl⟩ := List.mem_flatMap.mp (List.mem_reverse.mp h)
  exact mem_leavings hl

/-- Where `.set` symbols are constants, every relocation is in its context. -/
theorem ParseData.ConstantSets.mem_leavings (h : pd.ConstantSets)
    (hdefs : ∀ id ce, defs id = some ce → definition pd.symbols id = some ce) {bySet : Bool}
    {leaf : ConstExpr Ref × Bool} (hmentions : ∀ isExternal r, leaf.1 = .ref isExternal r → pd.Mentions r)
    {l : Leaving} (hl : l ∈ pd.leavings defs width fuel bySet context leaf) :
    l = { reloc := pd.plainReloc context width leaf, bySet := bySet || !pd.isPlain leaf.1 } := by
  cases hset : pd.definedBy defs leaf.1 with
  | none =>
    rw [leavings_plain hset] at hl
    exact List.mem_singleton.mp hl
  | some set =>
    obtain ⟨place, ce⟩ := set
    have hconstant : ce.leaves leaf.2 = [] := by
      unfold ParseData.definedBy at hset
      split at hset
      · rename_i isExternal id hleaf
        obtain ⟨ce', hdef, heq⟩ := Option.map_eq_some_iff.mp hset
        obtain ⟨-, rfl⟩ := Prod.mk.inj heq
        exact (ConstExpr.leaves_eq_nil_iff ce' false leaf.2).mp
          (h id ce' (hmentions isExternal (.bound id) hleaf) (hdefs id ce' hdef))
      all_goals cases hset
    cases fuel with
    | zero =>
      rw [ParseData.leavings.eq_def, hset] at hl
      cases hl
    | succ fuel =>
      rw [leavings_set hset, hconstant] at hl
      cases hl

/-- The relocations that no `.set` symbol is the cause of are those of the plain leaves. -/
theorem filter_exprLeavings (k width fuel : ℕ) (context : Option ℕ) (e : ConstExpr Ref) :
    (pd.exprLeavings (pd.definitionAt k) width fuel false context e).filter (fun l ↦ !l.bySet) =
      (((e.leaves false).filter fun leaf ↦ pd.isPlain leaf.1).map fun leaf ↦
        { reloc := pd.plainReloc context width leaf, bySet := false }).reverse := by
  rw [ParseData.exprLeavings, List.filter_reverse, List.filter_flatMap]
  congr 1
  induction e.leaves false with
  | nil => rfl
  | cons leaf rest ih =>
    rw [List.flatMap_cons, ih, List.filter_cons]
    cases hplain : pd.isPlain leaf.1 with
    | true =>
      have hset : pd.definedBy (pd.definitionAt k) leaf.1 = none := by
        unfold ParseData.definedBy
        split
        · rename_i isExternal id hleaf
          rw [hleaf, ParseData.isPlain, Option.isNone_iff_eq_none, boundSet_eq_none_iff,
            ParseData.finalEnv, definition_labels] at hplain
          rw [ParseData.definitionAt, hplain, ite_self]
          rfl
        all_goals rfl
      rw [leavings_plain hset, hplain]
      rfl
    | false =>
      have hbySet : ∀ l ∈ pd.leavings (pd.definitionAt k) width fuel false context leaf,
          l.bySet = true := by
        intro l hl
        cases hset : pd.definedBy (pd.definitionAt k) leaf.1 with
        | none =>
          rw [leavings_plain hset, hplain] at hl
          obtain rfl := List.mem_singleton.mp hl
          rfl
        | some set =>
          obtain ⟨place, ce⟩ := set
          cases fuel with
          | zero =>
            rw [ParseData.leavings.eq_def, hset] at hl
            cases hl
          | succ fuel =>
            rw [leavings_set hset] at hl
            obtain ⟨leaf', -, hl'⟩ := List.mem_flatMap.mp hl
            exact (mem_leavings hl').2.1 rfl
      have hnil : (pd.leavings (pd.definitionAt k) width fuel false context leaf).filter
          (fun l ↦ !l.bySet) = [] := by
        apply List.filter_eq_nil_iff.mpr
        intro l hl
        simp [hbySet l hl]
      rw [hnil]
      rfl

end

/-! ## Programs -/

section

variable {undef : UndefinedShifts} {fuel : ℕ} {pd : ParseData} {q : Started undef fuel pd}

/-- What the pass has left of the definitions where it comes to an element. -/
theorem Started.Reaches.definitionAt_eq {k : ℕ} {before : FixupState} (h : q.Reaches k before) :
    definition before.symbols = pd.definitionAt k := by
  funext id
  rw [ParseData.definitionAt]
  split
  · rename_i hstill
    exact h.definition_eq hstill.2
  · rename_i hnot
    apply (h.definition_eq_none_iff id).mpr
    by_contra hkept
    rw [not_or] at hkept
    refine hnot ⟨Option.ne_none_iff_exists'.mp hkept.1, fun j hj huses ↦ ?_⟩
    exact hkept.2 ⟨j, hj, huses⟩

/-- The relocations after the pass over the elements from some index on. -/
theorem fixupFrom_relocs (hlexed : pd.Lexed) {k : ℕ} {elems : List Elem} (helems : pd.elems.drop k = elems)
    {st : FixupState}
    (h : fixupFrom undef fuel (addrsFrom 0#32 pd.elems) k elems
      { symbols := q.marked, words := [], relocs := q.relocs, tooLarge := false } = .ok st) :
    st.relocs = ((elems.zipIdx k).flatMap (pd.elemLeavings fuel)).map Leaving.reloc ++ q.relocs := by
  induction elems generalizing k st with
  | nil =>
    obtain rfl := Except.ok.inj h
    rfl
  | cons e rest ih =>
    have hrest : pd.elems.drop (k + 1) = rest := by
      rw [← List.drop_drop, helems]
      rfl
    rw [fixupFrom, bind_eq_ok] at h
    obtain ⟨before, hbefore, h⟩ := h
    have hreaches : q.Reaches k before := by
      rw [Started.Reaches, hrest]
      exact hbefore
    rw [List.zipIdx_cons, List.flatMap_cons, List.map_append, List.append_assoc, ← ih hrest hbefore]
    unfold fixupElem at h
    unfold ParseData.elemLeavings
    cases hfixup : e.fixup with
    | none =>
      rw [hfixup] at h
      obtain rfl := Except.ok.inj h
      rfl
    | some d =>
      rw [hfixup] at h
      dsimp only at h ⊢
      obtain ⟨⟨value, added⟩, heval, h⟩ := bind_eq_ok.mp h
      have hadded := hreaches.reached.relocs_eq hlexed false heval
      rw [hreaches.definitionAt_eq] at hadded
      cases value with
      | none => cases h
      | some value =>
        obtain rfl := Except.ok.inj h
        dsimp only
        rw [hadded, ParseData.exprLeavings, List.map_reverse]

/-- The relocations of the definitions, which are evaluated while all of them are there. -/
theorem resolveSets_relocs (hlexed : pd.Lexed) {symbols symbols' : List Symbol} {relocs : List RelocNode}
    (h : resolveSets undef fuel pd.finalEnv (symbols.map (resolveLabel (addrsFrom 0#32 pd.elems))) =
      .ok (symbols', relocs)) :
    relocs = (symbols.flatMap (pd.symbolLeavings fuel)).map Leaving.reloc := by
  induction symbols generalizing symbols' relocs with
  | nil =>
    obtain ⟨-, rfl⟩ := Prod.mk.inj (Except.ok.inj h)
    rfl
  | cons s rest ih =>
    rw [List.map_cons, resolveSets, bind_eq_ok] at h
    obtain ⟨⟨rest', relocs'⟩, hrest, h⟩ := h
    dsimp only at h
    rw [resolveLabel_ce] at h
    rw [List.flatMap_cons, List.map_append, ← ih hrest, ParseData.symbolLeavings]
    cases hce : s.ce with
    | none =>
      rw [hce] at h
      obtain ⟨-, rfl⟩ := Prod.mk.inj (Except.ok.inj h)
      rfl
    | some ce =>
      rw [hce] at h
      dsimp only at h ⊢
      obtain ⟨⟨value, added⟩, heval, h⟩ := bind_eq_ok.mp h
      obtain ⟨-, rfl⟩ := Prod.mk.inj (Except.ok.inj h)
      have hdefs : definition pd.labels = definition pd.symbols := funext (definition_labels pd)
      rw [ParseData.exprLeavings, List.map_reverse, ← hdefs]
      rw [(reached_labels pd).relocs_eq hlexed true heval]

/-- Relocations are in fields of at most 32 bits, of elements that there are. -/
theorem mem_programLeavings (hvalid : pd.Valid) {l : Leaving} (h : l ∈ pd.programLeavings fuel) :
    0 < l.reloc.width ∧ l.reloc.width ≤ 32 ∧ ∀ k, l.reloc.insn = some k → k < pd.elems.length := by
  rcases List.mem_append.mp h with h | h
  · obtain ⟨⟨e, k⟩, helem, hl⟩ := List.mem_flatMap.mp h
    have he : pd.elems[k]? = some e := List.mem_zipIdx_iff_getElem?.mp helem
    unfold ParseData.elemLeavings at hl
    split at hl
    · cases hl
    · rename_i d hd
      obtain ⟨-, hpos, hle⟩ := hvalid.fixup e (List.mem_of_getElem? he) d hd
      obtain ⟨hwidth, -, hinsn⟩ := mem_exprLeavings hl
      refine ⟨hwidth ▸ hpos, hwidth ▸ hle, fun k' hk' ↦ ?_⟩
      rcases hinsn k' hk' with hk | hlt
      · obtain rfl := Option.some.inj hk
        exact (List.getElem?_eq_some_iff.mp he).1
      · exact hlt
  · obtain ⟨s, -, hl⟩ := List.mem_flatMap.mp h
    unfold ParseData.symbolLeavings at hl
    split at hl
    · cases hl
    · obtain ⟨hwidth, -, hinsn⟩ := mem_exprLeavings hl
      rw [hwidth]
      refine ⟨by decide, by decide, fun k hk ↦ ?_⟩
      rcases hinsn k hk with hnone | hlt
      · cases hnone
      · exact hlt

/-- Where `.set` symbols are constants, the relocations of elements are all their own. -/
theorem ParseData.ConstantSets.mem_programLeavings (h : pd.ConstantSets) {l : Leaving}
    (hl : l ∈ pd.programLeavings fuel) :
    l.reloc.insn = none ∨ ∃ (k : ℕ) (e : Elem) (d : DeferredExpr Ref) (leaf : ConstExpr Ref × Bool),
      pd.elems[k]? = some e ∧ e.fixup = some d ∧ leaf ∈ d.ce.leaves false ∧
        l = { reloc := pd.plainReloc (some k) d.width leaf, bySet := !pd.isPlain leaf.1 } := by
  have hmem : ∀ {e : ConstExpr Ref} {leaf : ConstExpr Ref × Bool}, leaf ∈ e.leaves false →
      ∀ isExternal r, leaf.1 = .ref isExternal r → r ∈ e.refs := by
    rintro e ⟨_, negate⟩ hleaf isExternal r rfl
    exact (ConstExpr.mem_refs_iff false).mpr ⟨isExternal, negate, hleaf⟩
  rcases List.mem_append.mp hl with hl | hl
  · right
    obtain ⟨⟨e, k⟩, helem, hl⟩ := List.mem_flatMap.mp hl
    have he : pd.elems[k]? = some e := List.mem_zipIdx_iff_getElem?.mp helem
    unfold ParseData.elemLeavings at hl
    split at hl
    · cases hl
    · rename_i d hd
      obtain ⟨leaf, hleaf, hl⟩ := List.mem_flatMap.mp (List.mem_reverse.mp hl)
      refine ⟨k, e, d, leaf, he, hd, hleaf, h.mem_leavings ?_ ?_ hl⟩
      · intro id ce hdef
        rw [ParseData.definitionAt] at hdef
        split at hdef
        · exact hdef
        · cases hdef
      · intro isExternal r hr
        exact .inl ⟨e, List.mem_of_getElem? he, d, hd, hmem hleaf isExternal r hr⟩
  · left
    obtain ⟨s, hs, hl⟩ := List.mem_flatMap.mp hl
    unfold ParseData.symbolLeavings at hl
    split at hl
    · cases hl
    · rename_i ce hce
      obtain ⟨leaf, hleaf, hl⟩ := List.mem_flatMap.mp (List.mem_reverse.mp hl)
      rw [h.mem_leavings (fun _ _ hdef ↦ hdef) _ hl]
      · rfl
      · intro isExternal r hr
        exact .inr ⟨s, hs, ce, hce, hmem hleaf isExternal r hr⟩

/-- The relocations of an assembled program. -/
theorem Passes.relocs_eq (hlexed : pd.Lexed) {a : Assembled} (p : Passes undef fuel pd a) :
    a.relocs = (pd.programLeavings fuel).map Leaving.reloc := by
  have hfixup := @fixupFrom_relocs undef fuel pd p.started hlexed 0 pd.elems rfl p.st p.fixup
  have hresolve := @resolveSets_relocs undef fuel pd hlexed pd.symbols p.symbols p.relocs p.resolve
  rw [p.result, ParseData.programLeavings, List.map_append, ← hresolve]
  exact hfixup

end

/-! ## Values in the object -/

/-- No definition that is there at the element with index `k` belongs to the reference. -/
def ParseData.Gone (pd : ParseData) (k : ℕ) (r : Ref) : Prop := ∀ id, r = .bound id → pd.definitionAt k id = none

/-- The value of a reference in the element with index `k`: that of its definition if it is there, and
otherwise what the table has for its name, with `.` standing for 0 in definitions. -/
inductive ObjectValue (undef : UndefinedShifts) (pd : ParseData) (k : ℕ) : Ref → Word → Prop
  | set {id : ℕ} {s : Symbol} {ce : ConstExpr Ref} {v : Word} {w : Ref → Word}
      (hs : pd.symbols[id]? = some s) (hdef : pd.definitionAt k id = some ce)
      (hrefs : ∀ r ∈ ce.refs, ObjectValue undef pd k r (w r))
      (hv : ce.value undef (pd.address s) (fun r ↦ .ok (w r)) = .ok v) : ObjectValue undef pd k (.bound id) v
  | label {r : Ref} {s : Symbol} (hgone : pd.Gone k r) (hlookup : pd.lookup (pd.finalEnv.refName r) = some s)
      (hce : s.ce = none) : ObjectValue undef pd k r (pd.address s)
  | table {r : Ref} {s : Symbol} {ce : ConstExpr Ref} {v : Word} (hgone : pd.Gone k r)
      (hlookup : pd.lookup (pd.finalEnv.refName r) = some s) (hce : s.ce = some ce)
      (hv : ExprMeans undef pd 0#32 ce v) : ObjectValue undef pd k r v
  | undefined {r : Ref} (hgone : pd.Gone k r) (hlookup : pd.lookup (pd.finalEnv.refName r) = none) :
      ObjectValue undef pd k r 0#32

section

variable {undef : UndefinedShifts} {fuel : ℕ} {pd : ParseData} {q : Started undef fuel pd} {k : ℕ}
  {before : FixupState}

/-- A reference has one value in an element. -/
theorem ObjectValue.unique {r : Ref} {v v' : Word} (h : ObjectValue undef pd k r v)
    (h' : ObjectValue undef pd k r v') : v = v' := by
  induction h generalizing v' with
  | @set id s ce v w hs hdef hrefs hv ih =>
    cases h' with
    | @set _ s' ce' _ w' hs' hdef' hrefs' hv' =>
      obtain rfl := Option.some.inj (hs.symm.trans hs')
      obtain rfl := Option.some.inj (hdef.symm.trans hdef')
      have hsame : ce.value undef (pd.address s) (fun r ↦ .ok (w r)) =
          ce.value undef (pd.address s) fun r ↦ .ok (w' r) := by
        apply ConstExpr.value_congr
        intro r hr
        exact congrArg Except.ok (ih r hr (hrefs' r hr))
      rw [hv, hv'] at hsame
      exact Except.ok.inj hsame
    | label hgone | table hgone | undefined hgone =>
      rw [hgone id rfl] at hdef
      cases hdef
  | label hgone hlookup hce =>
    cases h' with
    | set _ hdef' =>
      rw [hgone _ rfl] at hdef'
      cases hdef'
    | label _ hlookup' => rw [Option.some.inj (hlookup.symm.trans hlookup')]
    | table _ hlookup' hce' =>
      rw [← Option.some.inj (hlookup.symm.trans hlookup'), hce] at hce'
      cases hce'
    | undefined _ hlookup' =>
      rw [hlookup] at hlookup'
      cases hlookup'
  | table hgone hlookup hce hv =>
    cases h' with
    | set _ hdef' =>
      rw [hgone _ rfl] at hdef'
      cases hdef'
    | label _ hlookup' hce' =>
      rw [← Option.some.inj (hlookup.symm.trans hlookup'), hce] at hce'
      cases hce'
    | table _ hlookup' hce' hv' =>
      rw [← Option.some.inj (hlookup.symm.trans hlookup'), hce] at hce'
      obtain rfl := Option.some.inj hce'
      exact hv.unique hv'
    | undefined _ hlookup' =>
      rw [hlookup] at hlookup'
      cases hlookup'
  | undefined hgone hlookup =>
    cases h' with
    | set _ hdef' =>
      rw [hgone _ rfl] at hdef'
      cases hdef'
    | label _ hlookup' | table _ hlookup' =>
      rw [hlookup] at hlookup'
      cases hlookup'
    | undefined => rfl

theorem Started.Reaches.gone_iff (h : q.Reaches k before) {r : Ref} :
    pd.Gone k r ↔ (pd.envWith before.symbols).boundSet r = none := by
  cases r with
  | unbound symbolname => exact ⟨fun _ ↦ rfl, fun _ id hr ↦ by cases hr⟩
  | bound id =>
    rw [boundSet_eq_none_iff, ParseData.envWith, h.definitionAt_eq]
    constructor
    · exact fun hgone ↦ hgone id rfl
    · rintro hdef _ ⟨⟩
      exact hdef

/-- Where no definition is there, the table has the value. -/
theorem Started.Reaches.objectValue_plain (hlexed : pd.Lexed) (h : q.Reaches k before) {r : Ref} {v : Word}
    (hgone : pd.Gone k r) (hv : plainValue (pd.envWith before.symbols) r = .ok v) :
    ObjectValue undef pd k r v := by
  rw [plainValue, h.reached.refName_eq, h.reached.symbolFind_eq] at hv
  cases hlookup : pd.lookup (pd.finalEnv.refName r) with
  | none =>
    cases hfind : pd.finalEnv.symbolFind (pd.finalEnv.refName r) with
    | none =>
      rw [hfind] at hv
      obtain rfl := Except.ok.inj hv
      exact .undefined hgone hlookup
    | some id =>
      rw [ParseData.lookup, hfind] at hlookup
      have hnone : before.symbols[id]? = none := by
        have hid := congrArg (fun names : List Name ↦ names[id]?) h.reached.names
        simpa [show pd.symbols[id]? = none from hlookup] using hid
      have hbind : ((some id).bind fun id ↦ (pd.envWith before.symbols).symbols[id]?) = none := hnone
      rw [hfind, hbind] at hv
      obtain rfl := Except.ok.inj hv
      refine .undefined hgone ?_
      rw [ParseData.lookup, hfind]
      exact hlookup
  | some t =>
    obtain ⟨id, hfind, ht⟩ := Option.bind_eq_some_iff.mp hlookup
    obtain ⟨s, hs, _, _, hlabel⟩ := h.reached.kept id t ht
    have hbind : ((some id).bind fun id ↦ (pd.envWith before.symbols).symbols[id]?) = some s := hs
    rw [hfind, hbind] at hv
    dsimp only at hv
    split at hv
    · obtain rfl := Except.ok.inj hv
      cases hce : t.ce with
      | none =>
        rw [hlabel hce]
        exact .label hgone hlookup hce
      | some ce =>
        obtain ⟨m, hm, hmeans, _⟩ := q.marked_set hlexed ht hce
        have hreladdr : s.reladdr = m.reladdr := by
          rcases h.freed.getElem? hm with hkeep | hfree
          · rw [Option.some.inj (hs.symm.trans hkeep)]
          · rw [Option.some.inj (hs.symm.trans hfree)]
            rfl
        rw [hreladdr]
        exact .table hgone hlookup hce hmeans
    · cases hv

/-- What the pass evaluates a reference to. -/
theorem Started.Reaches.objectValue (hlexed : pd.Lexed) (h : q.Reaches k before) {n : ℕ} {r : Ref} {v : Word}
    (hv : refValue undef (pd.envWith before.symbols)
      (symbolEvaluator undef (pd.envWith before.symbols) n) r = .ok v) :
    ObjectValue undef pd k r v := by
  induction n generalizing r v with
  | zero =>
    cases hset : (pd.envWith before.symbols).boundSet r with
    | none =>
      rw [h.reached.refValue_plain hlexed _ hset] at hv
      exact h.objectValue_plain hlexed (h.gone_iff.mpr hset) hv
    | some set =>
      unfold refValue at hv
      rw [ceEvalWith, hset] at hv
      simp only [contextAt_of_phantom (show (pd.envWith before.symbols).phantom = true from rfl)] at hv
      cases hv
  | succ n ih =>
    cases hset : (pd.envWith before.symbols).boundSet r with
    | none =>
      rw [h.reached.refValue_plain hlexed _ hset] at hv
      exact h.objectValue_plain hlexed (h.gone_iff.mpr hset) hv
    | some set =>
      cases r with
      | unbound symbolname => cases hset
      | bound id =>
        obtain ⟨s', hs', hmap⟩ := Option.bind_eq_some_iff.mp hset
        obtain ⟨ce, hce, _⟩ := Option.map_eq_some_iff.mp hmap
        obtain ⟨s, hs, _, hplace⟩ := h.reached.original hs' hce
        have hdef : pd.definitionAt k id = some ce := by
          rw [← h.definitionAt_eq]
          exact Option.bind_eq_some_iff.mpr ⟨s', hs', hce⟩
        rw [refValue_set rfl hs' hce] at hv
        have haddress : (pd.envWith before.symbols).reladdr s'.place = pd.address s := by
          rw [hplace]
          rfl
        rw [haddress] at hv
        have hrefs := ConstExpr.refs_ok hv
        choose! w hw using hrefs
        apply ObjectValue.set hs hdef (fun r hr ↦ ih (hw r hr))
        rw [← hv]
        exact ConstExpr.value_congr undef _ fun r hr ↦ (hw r hr).symm

end

end Tenyr.Asm
