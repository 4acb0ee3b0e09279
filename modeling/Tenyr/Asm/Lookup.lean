import Tenyr.Asm.Fixup

/-!
# Looking symbols up

The latest symbol of a name, and what looking it up gives at any point of the pass over the expressions.
-/

namespace Tenyr.Asm

open Isa Obj

/-- The latest symbol of a name. -/
def ParseData.lookup (pd : ParseData) (name : Name) : Option Symbol :=
  (pd.finalEnv.symbolFind name).bind fun id ↦ pd.symbols[id]?

/-- A leaf that is not a reference to a `.set` symbol. -/
def ParseData.isPlain (pd : ParseData) : ConstExpr Ref → Bool
  | .ref _ r => (pd.finalEnv.boundSet r).isNone
  | .ici | .imm _ _ | .paren _ | .op1 _ _ | .op2 _ _ _ => true

/-- The relocation that a leaf leaves in its context if it leads to no definition. -/
def ParseData.plainReloc (pd : ParseData) (context : Option ℕ) (width : ℕ)
    (leaf : ConstExpr Ref × Bool) : RelocNode where
  name :=
    match leaf.1 with
    | .ref _ r =>
        if (pd.lookup (pd.finalEnv.refName r)).isSome then []
        else strcopy (pd.finalEnv.refName r)
    | .ici | .imm _ _ | .paren _ | .op1 _ _ | .op2 _ _ _ => []
  insn := context
  width := width
  negate := leaf.2

theorem names_labels (pd : ParseData) :
    pd.labels.map Symbol.name = pd.symbols.map Symbol.name := by
  rw [ParseData.labels, List.map_map]
  congr 1
  funext s
  simp only [Function.comp_apply, resolveLabel]
  split <;> rfl

theorem labels_getElem? (pd : ParseData) (id : ℕ) :
    pd.labels[id]? = pd.symbols[id]?.map (resolveLabel (addrsFrom 0#32 pd.elems)) := by
  rw [ParseData.labels, List.getElem?_map]

@[simp]
theorem resolveLabel_ce (reladdrs : List Word) (s : Symbol) :
    (resolveLabel reladdrs s).ce = s.ce := by
  unfold resolveLabel
  split <;> rfl

@[simp]
theorem resolveLabel_name (reladdrs : List Word) (s : Symbol) :
    (resolveLabel reladdrs s).name = s.name := by
  unfold resolveLabel
  split <;> rfl

/-- A reference that is not bound to a `.set` symbol never will be. -/
theorem Reached.boundSet_eq_none {pd : ParseData} {symbols : List Symbol} (h : Reached pd symbols)
    {r : Ref} (hr : pd.finalEnv.boundSet r = none) : (pd.envWith symbols).boundSet r = none := by
  cases r with
  | unbound symbolname => rfl
  | bound id =>
    simp only [Env.boundSet, ParseData.finalEnv, labels_getElem?, ParseData.envWith] at hr ⊢
    cases hs : pd.symbols[id]? with
    | none =>
      have hnone : symbols[id]? = none := by
        have hid := congrArg (fun names : List Name ↦ names[id]?) h.names
        simp only [List.getElem?_map, hs, Option.map_none, Option.map_eq_none_iff] at hid
        exact hid
      rw [hnone]
      rfl
    | some s =>
      rw [hs] at hr
      obtain ⟨s', hs', _, hce, _⟩ := h.kept id s hs
      have hnone : s.ce = none := by simpa using hr
      have hnone' : s'.ce = none := by
        rcases hce with hce | hce
        · exact hce.trans hnone
        · exact hce
      rw [hs', Option.bind_some, hnone']
      rfl

theorem Reached.refName_eq {pd : ParseData} {symbols : List Symbol} (h : Reached pd symbols)
    (r : Ref) : (pd.envWith symbols).refName r = pd.finalEnv.refName r := by
  cases r with
  | unbound symbolname => rfl
  | bound id =>
    have hid := congrArg (fun names : List Name ↦ names[id]?) (h.names.trans (names_labels pd).symm)
    simp only [List.getElem?_map] at hid
    simp only [Env.refName, ParseData.envWith, ParseData.finalEnv]
    rw [hid]

theorem Reached.symbolFind_eq {pd : ParseData} {symbols : List Symbol} (h : Reached pd symbols)
    (name : Name) : (pd.envWith symbols).symbolFind name = pd.finalEnv.symbolFind name :=
  symbolFind_congr (h.names.trans (names_labels pd).symm) name

/-- Looking up a name whose latest symbol is a label. -/
theorem Reached.symbolLookup_label {pd : ParseData} {symbols : List Symbol} (h : Reached pd symbols)
    (sub : Evaluator) {name : Name} {s : Symbol} (hs : pd.lookup name = some s)
    (hce : s.ce = none) :
    symbolLookup (pd.envWith symbols) sub name =
      .ok (some ((addrsFrom 0#32 pd.elems).getD s.place 0#32)) := by
  obtain ⟨id, hid, hget⟩ := Option.bind_eq_some_iff.mp hs
  obtain ⟨s', hs', _, hce', hlabel⟩ := h.kept id s hget
  have hnone : s'.ce = none := by
    rcases hce' with hce' | hce'
    · exact hce'.trans hce
    · exact hce'
  rw [symbolLookup, h.symbolFind_eq, hid]
  simp only [Option.bind_some, ParseData.envWith, hs', hnone, hlabel hce]

/-- Looking up a name that no symbol has. -/
theorem Reached.symbolLookup_none {pd : ParseData} {symbols : List Symbol} (h : Reached pd symbols)
    (sub : Evaluator) {name : Name} (hs : pd.lookup name = none) :
    symbolLookup (pd.envWith symbols) sub name = .ok none := by
  have hfind : pd.finalEnv.symbolFind name = none := by
    cases hid : pd.finalEnv.symbolFind name with
    | none => rfl
    | some id =>
      rw [ParseData.lookup, hid] at hs
      have hlt : id < pd.labels.length := by
        have hmem := List.mem_of_find?_eq_some hid
        rw [List.mem_reverse, List.mem_range] at hmem
        exact hmem
      rw [ParseData.labels, List.length_map] at hlt
      simp [List.getElem?_eq_getElem hlt] at hs
  rw [symbolLookup, h.symbolFind_eq, hfind]
  rfl

end Tenyr.Asm
