import Tenyr.Link.Soundness

/-!
# Fields of linear expressions

The fields of sums and differences of constants and addresses hold the final value of their
expressions, unless additions for references to `.set` symbols disturb them.
-/

namespace Tenyr.Link

open Isa Obj Asm

variable {undef : UndefinedShifts} {fuel : ℕ}

/-- The final address that a reference to a label stands for: a label of the same object, or one that
another object exports, the latter under an even number of subtractions only. -/
inductive FinalAddress (units : List (AsmUnit undef fuel)) (n : ℕ) (u : AsmUnit undef fuel) :
    Bool → Ref → Word → Prop
  | label {negate : Bool} {r : Ref} {s : Symbol} (hplain : u.pd.finalEnv.boundSet r = none)
      (hlookup : u.pd.lookup (u.pd.finalEnv.refName r) = some s) (hce : s.ce = none) :
      FinalAddress units n u negate r (base units n + u.address s.place)
  | exported {r : Ref} {m : ℕ} {v : AsmUnit undef fuel} {id : ℕ} {s s' : Symbol}
      (hplain : u.pd.finalEnv.boundSet r = none)
      (hlookup : u.pd.lookup (u.pd.finalEnv.refName r) = none) (hv : units[m]? = some v)
      (hs : v.pd.symbols[id]? = some s) (hce : s.ce = none) (hs' : v.a.symbols[id]? = some s')
      (hglobal : s'.global = true) (hname : u.pd.finalEnv.refName r = s.name) :
      FinalAddress units n u false r (base units m + v.address s.place)

/-- An expression of constants, `.` and labels, joined by `+` and `-` and added to its instruction,
with the final addresses of the labels. -/
structure LinearField (units : List (AsmUnit undef fuel)) (n : ℕ) (u : AsmUnit undef fuel)
    (d : DeferredExpr Ref) (finals : Ref → Word) : Prop where
  mult : d.mult = 1#32
  linear : d.ce.Linear
  finals : ∀ isExternal r negate, (ConstExpr.ref isExternal r, negate) ∈ d.ce.leaves false →
    FinalAddress units n u negate r (finals r)

/-- The value that an expression has when all addresses are final. -/
def finalLinearValue (units : List (AsmUnit undef fuel)) (n : ℕ) (u : AsmUnit undef fuel) (k : ℕ)
    (d : DeferredExpr Ref) (finals : Ref → Word) : Except Stop Word :=
  d.ce.value undef (base units n + u.address k) fun r ↦ .ok (finals r)

/-- Linear fields hold the low bits of the final values, and no bit outside of a field changes. -/
def LinearRight (units : List (AsmUnit undef fuel)) (n : ℕ) (u : AsmUnit undef fuel) (k : ℕ)
    (e : Elem) (_ : ℕ) (before after : Word) : Prop :=
  after &&& ~~~fieldOf e = before &&& ~~~fieldOf e ∧
    ∀ d finals, e.fixup = some d → LinearField units n u d finals →
      ∃ v, finalLinearValue units n u k d finals = .ok v ∧
        after.setWidth d.width = v.setWidth d.width

/-- What references to `.set` symbols add to a word changes neither the bits outside of its field nor a
linear field: the additions of plain leaves alone come to the same there. -/
def Undisturbed (units : List (AsmUnit undef fuel)) (n : ℕ) (u : AsmUnit undef fuel) (e : Elem)
    (index : ℕ) (before : Word) : Prop :=
  let after := addAll (u.additions units n) index before
  let alone := addAll (u.ownAdditions units n) index before
  after &&& ~~~fieldOf e = alone &&& ~~~fieldOf e ∧
    ∀ d finals, e.fixup = some d → LinearField units n u d finals →
      after.setWidth d.width = alone.setWidth d.width

/-! ## Exported labels -/

/-- The symbols of an assembled program are still those of its source. -/
theorem AsmUnit.reached (u : AsmUnit undef fuel) : Reached u.pd u.a.symbols := by
  obtain ⟨p⟩ := u.passes
  exact p.reached_marked.freed p.freed

/-- An exported label is in the symbol table with its address. -/
theorem AsmUnit.exported_label (v : AsmUnit undef fuel) {id : ℕ} {s s' : Symbol}
    (hs : v.pd.symbols[id]? = some s) (hce : s.ce = none) (hs' : v.a.symbols[id]? = some s')
    (hglobal : s'.global = true) :
    ∃ sym ∈ v.object.symbols, sym.name = strcopy s.name ∧ sym.value = v.address s.place ∧
      sym.flags = 0#32 := by
  obtain ⟨p⟩ := v.passes
  obtain ⟨w, _, _, _, hsyms⟩ := object_eq_ok v.emits
  obtain ⟨sym, hsym, hobj⟩ := hsyms s' (List.mem_of_getElem? hs') hglobal
  obtain ⟨t, ht, _, hce', _⟩ := v.reached.kept id s hs
  obtain rfl := Option.some.inj (hs'.symm.trans ht)
  have hnone : s'.ce = none := by
    rcases hce' with hce' | hce'
    · exact hce'.trans hce
    · exact hce'
  have hname : s'.name = s.name := by
    have hid := congrArg (fun names : List Name ↦ names[id]?) v.reached.names
    simp only [List.getElem?_map, hs, hs', Option.map_some] at hid
    exact Option.some.inj hid
  have hplace := v.valid.label s (List.mem_of_getElem? hs) hce
  have hvalue : s'.reladdr = v.address s.place := by
    rw [p.label_reladdr hs hce hs', ← p.reladdrs_eq]
    exact p.reladdrs_getD hplace
  unfold objSym at hobj
  split at hobj
  · obtain rfl := Except.ok.inj hobj
    refine ⟨_, hsym, ?_, hvalue, ?_⟩
    · exact congrArg strcopy hname
    · dsimp only
      rw [hnone]
      rfl
  · cases hobj

/-- A final address is the final value of a target. -/
theorem FinalAddress.target {units : List (AsmUnit undef fuel)} {n : ℕ} {u : AsmUnit undef fuel}
    {negate : Bool} {r : Ref} {w : Word} (h : FinalAddress units n u negate r w) :
    ∃ t, RefersTo units u r t ∧ w = t.finalValue units n u ∧
      w - t.objectValue u =
        (if (u.pd.lookup (u.pd.finalEnv.refName r)).isSome then base units n else w) ∧
      (negate = true → (u.pd.lookup (u.pd.finalEnv.refName r)).isSome = true) := by
  cases h with
  | label hplain hlookup hce =>
    refine ⟨_, .label hplain hlookup hce, rfl, ?_, ?_⟩
    · rw [hlookup]
      simp [Target.objectValue]
    · intro _
      rw [hlookup]
      rfl
  | exported hplain hlookup hv hs hce hs' hglobal hname =>
    rename_i m v id s s'
    obtain ⟨sym, hsym, hsymName, hvalue, hflags⟩ := v.exported_label hs hce hs' hglobal
    have hne : u.pd.finalEnv.refName r ≠ [] := by
      rw [hname]
      exact (v.names s (List.mem_of_getElem? hs) hce).2
    refine ⟨.exported m sym, .exported hplain hlookup hv hsym hne (by rw [hsymName, hname]), ?_, ?_,
      ?_⟩
    · rw [Target.finalValue, hvalue, hflags]
      exact BitVec.add_comm _ _
    · rw [hlookup]
      simp [Target.objectValue]
    · intro hfalse
      cases hfalse

/-! ## The field of a linear expression -/

/-- A linear expression has no references to `.set` symbols. -/
theorem LinearField.isPlain {units : List (AsmUnit undef fuel)} {n : ℕ} {u : AsmUnit undef fuel}
    {d : DeferredExpr Ref} {finals : Ref → Word} (h : LinearField units n u d finals)
    {leaf : ConstExpr Ref × Bool} (hleaf : leaf ∈ d.ce.leaves false) : u.pd.isPlain leaf.1 = true := by
  obtain ⟨e, negate⟩ := leaf
  cases e with
  | ref isExternal r =>
    obtain ⟨t, ht, _⟩ := (h.finals isExternal r negate hleaf).target
    cases ht with
    | label hplain hlookup hce => simp [ParseData.isPlain, hplain]
    | exported hplain hlookup hv hsym hne hname => simp [ParseData.isPlain, hplain]
  | ici | imm | paren | op1 | op2 => rfl

/-- The additions of its leaves turn the value of a linear expression in the object into its final
value. -/
theorem LinearField.own_right {units : List (AsmUnit undef fuel)} {n : ℕ} {u : AsmUnit undef fuel}
    (hdefns : ∃ defns, defnsFrom 0 [] (units.map AsmUnit.object) = .ok defns) {k : ℕ} {e : Elem}
    {d : DeferredExpr Ref} (he : u.pd.elems[k]? = some e) (hd : e.fixup = some d)
    {finals : Ref → Word} (h : LinearField units n u d finals) {before : Word}
    (hbefore : u.data[(u.address k).toNat]? = some before) :
    ∃ v, finalLinearValue units n u k d finals = .ok v ∧
      (addAll (u.ownAdditions units n) (u.address k).toNat before).setWidth d.width =
        v.setWidth d.width := by
  obtain ⟨_, _, hle⟩ := u.valid.fixup e (List.mem_of_getElem? he) d hd
  obtain ⟨p, reached, v, hreached, hvalue, hstored⟩ := u.stored he hd
  have htarget : ∀ r ∈ d.ce.refs, ∃ isExternal negate,
      (ConstExpr.ref isExternal r, negate) ∈ d.ce.leaves false ∧
        FinalAddress units n u negate r (finals r) := by
    intro r hr
    obtain ⟨isExternal, negate, hleaf⟩ := (ConstExpr.mem_refs_iff false).mp hr
    exact ⟨isExternal, negate, hleaf, h.finals isExternal r negate hleaf⟩
  -- what references are in the object: an address, or zero
  let objects : Ref → Word := fun r ↦
    finals r - if (u.pd.lookup (u.pd.finalEnv.refName r)).isSome then base units n else finals r
  have hobjects : ∀ r ∈ d.ce.refs,
      refValue undef (u.pd.envWith reached.symbols)
        (symbolEvaluator undef (u.pd.envWith reached.symbols) fuel) r = .ok (objects r) := by
    intro r hr
    obtain ⟨_, negate, _, haddress⟩ := htarget r hr
    obtain ⟨t, ht, _, hdiff, _⟩ := haddress.target
    rw [ht.refValue_eq hreached.reached]
    congr 1
    change _ = finals r - _
    rw [← hdiff]
    ring
  rw [ConstExpr.value_congr undef _ hobjects] at hvalue
  obtain ⟨w, hfinal, hsum⟩ := @ConstExpr.Linear.value_add _ undef _ h.linear _
    (base units n + u.address k) _ finals _ false hvalue
  refine ⟨v + w, hfinal, ?_⟩
  have hfinals : ∀ r ∈ d.ce.refs, u.pd.finalEnv.boundSet r = none →
      u.pd.lookup (u.pd.finalEnv.refName r) = none →
        ∃ t, RefersTo units u r t ∧ finals r = t.finalValue units n u := by
    intro r hr _ _
    obtain ⟨_, negate, _, haddress⟩ := htarget r hr
    obtain ⟨t, ht, hw, _⟩ := haddress.target
    exact ⟨t, ht, hw⟩
  rw [AsmUnit.addAll_own n hdefns he hd hfinals, relocateWord_eq_merge, merge_low hle,
    setWidth_add hle, setWidth_add hle]
  have hword : before = merge d.width e.word (v * d.mult) :=
    Option.some.inj (hbefore.symm.trans hstored)
  rw [hword, merge_low hle, h.mult, BitVec.mul_one]
  congr 1
  have hshift : (((d.ce.leaves false).filter fun leaf ↦ u.pd.isPlain leaf.1).map
      (leafDisplacement (base units n) u finals)).sum = w := by
    have hall : (d.ce.leaves false).filter (fun leaf ↦ u.pd.isPlain leaf.1) =
        d.ce.leaves false := List.filter_eq_self.mpr fun leaf hleaf ↦ h.isPlain hleaf
    rw [hall]
    refine Eq.trans ?_ (hsum.trans (by simp))
    congr 1
    apply List.map_congr_left
    rintro ⟨leaf, negate⟩ hleaf
    have hhere : base units n + u.address k - u.address k = base units n := by ring
    cases leaf with
    | ref isExternal r =>
      obtain ⟨_, _, _, _, hsign⟩ := (h.finals isExternal r negate hleaf).target
      have hobject : finals r - objects r =
          if (u.pd.lookup (u.pd.finalEnv.refName r)).isSome then base units n else finals r := by
        change finals r - (finals r - _) = _
        ring
      simp only [leafDisplacement, ConstExpr.leafShift, hobject]
      cases hfound : (u.pd.lookup (u.pd.finalEnv.refName r)).isSome with
      | true => rfl
      | false =>
        cases negate with
        | false => rfl
        | true =>
          rw [hsign rfl] at hfound
          cases hfound
    | ici | imm | paren | op1 | op2 =>
      simp only [leafDisplacement, ConstExpr.leafShift, hhere]
      rfl
  rw [hshift]

/-- A word is right exactly if references to `.set` symbols do not disturb it. -/
theorem linearRight_iff_undisturbed {units : List (AsmUnit undef fuel)} {n : ℕ} {u : AsmUnit undef fuel}
    (hdefns : ∃ defns, defnsFrom 0 [] (units.map AsmUnit.object) = .ok defns) {k : ℕ} {e : Elem}
    (he : u.pd.elems[k]? = some e) {j : ℕ} (hj : j < emittedSize e.size) {before : Word}
    (hbefore : u.data[(u.address k).toNat + j]? = some before) :
    LinearRight units n u k e ((u.address k).toNat + j) before
        (addAll (u.additions units n) ((u.address k).toNat + j) before) ↔
      Undisturbed units n u e ((u.address k).toNat + j) before := by
  rw [LinearRight, Undisturbed, u.addAll_own_outside units n he hj]
  apply and_congr_right
  intro _
  refine forall_congr' fun d ↦ forall_congr' fun finals ↦ imp_congr_right fun hd ↦
    imp_congr_right fun hfield ↦ ?_
  -- a word with an expression is the only one of its element
  obtain ⟨hsize, _⟩ := u.valid.fixup e (List.mem_of_getElem? he) d hd
  have hone : emittedSize e.size = 1 := by
    rw [hsize]
    rfl
  obtain rfl : j = 0 := by omega
  rw [Nat.add_zero] at hbefore ⊢
  obtain ⟨v, hv, hown⟩ := hfield.own_right hdefns he hd hbefore
  constructor
  · rintro ⟨v', hv', hafter⟩
    obtain rfl := Except.ok.inj (hv.symm.trans hv')
    rw [hafter, hown]
  · intro hafter
    exact ⟨v, hv, hafter.trans hown⟩

theorem exists_defns {units : List (AsmUnit undef fuel)}
    (hlink : link undef (units.map AsmUnit.object) ≠ .error .fatal) :
    ∃ defns, defnsFrom 0 [] (units.map AsmUnit.object) = .ok defns := by
  cases hdefns : defnsFrom 0 [] (units.map AsmUnit.object) with
  | ok defns => exact ⟨defns, rfl⟩
  | error stop =>
    exfalso
    apply hlink
    rw [link, hdefns, defnsFrom_eq_error hdefns]
    rfl

/-- Where all additions to a word are as wide as its linear field, those that `.set` symbols are the cause
of have to cancel. -/
theorem undisturbed_iff_cancels {units : List (AsmUnit undef fuel)} {n : ℕ} {u : AsmUnit undef fuel} {k : ℕ}
    {e : Elem} {d : DeferredExpr Ref} (he : u.pd.elems[k]? = some e) (hd : e.fixup = some d)
    {finals : Ref → Word} (hfield : LinearField units n u d finals)
    (hwidth : ∀ a ∈ u.additions units n, a.index = (u.address k).toNat → a.width = d.width) (before : Word) :
    Undisturbed units n u e (u.address k).toNat before ↔
      (amountAt ((u.additions units n).filter Addition.bySet) (u.address k).toNat).setWidth d.width = 0 := by
  obtain ⟨_, _, hle⟩ := u.valid.fixup e (List.mem_of_getElem? he) d hd
  have hwidth' : ∀ a ∈ u.ownAdditions units n, a.index = (u.address k).toNat → a.width = d.width :=
    fun a ha ↦ hwidth a (List.mem_of_mem_filter ha)
  have hafter := addAll_low hle hwidth before
  have halone := addAll_low hle hwidth' before
  rw [amountAt_filter Addition.bySet, setWidth_add hle] at hafter
  constructor
  · rintro ⟨_, hsame⟩
    rw [hsame d finals hd hfield, halone, AsmUnit.ownAdditions, add_right_inj, right_eq_add] at hafter
    exact hafter
  · intro hzero
    refine ⟨?_, ?_⟩
    · rw [fieldOf, hd]
      exact (addAll_high hwidth before).trans (addAll_high hwidth' before).symm
    · intro d' finals' hd' _
      obtain rfl := Option.some.inj (hd.symm.trans hd')
      rw [hafter, hzero, zero_add, halone, AsmUnit.ownAdditions]

/-! ## Constants -/

section

variable {units : List (AsmUnit undef fuel)} {n : ℕ} {u : AsmUnit undef fuel}

/-- Where `.set` symbols are constants, an addition is to the field of the expression it is for. -/
theorem AsmUnit.addition_of_constant (h : u.pd.ConstantSets) {a : Addition} (ha : a ∈ u.additions units n) :
    ∃ (k : ℕ) (e : Elem) (d : DeferredExpr Ref) (leaf : ConstExpr Ref × Bool), u.pd.elems[k]? = some e ∧
      e.fixup = some d ∧ leaf ∈ d.ce.leaves false ∧ a.index = (u.address k).toNat ∧ a.width = d.width ∧
        a.bySet = !u.pd.isPlain leaf.1 := by
  obtain ⟨l, hl, hinsn⟩ := List.mem_filterMap.mp ha
  obtain ⟨k', hk', rfl⟩ := Option.map_eq_some_iff.mp hinsn
  rcases h.mem_programLeavings hl with hnone | ⟨k, e, d, leaf, he, hd, hleaf, rfl⟩
  · rw [hnone] at hk'
    cases hk'
  · obtain rfl := Option.some.inj hk'
    exact ⟨k, e, d, leaf, he, hd, hleaf, rfl, rfl, rfl⟩

theorem allInside_of_constant (h : ∀ u ∈ units, u.pd.ConstantSets) : AllInside units := by
  intro n u hu a ha
  obtain ⟨k, e, d, _, he, hd, _, hindex, _⟩ := AsmUnit.addition_of_constant (h u (List.mem_of_getElem? hu)) ha
  rw [hindex, ← Nat.add_zero (u.address k).toNat]
  apply u.index_lt he
  rw [(u.valid.fixup e (List.mem_of_getElem? he) d hd).1]
  decide

/-- Only its own expression is the cause of additions to a word. -/
theorem AsmUnit.addition_at (h : u.pd.ConstantSets) {k : ℕ} {e : Elem} (he : u.pd.elems[k]? = some e)
    {j : ℕ} (hj : j < emittedSize e.size) {a : Addition} (ha : a ∈ u.additions units n)
    (hindex : a.index = (u.address k).toNat + j) :
    ∃ d leaf, e.fixup = some d ∧ leaf ∈ d.ce.leaves false ∧ a.width = d.width ∧
      a.bySet = !u.pd.isPlain leaf.1 := by
  obtain ⟨k', e', d, leaf, he', hd, hleaf, hindex', hwidth, hbySet⟩ := AsmUnit.addition_of_constant h ha
  have hone : 0 < emittedSize e'.size := by
    rw [(u.valid.fixup e' (List.mem_of_getElem? he') d hd).1]
    decide
  obtain rfl : k' = k := u.index_unique he' he hone hj (hindex'.symm.trans hindex)
  obtain rfl := Option.some.inj (he.symm.trans he')
  exact ⟨d, leaf, hd, hleaf, hwidth, hbySet⟩

theorem undisturbed_of_constant (h : u.pd.ConstantSets) {k : ℕ} {e : Elem} (he : u.pd.elems[k]? = some e)
    {j : ℕ} (hj : j < emittedSize e.size) (before : Word) :
    Undisturbed units n u e ((u.address k).toNat + j) before := by
  refine ⟨?_, fun d finals hd hfield ↦ ?_⟩
  · rw [u.addAll_own_outside units n he hj, fieldOf]
    cases hd : e.fixup with
    | none =>
      rw [addAll_of_index_ne]
      intro a ha hindex
      obtain ⟨d, _, hd', _⟩ := AsmUnit.addition_at h he hj ha hindex
      rw [hd] at hd'
      cases hd'
    | some d =>
      apply addAll_high
      intro a ha hindex
      obtain ⟨d', _, hd', _, hwidth, _⟩ := AsmUnit.addition_at h he hj ha hindex
      obtain rfl := Option.some.inj (hd.symm.trans hd')
      exact hwidth
  · rw [AsmUnit.ownAdditions, addAll_filter]
    intro a ha hindex
    obtain ⟨d', leaf, hd', hleaf, _, hbySet⟩ := AsmUnit.addition_at h he hj ha hindex
    obtain rfl := Option.some.inj (hd.symm.trans hd')
    rw [hbySet, hfield.isPlain hleaf]
    rfl

/-- Where every `.set` symbol that is referred to is a constant, linked images are right in every linear
field and unchanged outside of fields. -/
theorem linearRight_of_constant (hlink : link undef (units.map AsmUnit.object) ≠ .error .fatal)
    (h : ∀ u ∈ units, u.pd.ConstantSets) :
    ∃ image, link undef (units.map AsmUnit.object) = .ok image ∧
      ImageAgrees units (LinearRight units) image := by
  apply (link_agrees_iff units _ hlink).mpr
  refine ⟨allInside_of_constant h, ?_⟩
  intro n u hu k e he j hj before hbefore
  apply (linearRight_iff_undisturbed (exists_defns hlink) he hj hbefore).mpr
  exact undisturbed_of_constant (h u (List.mem_of_getElem? hu)) he hj before

end

/-! ## Two objects -/

end Tenyr.Link
