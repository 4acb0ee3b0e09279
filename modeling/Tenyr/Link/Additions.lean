import Mathlib.Algebra.BigOperators.Group.List.Basic
import Tenyr.Link.Targets

/-!
# What linking adds

The relocations of a program, as additions to the words of its object: the displacement of the object or
the final value of an exported symbol, each added to the low bits of the word modulo its width.
-/

namespace Tenyr.Link

open Isa Obj Asm

variable {undef : UndefinedShifts} {fuel : ℕ}

/-- An addition to a word of a record, and whether a reference to a `.set` symbol is the cause. -/
structure Addition where
  index : ℕ
  width : ℕ
  amount : Word
  bySet : Bool

/-- A word after the additions to it in order, each modulo the width of its field. -/
def addAll (additions : List Addition) (index : ℕ) (word : Word) : Word :=
  additions.foldl
    (fun word a ↦ if a.index = index then merge a.width word (word + a.amount) else word) word

/-- The final value of the symbol that is exported under a name. -/
def exportedValue (units : List (AsmUnit undef fuel)) (name : Name) : Word :=
  (units.zipIdx.findSome? fun (v, m) ↦
    (v.object.symbols.find? fun sym ↦ strcopy sym.name == strcopy name).map fun sym ↦
      (Target.exported m sym).finalValue units m v).getD 0#32

/-- What is added for a relocation of the object at position `n`. The sign of a named one is ignored. -/
def addedFor (units : List (AsmUnit undef fuel)) (n : ℕ) (reloc : RelocNode) : Word :=
  if reloc.name.isEmpty then signed reloc.negate (base units n) else exportedValue units reloc.name

namespace AsmUnit

variable (units : List (AsmUnit undef fuel)) (n : ℕ) (u : AsmUnit undef fuel)

/-- The addition for a relocation that has an element. -/
def addition (l : Leaving) : Option Addition :=
  l.reloc.insn.map fun k ↦
    { index := (u.address k).toNat
      width := l.reloc.width
      amount := addedFor units n l.reloc
      bySet := l.bySet }

/-- All additions to the words of an object. -/
noncomputable def additions : List Addition :=
  (u.pd.programLeavings fuel).filterMap (addition units n u)

end AsmUnit

/-- No addition is behind the words of its object. -/
def AllInside (units : List (AsmUnit undef fuel)) : Prop :=
  ∀ (n : ℕ) u, units[n]? = some u → ∀ a ∈ u.additions units n, a.index < u.data.length

/-! ## Additions to a word -/

section

variable {as bs : List Addition} {index : ℕ}

theorem addAll_nil (index : ℕ) (word : Word) : addAll [] index word = word := rfl

theorem addAll_cons (a : Addition) (as : List Addition) (index : ℕ) (word : Word) :
    addAll (a :: as) index word =
      addAll as index (if a.index = index then merge a.width word (word + a.amount) else word) := rfl

theorem addAll_append (as bs : List Addition) (index : ℕ) (word : Word) :
    addAll (as ++ bs) index word = addAll bs index (addAll as index word) :=
  List.foldl_append

/-- Additions to other words leave a word alone. -/
theorem addAll_of_index_ne (h : ∀ a ∈ as, a.index ≠ index) (word : Word) :
    addAll as index word = word := by
  induction as with
  | nil => rfl
  | cons a as ih =>
    rw [addAll_cons, if_neg (h a List.mem_cons_self)]
    exact ih fun b hb ↦ h b (List.mem_cons_of_mem _ hb)

/-- Additions of one width to a word add their sum. -/
theorem addAll_same_width {width : ℕ} (hle : width ≤ 32)
    (h : ∀ a ∈ as, a.index = index ∧ a.width = width) (word : Word) :
    addAll as index word = relocateWord (fieldMask width) (as.map Addition.amount).sum word := by
  induction as generalizing word with
  | nil => exact (relocateWord_zero width word).symm
  | cons a as ih =>
    obtain ⟨hindex, hwidth⟩ := h a List.mem_cons_self
    rw [addAll_cons, if_pos hindex, ih fun b hb ↦ h b (List.mem_cons_of_mem _ hb), hwidth,
      ← relocateWord_eq_merge, relocateWord_relocateWord hle, List.map_cons, List.sum_cons]

theorem addAll_filter {p : Addition → Bool} (h : ∀ a ∈ as, a.index = index → p a = true) (word : Word) :
    addAll (as.filter p) index word = addAll as index word := by
  induction as generalizing word with
  | nil => rfl
  | cons a as ih =>
    have hrest := fun word ↦ ih (fun b hb ↦ h b (List.mem_cons_of_mem _ hb)) word
    rw [List.filter_cons]
    split
    · rw [addAll_cons, addAll_cons, hrest]
    · rename_i hp
      rw [addAll_cons, if_neg fun hindex ↦ hp (h a List.mem_cons_self hindex), hrest]

/-- What is added to the words with an index. -/
def amountAt (additions : List Addition) (index : ℕ) : Word :=
  ((additions.filter fun a ↦ a.index = index).map Addition.amount).sum

/-- Additions of the width of a field add their sum to it. -/
theorem addAll_low {width : ℕ} (hle : width ≤ 32) (h : ∀ a ∈ as, a.index = index → a.width = width)
    (word : Word) :
    (addAll as index word).setWidth width = word.setWidth width + (amountAt as index).setWidth width := by
  have hthere : ∀ a ∈ as.filter fun a ↦ a.index = index, a.index = index ∧ a.width = width := by
    intro a ha
    obtain ⟨hmem, hindex⟩ := List.mem_filter.mp ha
    exact ⟨of_decide_eq_true hindex, h a hmem (of_decide_eq_true hindex)⟩
  rw [← addAll_filter (fun a _ hindex ↦ decide_eq_true hindex), addAll_same_width hle hthere,
    relocateWord_eq_merge, merge_low hle, setWidth_add hle, amountAt]

theorem amountAt_filter (p : Addition → Bool) (as : List Addition) (index : ℕ) :
    amountAt as index = amountAt (as.filter p) index + amountAt (as.filter fun a ↦ !p a) index := by
  have hparts := List.filter_append_perm p as
  have hsum := ((hparts.filter fun a ↦ a.index = index).map Addition.amount).sum_eq
  rw [List.filter_append, List.map_append, List.sum_append] at hsum
  exact hsum.symm

/-- Additions to a field leave the other bits alone. -/
theorem addAll_high {width : ℕ} (h : ∀ a ∈ as, a.index = index → a.width = width) (word : Word) :
    addAll as index word &&& ~~~fieldMask width = word &&& ~~~fieldMask width := by
  induction as generalizing word with
  | nil => rfl
  | cons a as ih =>
    rw [addAll_cons, ih fun b hb ↦ h b (List.mem_cons_of_mem _ hb)]
    split
    · rename_i hindex
      rw [h a List.mem_cons_self hindex, merge_high]
    · rfl

end

/-! ## The relocations of an object -/

section

variable {units : List (AsmUnit undef fuel)}

/-- A name leads the linker to the symbol that some object exports under it. -/
theorem exportedValue_eq {defns : List Defn} (hdefns : defnsFrom 0 [] (units.map AsmUnit.object) = .ok defns)
    (name : Name) :
    exportedValue units name = ((defns.find? fun d ↦ d.name == strcopy name).map fun d ↦
      d.reladdr + if d.flags &&& rlcAbsolute = 0#32 then
        (offsetsFrom 0#32 (units.map AsmUnit.object)).getD d.obj 0#32 else 0#32).getD 0#32 := by
  -- every exported symbol of the name is the one that is found
  have hfound : ∀ (m : ℕ) v sym, units[m]? = some v → sym ∈ v.object.symbols →
      strcopy sym.name = strcopy name → (defns.find? fun d ↦ d.name == strcopy name) =
        some { name := strcopy sym.name, obj := m, reladdr := sym.value, flags := sym.flags } := by
    intro m v sym hv hsym hname
    rw [← hname]
    apply find?_defn hdefns _ _ hsym
    · rw [List.getElem?_map, hv]
      rfl
    · rw [v.singleRecord.records]
      exact List.cons_ne_nil _ _
  unfold exportedValue
  cases hsome : units.zipIdx.findSome? fun (v, m) ↦
      (v.object.symbols.find? fun sym ↦ strcopy sym.name == strcopy name).map fun sym ↦
        (Target.exported m sym).finalValue units m v with
  | some value =>
    obtain ⟨⟨v, m⟩, hmem, hvalue⟩ := List.exists_of_findSome?_eq_some hsome
    obtain ⟨sym, hsym, rfl⟩ := Option.map_eq_some_iff.mp hvalue
    have hv : units[m]? = some v := List.mem_zipIdx_iff_getElem?.mp hmem
    have hname := @List.find?_some _ (fun sym : ObjSym ↦ strcopy sym.name == strcopy name) _ _ hsym
    rw [hfound m v sym hv (List.mem_of_find?_eq_some hsym) (eq_of_beq hname)]
    simp only [Option.map_some, Option.getD_some, Target.finalValue]
    rw [List.getD_eq_getElem?_getD, offsetsFrom_eq_base hv]
    rfl
  | none =>
    cases hfind : defns.find? fun d ↦ d.name == strcopy name with
    | none => rfl
    | some d =>
      have hname := @List.find?_some _ (fun d : Defn ↦ d.name == strcopy name) _ _ hfind
      rcases mem_of_defnsFrom hdefns (List.mem_of_find?_eq_some hfind) with hnil | ⟨m, o, sym, ho, hsym, rfl⟩
      · cases hnil
      · rw [List.getElem?_map] at ho
        obtain ⟨v, hv, rfl⟩ := Option.map_eq_some_iff.mp ho
        have hnone := List.findSome?_eq_none_iff.mp hsome (v, m) (List.mem_zipIdx_iff_getElem?.mpr hv)
        have hdiffers := List.find?_eq_none.mp (Option.map_eq_none_iff.mp hnone) sym hsym
        exact absurd hname hdiffers

/-- What the linker adds for a relocation. -/
theorem linkAddend_objReloc {defns : List Defn}
    (hdefns : defnsFrom 0 [] (units.map AsmUnit.object) = .ok defns) (n : ℕ) (reloc : RelocNode)
    (reladdr : Word) :
    linkAddend (units.map AsmUnit.object) (base units n) (objReloc reloc reladdr) =
      addedFor units n reloc := by
  rw [linkAddend, hdefns, addedFor]
  dsimp only
  by_cases hname : reloc.name = []
  · rw [addend_null _ _ _ hname, hname]
    rfl
  · have hne : (objReloc reloc reladdr).name.isEmpty = false := by
      simpa [objReloc] using strcopy_ne_nil hname
    have hne' : reloc.name.isEmpty = false := by simpa using hname
    rw [addend, displacement, hne, hne', exportedValue_eq hdefns]
    simp only [objReloc, strcopy_strcopy, Bool.false_eq_true, if_false]
    cases defns.find? fun d ↦ d.name == strcopy reloc.name <;> rfl

variable {u : AsmUnit undef fuel}

theorem AsmUnit.object_relocs (u : AsmUnit undef fuel) :
    u.object.relocs = objRelocs u.a.reladdrs ((u.pd.programLeavings fuel).map Leaving.reloc) := by
  obtain ⟨p⟩ := u.passes
  obtain ⟨-, -, -, hrelocs, -⟩ := object_eq_ok u.emits
  rw [hrelocs, p.relocs_eq u.lexedNames]

theorem AsmUnit.reladdrs_getD {k : ℕ} (hk : k < u.pd.elems.length) :
    u.a.reladdrs.getD k 0#32 = u.address k := by
  obtain ⟨p⟩ := u.passes
  exact p.reladdrs_getD hk

/-- The relocations of an object make of its words what the additions do. -/
theorem relocatedWord_eq {defns : List Defn}
    (hdefns : defnsFrom 0 [] (units.map AsmUnit.object) = .ok defns) (n index : ℕ) (word : Word) :
    applyAt undef (linkAddend (units.map AsmUnit.object) (base units n)) u.object.relocs index word =
      addAll (u.additions units n) index word := by
  have hleavings : ∀ l ∈ u.pd.programLeavings fuel,
      0 < l.reloc.width ∧ l.reloc.width ≤ 32 ∧ ∀ k, l.reloc.insn = some k → k < u.pd.elems.length :=
    fun l hl ↦ mem_programLeavings u.valid hl
  rw [u.object_relocs, AsmUnit.additions]
  generalize u.pd.programLeavings fuel = leavings at hleavings
  induction leavings generalizing word with
  | nil => rfl
  | cons l rest ih =>
    obtain ⟨hpos, hle, hinsn⟩ := hleavings l List.mem_cons_self
    have hrest := fun word ↦ ih word fun l' hl' ↦ hleavings l' (List.mem_cons_of_mem _ hl')
    rw [List.map_cons, objRelocs, List.filterMap_cons, List.filterMap_cons, AsmUnit.addition]
    cases hk : l.reloc.insn with
    | none => exact hrest word
    | some k =>
      rw [Option.map_some, Option.map_some]
      dsimp only
      rw [applyAt_cons, addAll_cons, relocateAt, linkAddend_objReloc hdefns, u.reladdrs_getD (hinsn k hk)]
      have hmask : relocMask undef (objReloc l.reloc (u.address k)).width = fieldMask l.reloc.width :=
        relocMask_eq undef hpos hle
      rw [hmask, relocateWord_eq_merge]
      exact hrest _

theorem AsmUnit.address_le (u : AsmUnit undef fuel) (k : ℕ) : (u.address k).toNat ≤ u.data.length := by
  rw [u.length_data, u.address_toNat, ParseData.sizes, List.map_take]
  exact emitted_take_le _ k

/-- The relocations of an object are where its additions are. -/
theorem AsmUnit.relocs_at_iff (u : AsmUnit undef fuel) (units : List (AsmUnit undef fuel)) (n index : ℕ) :
    (∃ rlc ∈ u.object.relocs, rlc.addr.toNat = index) ↔ ∃ a ∈ u.additions units n, a.index = index := by
  have hrange : ∀ l ∈ u.pd.programLeavings fuel, ∀ k, l.reloc.insn = some k → k < u.pd.elems.length :=
    fun l hl ↦ (mem_programLeavings u.valid hl).2.2
  rw [u.object_relocs]
  constructor
  · rintro ⟨rlc, hrlc, hindex⟩
    obtain ⟨reloc, hreloc, hinsn⟩ := List.mem_filterMap.mp hrlc
    obtain ⟨l, hl, rfl⟩ := List.mem_map.mp hreloc
    obtain ⟨k, hk, rfl⟩ := Option.map_eq_some_iff.mp hinsn
    refine ⟨_, List.mem_filterMap.mpr ⟨l, hl, by rw [AsmUnit.addition, hk]; rfl⟩, ?_⟩
    rw [← hindex, u.reladdrs_getD (hrange l hl k hk)]
    rfl
  · rintro ⟨a, ha, hindex⟩
    obtain ⟨l, hl, hinsn⟩ := List.mem_filterMap.mp ha
    obtain ⟨k, hk, rfl⟩ := Option.map_eq_some_iff.mp hinsn
    refine ⟨_, List.mem_filterMap.mpr ⟨l.reloc, List.mem_map_of_mem hl, by rw [hk]; rfl⟩, ?_⟩
    dsimp only
    rw [u.reladdrs_getD (hrange l hl k hk)]
    exact hindex

theorem AsmUnit.index_le {units : List (AsmUnit undef fuel)} {n : ℕ} {u : AsmUnit undef fuel} {a : Addition}
    (ha : a ∈ u.additions units n) : a.index ≤ u.data.length := by
  obtain ⟨l, -, hinsn⟩ := List.mem_filterMap.mp ha
  obtain ⟨k, -, rfl⟩ := Option.map_eq_some_iff.mp hinsn
  exact u.address_le k

/-- Relocations run over the end of a record if not all additions are to words of their objects. -/
theorem not_runsOver_iff : ¬ RunsOver (units.map AsmUnit.object) ↔ AllInside units := by
  constructor
  · intro hover n u hu a ha
    by_contra hnot
    have hend : a.index = u.data.length := Nat.le_antisymm (AsmUnit.index_le ha) (Nat.le_of_not_lt hnot)
    have hrlc := (u.relocs_at_iff units n u.data.length).mpr ⟨a, ha, hend⟩
    exact hover ⟨u.object, List.mem_map_of_mem (List.mem_of_getElem? hu), u.data, u.singleRecord, hrlc⟩
  · rintro hinside ⟨o, ho, data, hsingle, hrlc⟩
    obtain ⟨u, hu, rfl⟩ := List.mem_map.mp ho
    obtain ⟨n, hn⟩ := List.getElem?_of_mem hu
    have hdata : data = u.data := by
      have hrecords := hsingle.records.symm.trans u.singleRecord.records
      simpa using hrecords
    obtain ⟨a, ha, hend⟩ := (u.relocs_at_iff units n data.length).mp hrlc
    have hlt := hinside n u hn a ha
    rw [hend, hdata] at hlt
    exact lt_irrefl _ hlt

end

/-! ## The additions of plain leaves -/

section

variable (units : List (AsmUnit undef fuel)) (n : ℕ) (u : AsmUnit undef fuel)

/-- The additions that no `.set` symbol is the cause of. -/
noncomputable def AsmUnit.ownAdditions : List Addition := (u.additions units n).filter fun a ↦ !a.bySet

/-- Those for the expression of an element. -/
noncomputable def AsmUnit.elemAdditions (elem : Elem × ℕ) : List Addition :=
  ((u.pd.elemLeavings fuel elem).filter fun l ↦ !l.bySet).filterMap (u.addition units n)

theorem AsmUnit.ownAdditions_eq :
    u.ownAdditions units n = u.pd.elems.zipIdx.flatMap (u.elemAdditions units n) := by
  have hcause : ∀ l : Leaving, (u.addition units n l).filter (fun a ↦ !a.bySet) =
      if !l.bySet then u.addition units n l else none := by
    intro l
    rw [AsmUnit.addition]
    cases l.reloc.insn with
    | none => simp
    | some k => cases l.bySet <;> simp
  have htable : (u.pd.symbols.flatMap (u.pd.symbolLeavings fuel)).filter (fun l ↦ !l.bySet) = [] := by
    apply List.filter_eq_nil_iff.mpr
    intro l hl
    obtain ⟨s, -, hl⟩ := List.mem_flatMap.mp hl
    unfold ParseData.symbolLeavings at hl
    split at hl
    · cases hl
    · simp [(mem_exprLeavings hl).2.1 rfl]
  calc
    u.ownAdditions units n = ((u.pd.programLeavings fuel).filter fun l ↦ !l.bySet).filterMap
        (u.addition units n) := by
      rw [AsmUnit.ownAdditions, AsmUnit.additions, List.filter_filterMap, List.filterMap_filter]
      congr 1
      funext l
      exact hcause l
    _ = u.pd.elems.zipIdx.flatMap (u.elemAdditions units n) := by
      rw [ParseData.programLeavings, List.filter_append, htable, List.append_nil, List.filter_flatMap,
        List.filterMap_flatMap]
      rfl

theorem AsmUnit.elemAdditions_none {e : Elem} (hd : e.fixup = none) (k : ℕ) :
    u.elemAdditions units n (e, k) = [] := by
  rw [AsmUnit.elemAdditions, ParseData.elemLeavings, hd]
  rfl

theorem AsmUnit.elemAdditions_some {e : Elem} {d : DeferredExpr Ref} (hd : e.fixup = some d) (k : ℕ) :
    u.elemAdditions units n (e, k) =
      (((d.ce.leaves false).filter fun leaf ↦ u.pd.isPlain leaf.1).map fun leaf ↦
        { index := (u.address k).toNat
          width := d.width
          amount := addedFor units n (u.pd.plainReloc (some k) d.width leaf)
          bySet := false }).reverse := by
  rw [AsmUnit.elemAdditions, ParseData.elemLeavings, hd]
  dsimp only
  rw [filter_exprLeavings, List.filterMap_reverse, List.filterMap_map]
  congr 1
  exact congrFun List.filterMap_eq_map' _

/-- Only the additions for its own element reach a word. -/
theorem AsmUnit.addAll_ownAdditions {k : ℕ} {e : Elem} (he : u.pd.elems[k]? = some e) {j : ℕ}
    (hj : j < emittedSize e.size) (word : Word) :
    addAll (u.ownAdditions units n) ((u.address k).toNat + j) word =
      addAll (u.elemAdditions units n (e, k)) ((u.address k).toNat + j) word := by
  have hother : ∀ elems : List (Elem × ℕ), (∀ elem ∈ elems, u.pd.elems[elem.2]? = some elem.1 ∧ elem.2 ≠ k) →
      ∀ a ∈ elems.flatMap (u.elemAdditions units n), a.index ≠ (u.address k).toNat + j := by
    intro elems helems a ha hindex
    obtain ⟨⟨e', k'⟩, helem, ha⟩ := List.mem_flatMap.mp ha
    obtain ⟨he', hne⟩ := helems _ helem
    cases hd : e'.fixup with
    | none =>
      rw [u.elemAdditions_none units n hd] at ha
      cases ha
    | some d =>
      rw [u.elemAdditions_some units n hd] at ha
      obtain ⟨leaf, -, rfl⟩ := List.mem_map.mp (List.mem_reverse.mp ha)
      have hone : 0 < emittedSize e'.size := by
        rw [(u.valid.fixup e' (List.mem_of_getElem? he') d hd).1]
        decide
      exact hne (u.index_unique he' he hone hj hindex)
  have hsplit : u.pd.elems.zipIdx =
      (u.pd.elems.take k).zipIdx ++ (e, k) :: (u.pd.elems.drop (k + 1)).zipIdx (k + 1) := by
    have hk := (List.getElem?_eq_some_iff.mp he).1
    have hlength : (u.pd.elems.take k).length = k := List.length_take_of_le hk.le
    have hdrop : u.pd.elems.drop k = e :: u.pd.elems.drop (k + 1) := by
      rw [List.drop_eq_getElem_cons hk, (List.getElem?_eq_some_iff.mp he).2]
    calc
      u.pd.elems.zipIdx = (u.pd.elems.take k ++ u.pd.elems.drop k).zipIdx := by rw [List.take_append_drop]
      _ = _ := by rw [List.zipIdx_append, hlength, hdrop, List.zipIdx_cons, Nat.zero_add]
  rw [u.ownAdditions_eq, hsplit, List.flatMap_append, List.flatMap_cons, addAll_append, addAll_append,
    addAll_of_index_ne (hother _ _), addAll_of_index_ne (hother _ _)]
  · rintro ⟨e', k'⟩ helem
    have he' := List.mem_zipIdx_iff_getElem?.mp helem
    have hlt : k' < k := by
      have := (List.getElem?_eq_some_iff.mp he').1
      rw [List.length_take] at this
      omega
    rw [List.getElem?_take_of_lt hlt] at he'
    exact ⟨he', hlt.ne⟩
  · rintro ⟨e', k'⟩ helem
    obtain ⟨hle, he'⟩ := List.mk_mem_zipIdx_iff_le_and_getElem?_sub.mp helem
    rw [List.getElem?_drop, Nat.add_sub_cancel' hle] at he'
    exact ⟨he', by omega⟩

end

end Tenyr.Link
