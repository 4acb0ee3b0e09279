import Tenyr.Link.Additions
import Tenyr.Asm.Linear

/-!
# Linked fields

What a field of a linked image holds: the value that the object stores, and the additions to it. Those
that the leaves of an expression are the cause of add up in its field.
-/

namespace Tenyr.Link

open Isa Obj Asm

variable {undef : UndefinedShifts} {fuel : ℕ}

/-! ## What an object stores -/

/-- The bits of an element's word that hold the value of its expression. -/
def fieldOf (e : Elem) : Word :=
  match e.fixup with
  | none => 0#32
  | some d => fieldMask d.width

/-- The value that the assembler stores for an expression, given what it stores for the references. -/
theorem AsmUnit.stored (u : AsmUnit undef fuel) {k : ℕ} {e : Elem} {d : DeferredExpr Ref}
    (he : u.pd.elems[k]? = some e) (hd : e.fixup = some d) :
    ∃ p : Passes undef fuel u.pd u.a, ∃ before v, p.Before k before ∧
      d.ce.value undef (u.address k)
        (refValue undef (u.pd.envWith before.symbols)
          (symbolEvaluator undef (u.pd.envWith before.symbols) fuel)) = .ok v ∧
      u.data[(u.address k).toNat]? = some (merge d.width e.word (v * d.mult)) := by
  obtain ⟨p⟩ := u.passes
  obtain ⟨before, v, added, hbefore, heval, hword, _⟩ := p.fixup_at he hd
  have hk : k < u.pd.elems.length := (List.getElem?_eq_some_iff.mp he).1
  have hsize := (u.valid.fixup e (List.mem_of_getElem? he) d hd).1
  have hhere : hereValue (u.pd.envWith before.symbols) (some k) = u.address k := by
    have haddress := p.reladdrs_getD hk
    rw [p.reladdrs_eq] at haddress
    exact haddress
  refine ⟨p, before, v, hbefore, ?_, ?_⟩
  · have huniform := @uniform_symbolEvaluator undef (u.pd.envWith before.symbols) rfl fuel
    have hvalue := @ceEvalWith_value undef (u.pd.envWith before.symbols) _ rfl huniform (some k)
      false d.width d.ce
    rw [← ceEval_eq, heval, hhere] at hvalue
    rcases map_fst_eq_iff.mp hvalue with ⟨stop, herror, _⟩ | ⟨v', relocs, hok, hv⟩
    · cases herror
    · obtain ⟨hsome, _⟩ := Prod.mk.inj (Except.ok.inj hok)
      obtain rfl := Option.some.inj hsome
      exact hv
  · rw [u.data_word he (by rw [hsize]; decide), hword]
    rfl

/-- The additions of an expression's own plain leaves add up in its field. -/
theorem AsmUnit.addAll_own {units : List (AsmUnit undef fuel)} {u : AsmUnit undef fuel} (n : ℕ)
    (hdefns : ∃ defns, defnsFrom 0 [] (units.map AsmUnit.object) = .ok defns) {k : ℕ} {e : Elem}
    {d : DeferredExpr Ref} (he : u.pd.elems[k]? = some e) (hd : e.fixup = some d)
    {finals : Ref → Word}
    (hfinals : ∀ r ∈ d.ce.refs, u.pd.finalEnv.boundSet r = none →
      u.pd.lookup (u.pd.finalEnv.refName r) = none →
        ∃ t, RefersTo units u r t ∧ finals r = t.finalValue units n u) (word : Word) :
    addAll (u.ownAdditions units n) (u.address k).toNat word =
      relocateWord (fieldMask d.width)
        ((((d.ce.leaves false).filter fun leaf ↦ u.pd.isPlain leaf.1).map
          (leafDisplacement (base units n) u finals)).sum) word := by
  obtain ⟨defns, hdefns⟩ := hdefns
  obtain ⟨hsize, _, hle⟩ := u.valid.fixup e (List.mem_of_getElem? he) d hd
  have hone : 0 < emittedSize e.size := by
    rw [hsize]
    decide
  have hown := u.addAll_ownAdditions units n he hone word
  rw [Nat.add_zero] at hown
  rw [hown, u.elemAdditions_some units n hd, addAll_same_width hle]
  · rw [List.map_reverse, List.sum_reverse, List.map_map]
    congr 2
    apply List.map_congr_left
    intro leaf hleaf
    obtain ⟨hmem, hplain⟩ := List.mem_filter.mp hleaf
    rw [Function.comp_apply, ← linkAddend_objReloc hdefns n _ (u.address k), linkAddend, hdefns]
    apply addend_plainReloc hdefns (base units n) n finals
    intro isExternal r hr hfound
    obtain ⟨leafExpr, negate⟩ := leaf
    dsimp only at hr
    subst hr
    apply hfinals r ?_ ?_ hfound
    · exact (ConstExpr.mem_refs_iff false).mpr ⟨isExternal, negate, hmem⟩
    · simpa [ParseData.isPlain] using hplain
  · intro a ha
    obtain ⟨leaf, _, rfl⟩ := List.mem_map.mp (List.mem_reverse.mp ha)
    exact ⟨rfl, rfl⟩

/-- The additions of plain leaves are to the field of their element. -/
theorem AsmUnit.addAll_own_outside (units : List (AsmUnit undef fuel)) (n : ℕ) (u : AsmUnit undef fuel)
    {k : ℕ} {e : Elem} (he : u.pd.elems[k]? = some e) {j : ℕ} (hj : j < emittedSize e.size) (word : Word) :
    addAll (u.ownAdditions units n) ((u.address k).toNat + j) word &&& ~~~fieldOf e =
      word &&& ~~~fieldOf e := by
  rw [u.addAll_ownAdditions units n he hj, fieldOf]
  cases hd : e.fixup with
  | none => rw [u.elemAdditions_none units n hd, addAll_nil]
  | some d =>
    obtain ⟨hsize, _, hle⟩ := u.valid.fixup e (List.mem_of_getElem? he) d hd
    have hone : emittedSize e.size = 1 := by
      rw [hsize]
      rfl
    obtain rfl : j = 0 := by omega
    rw [u.elemAdditions_some units n hd, Nat.add_zero, addAll_same_width hle, relocateWord_eq_merge]
    · exact merge_high d.width word _
    · intro a ha
      obtain ⟨leaf, _, rfl⟩ := List.mem_map.mp (List.mem_reverse.mp ha)
      exact ⟨rfl, rfl⟩

/-! ## Images -/

/-- Every object's record is in place, and each of its words is as `claim` says, given the element it
belongs to, its index in the record, and its content in the object and in the image. -/
def ImageAgrees (units : List (AsmUnit undef fuel))
    (claim : ℕ → AsmUnit undef fuel → ℕ → Elem → ℕ → Word → Word → Prop)
    (image : List ObjRec) : Prop :=
  ∀ (n : ℕ) u, units[n]? = some u → ∃ r, image[n]? = some r ∧ r.addr = base units n ∧
    r.data.length = u.data.length ∧
      ∀ (k : ℕ) e, u.pd.elems[k]? = some e → ∀ j < emittedSize e.size, ∃ before after,
        u.data[(u.address k).toNat + j]? = some before ∧
        r.data[(u.address k).toNat + j]? = some after ∧
          claim n u k e ((u.address k).toNat + j) before after

/-- Linking succeeds with every word right exactly when no addition is behind the words of its object and
the additions make every word right. -/
theorem link_agrees_iff (units : List (AsmUnit undef fuel))
    (claim : ℕ → AsmUnit undef fuel → ℕ → Elem → ℕ → Word → Word → Prop)
    (hlink : link undef (units.map AsmUnit.object) ≠ .error .fatal) :
    (∃ image, link undef (units.map AsmUnit.object) = .ok image ∧
        ImageAgrees units claim image) ↔
      AllInside units ∧
        ∀ (n : ℕ) u, units[n]? = some u → ∀ (k : ℕ) e, u.pd.elems[k]? = some e →
          ∀ j < emittedSize e.size, ∀ before, u.data[(u.address k).toNat + j]? = some before →
            claim n u k e ((u.address k).toNat + j) before
              (addAll (u.additions units n) ((u.address k).toNat + j) before) := by
  have hobjs : ∀ o ∈ units.map AsmUnit.object, ∃ data, SingleRecord o data := by
    intro o ho
    obtain ⟨u, _, rfl⟩ := List.mem_map.mp ho
    exact ⟨u.data, u.singleRecord⟩
  rcases link_cases undef (units.map AsmUnit.object) hobjs with
    hfatal | ⟨hover, hout⟩ | ⟨hin, defns, image, hdefns, hok, hrecords⟩
  · exact absurd hfatal hlink
  · constructor
    · rintro ⟨image, himage, _⟩
      rw [hout] at himage
      cases himage
    · rintro ⟨hinside, _⟩
      exact absurd hover (not_runsOver_iff.mpr hinside)
  · have hrecord : ∀ (n : ℕ) u, units[n]? = some u → image[n]? = some
        { addr := base units n
          data := u.data.mapIdx (addAll (u.additions units n)) } := by
      intro n u hu
      have hobj : (units.map AsmUnit.object)[n]? = some u.object := by
        rw [List.getElem?_map, hu]
        rfl
      obtain ⟨own, hown, himage⟩ := hrecords n u.object u.data hobj u.singleRecord
      obtain rfl : own = base units n := by
        rw [offsetsFrom_eq_base hu] at hown
        exact (Option.some.inj hown).symm
      rw [himage]
      have hadds : applyAt undef (addend (offsetsFrom 0#32 (units.map AsmUnit.object)) defns (base units n))
          u.object.relocs = addAll (u.additions units n) := by
        funext index word
        rw [← relocatedWord_eq hdefns]
        congr 1
        funext rlc
        rw [linkAddend, hdefns]
      rw [hadds]
    constructor
    · rintro ⟨image', himage', hagrees⟩
      obtain rfl := Except.ok.inj (hok.symm.trans himage')
      refine ⟨not_runsOver_iff.mp hin, ?_⟩
      intro n u hu k e he j hj before hbefore
      obtain ⟨r, hr, _, _, hwords⟩ := hagrees n u hu
      obtain ⟨before', after, hbefore', hafter, hclaim⟩ := hwords k e he j hj
      obtain rfl := Option.some.inj (hbefore.symm.trans hbefore')
      obtain rfl := Option.some.inj ((hrecord n u hu).symm.trans hr)
      dsimp only at hafter
      rw [List.getElem?_mapIdx, hbefore] at hafter
      obtain rfl := Option.some.inj hafter
      exact hclaim
    · rintro ⟨_, hclaims⟩
      refine ⟨image, hok, ?_⟩
      intro n u hu
      refine ⟨_, hrecord n u hu, rfl, List.length_mapIdx, ?_⟩
      intro k e he j hj
      have hbefore := List.getElem?_eq_getElem (u.index_lt he hj)
      refine ⟨_, _, hbefore, ?_, hclaims n u hu k e he j hj _ hbefore⟩
      dsimp only
      rw [List.getElem?_mapIdx, hbefore]
      rfl

end Tenyr.Link
