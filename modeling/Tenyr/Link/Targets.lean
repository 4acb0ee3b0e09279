import Tenyr.Asm.Lookup
import Tenyr.Link.Units

/-!
# References across objects

What a reference leads to once all objects are placed, what the assembler stores for it, which
relocation it leaves, and what the linker adds for that relocation.
-/

namespace Tenyr.Link

open Isa Obj Asm

variable {undef : UndefinedShifts} {fuel : ℕ}

/-! ## What references lead to -/

/-- A label of the same object, or a symbol that the object at position `m` exports. -/
inductive Target where
  | label (place : ℕ)
  | exported (m : ℕ) (sym : ObjSym)

/-- The value in the object itself; it is zero for symbols of other objects. -/
def Target.objectValue (u : AsmUnit undef fuel) : Target → Word
  | label place => u.address place
  | exported _ _ => 0#32

/-- The value when all objects are placed, for a reference in the object at position `n`. -/
def Target.finalValue (units : List (AsmUnit undef fuel)) (n : ℕ) (u : AsmUnit undef fuel) :
    Target → Word
  | label place => base units n + u.address place
  | exported m sym => sym.value + if sym.flags &&& rlcAbsolute = 0#32 then base units m else 0#32

/-- What a reference that is not bound to a `.set` symbol leads to. -/
inductive RefersTo (units : List (AsmUnit undef fuel)) (u : AsmUnit undef fuel) :
    Ref → Target → Prop
  | label {r : Ref} {s : Symbol} (hplain : u.pd.finalEnv.boundSet r = none)
      (hlookup : u.pd.lookup (u.pd.finalEnv.refName r) = some s) (hce : s.ce = none) :
      RefersTo units u r (.label s.place)
  | exported {r : Ref} {m : ℕ} {v : AsmUnit undef fuel} {sym : ObjSym}
      (hplain : u.pd.finalEnv.boundSet r = none)
      (hlookup : u.pd.lookup (u.pd.finalEnv.refName r) = none) (hv : units[m]? = some v)
      (hsym : sym ∈ v.object.symbols) (hne : u.pd.finalEnv.refName r ≠ [])
      (hname : sym.name = strcopy (u.pd.finalEnv.refName r)) :
      RefersTo units u r (.exported m sym)

/-- The assembler stores the value of the target in the object. -/
theorem RefersTo.refValue_eq {units : List (AsmUnit undef fuel)} {u : AsmUnit undef fuel} {r : Ref}
    {t : Target} (h : RefersTo units u r t) {symbols : List Symbol}
    (hreached : Reached u.pd symbols) (sub : Evaluator) :
    refValue undef (u.pd.envWith symbols) sub r = .ok (t.objectValue u) := by
  unfold refValue
  cases h with
  | label hplain hlookup hce =>
    rename_i s
    rw [ceEvalWith, hreached.boundSet_eq_none hplain]
    dsimp only
    rw [hreached.refName_eq, hreached.symbolLookup_label sub hlookup hce]
    have hplace : s.place < u.pd.elems.length := by
      obtain ⟨id, _, hget⟩ := Option.bind_eq_some_iff.mp hlookup
      exact u.valid.label s (List.mem_of_getElem? hget) hce
    obtain ⟨p⟩ := u.passes
    have haddress := p.reladdrs_getD hplace
    rw [p.reladdrs_eq] at haddress
    rw [haddress]
    rfl
  | exported hplain hlookup hv hsym hne hname =>
    rw [ceEvalWith, hreached.boundSet_eq_none hplain]
    dsimp only
    rw [hreached.refName_eq, hreached.symbolLookup_none sub hlookup]
    rfl

/-! ## Relocations of plain leaves -/

/-- What is added for a plain leaf of the object at offset `own`, given final values of references.
The sign of a named relocation is ignored. -/
def leafDisplacement (own : Word) (u : AsmUnit undef fuel) (finals : Ref → Word)
    (leaf : ConstExpr Ref × Bool) : Word :=
  match leaf.1 with
  | .ref _ r =>
      if (u.pd.lookup (u.pd.finalEnv.refName r)).isSome then signed leaf.2 own else finals r
  | .ici | .imm _ _ | .paren _ | .op1 _ _ | .op2 _ _ _ => signed leaf.2 own

/-- What the linker adds for a relocation of the object at offset `own`. -/
def linkAddend (objs : List Object) (own : Word) (rlc : ObjRlc) : Word :=
  match defnsFrom 0 [] objs with
  | .ok defns => addend (offsetsFrom 0#32 objs) defns own rlc
  | .error _ => 0#32

theorem addend_null (offsets : List Word) (defns : List Defn) (own : Word) {reloc : RelocNode}
    (hname : reloc.name = []) (reladdr : Word) :
    addend offsets defns own (objReloc reloc reladdr) = signed reloc.negate own := by
  unfold addend displacement objReloc signed
  rw [hname, strcopy_nil]
  cases reloc.negate <;> simp [rlcNegate]

theorem strcopy_ne_nil {name : Name} (h : name ≠ []) : strcopy name ≠ [] := by
  cases name with
  | nil => exact absurd rfl h
  | cons c rest => simp [strcopy, symbolLen]

/-- The relocation of a leaf gives the displacement of the leaf. -/
theorem addend_plainReloc {units : List (AsmUnit undef fuel)} {u : AsmUnit undef fuel}
    {defns : List Defn} (hdefns : defnsFrom 0 [] (units.map AsmUnit.object) = .ok defns)
    (own : Word) (n : ℕ) (finals : Ref → Word) (context : Option ℕ) (width : ℕ) (reladdr : Word)
    {leaf : ConstExpr Ref × Bool}
    (hleaf : ∀ isExternal r, leaf.1 = .ref isExternal r →
      u.pd.lookup (u.pd.finalEnv.refName r) = none →
        ∃ t, RefersTo units u r t ∧ finals r = t.finalValue units n u) :
    addend (offsetsFrom 0#32 (units.map AsmUnit.object)) defns own
        (objReloc (u.pd.plainReloc context width leaf) reladdr) =
      leafDisplacement own u finals leaf := by
  obtain ⟨e, negate⟩ := leaf
  cases e with
  | ref isExternal r =>
    cases hfound : u.pd.lookup (u.pd.finalEnv.refName r) with
    | some s =>
      have hname : (u.pd.plainReloc context width (.ref isExternal r, negate)).name = [] := by
        simp [ParseData.plainReloc, hfound]
      rw [addend_null _ _ own hname, leafDisplacement]
      simp only [hfound, Option.isSome_some, if_true]
      rfl
    | none =>
      obtain ⟨t, ht, hfinal⟩ := hleaf isExternal r rfl hfound
      cases ht with
      | label hplain hlookup hce =>
        rw [hfound] at hlookup
        cases hlookup
      | exported hplain hlookup hv hsym hne hname =>
        rename_i m v sym
        have hrecords : v.object.records ≠ [] := by
          rw [v.singleRecord.records]
          exact List.cons_ne_nil _ _
        have hobj : (units.map AsmUnit.object)[m]? = some v.object := by
          rw [List.getElem?_map, hv]
          rfl
        have hfind := find?_defn hdefns hobj hrecords hsym
        have hreloc : (objReloc (u.pd.plainReloc context width (.ref isExternal r, negate)) reladdr).name =
            sym.name := by
          simp [objReloc, ParseData.plainReloc, hlookup, hname]
        have hne' : sym.name ≠ [] := by
          rw [hname]
          exact strcopy_ne_nil hne
        rw [leafDisplacement]
        simp only [hlookup, Option.isSome_none, Bool.false_eq_true, if_false]
        rw [hfinal, addend, displacement, hreloc]
        have hempty : sym.name.isEmpty = false := by
          simpa using hne'
        simp only [hempty, Bool.false_eq_true, if_false, hfind]
        rw [List.getD_eq_getElem?_getD, offsetsFrom_eq_base hv]
        rfl
  | ici =>
    rw [addend_null _ _ own rfl]
    rfl
  | imm i isBits =>
    rw [addend_null _ _ own rfl]
    rfl
  | paren e =>
    rw [addend_null _ _ own rfl]
    rfl
  | op1 op left =>
    rw [addend_null _ _ own rfl]
    rfl
  | op2 op left right =>
    rw [addend_null _ _ own rfl]
    rfl

end Tenyr.Link
