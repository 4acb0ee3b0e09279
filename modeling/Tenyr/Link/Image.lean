import Tenyr.Link.Linker

/-!
# The linked image

What `do_link` makes of objects with a single record: each record is placed after the ones before it,
and each of its words is updated by the relocations at its address, in their order.
-/

namespace Tenyr.Link

open Isa Obj

/-! ## Relocations at one word -/

section Words

variable (undef : UndefinedShifts) (addend : ObjRlc → Word)

/-- What one relocation does to the word at an index. -/
def relocateAt (index : ℕ) (w : Word) (rlc : ObjRlc) : Word :=
  if rlc.addr.toNat = index then relocateWord (relocMask undef rlc.width) (addend rlc) w else w

/-- What relocations do to the word at an index. -/
def applyAt (rlcs : List ObjRlc) (index : ℕ) (w : Word) : Word :=
  rlcs.foldl (relocateAt undef addend index) w

@[simp]
theorem applyAt_nil (index : ℕ) (w : Word) : applyAt undef addend [] index w = w := rfl

@[simp]
theorem applyAt_cons (rlc : ObjRlc) (rlcs : List ObjRlc) (index : ℕ) (w : Word) :
    applyAt undef addend (rlc :: rlcs) index w =
      applyAt undef addend rlcs index (relocateAt undef addend index w rlc) := rfl

end Words

/-! ## Relocating a record -/

section Records

variable (undef : UndefinedShifts) (offsets : List Word) (defns : List Defn) (own : Word)

/-- What a relocation adds, if its symbol is defined. -/
def addend (rlc : ObjRlc) : Word :=
  match displacement offsets defns own rlc with
  | .ok reladdr => reladdr
  | .error _ => 0#32

theorem displacement_cases (rlc : ObjRlc) :
    displacement offsets defns own rlc = .error .fatal ∨
      displacement offsets defns own rlc = .ok (addend offsets defns own rlc) := by
  unfold addend
  cases h : displacement offsets defns own rlc with
  | ok reladdr => exact .inr rfl
  | error stop =>
    left
    unfold displacement at h
    split at h
    · cases h
    · split at h
      · exact h.symm ▸ rfl
      · cases h

/-- A record with each word replaced according to its index. -/
def mapWords (r : ObjRec) (f : ℕ → Word → Word) : ObjRec := { r with data := r.data.mapIdx f }

variable {r : ObjRec}

theorem size_toNat (hlength : r.data.length < 2 ^ 32) : r.size.toNat = r.data.length := by
  rw [ObjRec.size, BitVec.toNat_ofNat, Nat.mod_eq_of_lt hlength]

theorem mapIdx_relocateAt (rlc : ObjRlc) :
    r.data.mapIdx (fun index w ↦
        relocateAt undef (addend offsets defns own) index w rlc) =
      r.data.modify rlc.addr.toNat
        (relocateWord (relocMask undef rlc.width) (addend offsets defns own rlc)) := by
  apply List.ext_getElem?
  intro index
  rw [List.getElem?_mapIdx, List.getElem?_modify]
  rfl

/-- A relocation of a record at address 0 fails, runs over the end, or updates one word at most. -/
theorem relocate_cases (haddr : r.addr = 0#32) (hlength : r.data.length < 2 ^ 32) (rlc : ObjRlc) :
    relocate undef offsets defns own r rlc = .error .fatal ∨
    (rlc.addr.toNat = r.data.length ∧
      relocate undef offsets defns own r rlc = .error .outOfBounds) ∨
    (rlc.addr.toNat ≠ r.data.length ∧
      relocate undef offsets defns own r rlc =
        .ok (mapWords r fun index w ↦
          relocateAt undef (addend offsets defns own) index w rlc)) := by
  have hsize := size_toNat hlength
  rw [mapWords, mapIdx_relocateAt]
  unfold relocate
  rw [haddr, BitVec.sub_zero]
  split
  · rename_i houtside
    right
    right
    have hlt : r.data.length < rlc.addr.toNat := by
      rcases houtside with hlt | hlt
      · exact absurd hlt (BitVec.not_lt_zero)
      · rw [BitVec.lt_def, hsize] at hlt
        exact hlt
    refine ⟨by omega, ?_⟩
    rw [List.modify_eq_self (by omega), ← haddr]
  · rename_i hinside
    have hle : rlc.addr.toNat ≤ r.data.length := by
      rw [not_or, BitVec.lt_def, BitVec.lt_def, hsize] at hinside
      omega
    rcases displacement_cases offsets defns own rlc with hdisp | hdisp
    · rw [hdisp]
      exact .inl rfl
    · rw [hdisp]
      right
      change _ ∧ (if _ then _ else _) = _ ∨ _ ∧ (if _ then _ else _) = _
      split
      · exact .inr ⟨by omega, rfl⟩
      · exact .inl ⟨by omega, rfl⟩

/-- All relocations of a record. -/
theorem foldlM_relocate_cases (haddr : r.addr = 0#32) (hlength : r.data.length < 2 ^ 32)
    (rlcs : List ObjRlc) :
    rlcs.foldlM (relocate undef offsets defns own) r = .error .fatal ∨
    ((∃ rlc ∈ rlcs, rlc.addr.toNat = r.data.length) ∧
      rlcs.foldlM (relocate undef offsets defns own) r = .error .outOfBounds) ∨
    ((∀ rlc ∈ rlcs, rlc.addr.toNat ≠ r.data.length) ∧
      rlcs.foldlM (relocate undef offsets defns own) r =
        .ok (mapWords r (applyAt undef (addend offsets defns own) rlcs))) := by
  induction rlcs generalizing r with
  | nil =>
    right
    right
    refine ⟨by simp, ?_⟩
    have hid : r.data.mapIdx (applyAt undef (addend offsets defns own) []) = r.data := by
      apply List.ext_getElem?
      intro index
      rw [List.getElem?_mapIdx]
      cases r.data[index]? <;> rfl
    rw [mapWords, hid]
    rfl
  | cons rlc rlcs ih =>
    rw [List.foldlM_cons]
    rcases relocate_cases undef offsets defns own haddr hlength rlc with h | ⟨hend, h⟩ | ⟨hne, h⟩
    · rw [h]
      exact .inl rfl
    · rw [h]
      exact .inr (.inl ⟨⟨rlc, List.mem_cons_self, hend⟩, rfl⟩)
    · rw [h]
      have hlength' : (mapWords r fun index w ↦
          relocateAt undef (addend offsets defns own) index w rlc).data.length = r.data.length :=
        List.length_mapIdx
      rcases ih (r := mapWords r fun index w ↦
          relocateAt undef (addend offsets defns own) index w rlc) haddr
          (by rw [hlength']; exact hlength) with h | ⟨⟨rlc', hmem, hend⟩, h⟩ | ⟨hne', h⟩
      · exact .inl h
      · exact .inr (.inl ⟨⟨rlc', List.mem_cons_of_mem _ hmem, hend.trans hlength'⟩, h⟩)
      · right
        right
        refine ⟨?_, ?_⟩
        · intro rlc' hmem
          rcases List.mem_cons.mp hmem with rfl | hmem
          · exact hne
          · rw [← hlength']
            exact hne' rlc' hmem
        · refine h.trans ?_
          rw [mapWords, mapWords, List.mapIdx_mapIdx]
          rfl

end Records

/-! ## Objects with one record -/

/-- What the assembler emits: one record at address 0, of a length that its field can hold. -/
structure SingleRecord (o : Object) (data : List Word) : Prop where
  records : o.records = [{ addr := 0#32, data }]
  length : data.length < 2 ^ 32

/-- A relocation that addresses the word after the end of its record. -/
def RunsOver (objs : List Object) : Prop :=
  ∃ o ∈ objs, ∃ data, SingleRecord o data ∧ ∃ rlc ∈ o.relocs, rlc.addr.toNat = data.length

section Objects

variable (undef : UndefinedShifts) (offsets : List Word) (defns : List Defn)

/-- An object with its relocations applied. -/
def relocated (own : Word) (o : Object) : Object :=
  { o with records := o.records.map fun r ↦
      mapWords r (applyAt undef (addend offsets defns own) o.relocs) }

theorem relocateObj_cases (own : Word) {o : Object} {data : List Word}
    (ho : SingleRecord o data) :
    relocateObj undef offsets defns own o = .error .fatal ∨
    ((∃ rlc ∈ o.relocs, rlc.addr.toNat = data.length) ∧
      relocateObj undef offsets defns own o = .error .outOfBounds) ∨
    ((∀ rlc ∈ o.relocs, rlc.addr.toNat ≠ data.length) ∧
      relocateObj undef offsets defns own o = .ok (relocated undef offsets defns own o)) := by
  obtain ⟨hrecords, hlength⟩ := ho
  unfold relocateObj relocated
  rw [hrecords]
  rcases foldlM_relocate_cases undef offsets defns own (r := { addr := 0#32, data }) rfl hlength
      o.relocs with h | ⟨hend, h⟩ | ⟨hne, h⟩
  · simp only [h]
    exact .inl rfl
  · simp only [h]
    exact .inr (.inl ⟨hend, rfl⟩)
  · simp only [h]
    exact .inr (.inr ⟨hne, rfl⟩)

/-- All objects, each with its own offset. -/
theorem relocateAll_cases (owns : List Word) (objs : List Object)
    (hlength : owns.length = objs.length) (hobjs : ∀ o ∈ objs, ∃ data, SingleRecord o data) :
    relocateAll undef offsets defns owns objs = .error .fatal ∨
    (RunsOver objs ∧ relocateAll undef offsets defns owns objs = .error .outOfBounds) ∨
    (¬ RunsOver objs ∧
      relocateAll undef offsets defns owns objs =
        .ok (List.zipWith (relocated undef offsets defns) owns objs)) := by
  induction objs generalizing owns with
  | nil =>
    right
    right
    refine ⟨?_, ?_⟩
    · rintro ⟨o, ho, _⟩
      cases ho
    · cases owns <;> rfl
  | cons o rest ih =>
    cases owns with
    | nil => cases hlength
    | cons own owns =>
      obtain ⟨data, ho⟩ := hobjs o List.mem_cons_self
      rw [relocateAll]
      rcases relocateObj_cases undef offsets defns own ho with h | ⟨⟨rlc, hmem, hend⟩, h⟩ | ⟨hne, h⟩
      · rw [h]
        exact .inl rfl
      · rw [h]
        exact .inr (.inl ⟨⟨o, List.mem_cons_self, data, ho, rlc, hmem, hend⟩, rfl⟩)
      · rw [h]
        rcases ih owns (Nat.succ.inj hlength) fun o ho ↦ hobjs o (List.mem_cons_of_mem _ ho) with
          h' | ⟨⟨o', ho', hover⟩, h'⟩ | ⟨hin, h'⟩
        · simp only [h']
          exact .inl rfl
        · simp only [h']
          exact .inr (.inl ⟨⟨o', List.mem_cons_of_mem _ ho', hover⟩, rfl⟩)
        · simp only [h']
          refine .inr (.inr ⟨?_, rfl⟩)
          rintro ⟨o', ho', data', hdata', rlc, hrlc, hend⟩
          rcases List.mem_cons.mp ho' with rfl | ho'
          · have hsame := ho.records.symm.trans hdata'.records
            have hdata : data = data' := by simpa using hsame
            exact hne rlc hrlc (by rw [hdata]; exact hend)
          · exact hin ⟨o', ho', data', hdata', rlc, hrlc, hend⟩

theorem length_offsetsFrom (running : Word) (objs : List Object) :
    (offsetsFrom running objs).length = objs.length := by
  induction objs generalizing running with
  | nil => rfl
  | cons o rest ih => simp [offsetsFrom, ih]

/-- The output has one record for each object, at the offset the object was given. -/
theorem emitFrom_relocated (running : Word) (objs : List Object)
    (hobjs : ∀ o ∈ objs, ∃ data, SingleRecord o data) {n : ℕ} {o : Object} {data : List Word}
    (hn : objs[n]? = some o) (ho : SingleRecord o data) :
    ∃ own, (offsetsFrom running objs)[n]? = some own ∧
      (emitFrom running ((List.zipWith (relocated undef offsets defns)
        (offsetsFrom running objs) objs).flatMap Object.records))[n]? =
        some { addr := own
               data := data.mapIdx (applyAt undef (addend offsets defns own) o.relocs) } := by
  induction objs generalizing running n with
  | nil => cases hn
  | cons o' rest ih =>
    obtain ⟨data', ho'⟩ := hobjs o' List.mem_cons_self
    have hrecords : (relocated undef offsets defns running o').records =
        [mapWords { addr := 0#32, data := data' }
          (applyAt undef (addend offsets defns running) o'.relocs)] := by
      rw [relocated, ho'.records]
      rfl
    rw [offsetsFrom, List.zipWith_cons_cons, List.flatMap_cons, hrecords, List.singleton_append,
      emitFrom]
    cases n with
    | zero =>
      obtain rfl := Option.some.inj hn
      obtain rfl : data' = data := by simpa using ho'.records.symm.trans ho.records
      exact ⟨running, rfl, rfl⟩
    | succ n =>
      have hsize : (mapWords { addr := 0#32, data := data' }
          (applyAt undef (addend offsets defns running) o'.relocs)).size = linkedSize o' := by
        rw [linkedSize, ho'.records]
        simp [mapWords, ObjRec.size]
      rw [hsize]
      exact ih (running + linkedSize o') (fun o ho ↦ hobjs o (List.mem_cons_of_mem _ ho)) hn

end Objects

/-! ## Definitions -/

/-- Definitions of different names. -/
def DefnsUnique (defns : List Defn) : Prop := (defns.map Defn.name).Nodup

theorem find?_of_mem {defns : List Defn} (hunique : DefnsUnique defns) {d : Defn}
    (hd : d ∈ defns) : (defns.find? fun d' ↦ d'.name == d.name) = some d := by
  induction defns with
  | nil => cases hd
  | cons d' rest ih =>
    obtain ⟨hnotin, hrest⟩ := List.nodup_cons.mp hunique
    rcases List.mem_cons.mp hd with rfl | hd
    · simp
    · have hne : d'.name ≠ d.name := by
        intro heq
        exact hnotin (heq ▸ List.mem_map_of_mem hd)
      rw [List.find?_cons, beq_false_of_ne hne]
      exact ih hrest hd

theorem addDefns_eq_ok {obj : ℕ} {defns defns' : List Defn} {syms : List ObjSym}
    (h : addDefns obj defns syms = .ok defns') (hunique : DefnsUnique defns) :
    DefnsUnique defns' ∧ defns ⊆ defns' ∧ ∀ sym ∈ syms,
      { name := strcopy sym.name, obj, reladdr := sym.value, flags := sym.flags } ∈ defns' := by
  induction syms generalizing defns with
  | nil =>
    obtain rfl := Except.ok.inj h
    exact ⟨hunique, List.Subset.refl _, by simp⟩
  | cons sym rest ih =>
    rw [addDefns] at h
    split at h
    · cases h
    · rename_i hnew
      have hunique' : DefnsUnique
          ({ name := strcopy sym.name, obj, reladdr := sym.value, flags := sym.flags } :: defns) := by
        apply List.nodup_cons.mpr
        refine ⟨?_, hunique⟩
        intro hmem
        obtain ⟨d, hd, hname⟩ := List.mem_map.mp hmem
        apply hnew
        rw [List.any_eq_true]
        exact ⟨d, hd, beq_of_eq hname⟩
      obtain ⟨hu, hsub, hmem⟩ := ih h hunique'
      refine ⟨hu, fun d hd ↦ hsub (List.mem_cons_of_mem _ hd), ?_⟩
      intro sym' hsym'
      rcases List.mem_cons.mp hsym' with rfl | hsym'
      · exact hsub List.mem_cons_self
      · exact hmem sym' hsym'

theorem addDefns_eq_error {obj : ℕ} {defns : List Defn} {syms : List ObjSym} {stop : LinkStop}
    (h : addDefns obj defns syms = .error stop) : stop = .fatal := by
  induction syms generalizing defns with
  | nil => cases h
  | cons sym rest ih =>
    rw [addDefns] at h
    split at h
    · exact (Except.error.inj h).symm
    · exact ih h

theorem defnsFrom_eq_error {obj : ℕ} {defns : List Defn} {objs : List Object} {stop : LinkStop}
    (h : defnsFrom obj defns objs = .error stop) : stop = .fatal := by
  induction objs generalizing obj defns with
  | nil => cases h
  | cons o rest ih =>
    rw [defnsFrom] at h
    split at h
    · exact ih h
    · cases hadd : addDefns obj defns o.symbols with
      | error stop' =>
        rw [hadd] at h
        obtain rfl := Except.error.inj h
        exact addDefns_eq_error hadd
      | ok defns' =>
        rw [hadd] at h
        exact ih h

theorem defnsFrom_eq_ok {obj : ℕ} {defns defns' : List Defn} {objs : List Object}
    (h : defnsFrom obj defns objs = .ok defns') (hunique : DefnsUnique defns) :
    DefnsUnique defns' ∧ defns ⊆ defns' ∧
      ∀ (n : ℕ) o sym, objs[n]? = some o → o.records ≠ [] → sym ∈ o.symbols →
        { name := strcopy sym.name, obj := obj + n, reladdr := sym.value, flags := sym.flags } ∈
          defns' := by
  induction objs generalizing obj defns with
  | nil =>
    obtain rfl := Except.ok.inj h
    refine ⟨hunique, List.Subset.refl _, ?_⟩
    intro n o sym hn
    cases hn
  | cons o rest ih =>
    rw [defnsFrom] at h
    split at h
    · rename_i hempty
      obtain ⟨hu, hsub, hmem⟩ := ih h hunique
      refine ⟨hu, hsub, ?_⟩
      intro n o' sym hn hne hsym
      cases n with
      | zero =>
        obtain rfl := Option.some.inj hn
        exact absurd (List.isEmpty_iff.mp hempty) hne
      | succ n =>
        have hmem' := hmem n o' sym hn hne hsym
        rw [Nat.add_assoc, Nat.add_comm 1 n] at hmem'
        exact hmem'
    · cases hadd : addDefns obj defns o.symbols with
      | error stop' =>
        rw [hadd] at h
        cases h
      | ok defns₁ =>
        rw [hadd] at h
        obtain ⟨hu₁, hsub₁, hmem₁⟩ := addDefns_eq_ok hadd hunique
        obtain ⟨hu, hsub, hmem⟩ := ih h hu₁
        refine ⟨hu, fun d hd ↦ hsub (hsub₁ hd), ?_⟩
        intro n o' sym hn hne hsym
        cases n with
        | zero =>
          obtain rfl := Option.some.inj hn
          exact hsub (hmem₁ sym hsym)
        | succ n =>
          have hmem' := hmem n o' sym hn hne hsym
          rw [Nat.add_assoc, Nat.add_comm 1 n] at hmem'
          exact hmem'

theorem mem_of_addDefns {obj : ℕ} {defns defns' : List Defn} {syms : List ObjSym}
    (h : addDefns obj defns syms = .ok defns') {d : Defn} (hd : d ∈ defns') :
    d ∈ defns ∨ ∃ sym ∈ syms,
      d = { name := strcopy sym.name, obj, reladdr := sym.value, flags := sym.flags } := by
  induction syms generalizing defns with
  | nil =>
    obtain rfl := Except.ok.inj h
    exact .inl hd
  | cons sym rest ih =>
    rw [addDefns] at h
    split at h
    · cases h
    · rcases ih h with hd | ⟨sym', hsym', rfl⟩
      · rcases List.mem_cons.mp hd with rfl | hd
        · exact .inr ⟨sym, List.mem_cons_self, rfl⟩
        · exact .inl hd
      · exact .inr ⟨sym', List.mem_cons_of_mem _ hsym', rfl⟩

/-- Every definition is that of a symbol of some object. -/
theorem mem_of_defnsFrom {obj : ℕ} {defns defns' : List Defn} {objs : List Object}
    (h : defnsFrom obj defns objs = .ok defns') {d : Defn} (hd : d ∈ defns') :
    d ∈ defns ∨ ∃ (n : ℕ) (o : Object) (sym : ObjSym), objs[n]? = some o ∧ sym ∈ o.symbols ∧
      d = { name := strcopy sym.name, obj := obj + n, reladdr := sym.value, flags := sym.flags } := by
  induction objs generalizing obj defns with
  | nil =>
    obtain rfl := Except.ok.inj h
    exact .inl hd
  | cons o rest ih =>
    have hrest : ∀ {defns : List Defn}, defnsFrom (obj + 1) defns rest = .ok defns' → d ∈ defns ∨
        ∃ (n : ℕ) (o' : Object) (sym : ObjSym), (o :: rest)[n]? = some o' ∧ sym ∈ o'.symbols ∧
          d = { name := strcopy sym.name, obj := obj + n, reladdr := sym.value, flags := sym.flags } := by
      intro defns h
      rcases ih h with hd | ⟨n, o', sym, ho', hsym, rfl⟩
      · exact .inl hd
      · exact .inr ⟨n + 1, o', sym, ho', hsym, by rw [Nat.add_assoc, Nat.add_comm 1 n]⟩
    rw [defnsFrom] at h
    split at h
    · exact hrest h
    · cases hadd : addDefns obj defns o.symbols with
      | error stop =>
        rw [hadd] at h
        cases h
      | ok defns₁ =>
        rw [hadd] at h
        rcases hrest h with hd₁ | hsym
        · rcases mem_of_addDefns hadd hd₁ with hd | ⟨sym, hsym, rfl⟩
          · exact .inl hd
          · exact .inr ⟨0, o, sym, rfl, hsym, rfl⟩
        · exact .inr hsym

/-- The definition that a name leads to is that of the object that exports it. -/
theorem find?_defn {defns : List Defn} {objs : List Object}
    (h : defnsFrom 0 [] objs = .ok defns) {n : ℕ} {o : Object} (hn : objs[n]? = some o)
    (hrecords : o.records ≠ []) {sym : ObjSym} (hsym : sym ∈ o.symbols) :
    (defns.find? fun d ↦ d.name == strcopy sym.name) =
      some { name := strcopy sym.name, obj := n, reladdr := sym.value, flags := sym.flags } := by
  obtain ⟨hunique, _, hmem⟩ := defnsFrom_eq_ok h List.nodup_nil
  have hd := hmem n o sym hn hrecords hsym
  rw [Nat.zero_add] at hd
  exact find?_of_mem hunique hd

/-- Linking objects with one record each: an error is reported, a relocation runs over the end of its
record, or every record is at its offset with each word relocated. -/
theorem link_cases (undef : UndefinedShifts) (objs : List Object)
    (hobjs : ∀ o ∈ objs, ∃ data, SingleRecord o data) :
    link undef objs = .error .fatal ∨
    (RunsOver objs ∧ link undef objs = .error .outOfBounds) ∨
    (¬ RunsOver objs ∧ ∃ defns image, defnsFrom 0 [] objs = .ok defns ∧
      link undef objs = .ok image ∧
        ∀ (n : ℕ) o data, objs[n]? = some o → SingleRecord o data →
          ∃ own, (offsetsFrom 0#32 objs)[n]? = some own ∧
            image[n]? = some
              { addr := own
                data := data.mapIdx
                  (applyAt undef (addend (offsetsFrom 0#32 objs) defns own) o.relocs) }) := by
  unfold link
  cases hdefns : defnsFrom 0 [] objs with
  | error stop =>
    left
    rw [defnsFrom_eq_error hdefns]
    rfl
  | ok defns =>
    rcases relocateAll_cases undef (offsetsFrom 0#32 objs) defns (offsetsFrom 0#32 objs) objs
        (length_offsetsFrom _ _) hobjs with h | ⟨hover, h⟩ | ⟨hin, h⟩
    · simp only [bind, Except.bind, h]
      exact .inl trivial
    · simp only [bind, Except.bind, h]
      exact .inr (.inl ⟨hover, trivial⟩)
    · simp only [bind, Except.bind, h]
      refine .inr (.inr ⟨hin, defns, _, rfl, rfl, ?_⟩)
      intro n o data hn ho
      exact emitFrom_relocated undef (offsetsFrom 0#32 objs) defns 0#32 objs hobjs hn ho

end Tenyr.Link
