import Tenyr.Link.Image
import Tenyr.Obj.Codec

/-!
# Relocations of untrusted objects

What one relocation entry of any object that `obj_read` accepts makes the linker do: ignore the entry,
stop, or write a word of the record. Nothing but the code itself keeps the write in the record and the
shift that makes its mask in range.
-/

namespace Tenyr.Link

open Isa Obj

section Entries

variable (undef : UndefinedShifts) (offsets : List Word) (defns : List Defn) (own : Word)

/-- `do_link_relocate_obj_reloc`, with its return code. -/
def relocateObjReloc (o : Object) (rlc : ObjRlc) : Except LinkStop (ℕ × Object) :=
  match o.records with
  | [] => .error .fatal  -- invalid record count
  | [r] =>
    if rlc.addr < r.addr ∨ r.size < rlc.addr - r.addr then .ok (1, o)  -- reported as invalid
    else do
      let r ← relocate undef offsets defns own r rlc
      .ok (0, { o with records := [r] })
  | _ :: _ :: _ => .error .fatal  -- unsupported

/-- An entry at an object with one record does to the record what `relocate` does. -/
theorem relocateObjReloc_single {o : Object} {r : ObjRec} (hrecords : o.records = [r])
    (rlc : ObjRlc) :
    (relocateObjReloc undef offsets defns own o rlc).map Prod.snd =
      (relocate undef offsets defns own r rlc).map fun r ↦ { o with records := [r] } := by
  unfold relocateObjReloc
  rw [hrecords]
  dsimp only
  split
  · rename_i hinvalid
    have ho : o = { o with records := [r] } := by rw [← hrecords]
    rw [relocate, if_pos hinvalid]
    exact congrArg Except.ok ho
  · cases relocate undef offsets defns own r rlc <;> rfl

/-- `do_link_relocate_obj` takes the entries one after another. -/
theorem relocateObj_eq_foldlM {o : Object} (hrecords : o.records ≠ []) :
    relocateObj undef offsets defns own o =
      o.relocs.foldlM
        (fun o rlc ↦ (relocateObjReloc undef offsets defns own o rlc).map Prod.snd) o := by
  have hsingle : ∀ (rlcs : List ObjRlc) (r : ObjRec),
      rlcs.foldlM (fun o rlc ↦ (relocateObjReloc undef offsets defns own o rlc).map Prod.snd)
          { o with records := [r] } =
        (rlcs.foldlM (relocate undef offsets defns own) r).map
          fun r ↦ { o with records := [r] } := by
    intro rlcs
    induction rlcs with
    | nil =>
      intro r
      rfl
    | cons rlc rlcs ih =>
      intro r
      rw [List.foldlM_cons, List.foldlM_cons,
        relocateObjReloc_single undef offsets defns own (r := r) rfl]
      cases relocate undef offsets defns own r rlc with
      | error stop => rfl
      | ok r' => exact ih r'
  unfold relocateObj
  split
  · contradiction
  · rename_i r hr
    have ho : o = { o with records := [r] } := by rw [← hr]
    rw [ho, hsingle]
    cases List.foldlM (relocate undef offsets defns own) r o.relocs <;> rfl
  · rename_i r r' rest hr
    cases hrelocs : o.relocs with
    | nil => rfl
    | cons rlc rlcs =>
      have hfatal : relocateObjReloc undef offsets defns own o rlc = .error .fatal := by
        rw [relocateObjReloc, hr]
      rw [List.foldlM_cons, hfatal]
      rfl

end Entries

/-! ## Safety -/

/-- The left shift that makes the mask of an entry. -/
def shiftCount (rlc : ObjRlc) : Word := rlc.width - 1#32

/-- The entry is reported and nothing changes, the linker stops, or it writes one word within the
record, with a mask from a shift that is in range. -/
def SafeOutcome (o : Object) (rlc : ObjRlc) (outcome : Except LinkStop (ℕ × Object)) : Prop :=
  outcome = .ok (1, o) ∨ outcome = .error .fatal ∨
    ∃ r index word, o.records = [r] ∧ index < r.size.toNat ∧
      outcome = .ok (0, { o with records := [{ r with data := r.data.set index word }] }) ∧
        (shiftCount rlc).toNat < 32

/-- An object that `obj_read` has accepted; earlier entries may have changed words of its records. -/
def Loaded (o : Object) : Prop :=
  ∃ filesize s f s', objRead filesize s = .ok (f, s') ∧ o.relocs = f.object.relocs ∧
    o.records.map (fun r ↦ (r.addr, r.data.length)) =
      f.records.map fun r ↦ (r.addr, r.data.length)

theorem Loaded.length_le {o : Object} (h : Loaded o) {r : ObjRec} (hr : r ∈ o.records) :
    r.data.length ≤ objMaxRecSize := by
  obtain ⟨filesize, s, f, s', hread, _, hshape⟩ := h
  obtain ⟨⟨_, hreadable⟩, _, _⟩ := (objRead_inverts filesize).sound hread
  have hmem : (r.addr, r.data.length) ∈ o.records.map fun r ↦ (r.addr, r.data.length) :=
    List.mem_map_of_mem hr
  rw [hshape] at hmem
  obtain ⟨r', hr', heq⟩ := List.mem_map.mp hmem
  rw [← (Prod.mk.inj heq).2]
  exact hreadable.limits.recSize r' hr'

/-- The entry gets as far as a write. -/
structure Writes (defns : List Defn) (o : Object) (rlc : ObjRlc) (r : ObjRec) : Prop where
  records : o.records = [r]
  lower : r.addr ≤ rlc.addr
  upper : rlc.addr - r.addr ≤ r.size
  defined : rlc.name ≠ [] → ∃ d ∈ defns, d.name = strcopy rlc.name

/-- Whether the target of an entry can be computed. -/
theorem displacement_eq_fatal_iff (offsets : List Word) (defns : List Defn) (own : Word)
    (rlc : ObjRlc) :
    displacement offsets defns own rlc = .error .fatal ↔
      ¬ (rlc.name ≠ [] → ∃ d ∈ defns, d.name = strcopy rlc.name) := by
  unfold displacement
  cases hname : rlc.name with
  | nil => simp
  | cons c rest =>
    simp only [List.isEmpty_cons, Bool.false_eq_true, if_false, ne_eq, reduceCtorEq,
      not_false_eq_true, true_imp_iff, not_exists, not_and]
    cases hfind : defns.find? fun d ↦ d.name == strcopy (c :: rest) with
    | none =>
      rw [List.find?_eq_none] at hfind
      simpa using hfind
    | some d =>
      have hmem := List.mem_of_find?_eq_some hfind
      have hd : d.name = strcopy (c :: rest) := by simpa using List.find?_some hfind
      simp only [reduceCtorEq, false_iff]
      intro hnone
      exact hnone d hmem hd

/-- What happens when an entry gets as far as a write. -/
theorem Writes.relocateObjReloc_eq (undef : UndefinedShifts) (offsets : List Word)
    {defns : List Defn} (own : Word) {o : Object} {rlc : ObjRlc} {r : ObjRec}
    (h : Writes defns o rlc r) :
    relocateObjReloc undef offsets defns own o rlc =
      if (rlc.addr - r.addr).toNat < r.data.length then
        .ok (0,
          { o with
            records :=
              [{ r with
                 data :=
                   r.data.modify (rlc.addr - r.addr).toNat
                     (relocateWord (relocMask undef rlc.width) (addend offsets defns own rlc)) }] })
      else .error .outOfBounds := by
  have hvalid : ¬ (rlc.addr < r.addr ∨ r.size < rlc.addr - r.addr) := by
    rw [not_or, BitVec.not_lt, BitVec.not_lt]
    exact ⟨h.lower, h.upper⟩
  have hdisp : displacement offsets defns own rlc = .ok (addend offsets defns own rlc) := by
    rcases displacement_cases offsets defns own rlc with hfatal | hok
    · exact absurd h.defined ((displacement_eq_fatal_iff offsets defns own rlc).mp hfatal)
    · exact hok
  rw [relocateObjReloc, h.records]
  dsimp only
  rw [if_neg hvalid, relocate, if_neg hvalid, hdisp]
  by_cases hlt : (rlc.addr - r.addr).toNat < r.data.length
  · simp only [bind, Except.bind, if_pos hlt]
  · simp only [bind, Except.bind, if_neg hlt]

/-- Without a write, an entry is reported or fatal. -/
theorem relocateObjReloc_of_not_writes (undef : UndefinedShifts) (offsets : List Word)
    {defns : List Defn} (own : Word) {o : Object} {rlc : ObjRlc}
    (h : ∀ r, ¬ Writes defns o rlc r) :
    relocateObjReloc undef offsets defns own o rlc = .ok (1, o) ∨
      relocateObjReloc undef offsets defns own o rlc = .error .fatal := by
  unfold relocateObjReloc
  split
  · exact .inr rfl
  · rename_i r hrecords
    split
    · exact .inl rfl
    · rename_i hvalid
      rw [not_or, BitVec.not_lt, BitVec.not_lt] at hvalid
      have hfatal : displacement offsets defns own rlc = .error .fatal := by
        rw [displacement_eq_fatal_iff]
        intro hdefined
        exact h r ⟨hrecords, hvalid.1, hvalid.2, hdefined⟩
      right
      rw [relocate, if_neg (by rw [not_or, BitVec.not_lt, BitVec.not_lt]; exact hvalid), hfatal]
      rfl
  · exact .inr rfl

/-- An entry of an accepted object is safe exactly when, if it gets as far as a write, its address is
not the end of the record and its width is one of a field. -/
theorem relocateObjReloc_safe_iff (undef : UndefinedShifts) (offsets : List Word)
    (defns : List Defn) (own : Word) {o : Object} (h : Loaded o) (rlc : ObjRlc) :
    SafeOutcome o rlc (relocateObjReloc undef offsets defns own o rlc) ↔
      ∀ r, Writes defns o rlc r →
        rlc.addr - r.addr ≠ r.size ∧ 1 ≤ rlc.width.toNat ∧ rlc.width.toNat ≤ 32 := by
  have hshift : (shiftCount rlc).toNat < 32 ↔ 1 ≤ rlc.width.toNat ∧ rlc.width.toNat ≤ 32 := by
    rw [shiftCount, BitVec.toNat_sub]
    have hlt := rlc.width.isLt
    change (2 ^ 32 - 1 + rlc.width.toNat) % 2 ^ 32 < 32 ↔ _
    omega
  constructor
  · intro hsafe r hwrites
    rw [hwrites.relocateObjReloc_eq undef offsets own] at hsafe
    rcases hsafe with hinvalid | hfatal | ⟨r', index, word, hrecords, hindex, hout, hcount⟩
    · split at hinvalid <;> cases hinvalid
    · split at hfatal <;> cases hfatal
    · obtain rfl : r = r' := by simpa using hwrites.records.symm.trans hrecords
      split at hout
      · rename_i hlt
        refine ⟨?_, hshift.mp hcount⟩
        intro hend
        rw [hend] at hlt
        have hsize := h.length_le (r := r) (by rw [hrecords]; exact List.mem_singleton_self r)
        rw [size_toNat (by rw [objMaxRecSize] at hsize; omega)] at hlt
        exact absurd hlt (Nat.lt_irrefl _)
      · cases hout
  · intro hcond
    by_cases hwrites : ∃ r, Writes defns o rlc r
    · obtain ⟨r, hwrites⟩ := hwrites
      obtain ⟨hne, hwidth⟩ := hcond r hwrites
      have hmax := h.length_le (r := r)
        (by rw [hwrites.records]; exact List.mem_singleton_self r)
      have hsize : r.size.toNat = r.data.length :=
        size_toNat (by rw [objMaxRecSize] at hmax; omega)
      have hindex : (rlc.addr - r.addr).toNat < r.size.toNat := by
        have hle := BitVec.le_def.mp hwrites.upper
        have hne' : (rlc.addr - r.addr).toNat ≠ r.size.toNat :=
          fun heq ↦ hne (BitVec.eq_of_toNat_eq heq)
        omega
      right
      right
      rw [hwrites.relocateObjReloc_eq undef offsets own, if_pos (by rw [← hsize]; exact hindex)]
      refine ⟨r, _, relocateWord (relocMask undef rlc.width) (addend offsets defns own rlc)
        (r.data.getD (rlc.addr - r.addr).toNat 0#32), hwrites.records, hindex, ?_,
          hshift.mpr hwidth⟩
      rw [List.modify_eq_set, List.getD_eq_getElem?_getD]
      rfl
    · rcases relocateObjReloc_of_not_writes undef offsets own (not_exists.mp hwrites) with
        hinvalid | hfatal
      · exact .inl hinvalid
      · exact .inr (.inl hfatal)

/-! ## Whole objects -/

/-- The entries and the places of the words, which relocations leave alone. -/
structure SamePlaces (o o' : Object) : Prop where
  relocs : o'.relocs = o.relocs
  records : o'.records.map (fun r ↦ (r.addr, r.data.length)) =
    o.records.map fun r ↦ (r.addr, r.data.length)

theorem relocateObjReloc_samePlaces (undef : UndefinedShifts) (offsets : List Word)
    {defns : List Defn} (own : Word) {o o' : Object} {rlc : ObjRlc} {code : ℕ}
    (h : relocateObjReloc undef offsets defns own o rlc = .ok (code, o')) : SamePlaces o o' := by
  by_cases hwrites : ∃ r, Writes defns o rlc r
  · obtain ⟨r, hwrites⟩ := hwrites
    rw [hwrites.relocateObjReloc_eq undef offsets own] at h
    split at h
    · cases h
      refine ⟨rfl, ?_⟩
      rw [hwrites.records]
      simp
    · cases h
  · rcases relocateObjReloc_of_not_writes undef offsets own (not_exists.mp hwrites) with
      hinvalid | hfatal
    · rw [hinvalid] at h
      cases h
      exact ⟨rfl, rfl⟩
    · rw [hfatal] at h
      cases h

theorem SamePlaces.loaded {o o' : Object} (h : SamePlaces o o') (hloaded : Loaded o) : Loaded o' := by
  obtain ⟨filesize, s, f, s', hread, hrelocs, hrecords⟩ := hloaded
  exact ⟨filesize, s, f, s', hread, h.relocs.trans hrelocs, h.records.trans hrecords⟩

/-- An entry that writes after others have was to write before them, at the same place. -/
theorem SamePlaces.writes {defns : List Defn} {o o' : Object} (h : SamePlaces o o') {rlc : ObjRlc}
    {r' : ObjRec} (hwrites : Writes defns o' rlc r') :
    ∃ r, Writes defns o rlc r ∧ r.addr = r'.addr ∧ r.size = r'.size := by
  have hrecords := h.records
  rw [hwrites.records] at hrecords
  obtain ⟨r, hr, hshape⟩ := List.map_eq_singleton_iff.mp hrecords.symm
  obtain ⟨haddr, hlength⟩ := Prod.mk.inj hshape
  have hsize : r.size = r'.size := congrArg (BitVec.ofNat 32) hlength
  refine ⟨r, ⟨hr, ?_, ?_, hwrites.defined⟩, haddr, hsize⟩
  · rw [haddr]
    exact hwrites.lower
  · rw [haddr, hsize]
    exact hwrites.upper

/-- Whether an entry is for the end of the record. -/
def AtEnd (defns : List Defn) (o : Object) (rlc : ObjRlc) : Prop :=
  ∃ r, Writes defns o rlc r ∧ rlc.addr - r.addr = r.size

theorem relocateObjReloc_ne_outOfBounds (undef : UndefinedShifts) (offsets : List Word)
    {defns : List Defn} (own : Word) {o : Object} (h : Loaded o) {rlc : ObjRlc}
    (hend : ¬ AtEnd defns o rlc) :
    relocateObjReloc undef offsets defns own o rlc ≠ .error .outOfBounds := by
  intro hout
  by_cases hwrites : ∃ r, Writes defns o rlc r
  · obtain ⟨r, hwrites⟩ := hwrites
    have hmax := h.length_le (r := r) (by rw [hwrites.records]; exact List.mem_singleton_self r)
    have hsize : r.size.toNat = r.data.length := size_toNat (by rw [objMaxRecSize] at hmax; omega)
    have hindex : ¬ (rlc.addr - r.addr).toNat < r.data.length := by
      rw [hwrites.relocateObjReloc_eq undef offsets own] at hout
      split at hout
      · cases hout
      · assumption
    have hle := BitVec.le_def.mp hwrites.upper
    exact hend ⟨r, hwrites, BitVec.eq_of_toNat_eq (by omega)⟩
  · rcases relocateObjReloc_of_not_writes undef offsets own (not_exists.mp hwrites) with
      hinvalid | hfatal
    · rw [hinvalid] at hout
      cases hout
    · rw [hfatal] at hout
      cases hout

/-- An accepted object without an entry for the end of its record is relocated inside the record. -/
theorem relocateObj_ne_outOfBounds (undef : UndefinedShifts) (offsets : List Word)
    {defns : List Defn} (own : Word) {o : Object} (h : Loaded o)
    (hend : ∀ rlc ∈ o.relocs, ¬ AtEnd defns o rlc) :
    relocateObj undef offsets defns own o ≠ .error .outOfBounds := by
  -- the objects between two entries have the shape of the first one
  have hfold : ∀ (rlcs : List ObjRlc) (o' : Object), SamePlaces o o' →
      (∀ rlc ∈ rlcs, ¬ AtEnd defns o rlc) →
      rlcs.foldlM
          (fun o rlc ↦ (relocateObjReloc undef offsets defns own o rlc).map Prod.snd) o' ≠
        .error .outOfBounds := by
    intro rlcs
    induction rlcs with
    | nil =>
      intro o' _ _ hout
      cases hout
    | cons rlc rlcs ih =>
      intro o' hshape hrlcs hout
      have hend' : ¬ AtEnd defns o' rlc := by
        rintro ⟨r', hwrites, heq⟩
        obtain ⟨r, hwrites', haddr, hsize⟩ := hshape.writes hwrites
        refine hrlcs rlc List.mem_cons_self ⟨r, hwrites', ?_⟩
        rw [haddr, hsize]
        exact heq
      have hne := relocateObjReloc_ne_outOfBounds undef offsets own (hshape.loaded h) hend'
      rw [List.foldlM_cons] at hout
      cases hstep : relocateObjReloc undef offsets defns own o' rlc with
      | error stop =>
        rw [hstep] at hout
        cases hout
        exact hne hstep
      | ok result =>
        obtain ⟨code, next⟩ := result
        have hnext := relocateObjReloc_samePlaces undef offsets own hstep
        rw [hstep] at hout
        exact ih next ⟨hnext.relocs.trans hshape.relocs, hnext.records.trans hshape.records⟩
          (fun rlc' hrlc' ↦ hrlcs rlc' (List.mem_cons_of_mem _ hrlc')) hout
  by_cases hrecords : o.records = []
  · intro hout
    rw [relocateObj, hrecords] at hout
    cases hout
  · rw [relocateObj_eq_foldlM undef offsets defns own hrecords]
    exact hfold o.relocs o ⟨rfl, rfl⟩ hend

/-! ## An address at the end of the record -/

/-- What is written for an object that satisfies the limits is accepted. -/
theorem loaded_object {f : ObjFile} (hversion : f.version = 0#8)
    (hreadable : f.Readable none 4) : Loaded f.object :=
  ⟨none, { pos := 0, rest := objV0Write f ++ [] }, f, _,
    (objRead_inverts none).complete ⟨hversion, hreadable⟩ [], rfl, rfl⟩

/-- An object with one word, which an unnamed relocation addresses. -/
def wordFile : ObjFile where
  version := 0#8
  flags := 0#32
  recCount := 1#32
  records := [{ addr := 0#32, data := [5#32] }]
  symCount := 0#32
  symbols := []
  rlcCount := 1#32
  relocs := [{ flags := 0#32, name := .replicate symbolLen 0#8, addr := 0#32, width := 32#32 }]

/-- One word, and a relocation of the word behind it. -/
def overrunFile : ObjFile :=
  { wordFile with
    relocs := [{ flags := 0#32, name := .replicate symbolLen 0#8, addr := 1#32, width := 32#32 }] }

theorem loaded_overrunFile : Loaded overrunFile.object :=
  loaded_object rfl ⟨⟨rfl, rfl, rfl⟩, ⟨by decide, by decide, by decide, by decide⟩,
    ⟨by decide, by decide⟩, trivial⟩

/-- Three words from address 2 on, the last of which is relocated by the value of `x`. -/
def namedFile : ObjFile :=
  { wordFile with
    records := [{ addr := 2#32, data := [1#32, 2#32, 3#32] }]
    relocs := [{ flags := 0#32, name := fieldOfX, addr := 4#32, width := 12#32 }] }

theorem loaded_namedFile : Loaded namedFile.object :=
  loaded_object rfl ⟨⟨rfl, rfl, rfl⟩, ⟨by decide, by decide, by decide, by decide⟩,
    ⟨by decide, by decide⟩, trivial⟩

/-- The last word of a record is in it. -/
theorem relocateObjReloc_safe_last :
    SafeOutcome namedFile.object { flags := 0#32, name := ['x'], addr := 4#32, width := 12#32 }
      (relocateObjReloc .masked [0#32] [{ name := ['x'], obj := 0, reladdr := 7#32, flags := 0#32 }]
        0#32 namedFile.object { flags := 0#32, name := ['x'], addr := 4#32, width := 12#32 }) := by
  apply (relocateObjReloc_safe_iff .masked _ _ _ loaded_namedFile _).mpr
  intro r hwrites
  obtain rfl : _ = r := List.singleton_inj.mp hwrites.records
  decide

/-- The relocation of `overrunFile` writes behind the record. -/
theorem relocateObjReloc_overrun :
    Loaded overrunFile.object ∧ ∃ rlc ∈ overrunFile.object.relocs,
      ¬ SafeOutcome overrunFile.object rlc
        (relocateObjReloc .masked [0#32] [] 0#32 overrunFile.object rlc) := by
  refine ⟨loaded_overrunFile, { flags := 0#32, name := [], addr := 1#32, width := 32#32 }, ?_, ?_⟩
  · exact List.mem_singleton_self _
  · have hout : relocateObjReloc .masked [0#32] [] 0#32 overrunFile.object
        { flags := 0#32, name := [], addr := 1#32, width := 32#32 } = .error .outOfBounds := rfl
    rw [hout]
    rintro (hinvalid | hfatal | ⟨_, _, _, _, _, hwrite, _⟩)
    · cases hinvalid
    · cases hfatal
    · cases hwrite

end Tenyr.Link
