import Tenyr.Link.Image
import Tenyr.Obj.Codec
import Tenyr.Lib.Packing

/-!
# The layout of linked images

`do_link_build_state` and `do_link_emit` both walk the objects and add up sizes: the former those of
first records, the latter those of all records. They agree on an object when the objects before it have
nothing, modulo the size of the address space, in further records.
-/

namespace Tenyr.Link

open Isa Obj Lib.Packing

/-! ## What the two passes compute -/

/-- The length of the record that the first pass counts. -/
def firstLength (o : Object) : ℕ := (o.records.head?.map fun r ↦ r.data.length).getD 0

def firstLengths (objs : List Object) : List ℕ := objs.map firstLength

/-- The lengths of all records, in the order in which they are emitted. -/
def recordLengths (objs : List Object) : List ℕ :=
  (objs.flatMap Object.records).map fun r ↦ r.data.length

/-- The position among all records at which those of the object at position `n` start. -/
def recordIndex (objs : List Object) (n : ℕ) : ℕ := ((objs.take n).flatMap Object.records).length

/-- The words of an object that are not in its first record. -/
def extraLength (o : Object) : ℕ := (o.records.tail.map fun r ↦ r.data.length).sum

def extraWords (objs : List Object) : ℕ := (objs.map extraLength).sum

@[simp]
theorem firstLengths_cons (o : Object) (objs : List Object) :
    firstLengths (o :: objs) = firstLength o :: firstLengths objs := rfl

@[simp]
theorem recordLengths_cons (o : Object) (objs : List Object) :
    recordLengths (o :: objs) =
      o.records.map (fun r ↦ r.data.length) ++ recordLengths objs := by
  rw [recordLengths, List.flatMap_cons, List.map_append]
  rfl

@[simp]
theorem extraWords_cons (o : Object) (objs : List Object) :
    extraWords (o :: objs) = extraLength o + extraWords objs := rfl

theorem linkedSize_eq (o : Object) : linkedSize o = BitVec.ofNat 32 (firstLength o) := by
  rw [linkedSize, firstLength]
  cases o.records.head? <;> rfl

theorem sum_records (o : Object) :
    (o.records.map fun r ↦ r.data.length).sum = firstLength o + extraLength o := by
  rw [firstLength, extraLength]
  cases o.records <;> simp

theorem offsetsFrom_getElem?_start (running : Word) (objs : List Object) (n : ℕ) :
    (offsetsFrom running objs)[n]? =
      objs[n]?.map fun _ ↦ running + BitVec.ofNat 32 (start (firstLengths objs) n) := by
  induction objs generalizing running n with
  | nil => rfl
  | cons o rest ih =>
    rw [offsetsFrom]
    cases n with
    | zero => simp
    | succ n =>
      rw [List.getElem?_cons_succ, List.getElem?_cons_succ, ih, linkedSize_eq, firstLengths_cons,
        start_cons_succ, BitVec.ofNat_add, BitVec.add_assoc]

theorem emitFrom_getElem? (addr : Word) (records : List ObjRec) (i : ℕ) :
    (emitFrom addr records)[i]? = records[i]?.map fun r ↦
      { r with
        addr := addr + BitVec.ofNat 32 (start (records.map fun r ↦ r.data.length) i) } := by
  induction records generalizing addr i with
  | nil => rfl
  | cons r rest ih =>
    rw [emitFrom]
    cases i with
    | zero => simp
    | succ i =>
      rw [List.getElem?_cons_succ, List.getElem?_cons_succ, ih, List.map_cons, start_cons_succ,
        BitVec.ofNat_add, ← BitVec.add_assoc]
      rfl

/-- All words of objects are in first records or in others. -/
theorem sum_recordLengths (objs : List Object) :
    (recordLengths objs).sum = (firstLengths objs).sum + extraWords objs := by
  induction objs with
  | nil => rfl
  | cons o rest ih =>
    rw [recordLengths_cons, List.sum_append, sum_records, ih, firstLengths_cons, List.sum_cons,
      extraWords_cons]
    omega

/-- The records of the first objects are the first records. -/
theorem start_recordIndex (objs : List Object) (n : ℕ) :
    start (recordLengths objs) (recordIndex objs n) = (recordLengths (objs.take n)).sum := by
  have hsplit : objs.flatMap Object.records =
      (objs.take n).flatMap Object.records ++ (objs.drop n).flatMap Object.records := by
    rw [← List.flatMap_append, List.take_append_drop]
  rw [start, recordLengths, recordIndex, ← List.map_take, hsplit, List.take_left, recordLengths]

theorem start_firstLengths (objs : List Object) (n : ℕ) :
    start (firstLengths objs) n = (firstLengths (objs.take n)).sum := by
  rw [start, firstLengths, firstLengths, List.map_take]

/-! ## Relocation keeps the layout -/

/-- Records of the same lengths in the same places. -/
def SameShape (objs objs' : List Object) : Prop :=
  List.Forall₂ (fun o o' ↦ List.Forall₂ (fun r r' : ObjRec ↦ r.data.length = r'.data.length)
    o.records o'.records) objs objs'

theorem SameShape.recordLengths_eq {objs objs' : List Object} (h : SameShape objs objs') :
    recordLengths objs = recordLengths objs' := by
  have hrecords : ∀ records records' : List ObjRec,
      List.Forall₂ (fun r r' ↦ r.data.length = r'.data.length) records records' →
        records.map (fun r ↦ r.data.length) = records'.map fun r ↦ r.data.length := by
    intro records records' hshape
    induction hshape with
    | nil => rfl
    | cons hr _ ih => rw [List.map_cons, List.map_cons, hr, ih]
  induction h with
  | nil => rfl
  | cons ho _ ih => rw [recordLengths_cons, recordLengths_cons, hrecords _ _ ho, ih]

section Relocation

variable (undef : UndefinedShifts) (offsets : List Word) (defns : List Defn)

theorem relocate_length {own : Word} {r r' : ObjRec} {rlc : ObjRlc}
    (h : relocate undef offsets defns own r rlc = .ok r') : r.data.length = r'.data.length := by
  unfold relocate at h
  split at h
  · rw [Except.ok.inj h]
  · cases hdisp : displacement offsets defns own rlc with
    | error stop =>
      rw [hdisp] at h
      cases h
    | ok reladdr =>
      rw [hdisp] at h
      change (if _ then _ else _) = _ at h
      split at h
      · rw [← Except.ok.inj h, List.length_modify]
      · cases h

theorem relocateObj_shape {own : Word} {o o' : Object}
    (h : relocateObj undef offsets defns own o = .ok o') :
    List.Forall₂ (fun r r' : ObjRec ↦ r.data.length = r'.data.length) o.records o'.records := by
  have hfold : ∀ (rlcs : List ObjRlc) (r r' : ObjRec),
      rlcs.foldlM (relocate undef offsets defns own) r = .ok r' →
        r.data.length = r'.data.length := by
    intro rlcs
    induction rlcs with
    | nil =>
      intro r r' hr
      rw [Except.ok.inj hr]
    | cons rlc rlcs ih =>
      intro r r' hr
      rw [List.foldlM_cons] at hr
      cases hfirst : relocate undef offsets defns own r rlc with
      | error stop =>
        rw [hfirst] at hr
        cases hr
      | ok r₁ =>
        rw [hfirst] at hr
        exact (relocate_length undef offsets defns hfirst).trans (ih r₁ r' hr)
  have hrefl : ∀ records : List ObjRec,
      List.Forall₂ (fun r r' : ObjRec ↦ r.data.length = r'.data.length) records records :=
    fun records ↦ List.forall₂_same.mpr fun _ _ ↦ rfl
  unfold relocateObj at h
  split at h
  · obtain rfl := Except.ok.inj h
    exact hrefl _
  · rename_i r hrecords
    cases hr : o.relocs.foldlM (relocate undef offsets defns own) r with
    | error stop =>
      rw [hr] at h
      cases h
    | ok r' =>
      rw [hr] at h
      rw [← Except.ok.inj h, hrecords]
      exact .cons (hfold _ _ _ hr) .nil
  · split at h
    · obtain rfl := Except.ok.inj h
      exact hrefl _
    · cases h

theorem relocateAll_shape {owns : List Word} {objs objs' : List Object}
    (hlength : owns.length = objs.length)
    (h : relocateAll undef offsets defns owns objs = .ok objs') : SameShape objs objs' := by
  induction objs generalizing owns objs' with
  | nil =>
    have hnil : relocateAll undef offsets defns owns [] = .ok [] := by
      cases owns <;> rfl
    obtain rfl := Except.ok.inj (hnil.symm.trans h)
    exact .nil
  | cons o rest ih =>
    cases owns with
    | nil => cases hlength
    | cons own owns =>
      rw [relocateAll] at h
      cases ho : relocateObj undef offsets defns own o with
      | error stop =>
        rw [ho] at h
        cases h
      | ok o' =>
        rw [ho] at h
        cases hrest : relocateAll undef offsets defns owns rest with
        | error stop =>
          rw [hrest] at h
          cases h
        | ok rest' =>
          rw [hrest] at h
          obtain rfl := Except.ok.inj h
          exact .cons (relocateObj_shape undef offsets defns ho)
            (ih (Nat.succ.inj hlength) hrest)

end Relocation

/-! ## Emitted records -/

/-- Records of some lengths, one after another from address 0. -/
structure Packed (lengths : List ℕ) (image : List ObjRec) : Prop where
  lengths_eq : image.map (fun r ↦ r.data.length) = lengths
  addr : ∀ (i : ℕ) r, image[i]? = some r → r.addr = BitVec.ofNat 32 (start lengths i)

namespace Packed

variable {lengths : List ℕ} {image : List ObjRec}

theorem emitFrom (records : List ObjRec) :
    Packed (records.map fun r ↦ r.data.length) (emitFrom 0#32 records) where
  lengths_eq := by
    apply List.ext_getElem?
    intro i
    rw [List.getElem?_map, List.getElem?_map, emitFrom_getElem?, Option.map_map]
    rfl
  addr := by
    intro i r hr
    rw [emitFrom_getElem?, Option.map_eq_some_iff] at hr
    obtain ⟨r', _, rfl⟩ := hr
    exact BitVec.zero_add _

theorem length_getElem? (h : Packed lengths image) {i : ℕ} {r : ObjRec} (hr : image[i]? = some r) :
    lengths[i]? = some r.data.length := by
  rw [← h.lengths_eq, List.getElem?_map, hr]
  rfl

theorem exists_getElem? (h : Packed lengths image) {i l : ℕ} (hl : lengths[i]? = some l) :
    ∃ r, image[i]? = some r ∧ r.data.length = l := by
  rw [← h.lengths_eq, List.getElem?_map, Option.map_eq_some_iff] at hl
  exact hl

theorem contiguous (h : Packed lengths image) (i : ℕ) (r r' : ObjRec) (hr : image[i]? = some r)
    (hr' : image[i + 1]? = some r') : r'.addr = r.addr + r.size := by
  rw [h.addr i r hr, h.addr (i + 1) r' hr', start_succ (h.length_getElem? hr), BitVec.ofNat_add]
  rfl

/-- Records share no address exactly when they fit into the address space. -/
theorem disjoint_iff (h : Packed lengths image) (hle : ∀ l ∈ lengths, l ≤ 2 ^ 32) :
    (∀ (i j : ℕ) r r', image[i]? = some r → image[j]? = some r' → i ≠ j →
      ∀ k < r.data.length, ∀ l < r'.data.length,
        r.addr + BitVec.ofNat 32 k ≠ r'.addr + BitVec.ofNat 32 l) ↔ lengths.sum ≤ 2 ^ 32 := by
  have haddr : ∀ (i k : ℕ) r, image[i]? = some r →
      (r.addr + BitVec.ofNat 32 k).toNat = (start lengths i + k) % 2 ^ 32 := by
    intro i k r hr
    rw [h.addr i r hr, ← BitVec.ofNat_add, BitVec.toNat_ofNat]
  rw [← disjointMod_iff (by decide) hle]
  constructor
  · intro hdisjoint i j li lj hi hj hne k hk l hl heq
    obtain ⟨r, hr, rfl⟩ := h.exists_getElem? hi
    obtain ⟨r', hr', rfl⟩ := h.exists_getElem? hj
    apply hdisjoint i j r r' hr hr' hne k hk l hl
    apply BitVec.eq_of_toNat_eq
    rw [haddr i k r hr, haddr j l r' hr', heq]
  · intro hdisjoint i j r r' hr hr' hne k hk l hl heq
    apply hdisjoint i j _ _ (h.length_getElem? hr) (h.length_getElem? hr') hne k hk l hl
    rw [← haddr i k r hr, ← haddr j l r' hr', heq]

end Packed

/-! ## Agreement -/

/-- Objects start where the first pass says, the records of the image follow each other from address 0
without sharing an address, and they are the records of the objects, relocated. -/
structure LayoutAgrees (undef : UndefinedShifts) (objs : List Object) (image : List ObjRec) :
    Prop where
  offsets : ∀ (n : ℕ) o, objs[n]? = some o → o.records ≠ [] →
    ∃ r, image[recordIndex objs n]? = some r ∧ (offsetsFrom 0#32 objs)[n]? = some r.addr
  zero : ∀ r, image[0]? = some r → r.addr = 0#32
  contiguous : ∀ (i : ℕ) r r', image[i]? = some r → image[i + 1]? = some r' →
    r'.addr = r.addr + r.size
  disjoint : ∀ (i j : ℕ) r r', image[i]? = some r → image[j]? = some r' → i ≠ j →
    ∀ k < r.data.length, ∀ l < r'.data.length,
      r.addr + BitVec.ofNat 32 k ≠ r'.addr + BitVec.ofNat 32 l
  once : ∃ defns objs', defnsFrom 0 [] objs = .ok defns ∧
    relocateAll undef (offsetsFrom 0#32 objs) defns (offsetsFrom 0#32 objs) objs = .ok objs' ∧
      SameShape objs objs' ∧
        image.map ObjRec.data = (objs'.flatMap Object.records).map ObjRec.data

/-- The offset of an object is the address of its first output record exactly when the objects before
it have no words, modulo the size of the address space, outside of their first records. -/
theorem ofNat_start_eq_iff (objs : List Object) (n : ℕ) :
    BitVec.ofNat 32 (start (firstLengths objs) n) =
        BitVec.ofNat 32 (start (recordLengths objs) (recordIndex objs n)) ↔
      2 ^ 32 ∣ extraWords (objs.take n) := by
  rw [start_firstLengths, start_recordIndex, sum_recordLengths, ← BitVec.toNat_inj,
    BitVec.toNat_ofNat, BitVec.toNat_ofNat]
  omega

/-- A link that succeeds packs the relocated records. -/
theorem link_eq_ok {undef : UndefinedShifts} {objs : List Object} {image : List ObjRec}
    (hlink : link undef objs = .ok image) :
    Packed (recordLengths objs) image ∧ ∃ defns objs', defnsFrom 0 [] objs = .ok defns ∧
      relocateAll undef (offsetsFrom 0#32 objs) defns (offsetsFrom 0#32 objs) objs = .ok objs' ∧
        SameShape objs objs' ∧
          image.map ObjRec.data = (objs'.flatMap Object.records).map ObjRec.data := by
  rw [link] at hlink
  cases hdefns : defnsFrom 0 [] objs with
  | error stop =>
    rw [hdefns] at hlink
    cases hlink
  | ok defns =>
    rw [hdefns] at hlink
    change (relocateAll _ _ _ _ _ >>= _) = _ at hlink
    cases hrelocate :
        relocateAll undef (offsetsFrom 0#32 objs) defns (offsetsFrom 0#32 objs) objs with
    | error stop =>
      rw [hrelocate] at hlink
      cases hlink
    | ok objs' =>
      rw [hrelocate] at hlink
      obtain rfl : Link.emitFrom 0#32 (objs'.flatMap Object.records) = image :=
        Except.ok.inj hlink
      have hshape := relocateAll_shape undef _ defns (length_offsetsFrom 0#32 objs) hrelocate
      refine ⟨?_, defns, objs', rfl, hrelocate, hshape, ?_⟩
      · rw [hshape.recordLengths_eq]
        exact Packed.emitFrom _
      · apply List.ext_getElem?
        intro i
        rw [List.getElem?_map, List.getElem?_map, emitFrom_getElem?, Option.map_map]
        rfl

/-- An object with records has a first output record. -/
theorem recordIndex_lt {objs : List Object} {n : ℕ} {o : Object} (hn : objs[n]? = some o)
    (hrecords : o.records ≠ []) : recordIndex objs n < (recordLengths objs).length := by
  have hsplit : objs = objs.take n ++ o :: objs.drop (n + 1) := by
    obtain ⟨hlt, hget⟩ := List.getElem?_eq_some_iff.mp hn
    rw [← hget, ← List.drop_eq_getElem_cons hlt, List.take_append_drop]
  have hpos := List.length_pos_iff.mpr hrecords
  have hlength : (recordLengths objs).length = recordIndex objs n +
      (o.records.length + ((objs.drop (n + 1)).flatMap Object.records).length) := by
    rw [recordLengths, List.length_map, recordIndex]
    conv_lhs => rw [hsplit]
    rw [List.flatMap_append, List.flatMap_cons, List.length_append, List.length_append]
  omega

/-- The two passes agree exactly when all words fit into the address space and, in front of every
object with records, the words that are not in first records are a multiple of its size. -/
theorem link_layout_iff {undef : UndefinedShifts} {objs : List Object} {image : List ObjRec}
    (hlink : link undef objs = .ok image)
    (hmax : ∀ o ∈ objs, ∀ r ∈ o.records, r.data.length ≤ objMaxRecSize) :
    LayoutAgrees undef objs image ↔
      (recordLengths objs).sum ≤ 2 ^ 32 ∧
        ∀ (n : ℕ) o, objs[n]? = some o → o.records ≠ [] → 2 ^ 32 ∣ extraWords (objs.take n) := by
  obtain ⟨hpacked, honce⟩ := link_eq_ok hlink
  have hle : ∀ l ∈ recordLengths objs, l ≤ 2 ^ 32 := by
    intro l hl
    obtain ⟨r, hr, rfl⟩ := List.mem_map.mp hl
    obtain ⟨o, ho, hr⟩ := List.mem_flatMap.mp hr
    have := hmax o ho r hr
    rw [objMaxRecSize] at this
    omega
  have hoffset : ∀ (n : ℕ) o, objs[n]? = some o →
      (offsetsFrom 0#32 objs)[n]? = some (BitVec.ofNat 32 (start (firstLengths objs) n)) := by
    intro n o hn
    rw [offsetsFrom_getElem?_start, hn, BitVec.zero_add]
    rfl
  constructor
  · intro hagrees
    refine ⟨(hpacked.disjoint_iff hle).mp hagrees.disjoint, ?_⟩
    intro n o hn hrecords
    obtain ⟨r, hr, haddr⟩ := hagrees.offsets n o hn hrecords
    rw [← ofNat_start_eq_iff, ← hpacked.addr _ r hr]
    exact Option.some.inj ((hoffset n o hn).symm.trans haddr)
  · rintro ⟨hsum, hextra⟩
    refine
      { offsets := ?_
        zero := fun r hr ↦ hpacked.addr 0 r hr
        contiguous := hpacked.contiguous
        disjoint := (hpacked.disjoint_iff hle).mpr hsum
        once := honce }
    intro n o hn hrecords
    have hlt := recordIndex_lt hn hrecords
    obtain ⟨r, hr, _⟩ := hpacked.exists_getElem? (List.getElem?_eq_getElem hlt)
    refine ⟨r, hr, ?_⟩
    rw [hoffset n o hn, hpacked.addr _ r hr, (ofNat_start_eq_iff objs n).mpr (hextra n o hn hrecords)]

/-! ## An object with two records -/

/-- Two records of one word, as an image of two objects has them. -/
def twoRecords : Object where
  records := [{ addr := 0#32, data := [1#32] }, { addr := 1#32, data := [2#32] }]
  symbols := []
  relocs := []

def oneRecord : Object where
  records := [{ addr := 0#32, data := [3#32] }]
  symbols := []
  relocs := []

/-- In front of nothing, two records do no harm. -/
theorem link_layout_last :
    LayoutAgrees .masked [oneRecord, twoRecords]
      [{ addr := 0#32, data := [3#32] }, { addr := 1#32, data := [1#32] },
        { addr := 2#32, data := [2#32] }] := by
  apply (link_layout_iff rfl (by decide)).mpr
  refine ⟨by decide, ?_⟩
  intro n o hn _
  rcases n with _ | _ | n
  · exact dvd_zero _
  · exact dvd_zero _
  · cases hn

/-- In front of another object, they do. -/
theorem link_layout_first :
    link .masked [twoRecords, oneRecord] =
        .ok [{ addr := 0#32, data := [1#32] }, { addr := 1#32, data := [2#32] },
          { addr := 2#32, data := [3#32] }] ∧
      ¬ LayoutAgrees .masked [twoRecords, oneRecord]
        [{ addr := 0#32, data := [1#32] }, { addr := 1#32, data := [2#32] },
          { addr := 2#32, data := [3#32] }] := by
  refine ⟨rfl, ?_⟩
  intro hagrees
  obtain ⟨r, hr, haddr⟩ := hagrees.offsets 1 oneRecord rfl (by decide)
  obtain rfl := Option.some.inj hr
  exact absurd haddr (by decide)

end Tenyr.Link
