import Tenyr.Link.Field
import Tenyr.Link.Layout

/-!
# Relocation arithmetic

What the entries of an object prescribe for its words, and that the linker does what they prescribe
except for entries that are both named and negated. Entries of one width can be reordered.
-/

namespace Tenyr.Link

open Isa Obj Asm Lib.Packing

/-! ## What entries prescribe -/

/-- Where the object at position `n` starts. -/
def objectOffset (objs : List Object) (n : ℕ) : Word :=
  BitVec.ofNat 32 (start (firstLengths objs) n)

/-- The target of an entry of the object at position `n`: the offset of that object, or the value of
the named symbol, to which the offset of its object is added unless it is absolute. -/
inductive TargetValue (objs : List Object) (n : ℕ) (rlc : ObjRlc) : Word → Prop
  | null (hname : rlc.name = []) : TargetValue objs n rlc (objectOffset objs n)
  | named {m : ℕ} {o : Object} {sym : ObjSym} (hname : rlc.name ≠ []) (ho : objs[m]? = some o)
      (hsym : sym ∈ o.symbols) (hsame : strcopy sym.name = strcopy rlc.name) :
      TargetValue objs n rlc
        (sym.value + if sym.flags &&& rlcAbsolute = 0#32 then objectOffset objs m else 0#32)

def negated (rlc : ObjRlc) : Bool := rlc.flags &&& rlcNegate != 0#32

/-- What an entry with some target prescribes for a word: the target, with its sign, is added to the
low bits, and the others stay. -/
def prescribed (rlc : ObjRlc) (target word : Word) : Word :=
  merge rlc.width.toNat word (word + signed (negated rlc) target)

/-- The entry addresses a word of the record, and its width is that of a field. -/
structure InRange (r : ObjRec) (rlc : ObjRlc) : Prop where
  lower : r.addr ≤ rlc.addr
  upper : (rlc.addr - r.addr).toNat < r.data.length
  width_pos : 0 < rlc.width.toNat
  width_le : rlc.width.toNat ≤ 32

/-- Objects with one record and entries in range, all of whose names are defined. -/
structure Relocatable (objs : List Object) : Prop where
  single : ∀ o ∈ objs, ∃ r, o.records = [r] ∧ r.data.length < 2 ^ 32 ∧
    ∀ rlc ∈ o.relocs, InRange r rlc
  defined : ∀ o ∈ objs, ∀ rlc ∈ o.relocs, rlc.name ≠ [] →
    ∃ o' ∈ objs, ∃ sym ∈ o'.symbols, strcopy sym.name = strcopy rlc.name

/-! ## What the linker adds -/

section Entry

variable (undef : UndefinedShifts) (offsets : List Word) (defns : List Defn) (own : Word)

/-- What an entry in range does to the words of a record at address `base`. -/
def update (base : Word) (data : List Word) (rlc : ObjRlc) : List Word :=
  data.modify (rlc.addr - base).toNat
    (relocateWord (fieldMask rlc.width.toNat) (addend offsets defns own rlc))

@[simp]
theorem length_update (base : Word) (data : List Word) (rlc : ObjRlc) :
    (update offsets defns own base data rlc).length = data.length := List.length_modify ..

/-- An entry in range updates its word, unless its name has no definition. -/
theorem relocate_inRange {r : ObjRec} {rlc : ObjRlc} (hlength : r.data.length < 2 ^ 32)
    (h : InRange r rlc) :
    relocate undef offsets defns own r rlc =
      if displacement offsets defns own rlc = .error .fatal then .error .fatal
      else .ok { r with data := update offsets defns own r.addr r.data rlc } := by
  have hsize : r.size.toNat = r.data.length := size_toNat hlength
  have hvalid : ¬ (rlc.addr < r.addr ∨ r.size < rlc.addr - r.addr) := by
    rw [not_or, BitVec.not_lt]
    refine ⟨h.lower, ?_⟩
    rw [BitVec.lt_def, hsize]
    exact Nat.not_lt.mpr (Nat.le_of_lt h.upper)
  have hmask : relocMask undef rlc.width = fieldMask rlc.width.toNat := by
    have hwidth := relocMask_eq undef h.width_pos h.width_le
    rwa [BitVec.ofNat_toNat, BitVec.setWidth_eq] at hwidth
  rw [relocate, if_neg hvalid]
  rcases displacement_cases offsets defns own rlc with hfatal | hok
  · rw [hfatal, if_pos rfl]
    rfl
  · rw [hok]
    simp only [bind, Except.bind, if_pos h.upper, reduceCtorEq, if_false]
    rw [hmask]
    rfl

/-- All entries of a record are in range of it whatever its words are. -/
theorem InRange.of_length {r r' : ObjRec} {rlc : ObjRlc} (h : InRange r rlc)
    (haddr : r'.addr = r.addr) (hlength : r'.data.length = r.data.length) : InRange r' rlc where
  lower := by
    rw [haddr]
    exact h.lower
  upper := by
    rw [haddr, hlength]
    exact h.upper
  width_pos := h.width_pos
  width_le := h.width_le

/-- Entries in range update their words one after another, unless a name has no definition. -/
theorem foldlM_relocate_inRange {r : ObjRec} (hlength : r.data.length < 2 ^ 32)
    {rlcs : List ObjRlc} (h : ∀ rlc ∈ rlcs, InRange r rlc) :
    rlcs.foldlM (relocate undef offsets defns own) r =
      if ∃ rlc ∈ rlcs, displacement offsets defns own rlc = .error .fatal then .error .fatal
      else .ok { r with data := rlcs.foldl (update offsets defns own r.addr) r.data } := by
  induction rlcs generalizing r with
  | nil => simp [pure, Except.pure]
  | cons rlc rlcs ih =>
    rw [List.foldlM_cons, relocate_inRange undef offsets defns own hlength (h rlc List.mem_cons_self)]
    by_cases hfatal : displacement offsets defns own rlc = .error .fatal
    · rw [if_pos hfatal, if_pos ⟨rlc, List.mem_cons_self, hfatal⟩]
      rfl
    · rw [if_neg hfatal]
      refine (ih (r := { r with data := update offsets defns own r.addr r.data rlc })
        (by rw [length_update]; exact hlength) fun rlc' hmem ↦
          (h rlc' (List.mem_cons_of_mem _ hmem)).of_length rfl (length_update ..)).trans ?_
      simp only [List.mem_cons, exists_eq_or_imp, hfatal, false_or, List.foldl_cons]

/-- Two entries commute if they have one width or different addresses. -/
theorem update_comm {base : Word} {a b : ObjRlc} (hle : b.width.toNat ≤ 32)
    (hwidth : a.addr = b.addr → a.width = b.width) (data : List Word) :
    update offsets defns own base (update offsets defns own base data a) b =
      update offsets defns own base (update offsets defns own base data b) a := by
  apply List.ext_getElem?
  intro index
  simp only [update, List.getElem?_modify]
  cases data[index]? with
  | none => rfl
  | some word =>
    simp only [Option.map_eq_map, Option.map_some]
    by_cases ha : (a.addr - base).toNat = index
    · by_cases hb : (b.addr - base).toNat = index
      · have haddr : a.addr = b.addr := by
          have hdiff : a.addr - base = b.addr - base :=
            BitVec.eq_of_toNat_eq (ha.trans hb.symm)
          simpa using congrArg (· + base) hdiff
        simp only [if_pos ha, if_pos hb]
        rw [hwidth haddr, relocateWord_relocateWord hle, relocateWord_relocateWord hle,
          BitVec.add_comm]
      · simp only [if_pos ha, if_neg hb]
    · simp only [if_neg ha]

/-- The result does not depend on the order of entries that have one width where they address one
word. -/
theorem foldlM_relocate_perm {r : ObjRec} (hlength : r.data.length < 2 ^ 32)
    {before es es' after : List ObjRlc} (hperm : es.Perm es')
    (h : ∀ rlc ∈ before ++ es ++ after, InRange r rlc)
    (hwidth : ∀ a ∈ es, ∀ b ∈ es, a.addr = b.addr → a.width = b.width) :
    (before ++ es ++ after).foldlM (relocate undef offsets defns own) r =
      (before ++ es' ++ after).foldlM (relocate undef offsets defns own) r := by
  have hmem : ∀ rlc, rlc ∈ before ++ es' ++ after ↔ rlc ∈ before ++ es ++ after := by
    intro rlc
    simp only [List.mem_append, hperm.mem_iff]
  have hle : ∀ b ∈ es, b.width.toNat ≤ 32 := by
    intro b hb
    exact (h b (List.mem_append_left _ (List.mem_append_right _ hb))).width_le
  rw [foldlM_relocate_inRange undef offsets defns own hlength h,
    foldlM_relocate_inRange undef offsets defns own hlength fun rlc hrlc ↦ h rlc ((hmem rlc).mp hrlc)]
  simp only [hmem, List.foldl_append]
  rw [hperm.foldl_eq' fun a ha b hb data ↦
    update_comm offsets defns own (hle b hb) (hwidth a ha b hb) data]

end Entry

/-! ## Targets -/

section Targets

variable {objs : List Object} {defns : List Defn}

theorem offsetsFrom_getD (objs : List Object) {n : ℕ} {o : Object} (hn : objs[n]? = some o) :
    (offsetsFrom 0#32 objs).getD n 0#32 = objectOffset objs n := by
  rw [List.getD_eq_getElem?_getD, offsetsFrom_getElem?_start, hn, BitVec.zero_add]
  rfl

/-- What the linker adds for an entry: its target, whose sign it ignores where the entry is named. -/
theorem TargetValue.displacement_eq (h : Relocatable objs)
    (hdefns : defnsFrom 0 [] objs = .ok defns) {n : ℕ} {rlc : ObjRlc} {target : Word}
    (htarget : TargetValue objs n rlc target) :
    displacement (offsetsFrom 0#32 objs) defns (objectOffset objs n) rlc =
      .ok (signed (rlc.name.isEmpty && negated rlc) target) := by
  unfold displacement
  cases htarget with
  | null hname =>
    rw [hname]
    simp only [List.isEmpty_nil, if_true, Bool.true_and, signed, negated, bne_iff_ne, ne_eq]
    split <;> simp_all
  | named hname ho hsym hsame =>
    rename_i m o sym
    obtain ⟨r, hrecords, _⟩ := h.single o (List.mem_of_getElem? ho)
    have hfind := find?_defn hdefns ho (by rw [hrecords]; exact List.cons_ne_nil _ _) hsym
    have hempty : rlc.name.isEmpty = false := by simpa using hname
    rw [← hsame, hfind, hempty]
    dsimp only
    rw [offsetsFrom_getD objs ho]
    rfl

theorem TargetValue.unique (h : Relocatable objs) (hdefns : defnsFrom 0 [] objs = .ok defns)
    {n : ℕ} {rlc : ObjRlc} {target target' : Word} (htarget : TargetValue objs n rlc target)
    (htarget' : TargetValue objs n rlc target') : target = target' := by
  have hsigned := Except.ok.inj
    ((htarget.displacement_eq h hdefns).symm.trans (htarget'.displacement_eq h hdefns))
  unfold signed at hsigned
  split at hsigned
  · exact neg_injective hsigned
  · exact hsigned

/-- Every entry has a target. -/
theorem Relocatable.exists_target (h : Relocatable objs) {n : ℕ} {o : Object}
    (hn : objs[n]? = some o) {rlc : ObjRlc} (hrlc : rlc ∈ o.relocs) :
    ∃ target, TargetValue objs n rlc target := by
  by_cases hname : rlc.name = []
  · exact ⟨_, .null hname⟩
  · obtain ⟨o', ho', sym, hsym, hsame⟩ :=
      h.defined o (List.mem_of_getElem? hn) rlc hrlc hname
    obtain ⟨m, hm⟩ := List.mem_iff_getElem?.mp ho'
    exact ⟨_, .named hname hm hsym hsame⟩

end Targets

/-! ## Runs over the entries -/

section Runs

variable (undef : UndefinedShifts) (objs : List Object) (defns : List Defn)

/-- `do_link_relocate_obj_reloc` for the object at position `n`. -/
def relocateAtObject (n : ℕ) : ObjRec → ObjRlc → Except LinkStop ObjRec :=
  relocate undef (offsetsFrom 0#32 objs) defns (objectOffset objs n)

/-- The record with one of its words changed. -/
def modifyWord (r : ObjRec) (index : ℕ) (f : Word → Word) : ObjRec :=
  { r with data := r.data.modify index f }

/-- The linker goes through entries and does to the record what each of them prescribes. -/
inductive Prescribes (n : ℕ) : List ObjRlc → ObjRec → ObjRec → Prop
  | nil (r : ObjRec) : Prescribes n [] r r
  | cons {rlc : ObjRlc} {rlcs : List ObjRlc} {r r₁ r' : ObjRec} {target : Word}
      (htarget : TargetValue objs n rlc target)
      (hstep : relocateAtObject undef objs defns n r rlc = .ok r₁)
      (hword : r₁ = modifyWord r (rlc.addr - r.addr).toNat (prescribed rlc target))
      (hrest : Prescribes n rlcs r₁ r') : Prescribes n (rlc :: rlcs) r r'

/-- Every record is changed as the entries of its object prescribe. -/
def AsPrescribed (out : List Object) : Prop :=
  ∀ (n : ℕ) o r, objs[n]? = some o → o.records = [r] →
    ∃ r', out[n]? = some { o with records := [r'] } ∧ Prescribes undef objs defns n o.relocs r r'

/-- The result for a record does not depend on the order of entries, as long as those that address one
word have one width. -/
def OrderIndependent : Prop :=
  ∀ (n : ℕ) o r, objs[n]? = some o → o.records = [r] → ∀ before es es' after : List ObjRlc,
    es.Perm es' → (∀ rlc ∈ before ++ es ++ after, InRange r rlc) →
      (∀ a ∈ es, ∀ b ∈ es, a.addr = b.addr → a.width = b.width) →
        (before ++ es ++ after).foldlM (relocateAtObject undef objs defns n) r =
          (before ++ es' ++ after).foldlM (relocateAtObject undef objs defns n) r

/-- The negative of a target is the target itself in the field of the entry. -/
def SelfNegative (rlc : ObjRlc) (target : Word) : Prop :=
  (-target).setWidth rlc.width.toNat = target.setWidth rlc.width.toNat

variable {undef objs defns}

/-- Adding something to the field of a word in the record is what the entry prescribes exactly when it
is the signed target modulo the width. -/
theorem modifyWord_prescribed_iff {r : ObjRec} {rlc : ObjRlc} (hrange : InRange r rlc)
    {added target : Word} :
    Except.ok (ε := LinkStop) (modifyWord r (rlc.addr - r.addr).toNat
          (relocateWord (fieldMask rlc.width.toNat) added)) =
        .ok (modifyWord r (rlc.addr - r.addr).toNat (prescribed rlc target)) ↔
      added.setWidth rlc.width.toNat = (signed (negated rlc) target).setWidth rlc.width.toNat := by
  have hle := hrange.width_le
  constructor
  · intro heq
    have hword := congrArg (fun r ↦ r.data[(rlc.addr - r.addr).toNat]?) (Except.ok.inj heq)
    simp only [modifyWord, List.getElem?_modify, List.getElem?_eq_getElem hrange.upper, if_true,
      Option.map_eq_map, Option.map_some, Option.some.injEq] at hword
    have hlow := congrArg (fun w ↦ w.setWidth rlc.width.toNat) hword
    rw [relocateWord_eq_merge, prescribed, merge_low hle, merge_low hle, setWidth_add hle,
      setWidth_add hle] at hlow
    exact add_left_cancel hlow
  · intro hlow
    have hword : relocateWord (fieldMask rlc.width.toNat) added = prescribed rlc target := by
      funext word
      rw [relocateWord_eq_merge, prescribed]
      apply word_ext
      · rw [merge_low hle, merge_low hle, setWidth_add hle, setWidth_add hle, hlow]
      · rw [merge_high, merge_high]
    rw [hword]

/-- One entry does what it prescribes exactly when it is not both named and negated, or its target is
its own negative. -/
theorem relocate_prescribed_iff (h : Relocatable objs) (hdefns : defnsFrom 0 [] objs = .ok defns)
    {n : ℕ} {r : ObjRec} {rlc : ObjRlc} {target : Word} (hlength : r.data.length < 2 ^ 32)
    (hrange : InRange r rlc) (htarget : TargetValue objs n rlc target) :
    relocateAtObject undef objs defns n r rlc =
        .ok (modifyWord r (rlc.addr - r.addr).toNat (prescribed rlc target)) ↔
      (rlc.name ≠ [] → negated rlc = true → SelfNegative rlc target) := by
  have hdisp := htarget.displacement_eq h hdefns
  have haddend : addend (offsetsFrom 0#32 objs) defns (objectOffset objs n) rlc =
      signed (rlc.name.isEmpty && negated rlc) target := by
    rw [addend, hdisp]
  have hne : displacement (offsetsFrom 0#32 objs) defns (objectOffset objs n) rlc ≠
      .error .fatal := by
    rw [hdisp]
    rintro ⟨⟩
  rw [relocateAtObject, relocate_inRange undef _ defns _ hlength hrange, if_neg hne, update, haddend]
  change Except.ok (modifyWord r _ _) = Except.ok (modifyWord r _ _) ↔ _
  rw [modifyWord_prescribed_iff hrange]
  cases hname : rlc.name with
  | nil => simp
  | cons c rest =>
    cases hneg : negated rlc with
    | false => simp
    | true =>
      simp only [List.isEmpty_cons, Bool.false_and, signed, Bool.false_eq_true, if_false, if_true,
        ne_eq, reduceCtorEq, not_false_eq_true, true_imp_iff, SelfNegative]
      exact eq_comm

/-- All entries of an object do what they prescribe exactly when each of them does. -/
theorem prescribes_iff (h : Relocatable objs) (hdefns : defnsFrom 0 [] objs = .ok defns) {n : ℕ}
    {r r' : ObjRec} {rlcs : List ObjRlc} (hlength : r.data.length < 2 ^ 32)
    (hrange : ∀ rlc ∈ rlcs, InRange r rlc)
    (htargets : ∀ rlc ∈ rlcs, ∃ target, TargetValue objs n rlc target)
    (hrun : rlcs.foldlM (relocateAtObject undef objs defns n) r = .ok r') :
    Prescribes undef objs defns n rlcs r r' ↔
      ∀ rlc ∈ rlcs, ∀ target, TargetValue objs n rlc target → rlc.name ≠ [] →
        negated rlc = true → SelfNegative rlc target := by
  induction rlcs generalizing r with
  | nil =>
    obtain rfl : r = r' := Except.ok.inj hrun
    simp [Prescribes.nil]
  | cons rlc rlcs ih =>
    rw [List.foldlM_cons] at hrun
    cases hstep : relocateAtObject undef objs defns n r rlc with
    | error stop =>
      rw [hstep] at hrun
      cases hrun
    | ok r₁ =>
      rw [hstep] at hrun
      obtain ⟨haddr₁, hlength₁⟩ : r₁.addr = r.addr ∧ r₁.data.length = r.data.length := by
        rw [relocateAtObject, relocate_inRange undef _ defns _ hlength
          (hrange rlc List.mem_cons_self)] at hstep
        split at hstep
        · cases hstep
        · rw [← Except.ok.inj hstep]
          exact ⟨rfl, length_update ..⟩
      have htail := ih (r := r₁) (by rw [hlength₁]; exact hlength)
        (fun rlc' hmem ↦ (hrange rlc' (List.mem_cons_of_mem _ hmem)).of_length haddr₁ hlength₁)
        (fun rlc' hmem ↦ htargets rlc' (List.mem_cons_of_mem _ hmem)) hrun
      have hentry : ∀ target, TargetValue objs n rlc target →
          (r₁ = modifyWord r (rlc.addr - r.addr).toNat (prescribed rlc target) ↔
            (rlc.name ≠ [] → negated rlc = true → SelfNegative rlc target)) := by
        intro target htarget
        rw [← relocate_prescribed_iff h hdefns hlength (hrange rlc List.mem_cons_self) htarget, hstep]
        exact (Except.ok.injEq _ _ ▸ Iff.rfl)
      constructor
      · intro hprescribes
        cases hprescribes with
        | cons htarget hstep' hword hrest =>
          rename_i r₂ target
          obtain rfl : r₁ = r₂ := Except.ok.inj (hstep.symm.trans hstep')
          intro rlc' hmem target' htarget' hname hneg
          rcases List.mem_cons.mp hmem with rfl | hmem
          · rw [htarget'.unique h hdefns htarget]
            exact (hentry target htarget).mp hword hname hneg
          · exact htail.mp hrest rlc' hmem target' htarget' hname hneg
      · intro hall
        obtain ⟨target, htarget⟩ := htargets rlc List.mem_cons_self
        exact .cons htarget hstep
          ((hentry target htarget).mpr (hall rlc List.mem_cons_self target htarget))
          (htail.mpr fun rlc' hmem ↦ hall rlc' (List.mem_cons_of_mem _ hmem))

/-- Entries in range whose names are defined do not stop the linker. -/
theorem foldlM_relocate_eq_ok (h : Relocatable objs) (hdefns : defnsFrom 0 [] objs = .ok defns)
    {n : ℕ} {r : ObjRec} {rlcs : List ObjRlc} (hlength : r.data.length < 2 ^ 32)
    (hrange : ∀ rlc ∈ rlcs, InRange r rlc)
    (htargets : ∀ rlc ∈ rlcs, ∃ target, TargetValue objs n rlc target) :
    ∃ r', rlcs.foldlM (relocateAtObject undef objs defns n) r = .ok r' := by
  refine ⟨_, (foldlM_relocate_inRange undef _ defns _ hlength hrange).trans (if_neg ?_)⟩
  rintro ⟨rlc, hrlc, hfatal⟩
  obtain ⟨target, htarget⟩ := htargets rlc hrlc
  rw [htarget.displacement_eq h hdefns] at hfatal
  cases hfatal

/-- What `do_link_relocate` makes of the object at position `n`. -/
theorem relocateAll_getElem? {offsets owns : List Word} {objs objs' : List Object}
    (hlength : owns.length = objs.length)
    (h : relocateAll undef offsets defns owns objs = .ok objs') {n : ℕ} {own : Word} {o : Object}
    (hown : owns[n]? = some own) (ho : objs[n]? = some o) :
    ∃ o', objs'[n]? = some o' ∧ relocateObj undef offsets defns own o = .ok o' := by
  induction objs generalizing owns objs' n with
  | nil => cases ho
  | cons first rest ih =>
    cases owns with
    | nil => cases hlength
    | cons own₀ owns =>
      rw [relocateAll, bind_eq_ok] at h
      obtain ⟨first', hfirst, h⟩ := h
      rw [bind_eq_ok] at h
      obtain ⟨rest', hrest, h⟩ := h
      obtain rfl := Except.ok.inj h
      cases n with
      | zero =>
        obtain rfl := Option.some.inj hown
        obtain rfl := Option.some.inj ho
        exact ⟨first', rfl, hfirst⟩
      | succ n => exact ih (Nat.succ.inj hlength) hrest hown ho

theorem relocateAll_eq_ok {offsets owns : List Word} {objs : List Object}
    (hlength : owns.length = objs.length)
    (h : ∀ (n : ℕ) own o, owns[n]? = some own → objs[n]? = some o →
      ∃ o', relocateObj undef offsets defns own o = .ok o') :
    ∃ objs', relocateAll undef offsets defns owns objs = .ok objs' := by
  induction objs generalizing owns with
  | nil => exact ⟨[], by cases owns <;> rfl⟩
  | cons first rest ih =>
    cases owns with
    | nil => cases hlength
    | cons own₀ owns =>
      obtain ⟨first', hfirst⟩ := h 0 own₀ first rfl rfl
      obtain ⟨rest', hrest⟩ := ih (Nat.succ.inj hlength) fun n ↦ h (n + 1)
      refine ⟨first' :: rest', ?_⟩
      rw [relocateAll, hfirst]
      simp only [bind, Except.bind, hrest]

/-- Every record is changed as its entries prescribe, and in an order that does not matter, exactly
when the targets of named and negated entries are their own negatives in the fields. -/
theorem relocateAll_prescribed_iff (undef : UndefinedShifts) {objs : List Object}
    {defns : List Defn} (h : Relocatable objs) (hdefns : defnsFrom 0 [] objs = .ok defns) :
    ((∃ out, relocateAll undef (offsetsFrom 0#32 objs) defns (offsetsFrom 0#32 objs) objs = .ok out ∧
        AsPrescribed undef objs defns out) ∧ OrderIndependent undef objs defns) ↔
      ∀ (n : ℕ) o, objs[n]? = some o → ∀ rlc ∈ o.relocs, ∀ target, TargetValue objs n rlc target →
        rlc.name ≠ [] → negated rlc = true → SelfNegative rlc target := by
  have hoffset : ∀ {n : ℕ} {o : Object}, objs[n]? = some o →
      (offsetsFrom 0#32 objs)[n]? = some (objectOffset objs n) := by
    intro n o hn
    rw [offsetsFrom_getElem?_start, hn, BitVec.zero_add]
    rfl
  have horder : OrderIndependent undef objs defns := by
    intro n o r hn hrecords before es es' after hperm hrange hwidth
    obtain ⟨r', hrecords', hlength, _⟩ := h.single o (List.mem_of_getElem? hn)
    obtain rfl : r = r' := by simpa using hrecords.symm.trans hrecords'
    exact foldlM_relocate_perm undef _ defns _ hlength hperm hrange hwidth
  -- every object is relocated, with a run over its entries
  have hrun : ∀ {n : ℕ} {o : Object}, objs[n]? = some o → ∃ r r', o.records = [r] ∧
      o.relocs.foldlM (relocateAtObject undef objs defns n) r = .ok r' ∧
        relocateObj undef (offsetsFrom 0#32 objs) defns (objectOffset objs n) o =
          .ok { o with records := [r'] } ∧
        (Prescribes undef objs defns n o.relocs r r' ↔
          ∀ rlc ∈ o.relocs, ∀ target, TargetValue objs n rlc target → rlc.name ≠ [] →
            negated rlc = true → SelfNegative rlc target) := by
    intro n o hn
    obtain ⟨r, hrecords, hlength, hrange⟩ := h.single o (List.mem_of_getElem? hn)
    have htargets := fun rlc (hrlc : rlc ∈ o.relocs) ↦ h.exists_target hn hrlc
    obtain ⟨r', hr'⟩ : ∃ r', o.relocs.foldlM (relocateAtObject undef objs defns n) r = .ok r' :=
      foldlM_relocate_eq_ok h hdefns hlength hrange htargets
    refine ⟨r, r', hrecords, hr', ?_, prescribes_iff h hdefns hlength hrange htargets hr'⟩
    unfold relocateObj
    rw [hrecords]
    change (o.relocs.foldlM (relocateAtObject undef objs defns n) r >>= _) = _
    rw [hr']
    rfl
  have heach (n : ℕ) (own : Word) (o : Object) (hown : (offsetsFrom 0#32 objs)[n]? = some own)
      (hn : objs[n]? = some o) :
      ∃ o', relocateObj undef (offsetsFrom 0#32 objs) defns own o = .ok o' := by
    obtain rfl := Option.some.inj ((hoffset hn).symm.trans hown)
    obtain ⟨_, _, _, _, ho', _⟩ := hrun hn
    exact ⟨_, ho'⟩
  obtain ⟨out, hout⟩ := relocateAll_eq_ok (length_offsetsFrom 0#32 objs) heach
  constructor
  · rintro ⟨⟨out', hout', hprescribed⟩, _⟩ n o hn
    obtain ⟨r, r', hrecords, hr', ho', hiff⟩ := hrun hn
    obtain ⟨r'', hr'', hprescribes⟩ := hprescribed n o r hn hrecords
    obtain ⟨o', hget, hobj⟩ :=
      relocateAll_getElem? (length_offsetsFrom 0#32 objs) hout' (hoffset hn) hn
    obtain rfl : r' = r'' := by
      have heq := Option.some.inj (hget.symm.trans hr'')
      rw [Except.ok.inj (hobj.symm.trans ho')] at heq
      simpa using congrArg Object.records heq
    exact hiff.mp hprescribes
  · intro hcond
    refine ⟨⟨out, hout, ?_⟩, horder⟩
    intro n o r hn hrecords
    obtain ⟨r₀, r', hrecords₀, hr', ho', hiff⟩ := hrun hn
    obtain rfl : r = r₀ := by simpa using hrecords.symm.trans hrecords₀
    obtain ⟨o', hget, hobj⟩ :=
      relocateAll_getElem? (length_offsetsFrom 0#32 objs) hout (hoffset hn) hn
    obtain rfl := Except.ok.inj (hobj.symm.trans ho')
    exact ⟨r', hget, hiff.mpr (hcond n o hn)⟩

end Runs

/-! ## A named entry -/

/-- One word, to which the address of `x` is added or from which it is subtracted. -/
def refObject (flags : Word) : Object where
  records := [{ addr := 0#32, data := [0#32] }]
  symbols := []
  relocs := [{ flags, name := ['x'], addr := 0#32, width := 32#32 }]

/-- One word, which has the name `x`. -/
def defObject : Object where
  records := [{ addr := 0#32, data := [7#32] }]
  symbols := [{ flags := 0#32, name := ['x'], value := 0#32, size := 0#32 }]
  relocs := []

def defObjectDefns : List Defn := [{ name := ['x'], obj := 1, reladdr := 0#32, flags := 0#32 }]

theorem inRange_word (word flags : Word) (name : Name) :
    InRange { addr := 0#32, data := [word] } { flags, name, addr := 0#32, width := 32#32 } where
  lower := BitVec.le_refl _
  upper := show (0#32 - 0#32).toNat < 1 by decide
  width_pos := show 0 < (32#32).toNat by decide
  width_le := show (32#32).toNat ≤ 32 by decide

theorem relocatable_pair (flags : Word) : Relocatable [refObject flags, defObject] where
  single := by
    intro o ho
    simp only [List.mem_cons, List.not_mem_nil, or_false] at ho
    rcases ho with rfl | rfl
    · refine ⟨_, rfl, by decide, ?_⟩
      intro rlc hrlc
      obtain rfl := List.mem_singleton.mp hrlc
      exact inRange_word ..
    · exact ⟨_, rfl, by decide, by simp [defObject]⟩
  defined := by
    intro o ho rlc hrlc hname
    simp only [List.mem_cons, List.not_mem_nil, or_false] at ho
    rcases ho with rfl | rfl
    · obtain rfl := List.mem_singleton.mp hrlc
      exact ⟨defObject, by simp, _, List.mem_singleton_self _, rfl⟩
    · cases hrlc

/-- Two words: the value of `x` is added to the first one and to its low 12 bits, and the offset of the
object is subtracted from the other one. -/
def mixedObject : Object where
  records := [{ addr := 0#32, data := [0xfff#32, 5#32] }]
  symbols := []
  relocs :=
    [{ flags := 0#32, name := ['x'], addr := 0#32, width := 12#32 },
      { flags := rlcNegate, name := [], addr := 1#32, width := 32#32 },
      { flags := 0#32, name := ['x'], addr := 0#32, width := 32#32 }]

theorem relocatable_mixed : Relocatable [defObject, mixedObject] where
  single := by
    intro o ho
    simp only [List.mem_cons, List.not_mem_nil, or_false] at ho
    rcases ho with rfl | rfl
    · exact ⟨_, rfl, by decide, by simp [defObject]⟩
    · refine ⟨_, rfl, by decide, ?_⟩
      intro rlc hrlc
      simp only [mixedObject, List.mem_cons, List.not_mem_nil, or_false] at hrlc
      rcases hrlc with rfl | rfl | rfl <;> exact ⟨by decide, by decide, by decide, by decide⟩
  defined := by
    intro o ho rlc hrlc hname
    simp only [List.mem_cons, List.not_mem_nil, or_false] at ho
    rcases ho with rfl | rfl
    · cases hrlc
    · simp only [mixedObject, List.mem_cons, List.not_mem_nil, or_false] at hrlc
      rcases hrlc with rfl | rfl | rfl
      · exact ⟨defObject, by simp, _, List.mem_singleton_self _, rfl⟩
      · exact absurd rfl hname
      · exact ⟨defObject, by simp, _, List.mem_singleton_self _, rfl⟩

/-- An unnamed entry with `RLC_NEGATE` and two named ones without it. -/
theorem relocateAll_prescribed_mixed :
    (∃ out, relocateAll .masked (offsetsFrom 0#32 [defObject, mixedObject])
          [{ name := ['x'], obj := 0, reladdr := 0#32, flags := 0#32 }]
          (offsetsFrom 0#32 [defObject, mixedObject]) [defObject, mixedObject] = .ok out ∧
        AsPrescribed .masked [defObject, mixedObject]
          [{ name := ['x'], obj := 0, reladdr := 0#32, flags := 0#32 }] out) ∧
      OrderIndependent .masked [defObject, mixedObject]
        [{ name := ['x'], obj := 0, reladdr := 0#32, flags := 0#32 }] := by
  apply (relocateAll_prescribed_iff .masked relocatable_mixed rfl).mpr
  intro n o hn rlc hrlc target _ hname hnegated
  exfalso
  rcases n with _ | _ | n
  · obtain rfl := Option.some.inj hn
    cases hrlc
  · obtain rfl := Option.some.inj hn
    simp only [mixedObject, List.mem_cons, List.not_mem_nil, or_false] at hrlc
    rcases hrlc with rfl | rfl | rfl
    · exact absurd hnegated (by decide)
    · exact hname rfl
    · exact absurd hnegated (by decide)
  · cases hn

/-- With `RLC_NEGATE` the address is added all the same. -/
theorem relocateAll_prescribed_negated :
    Relocatable [refObject rlcNegate, defObject] ∧
      defnsFrom 0 [] [refObject rlcNegate, defObject] = .ok defObjectDefns ∧
        ¬ ((∃ out, relocateAll .masked (offsetsFrom 0#32 [refObject rlcNegate, defObject])
              defObjectDefns (offsetsFrom 0#32 [refObject rlcNegate, defObject])
              [refObject rlcNegate, defObject] = .ok out ∧
            AsPrescribed .masked [refObject rlcNegate, defObject] defObjectDefns out) ∧
          OrderIndependent .masked [refObject rlcNegate, defObject] defObjectDefns) := by
  refine ⟨relocatable_pair rlcNegate, rfl, ?_⟩
  rintro ⟨⟨out, hout, hprescribed⟩, _⟩
  have hlinked : relocateAll .masked (offsetsFrom 0#32 [refObject rlcNegate, defObject])
      defObjectDefns (offsetsFrom 0#32 [refObject rlcNegate, defObject])
      [refObject rlcNegate, defObject] =
        .ok [{ refObject rlcNegate with records := [{ addr := 0#32, data := [1#32] }] },
          defObject] := rfl
  obtain rfl := Except.ok.inj (hlinked.symm.trans hout)
  obtain ⟨r', hget, hprescribes⟩ := hprescribed 0 (refObject rlcNegate) _ rfl rfl
  obtain rfl : ({ addr := 0#32, data := [1#32] } : ObjRec) = r' := by
    simpa using congrArg Object.records (Option.some.inj hget)
  have htarget := @TargetValue.named [refObject rlcNegate, defObject] 0
    { flags := rlcNegate, name := ['x'], addr := 0#32, width := 32#32 } 1 defObject
    { flags := 0#32, name := ['x'], value := 0#32, size := 0#32 } (List.cons_ne_nil _ _) rfl
    (List.mem_singleton_self _) rfl
  have hself := (prescribes_iff (relocatable_pair rlcNegate) rfl (by decide)
    (fun rlc hrlc ↦ by
      obtain rfl := List.mem_singleton.mp hrlc
      exact inRange_word ..)
    (fun rlc hrlc ↦ (relocatable_pair rlcNegate).exists_target rfl hrlc) rfl).mp hprescribes
      _ (List.mem_singleton_self _) _ htarget (List.cons_ne_nil _ _) rfl
  change (-(1#32)).setWidth 32 = (1#32).setWidth 32 at hself
  exact absurd hself (by decide)

end Tenyr.Link
