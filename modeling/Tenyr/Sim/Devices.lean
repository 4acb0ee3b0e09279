import Tenyr.Lib.Searching
import Tenyr.Sim.Machine

/-!
# Dispatch to devices

Devices are sorted by their bases once, and every access searches them for the one whose bounds contain
its address. The comparison that sorts is a difference modulo 2^32 that is taken as a signed number, so
it describes the order of the bases only as long as no two of them are 2^31 or more apart.
-/

namespace Tenyr.Sim

open Isa Lib.Searching

/-- `struct device`: inclusive bounds, and the operation together with its cookie, which leads to the
state of the devices. -/
structure Device (σ : Type) where
  lower : Word
  upper : Word
  op : σ → MemoryOp → Word → Word → ℤ × Word × σ

variable {σ : Type}

def Device.Contains (d : Device σ) (addr : Word) : Prop := d.lower ≤ addr ∧ addr ≤ d.upper

/-- `find_device_by_addr` -/
def findDeviceByAddr (addr : Word) (d : Device σ) : ℤ :=
  if addr ≤ d.upper then
    if d.lower ≤ addr then 0 else -1
  else 1

/-- `compare_devices_by_base`: a difference of unsigned numbers, returned as an `int`. -/
def compareDevicesByBase (a b : Device σ) : ℤ := (a.lower - b.lower).toInt

section Library

variable (qsort : (Device σ → Device σ → ℤ) → List (Device σ) → List (Device σ))
  (bsearch : (Word → Device σ → ℤ) → Word → List (Device σ) → Option (Device σ))

/-- `devices_finalise` -/
def devicesFinalise (devices : List (Device σ)) : List (Device σ) :=
  qsort compareDevicesByBase devices

/-- The device that an address is dispatched to. -/
def deviceAt (devices : List (Device σ)) (addr : Word) : Option (Device σ) :=
  bsearch findDeviceByAddr addr devices

/-- `dispatch_op`: the return code, the datum and the state of the devices. -/
def dispatchOp (devices : List (Device σ)) (s : σ) (op : MemoryOp) (addr data : Word) :
    ℤ × Word × σ :=
  match deviceAt bsearch devices addr with
  | none => (-1, data, s)  -- no device handles the address
  | some d => d.op s op addr data

/-- Every address goes to the device that contains it, and is unhandled if there is none. -/
def DispatchesRight (devices : List (Device σ)) : Prop :=
  ∀ addr,
    (∀ d ∈ devices, d.Contains addr →
      deviceAt bsearch (devicesFinalise qsort devices) addr = some d ∧
        ∀ s op data,
          dispatchOp bsearch (devicesFinalise qsort devices) s op addr data = d.op s op addr data) ∧
      ((∀ d ∈ devices, ¬ d.Contains addr) → ∀ s op data,
        dispatchOp bsearch (devicesFinalise qsort devices) s op addr data = (-1, data, s))

end Library

/-- Devices with well-formed and disjoint bounds. -/
structure DeviceSet (devices : List (Device σ)) : Prop where
  bounds : ∀ d ∈ devices, d.lower ≤ d.upper
  disjoint : devices.Pairwise fun a b ↦ ∀ addr, ¬ (a.Contains addr ∧ b.Contains addr)

/-! ## Comparisons -/

theorem findDeviceByAddr_eq_zero_iff {addr : Word} {d : Device σ} :
    findDeviceByAddr addr d = 0 ↔ d.Contains addr := by
  unfold findDeviceByAddr Device.Contains
  split
  · rename_i hupper
    split <;> simp_all
  · simp_all

theorem findDeviceByAddr_pos_iff {addr : Word} {d : Device σ} :
    0 < findDeviceByAddr addr d ↔ d.upper < addr := by
  unfold findDeviceByAddr
  rw [← BitVec.not_le]
  split
  · split <;> simp_all
  · simp_all

theorem findDeviceByAddr_neg_iff {addr : Word} {d : Device σ} :
    findDeviceByAddr addr d < 0 ↔ addr ≤ d.upper ∧ addr < d.lower := by
  unfold findDeviceByAddr
  rw [← BitVec.not_le (x := d.lower)]
  split
  · split <;> simp_all
  · simp_all

/-- A signed difference of words that are less than 2^31 apart. -/
theorem toInt_sub_of_near {x y : Word} (hxy : x.toNat < y.toNat + 2 ^ 31)
    (hyx : y.toNat < x.toNat + 2 ^ 31) : (x - y).toInt = (x.toNat : ℤ) - y.toNat := by
  have hx := x.isLt
  have hy := y.isLt
  rw [BitVec.toInt_eq_toNat_cond, BitVec.toNat_sub]
  split <;> omega

/-- A difference of words that are at least 2^31 apart has the wrong sign. -/
theorem toInt_sub_of_far {x y : Word} (hxy : x.toNat + 2 ^ 31 ≤ y.toNat) : (y - x).toInt < 0 := by
  have hx := x.isLt
  have hy := y.isLt
  rw [BitVec.toInt_eq_toNat_cond, BitVec.toNat_sub]
  split <;> omega

/-! ## Dispatch -/

variable {devices : List (Device σ)}

theorem DeviceSet.eq_of_contains (h : DeviceSet devices) {d d' : Device σ} (hd : d ∈ devices)
    (hd' : d' ∈ devices) {addr : Word} (hc : d.Contains addr) (hc' : d'.Contains addr) :
    d = d' := by
  by_contra hne
  rcases rel_or_rel h.disjoint hd hd' hne with hdisjoint | hdisjoint
  · exact hdisjoint addr ⟨hc, hc'⟩
  · exact hdisjoint addr ⟨hc', hc⟩

/-- The bases of devices are less than 2^31 apart. -/
def BasesNear (devices : List (Device σ)) : Prop :=
  ∀ d ∈ devices, ∀ d' ∈ devices, d.lower.toNat < d'.lower.toNat + 2 ^ 31

theorem BasesNear.compare_eq (h : BasesNear devices) {d d' : Device σ} (hd : d ∈ devices)
    (hd' : d' ∈ devices) :
    compareDevicesByBase d d' = (d.lower.toNat : ℤ) - d'.lower.toNat :=
  toInt_sub_of_near (h d hd d' hd') (h d' hd' d hd)

theorem BasesNear.consistent (h : BasesNear devices) :
    Consistent compareDevicesByBase devices where
  antisymm := by
    intro a ha b hb
    rw [h.compare_eq ha hb, h.compare_eq hb ha]
    omega
  trans := by
    intro a ha b hb c hc
    rw [h.compare_eq ha hb, h.compare_eq hb hc, h.compare_eq ha hc]
    omega

/-- Devices in the order of their bases are partitioned by every address. -/
theorem partitioned_of_sorted (h : DeviceSet devices)
    (hsorted : devices.Pairwise fun a b ↦ a.lower ≤ b.lower) (addr : Word) :
    Partitioned (findDeviceByAddr addr) devices := by
  have hbounds : devices.Pairwise fun a b : Device σ ↦ a.lower ≤ a.upper ∧ b.lower ≤ b.upper :=
    List.pairwise_of_forall_mem_list fun a ha b hb ↦ ⟨h.bounds a ha, h.bounds b hb⟩
  refine ((hsorted.and h.disjoint).and hbounds).imp ?_
  rintro a b ⟨⟨hle, hdisjoint⟩, ha, hb⟩
  -- the first device ends before the second begins
  have hbefore : a.upper < b.lower := by
    rw [← BitVec.not_le]
    intro hoverlap
    exact hdisjoint b.lower ⟨⟨hle, hoverlap⟩, ⟨BitVec.le_refl _, hb⟩⟩
  rw [findDeviceByAddr_pos_iff, findDeviceByAddr_pos_iff, findDeviceByAddr_neg_iff,
    findDeviceByAddr_neg_iff]
  simp only [BitVec.lt_def, BitVec.le_def] at *
  omega

section Contracts

variable {qsort : (Device σ → Device σ → ℤ) → List (Device σ) → List (Device σ)}
  {bsearch : (Word → Device σ → ℤ) → Word → List (Device σ) → Option (Device σ)}

/-- Where bases are near, dispatch is right. -/
theorem dispatchesRight_of_near (hqsort : Sorts qsort) (hbsearch : Finds bsearch)
    (h : DeviceSet devices) (hnear : BasesNear devices) :
    DispatchesRight qsort bsearch devices := by
  obtain ⟨hperm, hsorted⟩ := hqsort compareDevicesByBase devices hnear.consistent
  have hset : DeviceSet (devicesFinalise qsort devices) := by
    refine ⟨fun d hd ↦ h.bounds d (hperm.mem_iff.mp hd), ?_⟩
    refine (hperm.pairwise_iff ?_).mpr h.disjoint
    intro a b hab addr hboth
    exact hab addr hboth.symm
  have horder : (devicesFinalise qsort devices).Pairwise fun a b ↦ a.lower ≤ b.lower := by
    refine hsorted.imp_of_mem ?_
    intro a b ha hb hle
    rw [hnear.compare_eq (hperm.mem_iff.mp ha) (hperm.mem_iff.mp hb)] at hle
    rw [BitVec.le_def]
    omega
  intro addr
  obtain ⟨hsome, hnone⟩ := hbsearch findDeviceByAddr addr _ (partitioned_of_sorted hset horder addr)
  constructor
  · intro d hd hcontains
    have hmem : d ∈ devicesFinalise qsort devices := hperm.mem_iff.mpr hd
    have hfound : deviceAt bsearch (devicesFinalise qsort devices) addr = some d := by
      rw [deviceAt]
      cases hsearch : bsearch findDeviceByAddr addr (devicesFinalise qsort devices) with
      | none => exact absurd (findDeviceByAddr_eq_zero_iff.mpr hcontains) (hnone hsearch d hmem)
      | some d' =>
        obtain ⟨hmem', hzero⟩ := hsome d' hsearch
        rw [hset.eq_of_contains hmem' hmem (findDeviceByAddr_eq_zero_iff.mp hzero) hcontains]
    refine ⟨hfound, ?_⟩
    intro s op data
    rw [dispatchOp, hfound]
  · intro hunhandled s op data
    have hmissing : deviceAt bsearch (devicesFinalise qsort devices) addr = none := by
      rw [deviceAt]
      cases hsearch : bsearch findDeviceByAddr addr (devicesFinalise qsort devices) with
      | none => rfl
      | some d =>
        obtain ⟨hmem, hzero⟩ := hsome d hsearch
        exact absurd (findDeviceByAddr_eq_zero_iff.mp hzero)
          (hunhandled d (hperm.mem_iff.mp hmem))
    rw [dispatchOp, hmissing]

end Contracts

/-! ## Far bases -/

open Classical in
/-- A sort that does nothing useful where it does not have to. -/
noncomputable def laxSort (cmp : Device σ → Device σ → ℤ) (l : List (Device σ)) :
    List (Device σ) :=
  if Consistent cmp l then insertionSort cmp l else []

open Classical in
/-- A search that finds nothing where it does not have to. -/
noncomputable def laxSearch (cmp : Word → Device σ → ℤ) (key : Word) (l : List (Device σ)) :
    Option (Device σ) :=
  if Partitioned (cmp key) l then binarySearch cmp key l else none

theorem laxSort_sorts : Sorts (laxSort (σ := σ)) := by
  intro cmp l h
  rw [laxSort, if_pos h]
  exact insertionSort_sorts cmp l h

theorem laxSearch_finds : Finds (laxSearch (σ := σ)) := by
  intro cmp key l h
  rw [laxSearch, if_pos h]
  exact binarySearch_finds cmp key l h

/-- Where two bases are far apart, the sorted array need not be in the order of addresses. -/
theorem not_dispatchesRight_of_far (h : DeviceSet devices) {d d' : Device σ} (hd : d ∈ devices)
    (hd' : d' ∈ devices) (hfar : d.lower.toNat + 2 ^ 31 ≤ d'.lower.toNat) :
    ¬ DispatchesRight laxSort laxSearch devices := by
  intro hright
  have hself : d'.Contains d'.lower := ⟨BitVec.le_refl _, h.bounds d' hd'⟩
  obtain ⟨hfound, _⟩ := (hright d'.lower).1 d' hd' hself
  rw [deviceAt, laxSearch] at hfound
  split at hfound
  · rename_i hpartitioned
    rw [devicesFinalise, laxSort] at hpartitioned hfound
    split at hpartitioned
    · rename_i hconsistent
      have hperm := perm_insertionSort compareDevicesByBase devices
      obtain ⟨_, hsorted⟩ := insertionSort_sorts compareDevicesByBase devices hconsistent
      have hwrong : 0 < compareDevicesByBase d d' :=
        (hconsistent.antisymm d' hd' d hd).mp (toInt_sub_of_far hfar)
      have hne : d ≠ d' := by
        rintro rfl
        omega
      have habove : 0 < findDeviceByAddr d'.lower d := by
        rw [findDeviceByAddr_pos_iff, ← BitVec.not_le]
        intro hle
        apply hne
        apply h.eq_of_contains hd hd' ⟨?_, hle⟩ hself
        rw [BitVec.le_def]
        omega
      have hzero := findDeviceByAddr_eq_zero_iff.mpr hself
      rcases rel_or_rel (hsorted.and hpartitioned) (hperm.mem_iff.mpr hd) (hperm.mem_iff.mpr hd')
          hne with ⟨hle, _⟩ | ⟨_, hbefore, _⟩
      · omega
      · have := hbefore habove
        omega
    · rename_i hinconsistent
      rw [if_neg hinconsistent] at hfound
      cases hfound
  · cases hfound

/-- Dispatch is right with every library that keeps its promises exactly when no two bases are 2^31 or
more apart. -/
theorem dispatchesRight_iff (h : DeviceSet devices) :
    (∀ qsort bsearch, Sorts qsort → Finds bsearch → DispatchesRight qsort bsearch devices) ↔
      BasesNear devices := by
  constructor
  · intro hright d hd d' hd'
    by_contra hfar
    exact not_dispatchesRight_of_far h hd' hd (by omega)
      (hright laxSort laxSearch laxSort_sorts laxSearch_finds)
  · intro hnear qsort bsearch hqsort hbsearch
    exact dispatchesRight_of_near hqsort hbsearch h hnear

/-! ## Two devices -/

/-- A device of one word that keeps what is written to it. -/
def cellDevice (addr : Word) : Device Word where
  lower := addr
  upper := addr
  op s op _ data :=
    match op with
    | .write => (0, data, data)
    | .insnRead | .dataRead => (0, s, s)

theorem deviceSet_cells {x y : Word} (hne : x ≠ y) : DeviceSet [cellDevice x, cellDevice y] where
  bounds := by simp [cellDevice]
  disjoint := by
    simp only [List.pairwise_cons, List.mem_singleton, forall_eq, List.not_mem_nil,
      false_imp_iff, implies_true, List.Pairwise.nil, and_true]
    rintro addr ⟨⟨hx, hx'⟩, ⟨hy, hy'⟩⟩
    have hxaddr : x = addr := BitVec.le_antisymm hx hx'
    have hyaddr : y = addr := BitVec.le_antisymm hy hy'
    exact hne (hxaddr.trans hyaddr.symm)

/-- Added in the other order, they are found. -/
theorem dispatchesRight_near_cells :
    BasesNear [cellDevice 0x1000#32, cellDevice 0x20#32] ∧
      DispatchesRight insertionSort binarySearch [cellDevice 0x1000#32, cellDevice 0x20#32] := by
  have hnear : BasesNear [cellDevice 0x1000#32, cellDevice 0x20#32] := by
    intro d hd d' hd'
    simp only [List.mem_cons, List.not_mem_nil, or_false] at hd hd'
    rcases hd with rfl | rfl <;> rcases hd' with rfl | rfl <;> decide
  refine ⟨hnear, ?_⟩
  exact (dispatchesRight_iff (deviceSet_cells (by decide))).mpr hnear insertionSort binarySearch
    insertionSort_sorts binarySearch_finds

/-- The comparison puts 0x80000001 before 0, so the search for it goes astray. -/
theorem not_dispatchesRight_far_cells :
    DeviceSet [cellDevice 0#32, cellDevice 0x80000001#32] ∧
      Sorts (insertionSort (α := Device Word)) ∧
        Finds (binarySearch (α := Device Word) (κ := Word)) ∧
          ¬ DispatchesRight insertionSort binarySearch [cellDevice 0#32, cellDevice 0x80000001#32] := by
  refine ⟨deviceSet_cells (by decide), insertionSort_sorts, binarySearch_finds, ?_⟩
  intro hright
  obtain ⟨hfound, _⟩ := (hright 0x80000001#32).1 (cellDevice 0x80000001#32) (by simp)
    ⟨BitVec.le_refl _, BitVec.le_refl _⟩
  have hmissing : deviceAt binarySearch (devicesFinalise insertionSort
      [cellDevice 0#32, cellDevice 0x80000001#32]) 0x80000001#32 = none := rfl
  rw [hmissing] at hfound
  cases hfound

end Tenyr.Sim
