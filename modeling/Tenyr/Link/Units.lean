import Tenyr.Asm.ObjectFile
import Tenyr.Asm.Relocations
import Tenyr.Link.Field

/-!
# Linked programs

Lists of programs that are assembled one by one and linked together: where each of them starts, what
a reference in one of them leads to, and what the linker adds for it.
-/

namespace Tenyr.Link

open Isa Obj Asm

/-- A source from the lexer with what the assembler makes of it. Names of labels fit the fields of an
object, and no size is negative. -/
structure AsmUnit (undef : UndefinedShifts) (fuel : ℕ) where
  source : Source
  fresh : ℕ → Word
  pd : ParseData
  a : Assembled
  object : Object
  parsed : parse undef fuel source = .ok pd
  assembled : assemble undef fuel source = .ok (some a)
  emits : a.object fresh = .ok object
  lexed : ∀ s ∈ source, s.Lexed
  names : ∀ s ∈ pd.symbols, s.ce = none → s.name.length < symbolLen ∧ s.name ≠ []
  sizes : ∀ e ∈ pd.elems, 0 ≤ e.size.toInt

namespace AsmUnit

variable {undef : UndefinedShifts} {fuel : ℕ} (u : AsmUnit undef fuel)

/-- The address of an element in its own object. -/
def address (k : ℕ) : Word := addrAfter (u.pd.sizes k)

/-- The words of the only record. -/
def data : List Word := (u.object.records.head?.map ObjRec.data).getD []

theorem passes : Nonempty (Passes undef fuel u.pd u.a) :=
  assemblyInner_eq_ok (assemble_eq_some u.parsed u.assembled).2

theorem valid : u.pd.Valid := parse_valid undef fuel u.parsed

theorem lexedNames : u.pd.Lexed := parse_lexed u.parsed u.lexed

theorem sizes_nonneg (k : ℕ) : ∀ size ∈ u.pd.sizes k, 0 ≤ size.toInt := by
  intro size hsize
  obtain ⟨e, he, rfl⟩ := List.mem_map.mp hsize
  exact u.sizes e (List.mem_of_mem_take he)

theorem emitted_le : emitted (u.pd.elems.map Elem.size) ≤ 2 ^ 31 := by
  obtain ⟨p⟩ := u.passes
  obtain ⟨w, hout, _⟩ := object_eq_ok u.emits
  rcases objOut_cases u.fresh u.a.insns with ⟨hle, _⟩ | ⟨_, hhang⟩
  · rw [← p.insns_size]
    exact hle
  · rw [hhang] at hout
    cases hout

theorem address_toNat (k : ℕ) : (u.address k).toNat = emitted (u.pd.sizes k) := by
  apply addrAfter_toNat (u.sizes_nonneg k)
  rw [ParseData.sizes, List.map_take]
  exact (emitted_take_le _ k).trans u.emitted_le

theorem data_eq : ∃ w, objOut u.fresh u.a.insns = .ok w ∧
    u.object.records = [{ addr := 0#32, data := u.data }] ∧
      u.data = (List.range (emitted (u.pd.elems.map Elem.size))).map w.data := by
  obtain ⟨p⟩ := u.passes
  obtain ⟨w, hout, hrecords, _⟩ := object_eq_ok u.emits
  have hdata : u.data = (List.range w.pos.toNat).map w.data := by
    rw [data, hrecords]
    rfl
  refine ⟨w, hout, ?_, ?_⟩
  · rw [hdata]
    exact hrecords
  · rcases objOut_cases u.fresh u.a.insns with ⟨_, w', hout', hpos⟩ | ⟨_, hhang⟩
    · obtain rfl := Except.ok.inj (hout.symm.trans hout')
      rw [hdata, hpos, p.insns_size]
    · rw [hhang] at hout
      cases hout

theorem length_data : u.data.length = emitted (u.pd.elems.map Elem.size) := by
  obtain ⟨w, _, _, hdata⟩ := u.data_eq
  simp [hdata]

theorem singleRecord : SingleRecord u.object u.data where
  records := by
    obtain ⟨w, _, hrecords, _⟩ := u.data_eq
    exact hrecords
  length := by
    have := u.emitted_le
    rw [u.length_data]
    omega

/-- The words of an element are within the record. -/
theorem index_lt {k : ℕ} {e : Elem} (he : u.pd.elems[k]? = some e) {j : ℕ}
    (hj : j < emittedSize e.size) : (u.address k).toNat + j < u.data.length := by
  have hsize : (u.pd.elems.map Elem.size)[k]? = some e.size := by
    rw [List.getElem?_map, he]
    rfl
  have hle := emitted_take_add_le hsize
  rw [u.length_data, u.address_toNat, ParseData.sizes, List.map_take]
  omega

/-- The words of an element are in front of those of the elements behind it. -/
theorem address_add_le {k : ℕ} {e : Elem} (he : u.pd.elems[k]? = some e) {k' : ℕ} (hlt : k < k') :
    (u.address k).toNat + emittedSize e.size ≤ (u.address k').toNat := by
  have hsize : (u.pd.sizes k')[k]? = some e.size := by
    rw [ParseData.sizes, List.getElem?_map, List.getElem?_take_of_lt hlt, he]
    rfl
  have hprefix : (u.pd.sizes k').take k = u.pd.sizes k := by
    rw [ParseData.sizes, ← List.map_take, List.take_take, Nat.min_eq_left hlt.le]
    rfl
  rw [u.address_toNat, u.address_toNat, ← hprefix]
  exact emitted_take_add_le hsize

/-- A word belongs to one element. -/
theorem index_unique {k k' : ℕ} {e e' : Elem} (he : u.pd.elems[k]? = some e)
    (he' : u.pd.elems[k']? = some e') {j j' : ℕ} (hj : j < emittedSize e.size)
    (hj' : j' < emittedSize e'.size) (h : (u.address k).toNat + j = (u.address k').toNat + j') :
    k = k' := by
  rcases Nat.lt_trichotomy k k' with hlt | heq | hlt
  · have := u.address_add_le he hlt
    omega
  · exact heq
  · have := u.address_add_le he' hlt
    omega

/-- The record holds the word of an element at its address. -/
theorem data_word {k : ℕ} {e : Elem} (he : u.pd.elems[k]? = some e)
    (hemits : 0 < emittedSize e.size) : u.data[(u.address k).toNat]? = u.a.words[k]? := by
  obtain ⟨p⟩ := u.passes
  obtain ⟨w, hout, _, hdata⟩ := u.data_eq
  obtain ⟨word, hword, hinsn⟩ := p.insns_getElem? he
  have hlt := u.index_lt he hemits
  rw [Nat.add_zero, u.length_data] at hlt
  have hplace := objOut_data hout hinsn hemits
  rw [p.take_insns_size, ← u.address_toNat] at hplace
  rw [hdata, List.getElem?_map, List.getElem?_range hlt, hword, Option.map_some, hplace]

end AsmUnit

/-! ## Final addresses -/

section

variable {undef : UndefinedShifts} {fuel : ℕ}

/-- Where the object at position `n` starts: after all words of the objects before it. -/
def base (units : List (AsmUnit undef fuel)) (n : ℕ) : Word :=
  BitVec.ofNat 32 ((units.take n).map fun u ↦ u.data.length).sum

theorem linkedSize_object (u : AsmUnit undef fuel) :
    linkedSize u.object = BitVec.ofNat 32 u.data.length := by
  rw [linkedSize, u.singleRecord.records]
  rfl

theorem offsetsFrom_getElem? (running : Word) (units : List (AsmUnit undef fuel)) (n : ℕ) :
    (offsetsFrom running (units.map AsmUnit.object))[n]? =
      units[n]?.map fun _ ↦ running + base units n := by
  induction units generalizing running n with
  | nil => rfl
  | cons u rest ih =>
    rw [List.map_cons, offsetsFrom]
    cases n with
    | zero => simp [base]
    | succ n =>
      rw [List.getElem?_cons_succ, List.getElem?_cons_succ, ih, linkedSize_object]
      congr 1
      funext _
      rw [base, base, List.take_succ_cons, List.map_cons, List.sum_cons, BitVec.ofNat_add,
        BitVec.add_assoc]

/-- The offset that `do_link_build_state` records for an object. -/
theorem offsetsFrom_eq_base {units : List (AsmUnit undef fuel)} {n : ℕ} {u : AsmUnit undef fuel}
    (hn : units[n]? = some u) :
    (offsetsFrom 0#32 (units.map AsmUnit.object))[n]? = some (base units n) := by
  rw [offsetsFrom_getElem?, hn, BitVec.zero_add]
  rfl

end

end Tenyr.Link
