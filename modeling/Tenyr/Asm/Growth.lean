import Tenyr.Asm.ObjectFile

/-!
# The record that is written to

`obj_out_insn` doubles the size of the record until an element fits. The size is 0 after the 32nd bit, and
`memset` is given a count of words where it counts bytes, so that zeros beyond the 1024 words that were
cleared at first are what `realloc` found there.
-/

namespace Tenyr.Asm

open Isa Obj

/-- An element is written: there is room for all words so far, those before it are as they were, and its own
are its word and zeros. -/
structure Grows (u u' : ObjFdata) (i : Insn) : Prop where
  room : u'.pos.toNat ≤ u'.size.toNat
  before : ∀ index < u.pos.toNat, u'.data index = u.data index
  pos : u'.pos.toNat = u.pos.toNat + emittedSize i.size
  words : (List.range (emittedSize i.size)).map (fun k ↦ u'.data (u.pos.toNat + k)) = emitWords i

/-- Every call of `obj_out_insn` returns, with the element written. -/
def GrowsFrom (u : ObjFdata) : List Insn → Prop
  | [] => True
  | i :: insns => ∃ u', objOutInsn u i = .ok u' ∧ Grows u u' i ∧ GrowsFrom u' insns

/-- This is so from the start, whatever memory has in it that was never written. -/
def RecordGrows (insns : List Insn) : Prop := ∀ fresh, GrowsFrom (objInit fresh) insns

/-- Zeros that are written, from a position on, end within the words that were cleared at first. -/
def ZerosCleared (count : ℕ) (insns : List Insn) : Prop :=
  ∀ k i, insns[k]? = some i → 1 < emittedSize i.size →
    count + emitted ((insns.take k).map Insn.size) + emittedSize i.size ≤ 1024

/-! ## One element -/

theorem clearBytes_zero {data : ℕ → Word} {start count index : ℕ} (h : data index = 0#32) :
    clearBytes data start count index = 0#32 := by
  rw [clearBytes]
  split
  · exact h
  · simp [h]

theorem not_lt_of_growSize {rounds : ℕ} {size size' need : Word}
    (h : growSize rounds size need = some size') : ¬ size' < need := by
  induction rounds generalizing size with
  | zero => cases h
  | succ rounds ih =>
    rw [growSize] at h
    split at h
    · exact ih h
    · rename_i hge
      obtain rfl := Option.some.inj h
      exact hge

/-- What is written when there is something to write. -/
theorem objOutInsn_eq_ok {u u' : ObjFdata} {i : Insn} (h : objOutInsn u i = .ok u')
    (hpos : 0 < emittedSize i.size) :
    ¬ u'.size < u'.pos ∧ ∀ index, u'.data index =
      if index = u.pos.toNat then i.word
      else clearBytes u.data u.pos.toNat (emittedSize i.size) index := by
  have hnot : ¬ i.size.toInt ≤ 0 := by
    unfold emittedSize at hpos
    omega
  rw [objOutInsn, if_neg hnot] at h
  split at h
  · cases h
  · rename_i size hgrow
    obtain rfl := Except.ok.inj h
    refine ⟨not_lt_of_growSize hgrow, ?_⟩
    intro index
    rw [← toNat_of_emits hnot]

theorem objOutInsn_eq_self {u u' : ObjFdata} {i : Insn} (h : objOutInsn u i = .ok u')
    (hzero : emittedSize i.size = 0) : u' = u := by
  have hle : i.size.toInt ≤ 0 := by
    unfold emittedSize at hzero
    omega
  rw [objOutInsn, if_pos hle] at h
  exact (Except.ok.inj h).symm

/-! ## Runs -/

/-- The record after some words: there is room for them, and nothing was written behind them. -/
structure Growing (fresh : ℕ → Word) (u : ObjFdata) (count : ℕ) : Prop extends ObjInvariant u count where
  room : count ≤ u.size.toNat
  untouched : ∀ index, count ≤ index → u.data index = (objInit fresh).data index

theorem growing_init (fresh : ℕ → Word) : Growing fresh (objInit fresh) 0 where
  toObjInvariant := objInvariant_init fresh
  room := Nat.zero_le _
  untouched _ _ := rfl

section

variable {fresh : ℕ → Word} {u u' : ObjFdata} {count : ℕ} {i : Insn} {insns : List Insn}

theorem Growing.step (hu : Growing fresh u count) (h : objOutInsn u i = .ok u') :
    Growing fresh u' (count + emittedSize i.size) := by
  have hinvariant : ObjInvariant u' (count + emittedSize i.size) := by
    rcases objOutInsn_cases hu.toObjInvariant i with ⟨-, v, hout, hv⟩ | ⟨-, hhang⟩
    · obtain rfl := Except.ok.inj (hout.symm.trans h)
      exact hv
    · cases hhang.symm.trans h
  rcases Nat.eq_zero_or_pos (emittedSize i.size) with hzero | hpos
  · obtain rfl := objOutInsn_eq_self h hzero
    rw [hzero]
    exact hu
  · refine ⟨hinvariant, ?_, ?_⟩
    · rw [← hinvariant.pos]
      exact Nat.not_lt.mp (objOutInsn_eq_ok h hpos).1
    · intro index hindex
      rw [objOutInsn_keeps hu.toObjInvariant h (by omega) (by omega)]
      exact hu.untouched index (by omega)

/-- An element is written as it should be when there are zeros behind the words so far. -/
theorem Growing.grows (hu : Growing fresh u count) (h : objOutInsn u i = .ok u')
    (hzeros : ∀ k, 0 < k → k < emittedSize i.size → u.data (count + k) = 0#32) : Grows u u' i := by
  have hu' := hu.step h
  have hroom : u'.pos.toNat ≤ u'.size.toNat := hu'.pos.symm ▸ hu'.room
  have hpos' : u'.pos.toNat = u.pos.toNat + emittedSize i.size := by
    rw [hu'.pos, hu.pos]
  have hbefore : ∀ index < u.pos.toNat, u'.data index = u.data index := by
    rw [hu.pos]
    exact (objOutInsn_data hu.toObjInvariant h).1
  refine ⟨hroom, hbefore, hpos', ?_⟩
  rw [emitWords]
  split
  · rename_i hzero
    rw [hzero]
    rfl
  · rename_i zeros hsize
    have hpos : 0 < emittedSize i.size := hsize ▸ Nat.succ_pos zeros
    obtain ⟨-, hdata⟩ := objOutInsn_eq_ok h hpos
    rw [hsize, List.range_succ_eq_map, List.map_cons, List.map_map]
    congr 1
    · rw [hdata]
      exact if_pos rfl
    · rw [List.eq_replicate_iff]
      refine ⟨by simp, ?_⟩
      intro w hw
      obtain ⟨k, hk, rfl⟩ := List.mem_map.mp hw
      have hlt : k < zeros := List.mem_range.mp hk
      change u'.data (u.pos.toNat + (k + 1)) = 0#32
      rw [hdata, if_neg (by omega)]
      apply clearBytes_zero
      rw [hu.pos]
      exact hzeros (k + 1) (Nat.succ_pos k) (by omega)

theorem zerosCleared_cons : ZerosCleared count (i :: insns) ↔
    (1 < emittedSize i.size → count + emittedSize i.size ≤ 1024) ∧
      ZerosCleared (count + emittedSize i.size) insns := by
  constructor
  · intro h
    refine ⟨fun hsize ↦ h 0 i rfl hsize, ?_⟩
    intro k j hj hsize
    have hrest := h (k + 1) j hj hsize
    rwa [List.take_succ_cons, List.map_cons, emitted_cons, ← Nat.add_assoc] at hrest
  · rintro ⟨hfirst, hrest⟩ k j hj hsize
    cases k with
    | zero =>
      obtain rfl := Option.some.inj hj
      exact hfirst hsize
    | succ k =>
      rw [List.take_succ_cons, List.map_cons, emitted_cons, ← Nat.add_assoc]
      exact hrest k j hj hsize

theorem zerosCleared_of_emitted_le (h : count + emitted (insns.map Insn.size) ≤ 1024) :
    ZerosCleared count insns := by
  induction insns generalizing count with
  | nil =>
    intro k i hi
    cases hi
  | cons i insns ih =>
    rw [List.map_cons, emitted_cons, ← Nat.add_assoc] at h
    exact zerosCleared_cons.mpr ⟨fun _ ↦ by omega, ih h⟩

theorem Growing.growsFrom (hu : Growing fresh u count)
    (hsmall : count + emitted (insns.map Insn.size) ≤ 2 ^ 31) (hcleared : ZerosCleared count insns) :
    GrowsFrom u insns := by
  induction insns generalizing u count with
  | nil => trivial
  | cons i insns ih =>
    rw [List.map_cons, emitted_cons, ← Nat.add_assoc] at hsmall
    obtain ⟨hfirst, hrest⟩ := zerosCleared_cons.mp hcleared
    rcases objOutInsn_cases hu.toObjInvariant i with ⟨-, u', hout, -⟩ | ⟨hlarge, -⟩
    · refine ⟨u', hout, ?_, ih (hu.step hout) hsmall hrest⟩
      apply hu.grows hout
      intro k hpos hlt
      have hend := hfirst (by omega)
      rw [hu.untouched _ (Nat.le_add_right count k)]
      exact if_pos (by omega)
    · omega

/-- Memory that is not zero shows where it was not cleared. -/
theorem Growing.of_growsFrom (hu : Growing (fun _ ↦ -1#32) u count) (h : GrowsFrom u insns) :
    count + emitted (insns.map Insn.size) ≤ 2 ^ 31 ∧ ZerosCleared count insns := by
  induction insns generalizing u count with
  | nil =>
    refine ⟨hu.count_le, ?_⟩
    intro k i hi
    cases hi
  | cons i insns ih =>
    obtain ⟨u', hout, hgrows, hrest⟩ := h
    obtain ⟨hsmall, hcleared⟩ := ih (hu.step hout) hrest
    rw [List.map_cons, emitted_cons, ← Nat.add_assoc]
    refine ⟨hsmall, zerosCleared_cons.mpr ⟨?_, hcleared⟩⟩
    intro hsize
    by_contra hend
    obtain ⟨zeros, hzeros⟩ := Nat.exists_eq_add_of_lt hsize
    have hlast : u'.data (count + (1 + zeros)) = -1#32 := by
      rw [objOutInsn_keeps hu.toObjInvariant hout (by omega) (by omega),
        hu.untouched _ (Nat.le_add_right _ _)]
      exact if_neg (by omega)
    have hword : (emitWords i)[1 + zeros]? = some 0#32 := by
      rw [emitWords, hzeros, Nat.add_comm 1 zeros]
      simp
    rw [← hgrows.words, List.getElem?_map, List.getElem?_range (by omega), hu.pos] at hword
    have hzero : u'.data (count + (1 + zeros)) = 0#32 := Option.some.inj hword
    rw [hlast] at hzero
    exact absurd hzero (by decide)

end

/-- Elements are written as they should be exactly when there are at most 2 ^ 31 words of them, and no zeros
beyond the words that were cleared at first. -/
theorem recordGrows_iff (insns : List Insn) : RecordGrows insns ↔
    emitted (insns.map Insn.size) ≤ 2 ^ 31 ∧ ZerosCleared 0 insns := by
  constructor
  · intro h
    have hboth := (growing_init _).of_growsFrom (h fun _ ↦ -1#32)
    rwa [Nat.zero_add] at hboth
  · rintro ⟨hsmall, hcleared⟩ fresh
    apply (growing_init fresh).growsFrom _ hcleared
    rwa [Nat.zero_add]

/-- `.zero 1025` has a last word that nothing clears. -/
theorem not_recordGrows_zeros :
    ¬ RecordGrows [{ reladdr := 0#32, word := 0#32, size := 1025#32 }] := by
  intro h
  have hboth := (growing_init _).of_growsFrom (h fun _ ↦ -1#32)
  have hend := hboth.2 0 _ rfl (by decide)
  exact absurd hend (by decide)

end Tenyr.Asm
