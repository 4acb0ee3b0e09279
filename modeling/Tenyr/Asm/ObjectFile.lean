import Tenyr.Asm.Placement
import Tenyr.Asm.Fixup

/-!
# The object of a program

The record that `obj_emit` writes holds the word of each element at the number of words before it,
and the symbols are those that were declared global.
-/

namespace Tenyr.Asm

open Isa Obj

/-! ## Contents of the record -/

/-- Words from the count of bytes on are not cleared. -/
theorem clearBytes_of_le (data : ℕ → Word) {start count index : ℕ}
    (h : start ≤ index → count ≤ 4 * (index - start)) :
    clearBytes data start count index = data index := by
  unfold clearBytes
  split
  · rfl
  · rename_i hge
    have hzero : count - 4 * (index - start) = 0 := by
      have := h (by omega)
      omega
    rw [hzero]
    simp

theorem toNat_of_emits {size : Word} (h : ¬size.toInt ≤ 0) : size.toNat = emittedSize size := by
  unfold emittedSize
  rw [BitVec.toInt_eq_toNat_cond] at h ⊢
  split at h <;> omega

/-- Words behind the cleared part of an element keep their contents. -/
theorem objOutInsn_keeps {u u' : ObjFdata} {count index : ℕ} (hu : ObjInvariant u count) {i : Insn}
    (h : objOutInsn u i = .ok u') (hindex : 0 < emittedSize i.size → count < index)
    (hsize : emittedSize i.size ≤ 4 * (index - count)) : u'.data index = u.data index := by
  unfold objOutInsn at h
  split at h
  · obtain rfl := Except.ok.inj h
    rfl
  · rename_i hgt
    have hnat := toNat_of_emits hgt
    have hpos : 0 < emittedSize i.size := by
      unfold emittedSize
      omega
    split at h
    · cases h
    · obtain rfl := Except.ok.inj h
      have hlt := hindex hpos
      dsimp only
      rw [hu.pos, if_neg (by omega)]
      apply clearBytes_of_le
      intro _
      omega

/-- Writing an element leaves the words before it alone. -/
theorem objOutInsn_data {u u' : ObjFdata} {count : ℕ} (hu : ObjInvariant u count) {i : Insn}
    (h : objOutInsn u i = .ok u') :
    (∀ index < count, u'.data index = u.data index) ∧
      (0 < emittedSize i.size → u'.data count = i.word) := by
  unfold objOutInsn at h
  split at h
  · rename_i hle
    obtain rfl := Except.ok.inj h
    refine ⟨fun _ _ ↦ rfl, ?_⟩
    intro hpos
    unfold emittedSize at hpos
    omega
  · split at h
    · cases h
    · obtain rfl := Except.ok.inj h
      refine ⟨?_, ?_⟩
      · intro index hindex
        dsimp only
        rw [hu.pos, if_neg (by omega), clearBytes, if_pos hindex]
      · intro _
        dsimp only
        rw [if_pos hu.pos.symm]

/-- Every element that emits anything is at the number of words before it. -/
theorem foldlM_objOutInsn_data {u u' : ObjFdata} {count : ℕ} (hu : ObjInvariant u count)
    {insns : List Insn} (h : insns.foldlM objOutInsn u = .ok u') :
    (∀ index < count, u'.data index = u.data index) ∧
      ∀ (k : ℕ) i, insns[k]? = some i → 0 < emittedSize i.size →
        u'.data (count + emitted ((insns.take k).map Insn.size)) = i.word := by
  induction insns generalizing u count with
  | nil =>
    obtain rfl := Except.ok.inj h
    refine ⟨fun _ _ ↦ rfl, ?_⟩
    intro k i hi
    cases hi
  | cons i rest ih =>
    rw [List.foldlM_cons] at h
    rcases objOutInsn_cases hu i with ⟨_, u₁, hstep, hu₁⟩ | ⟨_, hstep⟩
    · rw [hstep] at h
      obtain ⟨hkeep, hword⟩ := objOutInsn_data hu hstep
      obtain ⟨hkeep', hwords⟩ := ih hu₁ h
      refine ⟨?_, ?_⟩
      · intro index hindex
        rw [hkeep' index (by omega), hkeep index hindex]
      · intro k i' hi' hpos
        cases k with
        | zero =>
          obtain rfl := Option.some.inj hi'
          change u'.data (count + 0) = _
          rw [Nat.add_zero, hkeep' count (by omega), hword hpos]
        | succ k =>
          have hrest := hwords k i' hi' hpos
          rw [List.take_succ_cons, List.map_cons, emitted_cons, ← Nat.add_assoc]
          exact hrest
    · rw [hstep] at h
      cases h

theorem objOut_data {fresh : ℕ → Word} {insns : List Insn} {u : ObjFdata}
    (h : objOut fresh insns = .ok u) {k : ℕ} {i : Insn} (hi : insns[k]? = some i)
    (hpos : 0 < emittedSize i.size) :
    u.data (emitted ((insns.take k).map Insn.size)) = i.word := by
  have hdata := (foldlM_objOutInsn_data (objInvariant_init fresh) h).2 k i hi hpos
  rwa [Nat.zero_add] at hdata

/-! ## The object -/

theorem mapM_objSym_mem {symbols : List Symbol} {syms : List ObjSym}
    (h : symbols.mapM objSym = .ok syms) {s : Symbol} (hs : s ∈ symbols) :
    ∃ sym ∈ syms, objSym s = .ok sym := by
  induction symbols generalizing syms with
  | nil => cases hs
  | cons t rest ih =>
    rw [List.mapM_cons, bind_eq_ok] at h
    obtain ⟨sym, hsym, h⟩ := h
    rw [bind_eq_ok] at h
    obtain ⟨syms', hrest, h⟩ := h
    obtain rfl := Except.ok.inj h
    rcases List.mem_cons.mp hs with rfl | hs
    · exact ⟨sym, List.mem_cons_self, hsym⟩
    · obtain ⟨sym', hmem, hsym'⟩ := ih hrest hs
      exact ⟨sym', List.mem_cons_of_mem _ hmem, hsym'⟩

/-- The parts of an emitted object. -/
theorem object_eq_ok {fresh : ℕ → Word} {a : Assembled} {o : Object}
    (h : a.object fresh = .ok o) :
    ∃ u, objOut fresh a.insns = .ok u ∧
      o.records = [{ addr := 0#32, data := (List.range u.pos.toNat).map u.data }] ∧
      o.relocs = objRelocs a.reladdrs a.relocs ∧
      ∀ s ∈ a.symbols, s.global = true → ∃ sym ∈ o.symbols, objSym s = .ok sym := by
  rw [Assembled.object, bind_eq_ok] at h
  obtain ⟨u, hout, h⟩ := h
  rw [bind_eq_ok] at h
  obtain ⟨syms, hsyms, h⟩ := h
  obtain rfl := Except.ok.inj h
  refine ⟨u, hout, rfl, rfl, ?_⟩
  intro s hs hglobal
  apply mapM_objSym_mem hsyms
  rw [List.mem_filter]
  exact ⟨List.mem_reverse.mpr hs, hglobal⟩

end Tenyr.Asm
