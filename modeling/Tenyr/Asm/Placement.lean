import Tenyr.Asm.Output
import Tenyr.Asm.Overflow

/-!
# Addresses and positions in the output

`assembly_fixup_insns` sums sizes as they are, the writers count only what they write. The two agree
at every word and every label exactly when negative sizes cancel and no writer runs over.
-/

namespace Tenyr.Asm

open Isa Obj

/-! ## Sums of sizes -/

/-- How many words elements emit. -/
def emitted (sizes : List Word) : ℕ := (sizes.map emittedSize).sum

/-- By how much elements of negative size lower the address. -/
def shrunk (sizes : List Word) : ℕ := (sizes.map fun size ↦ (-size.toInt).toNat).sum

@[simp]
theorem emitted_nil : emitted [] = 0 := rfl

@[simp]
theorem emitted_cons (size : Word) (sizes : List Word) :
    emitted (size :: sizes) = emittedSize size + emitted sizes := rfl

@[simp]
theorem shrunk_nil : shrunk [] = 0 := rfl

@[simp]
theorem shrunk_cons (size : Word) (sizes : List Word) :
    shrunk (size :: sizes) = (-size.toInt).toNat + shrunk sizes := rfl

theorem emitted_append (sizes sizes' : List Word) :
    emitted (sizes ++ sizes') = emitted sizes + emitted sizes' := by
  simp [emitted]

theorem emitted_take_le (sizes : List Word) (k : ℕ) : emitted (sizes.take k) ≤ emitted sizes := by
  calc
    emitted (sizes.take k) ≤ emitted (sizes.take k) + emitted (sizes.drop k) := Nat.le_add_right _ _
    _ = emitted sizes := by rw [← emitted_append, List.take_append_drop]

/-- An element that is not in the prefix still counts. -/
theorem emitted_take_add_le {sizes : List Word} {k : ℕ} {size : Word} (h : sizes[k]? = some size) :
    emitted (sizes.take k) + emittedSize size ≤ emitted sizes := by
  calc
    emitted (sizes.take k) + emittedSize size = emitted (sizes.take (k + 1)) := by
      simp [List.take_add_one, h, emitted_append]
    _ ≤ emitted sizes := emitted_take_le sizes (k + 1)

theorem toInt_eq_emittedSize_sub (size : Word) :
    size.toInt = (emittedSize size : ℤ) - ((-size.toInt).toNat : ℤ) := by
  unfold emittedSize
  omega

theorem sum_toInt_eq (sizes : List Word) :
    (sizes.map BitVec.toInt).sum = (emitted sizes : ℤ) - (shrunk sizes : ℤ) := by
  induction sizes with
  | nil => rfl
  | cons size sizes ih =>
    have hsize := toInt_eq_emittedSize_sub size
    rw [List.map_cons, List.sum_cons, ih, emitted_cons, shrunk_cons]
    omega

/-- The address after elements of the given sizes. -/
def addrAfter (sizes : List Word) : Word := BitVec.ofInt 32 (sizes.map BitVec.toInt).sum

/-- The address is the number of words emitted when the negative sizes cancel modulo `2 ^ 32`. -/
theorem addrAfter_toNat_eq_iff {sizes : List Word} (hsize : emitted sizes < 2 ^ 32) :
    emitted sizes = (addrAfter sizes).toNat ↔ 2 ^ 32 ∣ shrunk sizes := by
  rw [addrAfter, sum_toInt_eq, BitVec.toNat_ofInt]
  omega

/-- No size is negative. -/
theorem shrunk_eq_zero {sizes : List Word} (h : ∀ size ∈ sizes, 0 ≤ size.toInt) :
    shrunk sizes = 0 := by
  induction sizes with
  | nil => rfl
  | cons size sizes ih =>
    have hsize := h size List.mem_cons_self
    rw [shrunk_cons, ih fun s hs ↦ h s (List.mem_cons_of_mem _ hs)]
    omega

/-- The address of an element is the number of words before it. -/
theorem addrAfter_toNat {sizes : List Word} (h : ∀ size ∈ sizes, 0 ≤ size.toInt)
    (hsmall : emitted sizes ≤ 2 ^ 31) : (addrAfter sizes).toNat = emitted sizes := by
  symm
  apply (addrAfter_toNat_eq_iff (by omega)).mpr
  rw [shrunk_eq_zero h]
  exact dvd_zero _

theorem addrsFrom_eq (reladdr : Word) (elems : List Elem) (k : ℕ) :
    (addrsFrom reladdr elems)[k]? =
      elems[k]?.map fun _ ↦ reladdr + addrAfter ((elems.take k).map Elem.size) := by
  induction elems generalizing reladdr k with
  | nil => rfl
  | cons e rest ih =>
    cases k with
    | zero => simp [addrsFrom, addrAfter]
    | succ k =>
      rw [addrsFrom, List.getElem?_cons_succ, List.getElem?_cons_succ, ih]
      congr 1
      funext _
      rw [List.take_succ_cons, List.map_cons, addrAfter, addrAfter, List.map_cons, List.sum_cons,
        BitVec.ofInt_add, BitVec.ofInt_toInt, BitVec.add_assoc]

/-! ## The object writer -/

/-- The size of the record is a power of two from 1024 on and bounds the position. -/
structure ObjInvariant (u : ObjFdata) (count : ℕ) : Prop where
  size : ∃ j, 10 ≤ j ∧ j ≤ 31 ∧ u.size = BitVec.ofNat 32 (2 ^ j)
  pos : u.pos.toNat = count
  count_le : count ≤ 2 ^ 31

theorem growSize_zero (rounds : ℕ) {need : Word} (hneed : 0#32 < need) :
    growSize rounds 0#32 need = none := by
  induction rounds with
  | zero => rfl
  | succ rounds ih =>
    rw [growSize, if_pos hneed]
    exact ih

theorem pow_mul_two (j : ℕ) :
    BitVec.ofNat 32 (2 ^ j) * 2#32 = BitVec.ofNat 32 (2 ^ (j + 1)) := by
  rw [pow_succ, BitVec.ofNat_mul]

theorem toNat_pow {j : ℕ} (hj : j ≤ 31) : (BitVec.ofNat 32 (2 ^ j)).toNat = 2 ^ j := by
  rw [BitVec.toNat_ofNat]
  apply Nat.mod_eq_of_lt
  exact Nat.pow_lt_pow_right (by decide) (by omega)

/-- No power of two that fits reaches a need above `2 ^ 31`. -/
theorem growSize_of_large (rounds : ℕ) {j : ℕ} (hj : j ≤ 31) {need : Word}
    (hneed : 2 ^ 31 < need.toNat) : growSize rounds (BitVec.ofNat 32 (2 ^ j)) need = none := by
  induction rounds generalizing j with
  | zero => rfl
  | succ rounds ih =>
    have hle : 2 ^ j ≤ 2 ^ 31 := Nat.pow_le_pow_right (by decide) hj
    have hlt : BitVec.ofNat 32 (2 ^ j) < need := by
      rw [BitVec.lt_def, toNat_pow hj]
      omega
    rw [growSize, if_pos hlt, pow_mul_two]
    by_cases hlast : j = 31
    · subst hlast
      apply growSize_zero
      rw [BitVec.lt_def]
      simp
      omega
    · exact ih (by omega)

/-- The loop reaches every other need. -/
theorem growSize_of_small {rounds j : ℕ} (hj : j ≤ 31) (hrounds : 31 - j < rounds) {need : Word}
    (hneed : need.toNat ≤ 2 ^ 31) :
    ∃ j', j ≤ j' ∧ j' ≤ 31 ∧
      growSize rounds (BitVec.ofNat 32 (2 ^ j)) need = some (BitVec.ofNat 32 (2 ^ j')) := by
  induction rounds generalizing j with
  | zero => omega
  | succ rounds ih =>
    rw [growSize]
    split
    · rename_i hlt
      rw [BitVec.lt_def, toNat_pow hj] at hlt
      have hj' : j < 31 := by
        by_contra hge
        obtain rfl : j = 31 := by omega
        omega
      obtain ⟨j', hle, hle', hgrow⟩ := ih (j := j + 1) (by omega) (by omega)
      refine ⟨j', by omega, hle', ?_⟩
      rw [pow_mul_two]
      exact hgrow
    · exact ⟨j, le_rfl, hj, rfl⟩

/-- An element is written if it fits below `2 ^ 31` words, else the writer never returns. -/
theorem objOutInsn_cases {u : ObjFdata} {count : ℕ} (hu : ObjInvariant u count) (i : Insn) :
    (count + emittedSize i.size ≤ 2 ^ 31 ∧
      ∃ u', objOutInsn u i = .ok u' ∧ ObjInvariant u' (count + emittedSize i.size)) ∨
    (2 ^ 31 < count + emittedSize i.size ∧ objOutInsn u i = .error .hang) := by
  obtain ⟨⟨j, hj, hj', hsize⟩, hpos, hcount⟩ := hu
  unfold objOutInsn
  by_cases hle : i.size.toInt ≤ 0
  · have hzero : emittedSize i.size = 0 := by
      unfold emittedSize
      omega
    rw [if_pos hle, hzero]
    exact .inl ⟨hcount, u, rfl, ⟨⟨j, hj, hj', hsize⟩, hpos, hcount⟩⟩
  · rw [if_neg hle]
    have hnat : i.size.toNat = emittedSize i.size := by
      unfold emittedSize
      rw [BitVec.toInt_eq_toNat_cond] at hle ⊢
      split at hle <;> omega
    have hlt : emittedSize i.size < 2 ^ 31 := by
      unfold emittedSize
      have := i.size.toInt_lt
      omega
    have hneed : (u.pos + i.size).toNat = count + emittedSize i.size := by
      rw [BitVec.toNat_add, hpos, hnat]
      omega
    by_cases hfits : count + emittedSize i.size ≤ 2 ^ 31
    · left
      rw [hsize]
      obtain ⟨j₁, hj₁, hj₁', hgrow⟩ :=
        @growSize_of_small 32 _ hj' (by omega) _ (hneed.trans_le hfits)
      rw [hgrow]
      exact ⟨hfits, _, rfl, ⟨j₁, by omega, hj₁', rfl⟩, hneed, hfits⟩
    · right
      rw [hsize, growSize_of_large 32 hj' (by omega)]
      exact ⟨by omega, rfl⟩

theorem foldlM_objOutInsn {u : ObjFdata} {count : ℕ} (hu : ObjInvariant u count)
    (insns : List Insn) :
    (count + emitted (insns.map Insn.size) ≤ 2 ^ 31 ∧
      ∃ u', insns.foldlM objOutInsn u = .ok u' ∧
        ObjInvariant u' (count + emitted (insns.map Insn.size))) ∨
    (2 ^ 31 < count + emitted (insns.map Insn.size) ∧
      insns.foldlM objOutInsn u = .error .hang) := by
  induction insns generalizing u count with
  | nil => exact .inl ⟨hu.count_le, u, rfl, hu⟩
  | cons i insns ih =>
    rw [List.foldlM_cons, List.map_cons, emitted_cons, ← Nat.add_assoc]
    rcases objOutInsn_cases hu i with ⟨_, u', hstep, hu'⟩ | ⟨hlarge, hstep⟩
    · rw [hstep]
      exact ih hu'
    · rw [hstep]
      exact .inr ⟨by omega, rfl⟩

theorem objInvariant_init (fresh : ℕ → Word) : ObjInvariant (objInit fresh) 0 where
  size := ⟨10, le_rfl, by decide, rfl⟩
  pos := rfl
  count_le := Nat.zero_le _

/-- `obj_out` returns for exactly the lists that emit at most `2 ^ 31` words. -/
theorem objOut_cases (fresh : ℕ → Word) (insns : List Insn) :
    (emitted (insns.map Insn.size) ≤ 2 ^ 31 ∧
      ∃ u, objOut fresh insns = .ok u ∧ u.pos.toNat = emitted (insns.map Insn.size)) ∨
    (2 ^ 31 < emitted (insns.map Insn.size) ∧ objOut fresh insns = .error .hang) := by
  have h := foldlM_objOutInsn (objInvariant_init fresh) insns
  rw [Nat.zero_add] at h
  rcases h with ⟨hle, u, hout, hu⟩ | ⟨hlarge, hout⟩
  · exact .inl ⟨hle, u, hout, hu.pos⟩
  · exact .inr ⟨hlarge, hout⟩

/-! ## The other writers -/

theorem length_emitWords (i : Insn) : (emitWords i).length = emittedSize i.size := by
  unfold emitWords
  split
  · rename_i h
    simp [h]
  · rename_i zeros h
    simp [h]

theorem length_textOut (insns : List Insn) :
    (textOut insns).length = emitted (insns.map Insn.size) := by
  induction insns with
  | nil => rfl
  | cons i insns ih =>
    rw [List.map_cons, emitted_cons, ← ih, ← length_emitWords i]
    simp [textOut]

/-- How many words `raw_out` has written for a list of elements. -/
def rawLength (insns : List Insn) : ℕ := (rawOutFrom 0#32 insns).1.length

theorem rawOutFrom_snd (offset : Word) (insns : List Insn) :
    (rawOutFrom offset insns).2 =
      offset + BitVec.ofNat 32 (rawOutFrom offset insns).1.length := by
  induction insns generalizing offset with
  | nil => simp [rawOutFrom]
  | cons i rest ih =>
    simp only [rawOutFrom, ih, rawOut, List.length_append, BitVec.ofNat_add, BitVec.add_assoc]

theorem rawOutFrom_append (offset : Word) (insns insns' : List Insn) :
    (rawOutFrom offset (insns ++ insns')).1 =
      (rawOutFrom offset insns).1 ++ (rawOutFrom (rawOutFrom offset insns).2 insns').1 := by
  induction insns generalizing offset with
  | nil => rfl
  | cons i rest ih => simp only [List.cons_append, rawOutFrom, ih, List.append_assoc]

theorem rawLength_concat (insns : List Insn) (i : Insn) :
    rawLength (insns ++ [i]) =
      rawLength insns + rawGap (BitVec.ofNat 32 (rawLength insns)) i.reladdr +
        emittedSize i.size := by
  have hoffset : (rawOutFrom 0#32 insns).2 = BitVec.ofNat 32 (rawLength insns) := by
    rw [rawOutFrom_snd, BitVec.zero_add]
    rfl
  rw [rawLength, rawOutFrom_append, hoffset, List.length_append]
  simp [rawOutFrom, rawOut, length_emitWords, rawLength, Nat.add_assoc]

/-- Nothing is skipped exactly when no address lies beyond the words before it. -/
theorem rawLength_take_eq_iff (insns : List Insn) {k : ℕ} (hk : k ≤ insns.length) :
    emitted ((insns.take k).map Insn.size) ≤ rawLength (insns.take k) ∧
      (rawLength (insns.take k) = emitted ((insns.take k).map Insn.size) ↔
        ∀ j i, j < k → insns[j]? = some i →
          rawGap (BitVec.ofNat 32 (emitted ((insns.take j).map Insn.size))) i.reladdr = 0) := by
  induction k with
  | zero => exact ⟨Nat.zero_le _, fun _ j i hj ↦ by omega, fun _ ↦ rfl⟩
  | succ k ih =>
    obtain ⟨hle, hiff⟩ := ih (by omega)
    have hget : insns[k]? = some insns[k] := List.getElem?_eq_getElem (by omega)
    have hemitted : emitted ((insns.take (k + 1)).map Insn.size) =
        emitted ((insns.take k).map Insn.size) + emittedSize insns[k].size := by
      rw [List.take_add_one, hget, List.map_append, emitted_append]
      simp
    have hraw : rawLength (insns.take (k + 1)) = rawLength (insns.take k) +
        rawGap (BitVec.ofNat 32 (rawLength (insns.take k))) insns[k].reladdr +
        emittedSize insns[k].size := by
      rw [List.take_add_one, hget]
      exact rawLength_concat _ _
    refine ⟨by omega, ?_, ?_⟩
    · intro heq j i hj hi
      have hbefore : rawLength (insns.take k) = emitted ((insns.take k).map Insn.size) := by omega
      by_cases hjk : j < k
      · exact hiff.mp hbefore j i hjk hi
      · obtain rfl : j = k := by omega
        obtain rfl := Option.some.inj (hget.symm.trans hi)
        rw [← hbefore]
        omega
    · intro hgaps
      have hbefore := hiff.mpr fun j i hj ↦ hgaps j i (by omega)
      have hgap := hgaps k insns[k] (by omega) hget
      rw [hraw, hemitted, hbefore, hgap]
      rfl

/-! ## Agreement -/

/-- Where each writer has arrived at the element with index `k`, whose word it writes there. -/
structure PlacedAt (fresh : ℕ → Word) (a : Assembled) (k address : ℕ) : Prop where
  obj : ∃ u, objOut fresh (a.insns.take k) = .ok u ∧ u.pos.toNat = address
  raw : rawLength (a.insns.take k) +
    rawGap (BitVec.ofNat 32 (rawLength (a.insns.take k))) (a.reladdrs.getD k 0#32) = address
  text : (textOut (a.insns.take k)).length = address

/-- Every word is where its address says, and every label has the number of words before its
element as its value. -/
structure AddressesAgree (fresh : ℕ → Word) (pd : ParseData) (a : Assembled) : Prop where
  finishes : ∃ u, objOut fresh a.insns = .ok u
  words : ∀ k i, a.insns[k]? = some i → 0 < emittedSize i.size →
    PlacedAt fresh a k i.reladdr.toNat
  labels : ∀ (id : ℕ) s s', pd.symbols[id]? = some s → s.ce = none → a.symbols[id]? = some s' →
    PlacedAt fresh a s.place s'.reladdr.toNat

/-- The element with index `k` has a word to emit, or a label. -/
def Marked (pd : ParseData) (k : ℕ) : Prop :=
  (∃ e, pd.elems[k]? = some e ∧ 0 < emittedSize e.size) ∨
    ∃ s ∈ pd.symbols, s.ce = none ∧ s.place = k

/-- The sizes of the first `k` elements. -/
def ParseData.sizes (pd : ParseData) (k : ℕ) : List Word := (pd.elems.take k).map Elem.size

/-- At most `2 ^ 31` words are emitted. In front of a word or label the negative sizes cancel modulo
`2 ^ 32`, and no address, as a signed number, lies beyond the words before it. -/
structure Placeable (pd : ParseData) : Prop where
  small : emitted (pd.elems.map Elem.size) ≤ 2 ^ 31
  cancel : ∀ k, Marked pd k → 2 ^ 32 ∣ shrunk (pd.sizes k)
  noGap : ∀ k, Marked pd k → ∀ j < k,
    (addrAfter (pd.sizes j)).toInt ≤ (BitVec.ofNat 32 (emitted (pd.sizes j))).toInt

/-- Sizes that are not negative can be placed. -/
theorem placeable_of_nonneg {pd : ParseData} (hsizes : ∀ e ∈ pd.elems, 0 ≤ e.size.toInt)
    (hsmall : emitted (pd.elems.map Elem.size) ≤ 2 ^ 31) : Placeable pd := by
  have hnonneg : ∀ k, ∀ size ∈ pd.sizes k, 0 ≤ size.toInt := by
    intro k size hsize
    obtain ⟨e, he, rfl⟩ := List.mem_map.mp hsize
    exact hsizes e (List.mem_of_mem_take he)
  refine ⟨hsmall, fun k _ ↦ ?_, fun k _ j _ ↦ ?_⟩
  · rw [shrunk_eq_zero (hnonneg k)]
    exact dvd_zero _
  · have hle : emitted (pd.sizes j) ≤ 2 ^ 31 := by
      rw [ParseData.sizes, List.map_take]
      exact (emitted_take_le _ j).trans hsmall
    rw [← addrAfter_toNat (hnonneg j) hle, BitVec.ofNat_toNat, BitVec.setWidth_eq]

section

variable {undef : UndefinedShifts} {fuel : ℕ} {pd : ParseData} {a : Assembled}

namespace Passes

theorem length_insns (p : Passes undef fuel pd a) : a.insns.length = pd.elems.length := by
  simp [Assembled.insns, p.reladdrs_eq, p.elems_eq, p.words_length, length_addrsFrom]

theorem reladdrs_getElem? (p : Passes undef fuel pd a) {k : ℕ} (hk : k < pd.elems.length) :
    a.reladdrs[k]? = some (addrAfter (pd.sizes k)) := by
  rw [p.reladdrs_eq, addrsFrom_eq, List.getElem?_eq_getElem hk, BitVec.zero_add]
  rfl

theorem reladdrs_getD (p : Passes undef fuel pd a) {k : ℕ} (hk : k < pd.elems.length) :
    a.reladdrs.getD k 0#32 = addrAfter (pd.sizes k) := by
  rw [List.getD_eq_getElem?_getD, p.reladdrs_getElem? hk]
  rfl

/-- The writers see each element with the sum of the sizes before it. -/
theorem insns_getElem? (p : Passes undef fuel pd a) {k : ℕ} {e : Elem}
    (he : pd.elems[k]? = some e) :
    ∃ word, a.words[k]? = some word ∧
      a.insns[k]? = some { reladdr := addrAfter (pd.sizes k), word, size := e.size } := by
  have hk : k < pd.elems.length := (List.getElem?_eq_some_iff.mp he).1
  have hk' : k < a.words.length := by
    rw [p.words_length]
    exact hk
  refine ⟨a.words[k], List.getElem?_eq_getElem hk', ?_⟩
  have hzip : (a.words.zip a.elems)[k]? = some (a.words[k], e) := by
    rw [List.getElem?_zip_eq_some, p.elems_eq]
    exact ⟨List.getElem?_eq_getElem hk', he⟩
  rw [Assembled.insns, List.getElem?_zipWith, p.reladdrs_getElem? hk, hzip]

theorem insns_size (p : Passes undef fuel pd a) :
    a.insns.map Insn.size = pd.elems.map Elem.size := by
  apply List.ext_getElem?
  intro k
  rw [List.getElem?_map, List.getElem?_map]
  cases he : pd.elems[k]? with
  | none =>
    rw [List.getElem?_eq_none (by rw [p.length_insns]; exact List.getElem?_eq_none_iff.mp he)]
    rfl
  | some e =>
    obtain ⟨word, _, hinsn⟩ := p.insns_getElem? he
    rw [hinsn]
    rfl

theorem take_insns_size (p : Passes undef fuel pd a) (k : ℕ) :
    (a.insns.take k).map Insn.size = pd.sizes k := by
  rw [List.map_take, p.insns_size, ParseData.sizes, List.map_take]

/-- The three positions at an element, when nothing runs over. -/
theorem placedAt_iff (p : Passes undef fuel pd a) (fresh : ℕ → Word)
    (hsmall : emitted (pd.elems.map Elem.size) ≤ 2 ^ 31) {k : ℕ} (hk : k < pd.elems.length)
    (address : ℕ) :
    PlacedAt fresh a k address ↔
      emitted (pd.sizes k) = address ∧
        rawLength (a.insns.take k) +
          rawGap (BitVec.ofNat 32 (rawLength (a.insns.take k))) (addrAfter (pd.sizes k)) =
            address := by
  have htext : (textOut (a.insns.take k)).length = emitted (pd.sizes k) := by
    rw [length_textOut, p.take_insns_size]
  have hle : emitted (pd.sizes k) ≤ 2 ^ 31 := by
    rw [ParseData.sizes, List.map_take]
    exact (emitted_take_le _ k).trans hsmall
  constructor
  · rintro ⟨_, hraw, htext'⟩
    rw [p.reladdrs_getD hk] at hraw
    exact ⟨htext.symm.trans htext', hraw⟩
  · rintro ⟨hemitted, hraw⟩
    refine ⟨?_, ?_, htext.trans hemitted⟩
    · rcases objOut_cases fresh (a.insns.take k) with ⟨_, u, hout, hpos⟩ | ⟨hlarge, _⟩
      · refine ⟨u, hout, ?_⟩
        rw [hpos, p.take_insns_size, hemitted]
      · rw [p.take_insns_size] at hlarge
        omega
    · rw [p.reladdrs_getD hk]
      exact hraw

theorem lt_of_marked (hpd : pd.Valid) {k : ℕ} (hk : Marked pd k) : k < pd.elems.length := by
  rcases hk with ⟨e, he, _⟩ | ⟨s, hs, hce, rfl⟩
  · exact (List.getElem?_eq_some_iff.mp he).1
  · exact hpd.label s hs hce

/-- Words and labels alike: agreement is about marked elements. -/
theorem addressesAgree_iff_marked (p : Passes undef fuel pd a) (hpd : pd.Valid)
    (fresh : ℕ → Word) :
    AddressesAgree fresh pd a ↔
      (∃ u, objOut fresh a.insns = .ok u) ∧
        ∀ k, Marked pd k → PlacedAt fresh a k (addrAfter (pd.sizes k)).toNat := by
  have hvalue : ∀ (id : ℕ) s s', pd.symbols[id]? = some s → s.ce = none →
      a.symbols[id]? = some s' → s'.reladdr = addrAfter (pd.sizes s.place) := by
    intro id s s' hs hce hs'
    have hplace := hpd.label s (List.mem_of_getElem? hs) hce
    rw [p.label_reladdr hs hce hs', ← p.reladdrs_eq, p.reladdrs_getD hplace]
  constructor
  · rintro ⟨hfinishes, hwords, hlabels⟩
    refine ⟨hfinishes, ?_⟩
    rintro k (⟨e, he, hemits⟩ | ⟨s, hs, hce, rfl⟩)
    · obtain ⟨word, _, hinsn⟩ := p.insns_getElem? he
      exact hwords k _ hinsn hemits
    · obtain ⟨id, hid⟩ := List.getElem?_of_mem hs
      obtain ⟨s', hs'⟩ := p.symbols_getElem? hid
      rw [← hvalue id s s' hid hce hs']
      exact hlabels id s s' hid hce hs'
  · rintro ⟨hfinishes, hmarked⟩
    refine ⟨hfinishes, ?_, ?_⟩
    · intro k i hi hemits
      have hk : k < pd.elems.length := by
        rw [← p.length_insns]
        exact (List.getElem?_eq_some_iff.mp hi).1
      obtain ⟨word, _, hinsn⟩ := p.insns_getElem? (List.getElem?_eq_getElem hk)
      obtain rfl := Option.some.inj (hinsn.symm.trans hi)
      exact hmarked k (.inl ⟨pd.elems[k], List.getElem?_eq_getElem hk, hemits⟩)
    · intro id s s' hs hce hs'
      rw [hvalue id s s' hs hce hs']
      exact hmarked s.place (.inr ⟨s, List.mem_of_getElem? hs, hce, rfl⟩)

theorem rawGap_eq_zero_iff (offset reladdr : Word) :
    rawGap offset reladdr = 0 ↔ reladdr.toInt ≤ offset.toInt := by
  unfold rawGap
  omega

/-- No gap before index `k`, in terms of sizes. -/
theorem rawLength_take_eq_iff (p : Passes undef fuel pd a) {k : ℕ} (hk : k < pd.elems.length) :
    rawLength (a.insns.take k) = emitted (pd.sizes k) ↔
      ∀ j < k,
        (addrAfter (pd.sizes j)).toInt ≤ (BitVec.ofNat 32 (emitted (pd.sizes j))).toInt := by
  have hle : k ≤ a.insns.length := by
    rw [p.length_insns]
    omega
  rw [← p.take_insns_size, (Asm.rawLength_take_eq_iff a.insns hle).2]
  constructor
  · intro hgaps j hj
    obtain ⟨word, _, hinsn⟩ :=
      p.insns_getElem? (List.getElem?_eq_getElem (show j < pd.elems.length by omega))
    have hgap := hgaps j _ hj hinsn
    rw [p.take_insns_size, rawGap_eq_zero_iff] at hgap
    exact hgap
  · intro hgaps j i hj hi
    obtain ⟨word, _, hinsn⟩ :=
      p.insns_getElem? (List.getElem?_eq_getElem (show j < pd.elems.length by omega))
    obtain rfl := Option.some.inj (hinsn.symm.trans hi)
    rw [p.take_insns_size, rawGap_eq_zero_iff]
    exact hgaps j hj

theorem addressesAgree_iff (p : Passes undef fuel pd a) (hpd : pd.Valid) (fresh : ℕ → Word) :
    AddressesAgree fresh pd a ↔ Placeable pd := by
  have hbefore : ∀ k, emitted (pd.elems.map Elem.size) ≤ 2 ^ 31 →
      emitted (pd.sizes k) < 2 ^ 32 := by
    intro k hsmall
    have := emitted_take_le (pd.elems.map Elem.size) k
    rw [ParseData.sizes, List.map_take]
    omega
  rw [p.addressesAgree_iff_marked hpd fresh]
  constructor
  · rintro ⟨⟨u, hout⟩, hmarked⟩
    have hsmall : emitted (pd.elems.map Elem.size) ≤ 2 ^ 31 := by
      rw [← p.insns_size]
      rcases objOut_cases fresh a.insns with ⟨hle, _⟩ | ⟨_, hhang⟩
      · exact hle
      · rw [hhang] at hout
        cases hout
    have hplaced : ∀ k, Marked pd k →
        emitted (pd.sizes k) = (addrAfter (pd.sizes k)).toNat ∧
          rawLength (a.insns.take k) = emitted (pd.sizes k) := by
      intro k hk
      have hlt := lt_of_marked hpd hk
      obtain ⟨hemitted, hraw⟩ := (p.placedAt_iff fresh hsmall hlt _).mp (hmarked k hk)
      have hle := (Asm.rawLength_take_eq_iff a.insns (k := k) (by rw [p.length_insns]; omega)).1
      rw [p.take_insns_size] at hle
      exact ⟨hemitted, by omega⟩
    refine ⟨hsmall, ?_, ?_⟩
    · intro k hk
      exact (addrAfter_toNat_eq_iff (hbefore k hsmall)).mp (hplaced k hk).1
    · intro k hk
      exact (p.rawLength_take_eq_iff (lt_of_marked hpd hk)).mp (hplaced k hk).2
  · rintro ⟨hsmall, hcancel, hnoGap⟩
    refine ⟨?_, ?_⟩
    · rcases objOut_cases fresh a.insns with ⟨_, u, hout, _⟩ | ⟨hlarge, _⟩
      · exact ⟨u, hout⟩
      · rw [p.insns_size] at hlarge
        omega
    · intro k hk
      have hlt := lt_of_marked hpd hk
      have hemitted := (addrAfter_toNat_eq_iff (hbefore k hsmall)).mpr (hcancel k hk)
      have hraw := (p.rawLength_take_eq_iff hlt).mpr (hnoGap k hk)
      apply (p.placedAt_iff fresh hsmall hlt _).mpr
      refine ⟨hemitted, ?_⟩
      have haddr : BitVec.ofNat 32 (emitted (pd.sizes k)) = addrAfter (pd.sizes k) := by
        rw [hemitted, BitVec.ofNat_toNat]
        simp
      rw [hraw, haddr, (rawGap_eq_zero_iff _ _).mpr le_rfl, Nat.add_zero, hemitted]

end Passes

end

/-! ## Whole programs -/

/-- No error was reported; the assembler may still have crashed. -/
def Accepted : Except Stop (Option Assembled) → Prop
  | .ok none | .error .fatal => False
  | .ok (some _) | .error _ => True

section

variable (undef : UndefinedShifts) (fuel : ℕ) (fresh : ℕ → Word)

/-- The assembler gets to its output, and addresses agree with all three of its formats. -/
def AssemblesInPlace (source : Source) : Prop :=
  ∃ pd a, parse undef fuel source = .ok pd ∧ assemble undef fuel source = .ok (some a) ∧
    AddressesAgree fresh pd a

/-- An accepted program assembles with every word and label in place exactly when none of its expressions
overflows, no label is in front of nothing, and the sizes of its elements can be placed. -/
theorem assemblesInPlace_iff (source : Source) (hlexed : ∀ s ∈ source, s.Lexed)
    (haccepted : Accepted (assemble undef fuel source)) :
    AssemblesInPlace undef fuel fresh source ↔
      ¬ ProgramOverflows undef fuel source ∧
        (∀ e, .element e ∈ source → e.labelsNothing = false) ∧
          ∀ pd, parse undef fuel source = .ok pd → Placeable pd := by
  constructor
  · rintro ⟨pd, a, hpd, ha, hagree⟩
    obtain ⟨_, hinner⟩ := assemble_eq_some hpd ha
    obtain ⟨p⟩ := assemblyInner_eq_ok hinner
    refine ⟨p.not_programOverflows hlexed hpd, ?_, ?_⟩
    · intro e he
      exact foldlM_parseStatement_eq_ok undef fuel hpd he
    · intro pd' hpd'
      obtain rfl := Except.ok.inj (hpd.symm.trans hpd')
      exact (p.addressesAgree_iff (parse_valid undef fuel hpd) fresh).mp hagree
  · rintro ⟨hevaluates, hlabels, hplaceable⟩
    cases hpd : parse undef fuel source with
    | error stop =>
      have hresult : assemble undef fuel source = .error stop := by
        rw [assemble, hpd]
        rfl
      rw [hresult] at haccepted
      exfalso
      rcases foldlM_parseStatement_eq_error undef fuel hpd with heval | ⟨_, e, he, hnothing⟩
      · rcases heval with rfl | hcrash
        · exact haccepted
        · exact hevaluates (programOverflows_of_parse hlexed hcrash hpd)
      · rw [hlabels e he] at hnothing
        cases hnothing
    | ok pd =>
      have hresult : assemble undef fuel source =
          if pd.errors.isEmpty then (assemblyInner undef fuel pd).map some else .ok none := by
        rw [assemble, hpd]
        rfl
      cases herrors : pd.errors with
      | cons error errors =>
        rw [hresult, herrors] at haccepted
        exact haccepted.elim
      | nil =>
        rw [herrors, List.isEmpty_nil, if_pos rfl] at hresult
        cases hinner : assemblyInner undef fuel pd with
        | error stop =>
          rw [hresult, hinner] at haccepted
          exfalso
          rcases stopsInEval_assemblyInner undef fuel pd stop hinner with rfl | hcrash
          · exact haccepted
          · exact hevaluates (programOverflows_of_assemblyInner hlexed hpd hcrash hinner)
        | ok a =>
          obtain ⟨p⟩ := assemblyInner_eq_ok hinner
          refine ⟨pd, a, hpd, ?_, ?_⟩
          · rw [hresult, hinner]
            rfl
          · exact (p.addressesAgree_iff (parse_valid undef fuel hpd) fresh).mpr (hplaceable pd hpd)

end

/-- Two words with a label, an area of zeros, an instruction, and a string with a label, one of them with a
`.set` symbol. -/
def placedSource : Source :=
  [.element (.labelled ['f', 'o', 'o'] (.word [.imm 5#32 false, .ref true ['b', 'a', 'r']])),
    .set ['s', 'e', 't'] (.op2 .sub (.ref true ['f', 'o', 'o']) (.op2 .mul .ici (.imm 2#32 false))),
    .element (.zero (.imm 3#32 false)),
    .element (.insn ⟨false, 1#4, .left, false, .regImm 2#4 (.native .add) (.ref true ['s', 'e', 't'])⟩),
    .element (.labelled ['b', 'a', 'r'] (.utf32 [0x68#8, 0x69#8]))]

theorem placedSource_lexed : ∀ s ∈ placedSource, s.Lexed := by
  decide

/-- All of it is in place. -/
theorem assemblesInPlace_placedSource : AssemblesInPlace .masked 3 (fun _ ↦ 0#32) placedSource := by
  have hparse : ∃ pd, parse .masked 3 placedSource = .ok pd ∧ pd.symbols.length = 3 ∧
      pd.elems.map Elem.size = [1#32, 1#32, 3#32, 1#32, 1#32, 1#32] := ⟨_, rfl, rfl, rfl⟩
  obtain ⟨pd, hpd, hsymbols, hsizes⟩ := hparse
  apply (assemblesInPlace_iff .masked 3 (fun _ ↦ 0#32) placedSource placedSource_lexed ?_).mpr
  · refine ⟨not_programOverflows_of_divisionless hpd ?_ (by rw [hsymbols]), ?_, ?_⟩
    · simp [placedSource, Statement.exprs, Element.exprs, ConstExpr.divides, RhsPlain.expr?]
    · simp [placedSource, Element.labelsNothing, Element.isEmpty]
    · intro pd' hpd'
      obtain rfl := Except.ok.inj (hpd.symm.trans hpd')
      apply placeable_of_nonneg
      · have hall : ∀ size ∈ pd.elems.map Elem.size, 0 ≤ size.toInt := by
          rw [hsizes]
          simp
        exact fun e he ↦ hall _ (List.mem_map_of_mem he)
      · rw [hsizes]
        exact Nat.le_of_ble_eq_true rfl
  · have hsome : (assemble .masked 3 placedSource).toOption.join.isSome = true := by decide +kernel
    rcases h : assemble .masked 3 placedSource with stop | _ | a
    · rw [h] at hsome
      cases hsome
    · rw [h] at hsome
      cases hsome
    · trivial

/-- `foo: .utf32 ""` is accepted and crashes. -/
theorem assemblesInPlace_labelledNothing :
    (∀ s ∈ [Statement.element (.labelled ['f', 'o', 'o'] (.utf32 []))], s.Lexed) ∧
    Accepted (assemble .masked 0 [.element (.labelled ['f', 'o', 'o'] (.utf32 []))]) ∧
      ¬ AssemblesInPlace .masked 0 (fun _ ↦ 0#32)
        [.element (.labelled ['f', 'o', 'o'] (.utf32 []))] := by
  refine ⟨?_, trivial, ?_⟩
  · intro s hs
    obtain rfl := List.mem_singleton.mp hs
    constructor
    · exact fun r hr ↦ (List.not_mem_nil hr).elim
    · rintro e ⟨⟩ name hname
      obtain rfl := List.mem_singleton.mp hname
      exact .inl (by decide)
    · rintro name e ⟨⟩
  · rintro ⟨pd, a, hpd, _⟩
    cases hpd

end Tenyr.Asm
