import Mathlib.Data.BitVec
import Mathlib.Data.List.Nodup
import Mathlib.Logic.Function.Basic

/-!
# Parameters

A table of keys with lists of values. A call for a key that is in the table replaces its values or appends
another one. The number of values is a `size_t` that `param_get` returns as an `int`.
-/

namespace Tenyr.Plugin

abbrev Text := List UInt8

/-- A string, and where it is. -/
structure CString where
  address : ℕ
  text : Text
  deriving DecidableEq, Repr

/-- One value of a `string_list`. -/
structure StringNode (V : Type) where
  freeValue : Bool
  value : V
  deriving DecidableEq, Repr

structure ParamEntry (V : Type) where
  key : CString
  freeKey : Bool
  list : List (StringNode V)
  deriving DecidableEq, Repr

/-- `params` has `params_count` entries in it. -/
structure ParamState (V : Type) where
  paramsSize : ℕ
  params : List (ParamEntry V)
  deriving DecidableEq, Repr

variable {V : Type}

/-- `DEFAULT_PARAMS_COUNT` -/
def defaultParamsCount : ℕ := 16

def paramInit : ParamState V where
  paramsSize := defaultParamsCount
  params := []

/-- `params_cmp` finds no difference. -/
def paramsCmp (a b : ParamEntry V) : Bool := a.key.text == b.key.text

/-- `lsearch`: the entries with one that compares equal among them, and where that is. -/
def lsearch (p : ParamEntry V) (params : List (ParamEntry V)) : List (ParamEntry V) × ℕ :=
  match params.findIdx? (paramsCmp p) with
  | some k => (params, k)
  | none => (params ++ [p], params.length)

/-- `lfind` for a key. -/
def lfind (key : Text) (params : List (ParamEntry V)) : Option (ParamEntry V) :=
  params.find? fun q ↦ q.key.text == key

/-- An `int` that is made of a `size_t`. -/
def intOfSize (i : ℕ) : ℤ := (BitVec.ofNat 32 i).toInt

/-- The loop of `param_get`: how many values there are, and `val` with those that there is room for. -/
def getLoop (count : ℕ) : ℕ → List (StringNode V) → (ℕ → Option V) → ℕ × (ℕ → Option V)
  | i, [], val => (i, val)
  | i, r :: rest, val =>
    getLoop count (i + 1) rest (if i < count then Function.update val i (some r.value) else val)

/-- What is returned, and `val`, which has `none` where nothing was ever stored. -/
def paramGet (s : ParamState V) (key : Text) (count : ℕ) (val : ℕ → Option V) : ℤ × (ℕ → Option V) :=
  match lfind key s.params with
  | none => (0, val)
  | some q =>
    let (i, val) := getLoop count 0 q.list val
    (intOfSize i, val)

/-- The loop that doubles the size. It ends with the first size above the count, or never from zero on. -/
def growParams : ℕ → ℕ → ℕ → Option ℕ
  | 0, _, _ => none
  | rounds + 1, size, count => if size ≤ count then growParams rounds (size * 2) count else some size

/-- What becomes of the entry that was found; `param_free` looks at what is overwritten here. -/
def setEntry (q p : ParamEntry V) (list : StringNode V) (replace : Bool) : ParamEntry V :=
  if replace then
    let q := if q.key.address ≠ p.key.address then p else q
    { q with list := [list] }
  else { q with list := q.list ++ [list] }

/-- The arguments of `param_set`. -/
structure ParamCall (V : Type) where
  key : CString
  val : V
  replace : Bool
  freeKey : Bool
  freeValue : Bool
  deriving DecidableEq, Repr

/-- The entry to search for; it does not have a list yet. -/
def ParamCall.entry (c : ParamCall V) : ParamEntry V where
  key := c.key
  freeKey := c.freeKey
  list := []

def ParamCall.node (c : ParamCall V) : StringNode V where
  freeValue := c.freeValue
  value := c.val

/-- The entries after a call. -/
def setParams (c : ParamCall V) (params : List (ParamEntry V)) : List (ParamEntry V) :=
  let (params, k) := lsearch c.entry params
  params.modify k fun q ↦ setEntry q c.entry c.node c.replace

/-- `param_set` -/
def paramSet (s : ParamState V) (c : ParamCall V) : Option (ParamState V) := do
  let paramsSize ← growParams (s.params.length + 2) s.paramsSize s.params.length
  some { paramsSize, params := setParams c s.params }

/-- Calls one after the other on a new table. -/
def paramRun (calls : List (ParamCall V)) : Option (ParamState V) := calls.foldlM paramSet paramInit

/-! ## What the calls mean -/

/-- The calls since and including the last that replaces. -/
def sinceReplaced : List (ParamCall V) → List (ParamCall V)
  | [] => []
  | c :: calls => if calls.any ParamCall.replace then sinceReplaced calls else c :: calls

/-- The values that were set for a key, in the order of the calls. -/
def valuesSet (key : Text) (calls : List (ParamCall V)) : List V :=
  (sinceReplaced (calls.filter fun c ↦ c.key.text == key)).map ParamCall.val

/-- `val` where the first of some values were stored, as long as there was room. -/
def storedValues (values : List V) (count : ℕ) (val : ℕ → Option V) : ℕ → Option V :=
  fun i ↦ if i < min count values.length then values[i]? else val i

/-- The table after some calls, and what one more call does to it. -/
structure ParamRight (calls : List (ParamCall V)) (s : ParamState V) : Prop where
  get : ∀ key count val,
    paramGet s key count val =
      (((valuesSet key calls).length : ℤ), storedValues (valuesSet key calls) count val)
  others : ∀ c s', paramSet s c = some s' → ∀ key, key ≠ c.key.text →
    lfind key s'.params = lfind key s.params
  distinct : (s.params.map fun q ↦ q.key.text).Nodup
  capacity : s.params.length ≤ s.paramsSize

/-! ## Searching -/

section

variable {p q : ParamEntry V} {params : List (ParamEntry V)} {f : ParamEntry V → ParamEntry V} {key : Text}

theorem lsearch_cons_of_eq (h : q.key.text = p.key.text) : lsearch p (q :: params) = (q :: params, 0) := by
  have hcmp : paramsCmp p q = true := beq_iff_eq.mpr h.symm
  rw [lsearch, List.findIdx?_cons, hcmp]
  rfl

theorem lsearch_cons_of_ne (h : q.key.text ≠ p.key.text) :
    lsearch p (q :: params) = (q :: (lsearch p params).1, (lsearch p params).2 + 1) := by
  have hcmp : paramsCmp p q = false := beq_eq_false_iff_ne.mpr (Ne.symm h)
  rw [lsearch, lsearch, List.findIdx?_cons, hcmp]
  cases params.findIdx? (paramsCmp p) with
  | none => rfl
  | some k => rfl

theorem lfind_cons_of_eq (h : q.key.text = key) : lfind key (q :: params) = some q := by
  rw [lfind, List.find?_cons, beq_iff_eq.mpr h]

theorem lfind_cons_of_ne (h : q.key.text ≠ key) : lfind key (q :: params) = lfind key params := by
  rw [lfind, List.find?_cons, beq_eq_false_iff_ne.mpr h]
  rfl

/-- The entry that is searched for becomes another one, or is new. -/
theorem lfind_modify_lsearch (hf : ∀ q, q.key.text = p.key.text → (f q).key.text = p.key.text) :
    lfind key ((lsearch p params).1.modify (lsearch p params).2 f) =
      if key = p.key.text then some (f ((lfind key params).getD p)) else lfind key params := by
  induction params with
  | nil =>
    change lfind key [f p] = _
    split
    · rename_i hkey
      rw [lfind_cons_of_eq ((hf p rfl).trans hkey.symm)]
      rfl
    · rename_i hkey
      rw [lfind_cons_of_ne]
      intro heq
      exact hkey (heq.symm.trans (hf p rfl))
  | cons q params ih =>
    by_cases hq : q.key.text = p.key.text
    · rw [lsearch_cons_of_eq hq]
      change lfind key (f q :: params) = _
      split
      · rename_i hkey
        rw [lfind_cons_of_eq ((hf q hq).trans hkey.symm), lfind_cons_of_eq (hq.trans hkey.symm)]
        rfl
      · rename_i hkey
        rw [lfind_cons_of_ne, lfind_cons_of_ne]
        · exact fun heq ↦ hkey (heq.symm.trans hq)
        · exact fun heq ↦ hkey (heq.symm.trans (hf q hq))
    · rw [lsearch_cons_of_ne hq, List.modify_succ_cons]
      by_cases hkey : q.key.text = key
      · rw [lfind_cons_of_eq hkey, lfind_cons_of_eq hkey, if_neg fun heq ↦ hq (hkey.trans heq)]
      · rw [lfind_cons_of_ne hkey, lfind_cons_of_ne hkey, ih]

/-- The keys afterwards. -/
theorem map_text_modify_lsearch (hf : ∀ q, q.key.text = p.key.text → (f q).key.text = p.key.text) :
    ((lsearch p params).1.modify (lsearch p params).2 f).map (fun q ↦ q.key.text) =
      if p.key.text ∈ params.map fun q ↦ q.key.text then params.map fun q ↦ q.key.text
      else (params.map fun q ↦ q.key.text) ++ [p.key.text] := by
  induction params with
  | nil =>
    change [(f p).key.text] = [p.key.text]
    rw [hf p rfl]
  | cons q params ih =>
    by_cases hq : q.key.text = p.key.text
    · rw [lsearch_cons_of_eq hq, List.map_cons, if_pos (hq ▸ List.mem_cons_self)]
      change (f q).key.text :: params.map _ = _
      rw [hf q hq, hq]
    · rw [lsearch_cons_of_ne hq, List.modify_succ_cons, List.map_cons, List.map_cons, ih]
      simp only [List.mem_cons, Ne.symm hq, false_or]
      split <;> rfl

end

/-! ## Getting -/

theorem getLoop_eq (count i : ℕ) (list : List (StringNode V)) (val : ℕ → Option V) :
    getLoop count i list val = (i + list.length, fun index ↦
      if i ≤ index ∧ index < min count (i + list.length) then (list.map StringNode.value)[index - i]?
      else val index) := by
  induction list generalizing i val with
  | nil =>
    rw [getLoop, List.length_nil, Nat.add_zero, Prod.mk.injEq]
    refine ⟨rfl, ?_⟩
    funext index
    rw [if_neg (by omega)]
  | cons r rest ih =>
    rw [getLoop, ih, List.length_cons, Prod.mk.injEq]
    refine ⟨by omega, ?_⟩
    funext index
    have hother : index ≠ i →
        (if i < count then Function.update val i (some r.value) else val) index = val index := by
      intro hne
      split
      · exact Function.update_of_ne hne _ _
      · rfl
    rcases Nat.lt_trichotomy index i with hlt | rfl | hgt
    · have hbefore : ¬ (i + 1 ≤ index ∧ index < min count (i + 1 + rest.length)) := by omega
      have hbefore' : ¬ (i ≤ index ∧ index < min count (i + (rest.length + 1))) := by omega
      rw [if_neg hbefore, if_neg hbefore', hother (Nat.ne_of_lt hlt)]
    · have hhere : ¬ (index + 1 ≤ index ∧ index < min count (index + 1 + rest.length)) := by omega
      rw [if_neg hhere, Nat.sub_self]
      by_cases hroom : index < count
      · rw [if_pos hroom, Function.update_self, if_pos (by omega)]
        rfl
      · rw [if_neg hroom, if_neg (by omega)]
    · have hindex : index - i = index - (i + 1) + 1 := by
        omega
      rw [hindex, List.map_cons, List.getElem?_cons_succ, hother (Nat.ne_of_gt hgt)]
      have hsame : (i + 1 ≤ index ∧ index < min count (i + 1 + rest.length)) ↔
          i ≤ index ∧ index < min count (i + (rest.length + 1)) := by
        omega
      simp only [hsame]

/-- The values of an entry, if there is one. -/
def listOf (entry : Option (ParamEntry V)) : List V :=
  match entry with
  | none => []
  | some q => q.list.map StringNode.value

theorem paramGet_eq (s : ParamState V) (key : Text) (count : ℕ) (val : ℕ → Option V) :
    paramGet s key count val = (intOfSize (listOf (lfind key s.params)).length,
      storedValues (listOf (lfind key s.params)) count val) := by
  rw [paramGet]
  cases lfind key s.params with
  | none =>
    rw [Prod.mk.injEq]
    refine ⟨rfl, ?_⟩
    funext index
    exact (if_neg (Nat.not_lt.mpr (Nat.min_le_right _ _ |>.trans (Nat.zero_le _)))).symm
  | some q =>
    dsimp only [listOf]
    rw [getLoop_eq, Nat.zero_add, List.length_map, Prod.mk.injEq]
    refine ⟨rfl, ?_⟩
    funext index
    simp only [storedValues, List.length_map, Nat.sub_zero, Nat.zero_le, true_and]

/-! ## Setting -/

section

variable {s : ParamState V} {c : ParamCall V} {calls : List (ParamCall V)}

theorem growParams_eq_some {rounds size count : ℕ} (hrounds : 0 < rounds) (hsize : 0 < size)
    (hcount : count + 1 < size + rounds) : ∃ size', growParams rounds size count = some size' ∧
      count < size' := by
  induction rounds generalizing size with
  | zero => exact absurd hrounds (Nat.lt_irrefl 0)
  | succ rounds ih =>
    rw [growParams]
    split
    · exact ih (by omega) (by omega) (by omega)
    · rename_i hlarge
      exact ⟨size, rfl, Nat.not_le.mp hlarge⟩

theorem text_setEntry {q p : ParamEntry V} (list : StringNode V) (replace : Bool)
    (h : q.key.text = p.key.text) : (setEntry q p list replace).key.text = p.key.text := by
  rw [setEntry]
  split
  · dsimp only
    split
    · rfl
    · exact h
  · exact h

theorem listOf_setEntry (q p : ParamEntry V) (list : StringNode V) (replace : Bool) :
    listOf (some (setEntry q p list replace)) =
      if replace then [list.value] else listOf (some q) ++ [list.value] := by
  rw [setEntry]
  split
  · rfl
  · exact List.map_append

theorem sinceReplaced_append (c : ParamCall V) (calls : List (ParamCall V)) :
    sinceReplaced (calls ++ [c]) = if c.replace then [c] else sinceReplaced calls ++ [c] := by
  induction calls with
  | nil => cases hc : c.replace <;> rfl
  | cons c' calls ih =>
    rw [List.cons_append, sinceReplaced, sinceReplaced, List.any_append, ih]
    cases hc : c.replace with
    | true => simp [hc]
    | false =>
      cases hany : calls.any ParamCall.replace <;> simp [hc]

/-- One more call, for a key and for the others. -/
theorem valuesSet_append (key : Text) (c : ParamCall V) (calls : List (ParamCall V)) :
    valuesSet key (calls ++ [c]) =
      if key = c.key.text then
        if c.replace then [c.val] else valuesSet key calls ++ [c.val]
      else valuesSet key calls := by
  rw [valuesSet, List.filter_append]
  split
  · rename_i hkey
    rw [List.filter_singleton, beq_iff_eq.mpr hkey.symm, cond_true, sinceReplaced_append]
    split
    · rfl
    · exact List.map_append
  · rename_i hkey
    rw [List.filter_singleton, beq_eq_false_iff_ne.mpr (Ne.symm hkey), cond_false, List.append_nil]
    rfl

/-- The values of the calls are in the table, under keys that are distinct. -/
structure Tabled (calls : List (ParamCall V)) (s : ParamState V) : Prop where
  values : ∀ key, listOf (lfind key s.params) = valuesSet key calls
  distinct : (s.params.map fun q ↦ q.key.text).Nodup
  capacity : s.params.length ≤ s.paramsSize
  size_pos : 0 < s.paramsSize

theorem tabled_init : Tabled [] (paramInit : ParamState V) where
  values _ := rfl
  distinct := List.nodup_nil
  capacity := Nat.zero_le _
  size_pos := (by decide : 0 < defaultParamsCount)

theorem lfind_setParams (c : ParamCall V) (params : List (ParamEntry V)) (key : Text) :
    lfind key (setParams c params) = if key = c.key.text
      then some (setEntry ((lfind key params).getD c.entry) c.entry c.node c.replace)
      else lfind key params :=
  lfind_modify_lsearch fun _ ↦ text_setEntry c.node c.replace

theorem map_text_setParams (c : ParamCall V) (params : List (ParamEntry V)) :
    (setParams c params).map (fun q ↦ q.key.text) =
      if c.key.text ∈ params.map fun q ↦ q.key.text then params.map fun q ↦ q.key.text
      else (params.map fun q ↦ q.key.text) ++ [c.key.text] :=
  map_text_modify_lsearch fun _ ↦ text_setEntry c.node c.replace

theorem length_setParams_le (c : ParamCall V) (params : List (ParamEntry V)) :
    (setParams c params).length ≤ params.length + 1 := by
  have hlength := congrArg List.length (map_text_setParams c params)
  rw [List.length_map] at hlength
  split at hlength
  · rw [hlength, List.length_map]
    exact Nat.le_succ _
  · rw [hlength, List.length_append, List.length_map]
    exact Nat.le_refl _

theorem Tabled.paramSet (h : Tabled calls s) (c : ParamCall V) :
    ∃ s', paramSet s c = some s' ∧ Tabled (calls ++ [c]) s' := by
  obtain ⟨size, hgrow, hsize⟩ : ∃ size, growParams (s.params.length + 2) s.paramsSize s.params.length = some size ∧
      s.params.length < size :=
    growParams_eq_some (Nat.succ_pos _) h.size_pos (by omega)
  refine ⟨{ paramsSize := size, params := setParams c s.params }, ?_, ?_, ?_, ?_, ?_⟩
  · rw [Plugin.paramSet, hgrow]
    rfl
  · intro key
    rw [lfind_setParams, valuesSet_append]
    split
    · rw [listOf_setEntry, ← h.values key]
      cases lfind key s.params <;> rfl
    · exact h.values key
  · rw [map_text_setParams]
    split
    · exact h.distinct
    · rename_i hnew
      rw [List.nodup_append]
      refine ⟨h.distinct, List.nodup_singleton _, ?_⟩
      rintro key hkey key' hkey' rfl
      exact hnew (List.mem_singleton.mp hkey' ▸ hkey)
  · exact (length_setParams_le c s.params).trans hsize
  · exact Nat.zero_lt_of_lt hsize

theorem lfind_paramSet {s' : ParamState V} (h : paramSet s c = some s') {key : Text}
    (hkey : key ≠ c.key.text) : lfind key s'.params = lfind key s.params := by
  obtain ⟨size, -, hs'⟩ := Option.bind_eq_some_iff.mp h
  obtain rfl := Option.some.inj hs'
  exact (lfind_setParams c s.params key).trans (if_neg hkey)

theorem paramRun_tabled (calls : List (ParamCall V)) : ∃ s, paramRun calls = some s ∧ Tabled calls s := by
  induction calls using List.reverseRecOn with
  | nil => exact ⟨paramInit, rfl, tabled_init⟩
  | append_singleton calls c ih =>
    obtain ⟨s, hrun, hs⟩ := ih
    obtain ⟨s', hset, hs'⟩ := hs.paramSet c
    refine ⟨s', ?_, hs'⟩
    rw [paramRun, List.foldlM_append]
    change ((paramRun calls).bind fun s ↦ List.foldlM Plugin.paramSet s [c]) = some s'
    rw [hrun, Option.bind_some, List.foldlM_cons, hset]
    rfl

end

theorem intOfSize_eq_iff (i : ℕ) : intOfSize i = i ↔ i < 2 ^ 31 := by
  rw [intOfSize]
  constructor
  · intro h
    have hlt := BitVec.toInt_lt (x := BitVec.ofNat 32 i)
    omega
  · intro h
    rw [← BitVec.ofInt_natCast, BitVec.toInt_ofInt]
    exact Int.bmod_eq_of_le (by omega) (by omega)

/-- Calls succeed, and the table answers for them afterwards. -/
def ParamsRight (calls : List (ParamCall V)) : Prop := ∃ s, paramRun calls = some s ∧ ParamRight calls s

/-- The table always holds what was set, and answers with it as long as an `int` counts the values. -/
theorem paramsRight_iff (calls : List (ParamCall V)) :
    ParamsRight calls ↔ ∀ key, (valuesSet key calls).length < 2 ^ 31 := by
  obtain ⟨s, hrun, hs⟩ := paramRun_tabled calls
  constructor
  · rintro ⟨s', hrun', hright⟩ key
    obtain rfl := Option.some.inj (hrun.symm.trans hrun')
    have hget := hright.get key 0 fun _ ↦ none
    rw [paramGet_eq, hs.values, Prod.mk.injEq] at hget
    exact (intOfSize_eq_iff _).mp hget.1
  · intro hsmall
    refine ⟨s, hrun, ?_, ?_, hs.distinct, hs.capacity⟩
    · intro key count val
      rw [paramGet_eq, hs.values, (intOfSize_eq_iff _).mpr (hsmall key)]
    · exact fun c s' hset key hkey ↦ lfind_paramSet hset hkey

theorem valuesSet_replicate {c : ParamCall V} (hc : c.replace = false) (n : ℕ) :
    valuesSet c.key.text (List.replicate n c) = List.replicate n c.val := by
  induction n with
  | zero => rfl
  | succ n ih =>
    rw [List.replicate_succ', valuesSet_append, if_pos rfl, hc, ih, List.replicate_succ']
    rfl

theorem not_paramsRight_of_le {c : ParamCall V} (hc : c.replace = false) {n : ℕ} (hn : 2 ^ 31 ≤ n) :
    ¬ ParamsRight (List.replicate n c) := by
  rintro ⟨s, hrun, hright⟩
  obtain ⟨s', hrun', hs⟩ := paramRun_tabled (List.replicate n c)
  obtain rfl := Option.some.inj (hrun.symm.trans hrun')
  have hget := hright.get c.key.text 0 fun _ ↦ none
  rw [paramGet_eq, hs.values, Prod.mk.injEq, intOfSize_eq_iff, valuesSet_replicate hc,
    List.length_replicate] at hget
  omega

/-- A key with 2 ^ 31 values has a negative number of them. -/
theorem not_paramsRight_appends : ¬ ParamsRight (List.replicate (2 ^ 31)
    { key := { address := 1, text := [107] }, val := 7, replace := false, freeKey := false
      freeValue := false : ParamCall ℕ }) :=
  not_paramsRight_of_le rfl (Nat.le_refl _)

end Tenyr.Plugin
