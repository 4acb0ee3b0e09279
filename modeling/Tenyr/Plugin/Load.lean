import Tenyr.Plugin.Param

/-!
# Loading plugins

`plugin_load` asks for the values under `base[0]`, `base[1]` and so on, until there are none. There is room for
16 of them, but `param_get` returns how many there are, and that many are looked at.
-/

namespace Tenyr.Plugin

def bytesOf (s : String) : Text := s.toUTF8.toList

/-- `snprintf` into a buffer of 256 bytes. -/
def cut (text : Text) : Text := text.take 255

/-- `base[inst]` -/
def indexName (base : Text) (inst : ℕ) : Text := base ++ bytesOf "[" ++ bytesOf (Nat.repr inst) ++ bytesOf "]"

/-- What happens that C does not define. -/
inductive PluginFault where
  | nullPaths  -- `*path`, where there are no paths
  | unstored  -- an implementation name that was never stored
  | overflow  -- of `inst`
  deriving DecidableEq, Repr

/-- A call of `success`, and the implementation name that it is made for. -/
structure PluginSuccess (H : Type) where
  libhandle : Option H  -- `none` is `RTLD_DEFAULT`
  inst : ℕ
  parent : Text
  implname : Text
  implstem : Option Text
  deriving DecidableEq, Repr

/-- What does not change while plugins are loaded; `openLibrary` is `dlopen` of a path that `build_path` makes. -/
structure PluginEnv (H : Type) where
  params : ParamState Text
  base : Text
  basepath : Text
  paths : Option (List Text)
  dylibSuffix : Text
  openLibrary : Text → Text → Text → Option H

section

variable {H : Type} (env : PluginEnv H)

/-- `countof(impls)` -/
def implsCount : ℕ := 16

def PluginEnv.parent (inst : ℕ) : Text := cut (indexName env.base inst)

/-- The value of `base[inst].stem`, if there is one. -/
def PluginEnv.stem (inst : ℕ) : Option Text :=
  (paramGet env.params (cut (indexName env.base inst ++ bytesOf ".stem")) 1 fun _ ↦ none).2 0

/-- One value: the paths are tried one after the other, and `success` is called. -/
def PluginEnv.load (inst : ℕ) (implname : Text) (paths : List Text) : PluginSuccess H :=
  let slash := 47
  let implpath := if slash ∈ implname then implname
    else cut (bytesOf "./libtenyr" ++ implname ++ env.dylibSuffix)
  let implstem := if slash ∈ implname then env.stem inst else (env.stem inst).or (some implname)
  { libhandle := paths.findSome? fun path ↦ env.openLibrary env.basepath path implpath
    inst
    parent := env.parent inst
    implname
    implstem }

/-- The loop over the values of an index: how many are left, and which is next. -/
def PluginEnv.loadImpls (inst : ℕ) (impls : ℕ → Option Text) :
    ℕ → ℕ → Except PluginFault (List (PluginSuccess H))
  | 0, _ => .ok []
  | left + 1, i =>
    match impls i, env.paths with
    | none, _ => .error .unstored
    | some _, none => .error .nullPaths
    | some implname, some paths => do
      let rest ← loadImpls inst impls left (i + 1)
      .ok (env.load inst implname paths :: rest)

/-- The loop over the indices, and how many of them there are before `inst` is too large for an `int`. -/
def PluginEnv.loadFrom : ℕ → ℕ → (ℕ → Option Text) → Except PluginFault (List (PluginSuccess H))
  | 0, _, _ => .error .overflow
  | rounds + 1, inst, impls =>
    let (count, impls) := paramGet env.params (env.parent inst) implsCount impls
    -- a count above 16 is only a message
    if count ≤ 0 then .ok []
    else do
      let here ← env.loadImpls inst impls count.toNat 0
      let rest ← loadFrom rounds (inst + 1) impls
      .ok (here ++ rest)

/-- `plugin_load`, with nothing stored at first. -/
def PluginEnv.pluginLoad : Except PluginFault (List (PluginSuccess H)) :=
  env.loadFrom (2 ^ 31) 0 fun _ ↦ none

/-! ## What is configured -/

/-- The values under `base[inst]`. -/
def PluginEnv.configured (inst : ℕ) : List Text :=
  listOf (lfind (indexName env.base inst) env.params.params)

/-- The values under what is left of the name, as many as `param_get` reports. -/
def PluginEnv.reported (inst : ℕ) : List Text :=
  let values := listOf (lfind (env.parent inst) env.params.params)
  values.take (intOfSize values.length).toNat

/-- The first index without a value. -/
def PluginEnv.FirstGap (n : ℕ) : Prop := env.configured n = [] ∧ ∀ i < n, env.configured i ≠ []

/-- `success` is called for every value up to the first index without one, in their order, and nothing else
happens. -/
def PluginEnv.Right : Prop := ∃ events n, env.pluginLoad = .ok events ∧ env.FirstGap n ∧
  events.map (fun event ↦ (event.inst, event.implname)) =
    (List.range n).flatMap fun inst ↦ (env.configured inst).map fun implname ↦ (inst, implname)

/-- Up to the first index without a value there is room for the values, and the names of the indices are not
cut so that other values are found. -/
structure PluginEnv.Enumerable (n : ℕ) : Prop where
  gap : env.FirstGap n
  below : n < 2 ^ 31
  room : ∀ i < n, (env.configured i).length ≤ implsCount
  whole : ∀ i ≤ n, env.reported i = env.configured i
  paths : env.paths = none → n = 0

/-! ## One index -/

variable {env}

/-- What a call of `success` is for. -/
def PluginSuccess.target (event : PluginSuccess H) : ℕ × Text := (event.inst, event.implname)

theorem loadImpls_eq_ok {inst i : ℕ} {impls : ℕ → Option Text} {names : List Text} {paths : List Text}
    (hpaths : env.paths = some paths) (himpls : ∀ k < names.length, impls (i + k) = names[k]?) :
    ∃ events, env.loadImpls inst impls names.length i = .ok events ∧
      events.map PluginSuccess.target = names.map fun implname ↦ (inst, implname) := by
  induction names generalizing i with
  | nil => exact ⟨[], rfl, rfl⟩
  | cons name names ih =>
    have hfirst : impls i = some name := himpls 0 (Nat.succ_pos _)
    obtain ⟨events, hevents, hmap⟩ := @ih (i + 1) fun k hk ↦ by
      have hnext := himpls (k + 1) (Nat.succ_lt_succ hk)
      rwa [← Nat.add_assoc, Nat.add_right_comm] at hnext
    refine ⟨env.load inst name paths :: events, ?_, ?_⟩
    · rw [List.length_cons, PluginEnv.loadImpls, hfirst, hpaths]
      dsimp only
      rw [hevents]
      rfl
    · rw [List.map_cons, List.map_cons, hmap]
      rfl

/-- Whatever is looked at was stored, and there are paths. -/
theorem of_loadImpls_eq_ok {inst i left : ℕ} {impls : ℕ → Option Text} {events : List (PluginSuccess H)}
    (h : env.loadImpls inst impls left i = .ok events) :
    ∀ k < left, impls (i + k) ≠ none ∧ env.paths ≠ none := by
  induction left generalizing i events with
  | zero => exact fun k hk ↦ absurd hk (Nat.not_lt_zero k)
  | succ left ih =>
    rw [PluginEnv.loadImpls] at h
    split at h
    · cases h
    · cases h
    · rename_i implname paths himpl hpaths
      cases hrest : env.loadImpls inst impls left (i + 1) with
      | error fault =>
        rw [hrest] at h
        cases h
      | ok rest =>
        intro k hk
        cases k with
        | zero =>
          rw [Nat.add_zero, himpl, hpaths]
          exact ⟨Option.some_ne_none _, Option.some_ne_none _⟩
        | succ k =>
          rw [← Nat.add_assoc, Nat.add_right_comm]
          exact ih hrest k (Nat.lt_of_succ_lt_succ hk)

theorem intOfSize_le (i : ℕ) : intOfSize i ≤ i := by
  rw [intOfSize, BitVec.toInt_eq_toNat_cond, BitVec.toNat_ofNat]
  split <;> omega

theorem length_reported (inst : ℕ) : (env.reported inst).length =
    (intOfSize (listOf (lfind (env.parent inst) env.params.params)).length).toNat := by
  have hle := intOfSize_le (listOf (lfind (env.parent inst) env.params.params)).length
  rw [PluginEnv.reported, List.length_take]
  omega

theorem reported_eq_nil_iff (inst : ℕ) : env.reported inst = [] ↔
    intOfSize (listOf (lfind (env.parent inst) env.params.params)).length ≤ 0 := by
  rw [← List.length_eq_zero_iff, length_reported]
  omega

/-- One turn of the outer loop. -/
theorem loadFrom_succ (rounds inst : ℕ) (impls : ℕ → Option Text) :
    env.loadFrom (rounds + 1) inst impls =
      let values := listOf (lfind (env.parent inst) env.params.params)
      let impls' := storedValues values implsCount impls
      if env.reported inst = [] then .ok []
      else (env.loadImpls inst impls' (env.reported inst).length 0).bind fun here ↦
        (env.loadFrom rounds (inst + 1) impls').bind fun rest ↦ .ok (here ++ rest) := by
  rw [PluginEnv.loadFrom, paramGet_eq, length_reported]
  simp only [reported_eq_nil_iff]
  rfl

/-! ## All indices -/

/-- What `success` is called for, when there are `n` indices with these values. -/
def targets (values : ℕ → List Text) (n : ℕ) : List (ℕ × Text) :=
  (List.range n).flatMap fun inst ↦ (values inst).map fun implname ↦ (inst, implname)

theorem targets_succ (values : ℕ → List Text) (n : ℕ) :
    targets values (n + 1) = targets values n ++ (values n).map fun implname ↦ (n, implname) := by
  rw [targets, List.range_succ, List.flatMap_append, List.flatMap_singleton]
  rfl

/-- The values of one index are found again among the calls. -/
theorem filterMap_targets (values : ℕ → List Text) (n inst : ℕ) :
    (targets values n).filterMap (fun target ↦ if target.1 = inst then some target.2 else none) =
      if inst < n then values inst else [] := by
  induction n with
  | zero => rfl
  | succ n ih =>
    rw [targets_succ, List.filterMap_append, ih, List.filterMap_map]
    change _ ++ (values n).filterMap (fun implname ↦ if n = inst then some implname else none) = _
    rcases Nat.lt_trichotomy inst n with hlt | rfl | hgt
    · have hnone : (values n).filterMap (fun implname ↦ if n = inst then some implname else none) = [] := by
        simp only [if_neg hlt.ne', List.filterMap_none]
      rw [hnone, if_pos hlt, if_pos (Nat.lt_succ_of_lt hlt), List.append_nil]
    · rw [if_neg (Nat.lt_irrefl _), if_pos (Nat.lt_succ_self _), List.nil_append]
      simp only [if_true]
      exact List.filterMap_some
    · have hnone : (values n).filterMap (fun implname ↦ if n = inst then some implname else none) = [] := by
        simp only [if_neg hgt.ne, List.filterMap_none]
      rw [hnone, if_neg (Nat.lt_asymm hgt), if_neg (by omega), List.append_nil]

/-- Up to the first index without a value, the calls say how many indices there are, and what is under them. -/
theorem targets_inj {f g : ℕ → List Text} {m n : ℕ} (hf : ∀ i < m, f i ≠ []) (hg : ∀ i < n, g i ≠ [])
    (h : targets f m = targets g n) : m = n ∧ ∀ i < n, f i = g i := by
  have hvalues (i : ℕ) : (if i < m then f i else []) = if i < n then g i else [] := by
    rw [← filterMap_targets, ← filterMap_targets, h]
  have hle : m ≤ n := by
    by_contra! hlt
    have hn := hvalues n
    rw [if_pos hlt, if_neg (Nat.lt_irrefl _)] at hn
    exact hf n hlt hn
  have hge : n ≤ m := by
    by_contra! hlt
    have hm := hvalues m
    rw [if_pos hlt, if_neg (Nat.lt_irrefl _)] at hm
    exact hg m hlt hm.symm
  refine ⟨le_antisymm hle hge, fun i hi ↦ ?_⟩
  have hi' := hvalues i
  rwa [if_pos (lt_of_lt_of_le hi hge), if_pos hi] at hi'

variable (env) in
/-- As many indices have values under what is left of their names, and there is room for all of them. -/
structure PluginEnv.Ends (n : ℕ) : Prop where
  gap : env.reported n = []
  before : ∀ i < n, env.reported i ≠ []
  room : ∀ i < n, (env.reported i).length ≤ implsCount
  paths : env.paths = none → n = 0

/-- What was reported is stored, when there is room for it. -/
theorem storedValues_reported {inst i : ℕ} (impls : ℕ → Option Text)
    (hroom : (env.reported inst).length ≤ implsCount) (hi : i < (env.reported inst).length) :
    storedValues (listOf (lfind (env.parent inst) env.params.params)) implsCount impls i =
      (env.reported inst)[i]? := by
  have hlen := hi
  rw [PluginEnv.reported, List.length_take] at hlen
  rw [storedValues, if_pos (by omega), PluginEnv.reported, List.getElem?_take_of_lt (by omega)]

/-- From some index on, if there are enough rounds for the rest. -/
theorem PluginEnv.Ends.loadFrom_eq_ok {n : ℕ} (h : env.Ends n) {inst rounds : ℕ} {impls : ℕ → Option Text}
    (hinst : inst ≤ n) (hrounds : n < inst + rounds) : ∃ events, env.loadFrom rounds inst impls = .ok events ∧
      targets env.reported inst ++ events.map PluginSuccess.target = targets env.reported n := by
  induction rounds generalizing inst impls with
  | zero => omega
  | succ rounds ih =>
    rw [loadFrom_succ]
    rcases eq_or_lt_of_le hinst with rfl | hlt
    · refine ⟨[], ?_, List.append_nil _⟩
      exact if_pos h.gap
    · obtain ⟨paths, hpaths⟩ : ∃ paths, env.paths = some paths := by
        rw [← Option.ne_none_iff_exists']
        intro hnone
        have hzero := h.paths hnone
        omega
      have hstored (i : ℕ) (hi : i < (env.reported inst).length) := storedValues_reported impls (h.room inst hlt) hi
      obtain ⟨here, hhere, hheremap⟩ := @loadImpls_eq_ok _ env inst 0 _ _ _ hpaths fun i hi ↦
        (congrArg _ (Nat.zero_add i)).trans (hstored i hi)
      obtain ⟨rest, hrest, hrestmap⟩ := @ih (inst + 1)
        (storedValues (listOf (lfind (env.parent inst) env.params.params)) implsCount impls) hlt (by omega)
      refine ⟨here ++ rest, ?_, ?_⟩
      · dsimp only
        rw [if_neg (h.before inst hlt), hhere]
        change (env.loadFrom _ _ _).bind _ = _
        rw [hrest, Except.bind]
      · rw [List.map_append, hheremap, ← List.append_assoc, ← targets_succ, hrestmap]

theorem of_bind_eq_ok {A B : Type} {x : Except PluginFault A} {f : A → Except PluginFault B} {b : B}
    (h : x.bind f = .ok b) : ∃ a, x = .ok a ∧ f a = .ok b := by
  cases x with
  | error fault => cases h
  | ok a => exact ⟨a, rfl, h⟩

/-- Where nothing was ever stored behind the array, the loop only ends when nothing is looked for there. -/
theorem ends_of_loadFrom_eq_ok {rounds inst : ℕ} {impls : ℕ → Option Text} {events : List (PluginSuccess H)}
    (hunstored : ∀ i, implsCount ≤ i → impls i = none) (h : env.loadFrom rounds inst impls = .ok events) :
    ∃ n, n < inst + rounds ∧ inst ≤ n ∧ env.reported n = [] ∧ ∀ i, inst ≤ i → i < n →
      env.reported i ≠ [] ∧ (env.reported i).length ≤ implsCount ∧ env.paths ≠ none := by
  induction rounds generalizing inst impls events with
  | zero => cases h
  | succ rounds ih =>
    rw [loadFrom_succ] at h
    dsimp only at h
    split at h
    · rename_i hgap
      exact ⟨inst, by omega, le_rfl, hgap, fun i hge hlt ↦ absurd hge (Nat.not_le_of_lt hlt)⟩
    · rename_i hsome
      obtain ⟨here, hhere, h⟩ := of_bind_eq_ok h
      obtain ⟨rest, hrest, -⟩ := of_bind_eq_ok h
      have hunstored' (i : ℕ) (hi : implsCount ≤ i) :
          storedValues (listOf (lfind (env.parent inst) env.params.params)) implsCount impls i = none := by
        rw [storedValues, if_neg (by omega), hunstored i hi]
      have hlooked := of_loadImpls_eq_ok hhere
      have hroom : (env.reported inst).length ≤ implsCount := by
        by_contra! hlt
        have hbehind := (hlooked implsCount hlt).1
        rw [Nat.zero_add] at hbehind
        exact hbehind (hunstored' implsCount le_rfl)
      have hpaths : env.paths ≠ none := (hlooked 0 (List.length_pos_iff.mpr hsome)).2
      obtain ⟨n, hrounds, hle, hgap, hbefore⟩ := ih hunstored' hrest
      refine ⟨n, by omega, by omega, hgap, fun i hge hlt ↦ ?_⟩
      rcases eq_or_lt_of_le hge with rfl | hgt
      · exact ⟨hsome, hroom, hpaths⟩
      · exact hbefore i hgt hlt

theorem ends_of_pluginLoad_eq_ok {events : List (PluginSuccess H)} (h : env.pluginLoad = .ok events) :
    ∃ n < 2 ^ 31, env.Ends n := by
  obtain ⟨n, hrounds, -, hgap, hbefore⟩ := ends_of_loadFrom_eq_ok (fun _ _ ↦ rfl) h
  refine ⟨n, by omega, hgap, fun i hi ↦ (hbefore i (Nat.zero_le i) hi).1,
    fun i hi ↦ (hbefore i (Nat.zero_le i) hi).2.1, fun hnone ↦ ?_⟩
  by_contra hzero
  exact (hbefore 0 le_rfl (Nat.pos_of_ne_zero hzero)).2.2 hnone

theorem PluginEnv.Ends.pluginLoad_eq_ok {n : ℕ} (h : env.Ends n) (hn : n < 2 ^ 31) :
    ∃ events, env.pluginLoad = .ok events ∧ events.map PluginSuccess.target = targets env.reported n :=
  h.loadFrom_eq_ok (Nat.zero_le n) (by omega)

theorem PluginEnv.Enumerable.ends {n : ℕ} (h : env.Enumerable n) : env.Ends n where
  gap := (h.whole n le_rfl).trans h.gap.1
  before i hi := by
    rw [h.whole i hi.le]
    exact h.gap.2 i hi
  room i hi := by
    rw [h.whole i hi.le]
    exact h.room i hi
  paths := h.paths

theorem PluginEnv.Ends.enumerable {n : ℕ} (h : env.Ends n) (hn : n < 2 ^ 31) (hgap : env.FirstGap n)
    (hwhole : ∀ i < n, env.reported i = env.configured i) : env.Enumerable n where
  gap := hgap
  below := hn
  room i hi := by
    rw [← hwhole i hi]
    exact h.room i hi
  whole i hi := by
    rcases eq_or_lt_of_le hi with rfl | hlt
    · rw [h.gap, hgap.1]
    · exact hwhole i hlt
  paths := h.paths

variable (env) in
/-- Every value is found and nothing else is looked at exactly when the names and the values fit into the
arrays, and there are paths. -/
theorem pluginLoad_right_iff : env.Right ↔ ∃ n, env.Enumerable n := by
  constructor
  · rintro ⟨events, n, hload, hgap, htargets⟩
    obtain ⟨m, hm, hends⟩ := ends_of_pluginLoad_eq_ok hload
    obtain ⟨events', hload', htargets'⟩ := hends.pluginLoad_eq_ok hm
    obtain rfl := Except.ok.inj (hload.symm.trans hload')
    obtain ⟨rfl, hwhole⟩ := targets_inj hends.before hgap.2 (htargets'.symm.trans htargets)
    exact ⟨m, hends.enumerable hm hgap hwhole⟩
  · rintro ⟨n, h⟩
    obtain ⟨events, hload, htargets⟩ := h.ends.pluginLoad_eq_ok h.below
    refine ⟨events, n, hload, h.gap, htargets.trans ?_⟩
    refine List.flatMap_congr fun i hi ↦ ?_
    rw [h.whole i (List.mem_range.mp hi).le]

/-- More values than there is room for. -/
def manyNames : PluginEnv Unit where
  params := ⟨32, [⟨⟨0, bytesOf "plugin[0]"⟩, false, List.replicate 17 ⟨false, bytesOf "gpu"⟩⟩]⟩
  base := bytesOf "plugin"
  basepath := []
  paths := some []
  dylibSuffix := bytesOf ".so"
  openLibrary _ _ _ := none

theorem length_reported_manyNames : (manyNames.reported 0).length = 17 := by
  decide +kernel

/-- The seventeenth name was never stored. -/
theorem not_pluginLoad_right_manyNames : ¬ manyNames.Right := by
  rintro ⟨events, n, hload, -⟩
  obtain ⟨n, -, hends⟩ := ends_of_pluginLoad_eq_ok hload
  have hlen := length_reported_manyNames
  rcases Nat.eq_zero_or_pos n with rfl | hpos
  · rw [hends.gap] at hlen
    cases hlen
  · have hroom := hends.room 0 hpos
    rw [hlen] at hroom
    exact absurd hroom (by decide)

end

end Tenyr.Plugin
