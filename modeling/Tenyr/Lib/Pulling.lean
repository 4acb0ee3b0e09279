import Mathlib.Data.List.Basic
import Mathlib.Data.Nat.Notation

/-!
# Sources that are asked for one item at a time

A source answers with an item, with nothing for this time, or with the end. A consumer asks until the
end and can stop earlier. What a consumer does is a fold over what the source answers.
-/

namespace Tenyr.Lib.Pulling

inductive Answer (α : Type) where
  | item (a : α)
  | nothing
  | done
  deriving DecidableEq, Repr

/-- What an answer holds, where the source goes on after it. -/
def Answer.payload {α : Type} : Answer α → Option (Option α)
  | .item a => some (some a)
  | .nothing => some none
  | .done => none

variable {α σ τ : Type} (next : σ → Answer α × σ)

/-! ## Runs of a source -/

/-- The answers of a source up to the end, where `none` is nothing for this time. -/
inductive Pulls : σ → List (Option α) → Prop where
  | done {s : σ} : (next s).1.payload = none → Pulls s []
  | more {s : σ} {answer : Option α} {answers : List (Option α)} :
    (next s).1.payload = some answer → Pulls (next s).2 answers → Pulls s (answer :: answers)

variable {next}

/-- A source answers in one way. -/
theorem Pulls.unique {s : σ} {answers answers' : List (Option α)} (h : Pulls next s answers)
    (h' : Pulls next s answers') : answers = answers' := by
  induction h generalizing answers' with
  | done hdone =>
    cases h' with
    | done => rfl
    | more hmore => simp [hdone] at hmore
  | more hmore _ ih =>
    cases h' with
    | done hdone => simp [hmore] at hdone
    | more hmore' hrest =>
      rw [hmore] at hmore'
      rw [Option.some.inj hmore', ih hrest]

/-- A place in the source is known by the answer it gives and where it leads. -/
theorem Pulls.congr {s s' : σ} {answers : List (Option α)} (h : Pulls next s answers)
    (hnext : next s = next s') : Pulls next s' answers := by
  cases h with
  | done hdone => exact .done (hnext ▸ hdone)
  | more hmore hrest => exact .more (hnext ▸ hmore) (hnext ▸ hrest)

/-- A source that uses something up with every answer comes to an end. -/
theorem exists_pulls (size : σ → ℕ)
    (hsize : ∀ s, (next s).1 ≠ .done → size (next s).2 < size s) (s : σ) :
    ∃ answers, Pulls next s answers := by
  induction hn : size s using Nat.strongRecOn generalizing s with
  | ind n ih =>
    subst hn
    cases hpayload : (next s).1.payload with
    | none => exact ⟨[], .done hpayload⟩
    | some answer =>
      have hne : (next s).1 ≠ .done := by
        intro hdone
        simp [hdone, Answer.payload] at hpayload
      obtain ⟨answers, hrest⟩ := ih _ (hsize s hne) _ rfl
      exact ⟨answer :: answers, .more hpayload hrest⟩

/-- Nothing is left out where a source never answers with nothing. -/
theorem Pulls.none_not_mem {inv : σ → Prop}
    (hinv : ∀ s, inv s → (next s).1 ≠ .nothing ∧ inv (next s).2) {s : σ}
    {answers : List (Option α)} (h : Pulls next s answers) (hs : inv s) : none ∉ answers := by
  induction h with
  | done _ => exact List.not_mem_nil
  | @more s answer answers hmore _ ih =>
    obtain ⟨hne, hnext⟩ := hinv s hs
    rw [List.mem_cons, not_or]
    refine ⟨?_, ih hnext⟩
    rintro rfl
    cases hanswer : (next s).1 with
    | item a => simp [hanswer, Answer.payload] at hmore
    | nothing => exact hne hanswer
    | done => simp [hanswer, Answer.payload] at hmore

/-- The items among the answers. -/
def items (answers : List (Option α)) : List α := answers.filterMap id

@[simp]
theorem items_nil : items ([] : List (Option α)) = [] := rfl

@[simp]
theorem items_cons_some (a : α) (answers : List (Option α)) :
    items (some a :: answers) = a :: items answers := rfl

@[simp]
theorem items_cons_none (answers : List (Option α)) : items (none :: answers) = items answers := rfl

@[simp]
theorem items_append (answers answers' : List (Option α)) :
    items (answers ++ answers') = items answers ++ items answers' := List.filterMap_append

@[simp]
theorem items_map_some (l : List α) : items (l.map some) = l := by
  rw [items, List.filterMap_map]
  exact List.filterMap_some

theorem length_items_le (answers : List (Option α)) : (items answers).length ≤ answers.length :=
  List.length_filterMap_le id answers

/-- Every answer is an item where nothing is left out. -/
theorem map_some_items {answers : List (Option α)} (h : none ∉ answers) :
    (items answers).map some = answers := by
  induction answers with
  | nil => rfl
  | cons answer answers ih =>
    rw [List.mem_cons, not_or] at h
    cases answer with
    | none => exact absurd rfl h.1
    | some a => rw [items_cons_some, List.map_cons, ih h.2]

theorem length_items_lt {answers : List (Option α)} (h : none ∈ answers) :
    (items answers).length < answers.length := by
  induction answers with
  | nil => cases h
  | cons answer answers ih =>
    have hle := length_items_le answers
    cases answer with
    | none =>
      rw [items_cons_none, List.length_cons]
      omega
    | some a =>
      have hmem : none ∈ answers := by simpa using h
      have := ih hmem
      rw [items_cons_some, List.length_cons, List.length_cons]
      omega

/-! ## Consumers -/

variable (next) (step : τ → Option α → Except τ τ)

/-- Ask for answers until the end or until a step stops. -/
def drain : ℕ → τ → σ → Option (Except τ τ)
  | 0, _, _ => none
  | fuel + 1, t, s =>
    match (next s).1.payload with
    | none => some (.ok t)
    | some answer =>
      match step t answer with
      | .ok t' => drain fuel t' (next s).2
      | .error t' => some (.error t')

variable {next}

/-- A consumer folds over the answers. -/
theorem drain_eq_foldlM {s : σ} {answers : List (Option α)} (h : Pulls next s answers) (t : τ)
    {fuel : ℕ} (hfuel : answers.length < fuel) :
    drain next step fuel t s = some (answers.foldlM step t) := by
  induction h generalizing t fuel with
  | done hdone =>
    obtain ⟨fuel, rfl⟩ := Nat.exists_eq_add_of_lt hfuel
    simp only [drain, hdone]
    rfl
  | @more s answer answers hmore _ ih =>
    cases fuel with
    | zero => exact absurd hfuel (Nat.not_lt_zero _)
    | succ fuel =>
      simp only [drain, hmore]
      rw [List.foldlM_cons]
      cases step t answer with
      | error t' => rfl
      | ok t' => exact ih t' (Nat.lt_of_succ_lt_succ hfuel)

/-- A consumer that comes to an end has folded over the answers. -/
theorem eq_foldlM_of_drain {s : σ} {answers : List (Option α)} (h : Pulls next s answers) {t : τ}
    {fuel : ℕ} {result : Except τ τ} (hdrain : drain next step fuel t s = some result) :
    result = answers.foldlM step t := by
  induction h generalizing t fuel with
  | done hdone =>
    cases fuel with
    | zero => cases hdrain
    | succ fuel =>
      simp only [drain, hdone] at hdrain
      exact (Option.some.inj hdrain).symm
  | @more s answer answers hmore _ ih =>
    cases fuel with
    | zero => cases hdrain
    | succ fuel =>
      simp only [drain, hmore] at hdrain
      rw [List.foldlM_cons]
      cases hstep : step t answer with
      | error t' =>
        rw [hstep] at hdrain
        exact (Option.some.inj hdrain).symm
      | ok t' =>
        rw [hstep] at hdrain
        exact ih hdrain

end Tenyr.Lib.Pulling
