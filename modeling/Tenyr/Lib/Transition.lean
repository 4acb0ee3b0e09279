import Mathlib.Data.Nat.Notation
import Mathlib.Tactic.ByContra

/-!
# Runs of a deterministic partial step

A machine is a step function that either moves to a next state or stops. `steps step n` performs
exactly `n` steps; an invariant of one step is an invariant of every run.
-/

namespace Tenyr.Lib.Transition

variable {α : Type*} (step : α → Option α)

/-- Exactly `n` steps, or `none` when the machine stops earlier. -/
def steps : ℕ → α → Option α
  | 0, a => some a
  | n + 1, a => (step a).bind (steps n)

@[simp]
theorem steps_zero (a : α) : steps step 0 a = some a := rfl

theorem steps_succ (n : ℕ) (a : α) : steps step (n + 1) a = (step a).bind (steps step n) := rfl

theorem steps_add (m n : ℕ) (a : α) :
    steps step (m + n) a = (steps step m a).bind (steps step n) := by
  induction m generalizing a with
  | zero => simp
  | succ m ih =>
    rw [Nat.succ_add, steps_succ, steps_succ, Option.bind_assoc]
    congr 1
    funext b
    exact ih b

/-- The last step of a run taken apart from the steps before it. -/
theorem steps_succ_last (n : ℕ) (a : α) :
    steps step (n + 1) a = (steps step n a).bind step := by
  rw [steps_add]
  congr 1
  funext b
  cases hb : step b <;> simp [steps_succ, hb]

/-- Every prefix of a run that goes on is itself a run. -/
theorem steps_of_le {m n : ℕ} (hle : m ≤ n) {a c : α} (h : steps step n a = some c) :
    ∃ b, steps step m a = some b ∧ steps step (n - m) b = some c := by
  obtain ⟨k, rfl⟩ := Nat.exists_eq_add_of_le hle
  rw [steps_add, Option.bind_eq_some_iff] at h
  simpa using h

/-- What one step preserves, every run preserves. -/
theorem steps_invariant (Inv : α → Prop)
    (hstep : ∀ a b, Inv a → step a = some b → Inv b)
    {n : ℕ} {a c : α} (ha : Inv a) (h : steps step n a = some c) : Inv c := by
  induction n generalizing a with
  | zero =>
    obtain rfl : a = c := by simpa using h
    exact ha
  | succ n ih =>
    rw [steps_succ, Option.bind_eq_some_iff] at h
    obtain ⟨b, hab, hbc⟩ := h
    exact ih (hstep a b ha hab) hbc

/-! ## Simulation with jumps

A concrete machine may take administrative steps and may perform several abstract steps at once.
-/

/-- Each concrete step is some number of abstract steps, the concrete machine never stays behind,
and the two stop together. -/
structure Simulation {γ : Type*} (cstep : γ → Option γ) (astep : α → Option α)
    (R : γ → α → Prop) : Prop where
  step : ∀ {c c' : γ} {a : α}, R c a → cstep c = some c' →
    ∃ k a', steps astep k a = some a' ∧ R c' a'
  advance : ∀ {c : γ} {a a' : α}, R c a → astep a = some a' →
    ∃ m c' k b, steps cstep m c = some c' ∧ 0 < k ∧ steps astep k a = some b ∧ R c' b
  stop : ∀ {c : γ} {a : α}, R c a → cstep c = none → astep a = none
  halt : ∀ {c : γ} {a : α}, R c a → astep a = none →
    ∃ m c', steps cstep m c = some c' ∧ R c' a ∧ cstep c' = none

namespace Simulation

variable {γ : Type*} {cstep : γ → Option γ} {astep : α → Option α} {R : γ → α → Prop}

/-- Everything the concrete machine reaches is related to something the abstract one reaches. -/
theorem run (h : Simulation cstep astep R) {m : ℕ} {c c' : γ} {a : α} (hR : R c a)
    (hrun : steps cstep m c = some c') : ∃ k a', steps astep k a = some a' ∧ R c' a' := by
  induction m generalizing c a with
  | zero =>
    obtain rfl : c = c' := by simpa using hrun
    exact ⟨0, a, rfl, hR⟩
  | succ m ih =>
    rw [steps_succ, Option.bind_eq_some_iff] at hrun
    rcases hrun with ⟨d, hstep, hrest⟩
    obtain ⟨k, b, hk, hRb⟩ := h.step hR hstep
    obtain ⟨k', a', hk', hR'⟩ := ih hRb hrest
    refine ⟨k + k', a', ?_, hR'⟩
    rw [steps_add, hk]
    exact hk'

/-- The concrete machine passes every point that the abstract one reaches. -/
theorem covers (h : Simulation cstep astep R) {n : ℕ} {c : γ} {a a' : α} (hR : R c a)
    (hrun : steps astep n a = some a') :
    ∃ m c' k b, n ≤ k ∧ steps cstep m c = some c' ∧ steps astep k a = some b ∧ R c' b := by
  induction n using Nat.strongRecOn generalizing c a with
  | ind n ih =>
    cases n with
    | zero => exact ⟨0, c, 0, a, Nat.le_refl 0, rfl, rfl, hR⟩
    | succ n =>
      have hfirst : ∃ b, astep a = some b := by
        rw [steps_succ, Option.bind_eq_some_iff] at hrun
        exact ⟨_, hrun.choose_spec.1⟩
      obtain ⟨b, hb⟩ := hfirst
      obtain ⟨m, c', k, b', hm, hpos, hk, hR'⟩ := h.advance hR hb
      rcases Nat.lt_or_ge k (n + 1) with hlt | hge
      · obtain ⟨d, hd, hrest⟩ := steps_of_le astep (Nat.le_of_lt hlt) hrun
        obtain rfl : b' = d := Option.some.inj (hk.symm.trans hd)
        obtain ⟨m', c'', k', b'', hle, hm', hk', hR''⟩ := ih (n + 1 - k) (by omega) hR' hrest
        refine ⟨m + m', c'', k + k', b'', by omega, ?_, ?_, hR''⟩
        · rw [steps_add, hm]
          exact hm'
        · rw [steps_add, hk]
          exact hk'
      · exact ⟨m, c', k, b', hge, hm, hk, hR'⟩

/-- When the abstract machine stops, so does the concrete one, and in a related state. -/
theorem halts (h : Simulation cstep astep R) {n : ℕ} {c : γ} {a a' : α} (hR : R c a)
    (hrun : steps astep n a = some a') (hstop : astep a' = none) :
    ∃ m c', steps cstep m c = some c' ∧ cstep c' = none ∧ R c' a' := by
  obtain ⟨m, c', k, b, hle, hm, hk, hR'⟩ := h.covers hR hrun
  -- nothing lies beyond the last state
  have hlast : k = n := by
    by_contra hne
    obtain ⟨d, hd, hrest⟩ := steps_of_le astep (show n + 1 ≤ k by omega) hk
    rw [steps_succ_last, hrun, Option.bind_some, hstop] at hd
    cases hd
  subst hlast
  obtain rfl : b = a' := Option.some.inj (hk.symm.trans hrun)
  obtain ⟨m', c'', hm', hR'', hnone⟩ := h.halt hR' hstop
  refine ⟨m + m', c'', ?_, hnone, hR''⟩
  rw [steps_add, hm]
  exact hm'

end Simulation

end Tenyr.Lib.Transition
