import Tenyr.Lib.Transition

/-!
# What a run reaches

Total correctness of a deterministic partial step: a run reaches a state with some property, and another
property holds on the way there.
-/

namespace Tenyr.Lib.Transition

variable {α : Type*}

/-- A run reaches `Q`, and `J` holds on the way there. -/
inductive Until (step : α → Option α) (J Q : α → Prop) : α → Prop
  | here {a : α} (h : Q a) : Until step J Q a
  | next {a b : α} (hJ : J a) (hstep : step a = some b) (h : Until step J Q b) : Until step J Q a

variable {step : α → Option α} {J J' Q Q' R : α → Prop} {a : α}

theorem until_iff_steps : Until step J Q a ↔
    ∃ n b, steps step n a = some b ∧ Q b ∧ ∀ m < n, ∀ c, steps step m a = some c → J c := by
  constructor
  · intro h
    induction h with
    | @here a h => exact ⟨0, a, rfl, h, fun m hm ↦ absurd hm (Nat.not_lt_zero m)⟩
    | @next a b hJ hstep _ ih =>
      obtain ⟨n, c, hn, hQ, hbefore⟩ := ih
      have hsteps : ∀ m, steps step (m + 1) a = steps step m b := fun m ↦ by
        rw [steps_succ, hstep, Option.bind_some]
      refine ⟨n + 1, c, (hsteps n).trans hn, hQ, ?_⟩
      intro m hm d hd
      cases m with
      | zero =>
        obtain rfl := Option.some.inj hd
        exact hJ
      | succ m => exact hbefore m (Nat.lt_of_succ_lt_succ hm) d ((hsteps m).symm.trans hd)
  · rintro ⟨n, b, hn, hQ, hbefore⟩
    induction n generalizing a with
    | zero =>
      obtain rfl := Option.some.inj hn
      exact .here hQ
    | succ n ih =>
      rw [steps_succ, Option.bind_eq_some_iff] at hn
      obtain ⟨c, hstep, hrest⟩ := hn
      refine .next (hbefore 0 (Nat.succ_pos n) a rfl) hstep (ih hrest ?_)
      intro m hm d hd
      apply hbefore (m + 1) (Nat.succ_lt_succ hm) d
      rw [steps_succ, hstep]
      exact hd

namespace Until

theorem mono (h : Until step J Q a) (hJ : ∀ b, J b → J' b) (hQ : ∀ b, Q b → Q' b) :
    Until step J' Q' a := by
  induction h with
  | here h => exact .here (hQ _ h)
  | next hJa hstep _ ih => exact .next (hJ _ hJa) hstep ih

/-- Runs one after the other. -/
theorem bind (h : Until step J R a) (hrest : ∀ b, R b → Until step J Q b) : Until step J Q a := by
  induction h with
  | here h => exact hrest _ h
  | next hJ hstep _ ih => exact .next hJ hstep ih

/-- There is one state in which a run stops. -/
theorem and_of_stop (h : Until step J Q a) (h' : Until step J' Q' a) (hQ : ∀ b, Q b → step b = none)
    (hQ' : ∀ b, Q' b → step b = none) : ∃ b, Q b ∧ Q' b := by
  induction h with
  | @here a h =>
    cases h' with
    | here h' => exact ⟨a, h, h'⟩
    | next _ hstep _ =>
      rw [hQ a h] at hstep
      cases hstep
  | next _ hstep _ ih =>
    cases h' with
    | here h' =>
      rw [hQ' _ h'] at hstep
      cases hstep
    | next _ hstep' h' =>
      obtain rfl := Option.some.inj (hstep.symm.trans hstep')
      exact ih h'

/-- A run that comes back to `R` again and again never stops. -/
theorem not_of_recurring (hturn : ∀ a, R a → ∃ b, step a = some b ∧ Until step J' R b)
    (hQ : ∀ b, Q b → step b = none) (h : Until step J' R a) : ¬ Until step J Q a := by
  have hturning : ∀ {a}, Until step J Q a → ¬ Until step J' R a := by
    intro a hreach hreturn
    induction hreach with
    | here hstop =>
      have hnone := hQ _ hstop
      cases hreturn with
      | here hR =>
        obtain ⟨b, hstep, _⟩ := hturn _ hR
        cases hnone.symm.trans hstep
      | next _ hstep _ => cases hnone.symm.trans hstep
    | next _ hstep _ ih =>
      cases hreturn with
      | here hR =>
        obtain ⟨c, hc, hrest⟩ := hturn _ hR
        obtain rfl := Option.some.inj (hstep.symm.trans hc)
        exact ih hrest
      | next _ hstep' hrest =>
        obtain rfl := Option.some.inj (hstep.symm.trans hstep')
        exact ih hrest
  exact fun hreach ↦ hturning hreach h

end Until

end Tenyr.Lib.Transition
