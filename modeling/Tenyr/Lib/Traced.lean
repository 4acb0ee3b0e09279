import Mathlib.Init

/-!
# Fallible runs that report something

A step fails, or gives the next state and a list of what it reports. A run takes one step for each input, and
reports everything in order.
-/

namespace Tenyr.Lib.Traced

variable {ε ω ι σ τ : Type}

/-- A failure, or a result and what was reported on the way. -/
abbrev Outcome (ε ω σ : Type) := Except ε (σ × List ω)

def andThen (x : Outcome ε ω σ) (f : σ → Outcome ε ω τ) : Outcome ε ω τ :=
  x.bind fun here ↦ (f here.1).bind fun there ↦ .ok (there.1, here.2 ++ there.2)

def run (step : σ → ι → Outcome ε ω σ) : σ → List ι → Outcome ε ω σ
  | s, [] => .ok (s, [])
  | s, i :: rest => andThen (step s i) fun s ↦ run step s rest

theorem andThen_ok (s : σ) (here : List ω) (f : σ → Outcome ε ω τ) {t : τ} {there : List ω}
    (h : f s = .ok (t, there)) : andThen (.ok (s, here)) f = .ok (t, here ++ there) := by
  change (f s).bind _ = _
  rw [h]
  rfl

theorem andThen_eq_ok {x : Outcome ε ω σ} {f : σ → Outcome ε ω τ} {t : τ} {out : List ω}
    (h : andThen x f = .ok (t, out)) :
    ∃ s here there, x = .ok (s, here) ∧ f s = .ok (t, there) ∧ out = here ++ there := by
  cases x with
  | error e => cases h
  | ok first =>
    obtain ⟨s, here⟩ := first
    cases hrest : f s with
    | error e =>
      change (f s).bind _ = _ at h
      rw [hrest] at h
      cases h
    | ok second =>
      obtain ⟨t', there⟩ := second
      rw [andThen_ok s here f hrest] at h
      cases h
      exact ⟨s, here, there, rfl, hrest, rfl⟩

variable {step : σ → ι → Outcome ε ω σ}

theorem run_append_eq_ok {s t : σ} {before after : List ι} {out : List ω}
    (h : run step s (before ++ after) = .ok (t, out)) :
    ∃ m here there, run step s before = .ok (m, here) ∧ run step m after = .ok (t, there) ∧
      out = here ++ there := by
  induction before generalizing s out with
  | nil => exact ⟨s, [], out, rfl, h, rfl⟩
  | cons i rest ih =>
    obtain ⟨s', first, later, hfirst, hlater, rfl⟩ := andThen_eq_ok h
    obtain ⟨m, here, there, hhere, hthere, rfl⟩ := ih hlater
    refine ⟨m, first ++ here, there, ?_, hthere, (List.append_assoc _ _ _).symm⟩
    rw [run, hfirst]
    exact andThen_ok s' first _ hhere

/-- What every step that succeeds preserves, a run that succeeds preserves. -/
theorem run_invariant (Inv : σ → List ω → Prop)
    (hstep : ∀ s out i t here, Inv s out → step s i = .ok (t, here) → Inv t (out ++ here)) {s t : σ}
    {out there : List ω} {inputs : List ι} (hs : Inv s out) (h : run step s inputs = .ok (t, there)) :
    Inv t (out ++ there) := by
  induction inputs generalizing s out there with
  | nil =>
    cases h
    rwa [List.append_nil]
  | cons i rest ih =>
    obtain ⟨s', here, later, hhere, hlater, rfl⟩ := andThen_eq_ok h
    rw [← List.append_assoc]
    exact ih (hstep s out i s' here hs hhere) hlater

/-- Where every step succeeds, every run does. -/
theorem run_total (Inv : σ → List ω → Prop)
    (hstep : ∀ s out i, Inv s out → ∃ t here, step s i = .ok (t, here) ∧ Inv t (out ++ here)) {s : σ}
    {out : List ω} (hs : Inv s out) (inputs : List ι) :
    ∃ t there, run step s inputs = .ok (t, there) ∧ Inv t (out ++ there) := by
  induction inputs generalizing s out with
  | nil => exact ⟨s, [], rfl, by rwa [List.append_nil]⟩
  | cons i rest ih =>
    obtain ⟨s', here, hhere, hs'⟩ := hstep s out i hs
    obtain ⟨t, there, hthere, ht⟩ := ih hs'
    refine ⟨t, here ++ there, ?_, by rwa [← List.append_assoc]⟩
    rw [run, hhere]
    exact andThen_ok s' here _ hthere

theorem run_ok (hstep : ∀ s i, ∃ t here, step s i = .ok (t, here)) (s : σ) (inputs : List ι) :
    ∃ t there, run step s inputs = .ok (t, there) := by
  induction inputs generalizing s with
  | nil => exact ⟨s, [], rfl⟩
  | cons i rest ih =>
    obtain ⟨s', here, hhere⟩ := hstep s i
    obtain ⟨t, there, hthere⟩ := ih s'
    refine ⟨t, here ++ there, ?_⟩
    rw [run, hhere]
    exact andThen_ok s' here _ hthere

end Tenyr.Lib.Traced
