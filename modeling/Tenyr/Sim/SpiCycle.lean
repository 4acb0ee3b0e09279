import Tenyr.Sim.Spi

/-!
# A cycle of the SPI master

The instances that are not selected change nothing but their own states. What remains of a cycle is a turn of the
one that is selected.
-/

namespace Tenyr.Sim

open Isa Lib.Traced

section

variable {C : Type}

/-- Every bit is answered with a bit. -/
def SpiOps.Answers (ops : SpiOps C) : Prop :=
  ∀ cookie b, ∃ a, (ops.clock cookie true (bitOf b)).2 = some (bitOf a)

/-- Nothing comes from an instance that is not selected. -/
def SpiOps.Silent (ops : SpiOps C) (cookie : C) (push : Word) : Prop :=
  (ops.clock cookie false push).2.getD (-1) = -1

/-- The calls for one instance. -/
def ofInst (inst : Fin 8) (clocks : List SpiClock) : List SpiClock := clocks.filter fun clock ↦ clock.inst = inst

theorem ofInst_append (inst : Fin 8) (here there : List SpiClock) :
    ofInst inst (here ++ there) = ofInst inst here ++ ofInst inst there :=
  List.filter_append _ _

theorem ofInst_of_forall_mem {inst : Fin 8} {l : List (Fin 8)} {clocks : List SpiClock}
    (h : ∀ clock ∈ clocks, clock.inst ∈ l) (hinst : inst ∉ l) : ofInst inst clocks = [] := by
  refine List.filter_eq_nil_iff.mpr fun clock hclock hof ↦ hinst ?_
  rw [← of_decide_eq_true hof]
  exact h clock hclock

theorem getLsbD_oneHot (inst x : Fin 8) : ((1 : Word) <<< inst.val).getLsbD x = decide (x = inst) := by
  revert inst x
  decide

theorem oneHot_and_sub_one (inst : Fin 8) :
    ((1 : Word) <<< inst.val) &&& ((1 : Word) <<< inst.val - 1) = 0 := by
  revert inst
  decide

def before (inst : Fin 8) : List (Fin 8) := (List.finRange 8).filter (· < inst)

def behind (inst : Fin 8) : List (Fin 8) := (List.finRange 8).filter (inst < ·)

theorem finRange_eq (inst : Fin 8) : List.finRange 8 = before inst ++ inst :: behind inst := by
  revert inst
  decide

theorem mem_before {inst x : Fin 8} : x ∈ before inst ↔ x < inst := by
  rw [before, List.mem_filter]
  exact ⟨fun h ↦ of_decide_eq_true h.2, fun h ↦ ⟨List.mem_finRange x, decide_eq_true h⟩⟩

theorem mem_behind {inst x : Fin 8} : x ∈ behind inst ↔ inst < x := by
  rw [behind, List.mem_filter]
  exact ⟨fun h ↦ of_decide_eq_true h.2, fun h ↦ ⟨List.mem_finRange x, decide_eq_true h⟩⟩

/-! ## Instances that are not selected -/

variable (impls : Fin 8 → Option (SpiOps C)) (push : Word)

/-- Some of them had their turn. -/
structure Aside (l : List (Fin 8)) (s s' : SpiState C) (clocks : List SpiClock) : Prop where
  only : s' = { s with implCookies := s'.implCookies }
  kept : ∀ x ∉ l, s'.implCookies x = s.implCookies x
  waiting : s.state ≠ .selected → s' = s
  silent : s.state = .selected → ∀ x ∈ l, ∀ ops, impls x = some ops → ops.Silent (s.implCookies x) push
  among : ∀ clock ∈ clocks, clock.inst ∈ l

variable {impls push} {u : OpenShifts} {inst : Fin 8} {width : ℕ}

theorem aside_nil (s : SpiState C) : Aside impls push [] s s [] where
  only := rfl
  kept _ _ := rfl
  waiting _ := rfl
  silent _ _ hx := absurd hx List.not_mem_nil
  among _ hclock := absurd hclock List.not_mem_nil

theorem Aside.trans {l₁ l₂ : List (Fin 8)} {s m t : SpiState C} {here there : List SpiClock}
    (h₁ : Aside impls push l₁ s m here) (h₂ : Aside impls push l₂ m t there) (hdisjoint : l₂.Disjoint l₁) :
    Aside impls push (l₁ ++ l₂) s t (here ++ there) where
  only := by rw [h₂.only, h₁.only]
  kept x hx := by
    rw [List.mem_append, not_or] at hx
    rw [h₂.kept x hx.2, h₁.kept x hx.1]
  waiting hs := by
    have hm := h₁.waiting hs
    rw [h₂.waiting (hm ▸ hs), hm]
  silent hs x hx other hother := by
    rcases List.mem_append.mp hx with hx | hx
    · exact h₁.silent hs x hx other hother
    · have hm : m.state = .selected := by rwa [h₁.only]
      rw [← h₁.kept x (hdisjoint hx)]
      exact h₂.silent hm x hx other hother
  among clock hclock := by
    rcases List.mem_append.mp hclock with hclock | hclock
    · exact List.mem_append_left _ (h₁.among clock hclock)
    · exact List.mem_append_right _ (h₂.among clock hclock)

theorem cycleInst_aside {s s' : SpiState C} {clocks : List SpiClock} {x : Fin 8} (hx : x ≠ inst)
    (h : cycleInst u impls ((1 : Word) <<< inst.val) width push s x = .ok (s', clocks)) :
    Aside impls push [x] s s' clocks := by
  rw [cycleInst, getLsbD_oneHot, decide_eq_false hx] at h
  cases hops : impls x with
  | none =>
    rw [hops] at h
    cases h
    refine ⟨rfl, fun _ _ ↦ rfl, fun _ ↦ rfl, fun _ y hy other hother ↦ ?_,
      fun _ hclock ↦ absurd hclock List.not_mem_nil⟩
    rw [List.mem_singleton.mp hy, hops] at hother
    cases hother
  | some ops =>
    rw [hops] at h
    change otherInst push s ops x = _ at h
    rw [otherInst] at h
    split at h
    · rename_i hselected
      dsimp only at h
      split at h
      · cases h
      · rename_i hquiet
        cases h
        refine ⟨rfl, fun y hy ↦ ?_, fun hs ↦ absurd hselected hs, fun _ y hy other hother ↦ ?_, fun clock hclock ↦ ?_⟩
        · exact Function.update_of_ne (fun heq ↦ hy (List.mem_singleton.mpr heq)) _ _
        · rw [List.mem_singleton.mp hy] at hother ⊢
          rw [hops] at hother
          cases hother
          exact not_not.mp hquiet
        · rw [List.mem_singleton.mp hclock]
          exact List.mem_singleton_self x
    · rename_i hselected
      cases h
      refine ⟨rfl, fun _ _ ↦ rfl, fun _ ↦ rfl, fun hs ↦ absurd hs hselected,
        fun _ hclock ↦ absurd hclock List.not_mem_nil⟩

theorem run_aside {l : List (Fin 8)} (hl : inst ∉ l) (hnodup : l.Nodup) {s s' : SpiState C}
    {clocks : List SpiClock}
    (h : run (cycleInst u impls ((1 : Word) <<< inst.val) width push) s l = .ok (s', clocks)) :
    Aside impls push l s s' clocks := by
  induction l generalizing s clocks with
  | nil =>
    cases h
    exact aside_nil _
  | cons x rest ih =>
    obtain ⟨m, here, there, hhere, hthere, rfl⟩ := andThen_eq_ok h
    obtain ⟨hx, hrest⟩ := List.nodup_cons.mp hnodup
    have hne : x ≠ inst := by
      rintro rfl
      exact hl List.mem_cons_self
    have hfirst := cycleInst_aside hne hhere
    have hothers := ih (fun hmem ↦ hl (List.mem_cons_of_mem x hmem)) hrest hthere
    exact hfirst.trans hothers (List.disjoint_singleton.mpr hx)

/-! ## The instance that is selected -/

variable {ops : SpiOps C} {s s' : SpiState C} {clocks : List SpiClock}

variable (u ops inst s s' clocks) in
/-- What one turn of `spi_slave_cycle` does to the transfer. -/
inductive Turn : Prop where
  | started (from' : s.state = .started) (state : s'.state = .selected) (raw : s'.raw = s.raw)
      (remaining : s'.remaining = s.remaining) (clocks : ofInst inst clocks = [])
  | selected (from' : s.state = .selected)
      (state : s'.state = if spiInitCycles < s.cyc then .busy else .selected) (raw : s'.raw = s.raw)
      (remaining : s'.remaining = s.remaining) (clocks : ofInst inst clocks = [])
  | busy (from' : s.state = .busy) (a : Bool) (cookie : C)
      (answer : (ops.clock cookie true (pushedBit u s.raw (charLen (s.raw 4)))).2.getD (-1) = bitOf a)
      (state : s'.state = if s.remaining - 1 = 0 then .done else .busy)
      (raw : s'.raw = doOneShift u s.raw (charLen (s.raw 4)) (bitOf a))
      (remaining : s'.remaining = s.remaining - 1)
      (clocks : ofInst inst clocks = [⟨inst, true, pushedBit u s.raw (charLen (s.raw 4)), bitOf a⟩])
  | done (from' : s.state = .done) (state : s'.state = .reset)
      (raw : s'.raw = Function.update s.raw 4 (s.raw 4 &&& ~~~goMask)) (remaining : s'.remaining = s.remaining)
      (clocks : ofInst inst clocks = [])

theorem eq_bitOf {x : Word} (h : ¬ (x ≠ 0 ∧ x ≠ 1)) : ∃ a, x = bitOf a := by
  rw [not_and_or, not_not, not_not] at h
  rcases h with rfl | rfl
  · exact ⟨false, rfl⟩
  · exact ⟨true, rfl⟩

theorem selectAuto_eq (s : SpiState C) (ops : SpiOps C) (inst : Fin 8) (ss : Bool) :
    ∃ cookies, s.selectAuto ops inst ss = { s with implCookies := cookies } ∧
      ∀ x ≠ inst, cookies x = s.implCookies x := by
  rw [SpiState.selectAuto]
  split
  · rw [SpiState.select]
    split
    · exact ⟨s.implCookies, rfl, fun _ _ ↦ rfl⟩
    · exact ⟨_, rfl, fun x hx ↦ Function.update_of_ne hx _ _⟩
  · exact ⟨s.implCookies, rfl, fun _ _ ↦ rfl⟩

/-- The selected instance's own turn. -/
theorem selectedInst_turn (hstate : s.state ≠ .reset)
    (h : selectedInst u (charLen (s.raw 4)) (pushedBit u s.raw (charLen (s.raw 4))) s ops inst =
      .ok (s', clocks)) :
    Turn u inst ops s s' clocks ∧ s'.cyc = s.cyc ∧ s'.dividend = s.dividend ∧
      ∀ x ≠ inst, s'.implCookies x = s.implCookies x := by
  rw [selectedInst] at h
  cases hs : s.state with
  | reset => exact absurd hs hstate
  | started =>
    obtain ⟨cookies, hchosen, hothers⟩ := selectAuto_eq s ops inst true
    rw [hs, hchosen] at h
    cases h
    exact ⟨.started hs rfl rfl rfl rfl, rfl, rfl, hothers⟩
  | selected =>
    rw [hs] at h
    dsimp only at h
    split at h
    · rename_i hready
      cases h
      exact ⟨.selected hs (if_pos hready).symm rfl rfl rfl, rfl, rfl, fun _ _ ↦ rfl⟩
    · rename_i hready
      cases h
      exact ⟨.selected hs (hs.trans (if_neg hready).symm) rfl rfl rfl, rfl, rfl, fun _ _ ↦ rfl⟩
  | busy =>
    rw [hs] at h
    dsimp only at h
    split at h
    · cases h
    · rename_i hbit
      obtain ⟨a, ha⟩ := eq_bitOf hbit
      rw [ha] at h
      cases h
      refine ⟨.busy hs a (s.implCookies inst) ha rfl rfl rfl ?_, rfl, rfl, fun x hx ↦ Function.update_of_ne hx _ _⟩
      exact List.filter_cons_of_pos (decide_eq_true rfl)
  | done =>
    obtain ⟨cookies, hchosen, hothers⟩ := selectAuto_eq s ops inst false
    rw [hs, hchosen] at h
    cases h
    exact ⟨.done hs rfl rfl rfl rfl, rfl, rfl, hothers⟩

/-- The three parts of a cycle. -/
theorem spiSlaveCycle_parts (hss : slaveSelect (s.raw 6) = (1 : Word) <<< inst.val)
    (hops : impls inst = some ops) (hstate : s.state ≠ .reset)
    (h : spiSlaveCycle u impls s = .ok (s', clocks)) :
    ∃ s₁ s₂ first here last, Aside impls (pushedBit u s.raw (charLen (s.raw 4))) (before inst) s s₁ first ∧
      (Turn u inst ops s₁ s₂ here ∧ s₂.cyc = s₁.cyc ∧ s₂.dividend = s₁.dividend ∧
        ∀ x ≠ inst, s₂.implCookies x = s₁.implCookies x) ∧
      Aside impls (pushedBit u s.raw (charLen (s.raw 4))) (behind inst) s₂ s' last ∧
      clocks = first ++ (here ++ last) := by
  rw [spiSlaveCycle, if_neg hstate, hss, if_neg (not_not.mpr (oneHot_and_sub_one inst))] at h
  dsimp only at h
  split at h
  · cases h
  · rw [finRange_eq inst] at h
    obtain ⟨s₁, first, rest, hfirst, hrest, rfl⟩ := run_append_eq_ok h
    obtain ⟨s₂, here, last, hhere, hlast, rfl⟩ := andThen_eq_ok hrest
    have hnodup : (List.finRange 8).Nodup := List.nodup_finRange 8
    have hbefore := run_aside (fun hmem ↦ lt_irrefl _ (mem_before.mp hmem)) (hnodup.filter _) hfirst
    refine ⟨s₁, s₂, first, here, last, ?_, ?_, ?_, rfl⟩
    · exact hbefore
    · rw [cycleInst, hops, getLsbD_oneHot, decide_eq_true rfl] at hhere
      have hs₁ := hbefore.only
      refine selectedInst_turn ?_ ?_
      · rw [hs₁]
        exact hstate
      · rw [hs₁] at hhere ⊢
        exact hhere
    · exact run_aside (fun hmem ↦ lt_irrefl _ (mem_behind.mp hmem)) (hnodup.filter _) hlast

theorem Aside.ofInst_eq_nil {push : Word} {l : List (Fin 8)} (h : Aside impls push l s s' clocks)
    (hl : inst ∉ l) : ofInst inst clocks = [] :=
  ofInst_of_forall_mem h.among hl

/-- A turn does not depend on what happened to the others before and after it. -/
theorem Turn.aside {push : Word} {s₁ s₂ : SpiState C} {first here last : List SpiClock}
    (h : Turn u inst ops s₁ s₂ here) (hfirst : Aside impls push (before inst) s s₁ first)
    (hlast : Aside impls push (behind inst) s₂ s' last) : Turn u inst ops s s' (first ++ (here ++ last)) := by
  have hof : ofInst inst (first ++ (here ++ last)) = ofInst inst here := by
    rw [ofInst_append, ofInst_append, hfirst.ofInst_eq_nil (fun hmem ↦ lt_irrefl _ (mem_before.mp hmem)),
      hlast.ofInst_eq_nil (fun hmem ↦ lt_irrefl _ (mem_behind.mp hmem)), List.nil_append, List.append_nil]
  rw [hlast.only]
  rw [hfirst.only] at h
  cases h with
  | started from' state raw remaining clocks => exact .started from' state raw remaining (hof.trans clocks)
  | selected from' state raw remaining clocks => exact .selected from' state raw remaining (hof.trans clocks)
  | busy from' a cookie answer state raw remaining clocks =>
    exact .busy from' a cookie answer state raw remaining (hof.trans clocks)
  | done from' state raw remaining clocks => exact .done from' state raw remaining (hof.trans clocks)

/-- A cycle of all instances is a turn of the selected one. -/
theorem spiSlaveCycle_turn (hss : slaveSelect (s.raw 6) = (1 : Word) <<< inst.val)
    (hops : impls inst = some ops) (hstate : s.state ≠ .reset)
    (h : spiSlaveCycle u impls s = .ok (s', clocks)) :
    Turn u inst ops s s' clocks ∧ s'.cyc = s.cyc ∧ s'.dividend = s.dividend := by
  obtain ⟨s₁, s₂, first, here, last, hfirst, hhere, hlast, rfl⟩ := spiSlaveCycle_parts hss hops hstate h
  obtain ⟨hturn, hcyc, hdividend, -⟩ := hhere
  refine ⟨hturn.aside hfirst hlast, ?_, ?_⟩
  · rw [hlast.only, hcyc, hfirst.only]
  · rw [hlast.only, hdividend, hfirst.only]

/-- After the selected one, the instances behind it are asked in the turn that starts a transfer. -/
theorem silent_of_started (hss : slaveSelect (s.raw 6) = (1 : Word) <<< inst.val)
    (hops : impls inst = some ops) (hstate : s.state = .started)
    (h : spiSlaveCycle u impls s = .ok (s', clocks)) {x : Fin 8} {other : SpiOps C}
    (hother : impls x = some other) :
    (x < inst → s'.implCookies x = s.implCookies x) ∧
      (inst < x → other.Silent (s.implCookies x) (pushedBit u s.raw (charLen (s.raw 4)))) := by
  have hreset : s.state ≠ .reset := by
    rw [hstate]
    decide
  obtain ⟨s₁, s₂, first, here, last, hfirst, hhere, hlast, rfl⟩ := spiSlaveCycle_parts hss hops hreset h
  obtain rfl : s₁ = s := hfirst.waiting (by rw [hstate]; decide)
  obtain ⟨hturn, -, -, hothers⟩ := hhere
  constructor
  · intro hlt
    rw [hlast.kept x fun hmem ↦ lt_asymm hlt (mem_behind.mp hmem), hothers x hlt.ne]
  · intro hgt
    have hs₂ : s₂.state = .selected := by
      cases hturn with
      | started _ state => exact state
      | selected from' | busy from' | done from' => cases hstate.symm.trans from'
    rw [← hothers x hgt.ne']
    exact hlast.silent hs₂ x (mem_behind.mpr hgt) other hother

/-- The instances in front of it are asked in the next one. -/
theorem silent_of_selected (hss : slaveSelect (s.raw 6) = (1 : Word) <<< inst.val)
    (hops : impls inst = some ops) (hstate : s.state = .selected)
    (h : spiSlaveCycle u impls s = .ok (s', clocks)) {x : Fin 8} {other : SpiOps C}
    (hother : impls x = some other) (hlt : x < inst) :
    other.Silent (s.implCookies x) (pushedBit u s.raw (charLen (s.raw 4))) := by
  have hreset : s.state ≠ .reset := by
    rw [hstate]
    decide
  obtain ⟨s₁, s₂, first, here, last, hfirst, -, -, -⟩ := spiSlaveCycle_parts hss hops hreset h
  exact hfirst.silent hstate x (mem_before.mpr hlt) other hother

/-! ## Events -/

/-- An event while a transfer lasts is a turn, a step of the divider, or nothing. -/
theorem busyEvent_cases {event : SpiEvent} (hbusy : goBsy (s.raw 4) → s.state ≠ .reset)
    (h : busyEvent u impls s event = .ok (s', clocks)) :
    (s.state ≠ .reset ∧ event = .cycle ∧ (divider (s.raw 5) + 1) * 2 - 1 ≤ s.dividend.toNat ∧
      ∃ m, spiSlaveCycle u impls s = .ok (m, clocks) ∧ s' = { m with cyc := m.cyc + 1, dividend := 0 }) ∨
    (s.state ≠ .reset ∧ event = .cycle ∧ s.dividend.toNat < (divider (s.raw 5) + 1) * 2 - 1 ∧ clocks = [] ∧
      s' = { s with dividend := s.dividend + 1 }) ∨
    ((goBsy (s.raw 4) → event ≠ .cycle) ∧ clocks = [] ∧ s' = s) := by
  rw [busyEvent] at h
  split at h
  · rename_i hgo
    have hstate := hbusy hgo
    cases event with
    | cycle =>
      change spiEmuCycle u impls s = _ at h
      rw [spiEmuCycle] at h
      split at h
      · rename_i hdue
        cases hcycle : spiSlaveCycle u impls s with
        | error fault =>
          rw [hcycle] at h
          cases h
        | ok result =>
          rw [hcycle] at h
          cases h
          exact .inl ⟨hstate, rfl, hdue, result.1, rfl, rfl⟩
      · rename_i hdue
        cases h
        exact .inr (.inl ⟨hstate, rfl, Nat.lt_of_not_le hdue, rfl, rfl⟩)
    | op op regnum data =>
      refine .inr (.inr ⟨fun _ ↦ by rintro ⟨⟩, ?_⟩)
      change (spiOp impls s op regnum data).bind _ = _ at h
      cases op with
      | write =>
        rw [spiOp, if_pos hstate] at h
        cases h
        exact ⟨rfl, rfl⟩
      | insnRead | dataRead =>
        cases h
        exact ⟨rfl, rfl⟩
  · rename_i hgo
    cases h
    exact .inr (.inr ⟨fun hset ↦ absurd hset hgo, rfl, rfl⟩)

end

end Tenyr.Sim
