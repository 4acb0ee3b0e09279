import Tenyr.Jit.DriverRefinement
import Tenyr.Jit.Engine

/-!
# Failing accesses under the two engines

An access that fails ends `interp_run_sim`, which returns 1. The loop of `jit_run_sim` only ends
on a negative number, and emitted code does not learn of the failure at all. As long as the driver
keeps step with the interpreter, it stops at the failing instruction only if nothing can be fetched
where it goes on.
-/

namespace Tenyr.Jit

open Isa Sim Lib.Transition
open Lib.X86 (Cpu)

variable {σ : Type}

namespace Engine

/-! ## The interpreter -/

section Interpreter

variable (g : Engine σ)

/-- The loop body of `interp_run_sim` under the hooks of `tsim`. -/
def iteration (s : SimState σ) : Iteration σ Unit :=
  interpIteration g.undef g.bus (tsimOps g.dispatchCycle) s ()

/-- One instruction of `interp_run_sim` after which it goes on. -/
def interpNext (s : SimState σ) : Option (SimState σ) :=
  match g.iteration s with
  | .running s _ => some s
  | .returned .. => none

/-- `interp_run_sim` executes `n` instructions, and the data access of the next one fails. -/
def FaultsAfter (s : SimState σ) (n : ℕ) : Prop :=
  ∃ t u, steps g.interpNext n s = some t ∧ g.iteration t = .returned 1 u ()

/-- The run ends with the failing instruction. -/
theorem interpRunSim_of_faultsAfter {s : SimState σ} {n : ℕ} (h : g.FaultsAfter s n) :
    ∃ u, interpRunSim g.undef g.bus (tsimOps g.dispatchCycle) (n + 1) s () = some (1, u, ()) := by
  rcases h with ⟨t, u, hrun, hfault⟩
  refine ⟨u, ?_⟩
  induction n generalizing s with
  | zero =>
    obtain rfl : s = t := by simpa using hrun
    rw [interpRunSim]
    unfold iteration at hfault
    rw [hfault]
  | succ n ih =>
    rw [steps_succ, Option.bind_eq_some_iff] at hrun
    rcases hrun with ⟨s', hfirst, hrest⟩
    have hnext := ih hrest
    unfold interpNext at hfirst
    cases hiteration : g.iteration s with
    | returned rc v ud => simp [hiteration] at hfirst
    | running v ud =>
      obtain rfl : v = s' := by simpa [hiteration] using hfirst
      unfold iteration at hiteration
      rw [interpRunSim, hiteration]
      exact hnext

end Interpreter

/-! ## What is claimed of the driver -/

variable (g : Engine σ)

/-- Nothing is executed after the first `n + 1` instructions, and the last of these changes neither
a register other than `P` nor the devices. -/
def StopsAfter (s : SimState σ) (n : ℕ) : Prop :=
  ∀ e, g.Reaches s e →
    e.executed ≤ n + 1 ∧
      ∀ w t e', e.executed = n → g.begins e = some (w, t) → g.step e = some e' →
        (∀ r, r ≠ regP → e'.sim.regs r = t.regs r) ∧ e'.sim.devices = t.devices

/-- The driver stops wherever an access that fails ends the interpreter. -/
def FaultsStop (s : SimState σ) : Prop := ∀ n, g.FaultsAfter s n → g.StopsAfter s n

/-- The blocks that are due for compilation can be compiled, and no compiled one is empty. -/
def Compilable (o : OpsState σ) : Prop :=
  ∀ bb ∈ o.basicBlocks, bb.compiled ≠ some [] ∧
    (bb.compiled = none → g.runCountThreshold.slt bb.runCount = true →
      ∃ w rest, bb.compile.bind BasicBlock.compiled = some (w :: rest))

/-- The driver does here what the interpreter does. An iteration of the interpreter always is the
same for both; the rest is about what the driver does besides, and about compiled blocks. -/
def InStep (e : EngineState σ) : Prop :=
  match e.place with
  | .top => True
  | .nested => ∀ w t, g.begins e = none → fetched g.bus e.sim = some (w, t) → t = e.sim
  | .leaving _ => (g.dispatchCycle e.sim.devices).2 = e.sim.devices
  | .block _ _ _ [] _ => True
  | .block _ _ offset (w :: rest) _ =>
      -- the instruction is still the one that the interpreter would fetch
      e.sim.regs regP + BitVec.ofNat 32 offset ≠ 0xffffffff#32 ∧
      g.bus.dispatchOp e.sim.devices .insnRead (e.sim.regs regP + BitVec.ofNat 32 offset) 0#32 =
        some (w, e.sim.devices) ∧
      (UpdatesP w ↔ rest = []) ∧
      -- emitted code computes what the interpreter does
      CountsInRange (operandView e.sim.regs offset) w ∧ ¬ StoresP w ∧
      (∀ devices, g.dispatchCycle devices = (false, devices)) ∧ g.Compilable e.ops

/-- Here a failing instruction is the last one that is executed: nothing can be fetched where the
driver goes on. A compiled block must be left as well, so the instruction loads `P`, and the driver
goes on at whatever the failed read has left behind. -/
def StopsHere (e : EngineState σ) : Prop :=
  match e.place with
  | .nested => ∀ w t, g.begins e = some (w, t) →
      fetched g.bus { t.advance with devices := (g.dispatchCycle t.devices).2 } = none
  | .block _ _ offset (w :: _) _ =>
      UpdatesP w ∧
        fetched g.bus (e.sim.setReg regP
          (g.host.failedFetch (rhsValue g.undef (operandView e.sim.regs offset) w))) = none
  | _ => True

variable {g}

/-! ## Keeping step -/

/-- The registers and the devices are the same; instructions are counted at different times. -/
def Same (s t : SimState σ) : Prop := s.regs = t.regs ∧ s.devices = t.devices

theorem Same.eq_count {s t : SimState σ} (h : Same s t) :
    ∃ (r : SimState σ) (k l : ℕ), s = r.count k ∧ t = r.count l := by
  refine ⟨{ s with insnsExecuted := 0 }, s.insnsExecuted, t.insnsExecuted, ?_, ?_⟩
  · simp [SimState.count]
  · rcases t with ⟨regs, devices, count⟩
    obtain ⟨rfl, rfl⟩ : s.regs = regs ∧ s.devices = devices := h
    simp [SimState.count]

/-- Instructions do the same to both. -/
theorem Same.runInstruction {s t : SimState σ} (h : Same s t) (undef : UndefinedShifts)
    (bus : Bus σ) (w : Word) :
    (∃ s' t', runInstruction undef bus s w = .ok s' ∧ runInstruction undef bus t w = .ok t' ∧
        Same s' t') ∨
      ∃ s' t', runInstruction undef bus s w = .error s' ∧ runInstruction undef bus t w = .error t' ∧
        Same s' t' := by
  obtain ⟨r, k, l, rfl, rfl⟩ := h.eq_count
  rw [runInstruction_count, runInstruction_count]
  cases Sim.runInstruction undef bus r w with
  | ok r' => exact .inl ⟨_, _, rfl, rfl, rfl, rfl⟩
  | error r' => exact .inr ⟨_, _, rfl, rfl, rfl, rfl⟩

theorem Same.fetched {s t s' : SimState σ} {bus : Bus σ} {w : Word} (h : Same s t)
    (hs : Jit.fetched bus s = some (w, s')) : ∃ t', Jit.fetched bus t = some (w, t') ∧ Same s' t' := by
  unfold Jit.fetched at hs ⊢
  rw [← h.1, ← h.2]
  by_cases hend : s.regs regP = 0xffffffff#32
  · simp [hend] at hs
  · rw [if_neg hend, Option.map_eq_some_iff] at hs
    rcases hs with ⟨result, hread, hpair⟩
    obtain ⟨rfl, rfl⟩ := Prod.mk.inj hpair
    rw [if_neg hend, hread]
    exact ⟨_, rfl, rfl, rfl⟩

theorem Same.fetched_none {s t : SimState σ} {bus : Bus σ} (h : Same s t)
    (hs : Jit.fetched bus s = none) : Jit.fetched bus t = none := by
  cases ht : Jit.fetched bus t with
  | none => rfl
  | some result =>
    obtain ⟨s', hs', -⟩ := Same.fetched (t := s) ⟨h.1.symm, h.2.symm⟩ ht
    rw [hs] at hs'
    cases hs'

/-- The driver has got as far as the interpreter in this state. Inside a compiled block `P` is not
kept up to date. -/
def Follows (e : EngineState σ) (s : SimState σ) : Prop :=
  match e.place with
  | .block _ _ offset (_ :: _) cpu => Corresponds (e.sim.regs regP) offset (frame e cpu) s
  | .leaving rc => rc = 0 ∧ Same e.sim s
  | _ => Same e.sim s

/-- What an iteration of the interpreter that fetches an instruction comes to. -/
theorem iteration_of_fetched {s t : SimState σ} {w : Word} (h : fetched g.bus s = some (w, t)) :
    g.iteration s =
      match runInstruction g.undef g.bus t w with
      | .error u => .returned 1 u ()
      | .ok u =>
        match g.dispatchCycle u.devices with
        | (true, devices) =>
          .returned 0 { u with devices, insnsExecuted := u.insnsExecuted + 1 } ()
        | (false, devices) =>
          .running { u with devices, insnsExecuted := u.insnsExecuted + 1 } () := by
  unfold iteration
  rw [interpIteration_of_fetched _ _ _ h]
  simp only [tsimOps]
  cases runInstruction g.undef g.bus t w with
  | error u => rfl
  | ok u =>
    rcases hcycle : g.dispatchCycle u.devices with ⟨rc, devices⟩
    cases rc <;> simp [hcycle]

/-- After an instruction that succeeds, the interpreter goes on if the cycle lets it. -/
theorem interpNext_eq_some {s t s' : SimState σ} {w : Word}
    (hfetched : fetched g.bus s = some (w, t)) (h : g.interpNext s = some s') :
    ∃ u, runInstruction g.undef g.bus t w = .ok u ∧ (g.dispatchCycle u.devices).1 = false ∧
      s'.regs = u.regs ∧ s'.devices = (g.dispatchCycle u.devices).2 := by
  unfold interpNext at h
  rw [iteration_of_fetched hfetched] at h
  cases hrun : runInstruction g.undef g.bus t w with
  | error u => simp [hrun] at h
  | ok u =>
    simp only [hrun] at h
    rcases hcycle : g.dispatchCycle u.devices with ⟨rc, devices⟩
    cases rc
    · simp only [hcycle] at h
      obtain rfl := Option.some.inj h
      exact ⟨u, rfl, by rw [hcycle], rfl, by rw [hcycle]⟩
    · simp [hcycle] at h

/-- A fault is an instruction that fails. -/
theorem iteration_eq_fault {s u : SimState σ} (h : g.iteration s = .returned 1 u ()) :
    ∃ w t, fetched g.bus s = some (w, t) ∧ runInstruction g.undef g.bus t w = .error u := by
  cases hfetched : fetched g.bus s with
  | none =>
    unfold iteration at h
    rw [interpIteration_of_fetched_none _ _ _ hfetched] at h
    simp at h
  | some result =>
    rw [iteration_of_fetched hfetched] at h
    refine ⟨result.1, result.2, rfl, ?_⟩
    cases hrun : runInstruction g.undef g.bus result.2 result.1 with
    | error v =>
      simp only [hrun] at h
      injection h with _ h
      rw [h]
    | ok v =>
      simp only [hrun] at h
      rcases hcycle : g.dispatchCycle v.devices with ⟨rc, devices⟩
      cases rc <;> simp [hcycle] at h

/-- The interpreter does not end for want of an instruction. -/
theorem exists_fetched_of_interpNext {s s' : SimState σ} (h : g.interpNext s = some s') :
    ∃ w t, fetched g.bus s = some (w, t) := by
  cases hfetched : fetched g.bus s with
  | none =>
    unfold interpNext iteration at h
    rw [interpIteration_of_fetched_none _ _ _ hfetched] at h
    cases h
  | some result => exact ⟨result.1, result.2, rfl⟩

/-! ## One step of the driver -/

section Step

variable {e e' : EngineState σ} {s s' : SimState σ}

theorem step_executed (h : g.step e = some e') :
    e'.executed = if (g.begins e).isSome then e.executed + 1 else e.executed := by
  rw [step, Option.map_eq_some_iff] at h
  rcases h with ⟨_, -, rfl⟩
  rfl

/-- A step that executes nothing is what the driver makes of its control point. -/
theorem step_of_begins_none (h : g.step e = some e') (hbegins : g.begins e = none) :
    ∃ d, g.move e = some d ∧ e' = { d with executed := e.executed } := by
  rw [step, Option.map_eq_some_iff] at h
  rcases h with ⟨d, hd, rfl⟩
  exact ⟨d, hd, by simp [hbegins]⟩

/-- The nested interpreter returns to let compiled code run. -/
theorem nested_handsOver {w : Word} {t : SimState σ} (hplace : e.place = .nested)
    (hfetched : fetched g.bus e.sim = some (w, t)) (hbegins : g.begins e = none) :
    g.step e = some
      { e with
        sim := t
        ops := (g.hooks.preInsn t { word := w, reladdr := e.sim.regs regP } e.ops).2.2
        place := .leaving 0 } := by
  have hpre : (g.hooks.preInsn t { word := w, reladdr := e.sim.regs regP } e.ops).1 = true := by
    rw [begins_nested hplace hfetched] at hbegins
    by_contra hnot
    simp [hnot] at hbegins
  have hsim := preInsn_sim (g := g) t { word := w, reladdr := e.sim.regs regP } e.ops
  have hmove : g.move e = some
      { e with
        sim := t
        ops := (g.hooks.preInsn t { word := w, reladdr := e.sim.regs regP } e.ops).2.2
        place := .leaving 0 } := by
    simp only [move, hplace]
    rw [interpIteration_of_fetched _ _ _ hfetched]
    rcases hresult : g.hooks.preInsn t { word := w, reladdr := e.sim.regs regP } e.ops with
      ⟨rc, t', o⟩
    rw [hresult] at hpre hsim
    subst hpre hsim
    rfl
  rw [step, hmove, hbegins]
  rfl

/-- The nested interpreter executes an instruction. -/
theorem nested_executes {w : Word} {t : SimState σ} (hplace : e.place = .nested)
    (hfetched : fetched g.bus e.sim = some (w, t))
    (hpre : (g.hooks.preInsn t { word := w, reladdr := e.sim.regs regP } e.ops).1 = false) :
    g.step e = some
      (match runInstruction g.undef g.bus t w with
      | .error u =>
        { sim := u
          ops := (g.hooks.preInsn t { word := w, reladdr := e.sim.regs regP } e.ops).2.2
          place := .leaving 1
          executed := e.executed + 1 }
      | .ok u =>
        match g.hooks.postInsn u { word := w, reladdr := e.sim.regs regP }
          (g.hooks.preInsn t { word := w, reladdr := e.sim.regs regP } e.ops).2.2 with
        | (true, u, ops) => { sim := u, ops, place := .leaving 0, executed := e.executed + 1 }
        | (false, u, ops) => { sim := u, ops, place := .nested, executed := e.executed + 1 }) := by
  have hbegins : g.begins e = some (w, t) := by
    rw [begins_nested hplace hfetched, hpre]
    rfl
  have hsim := preInsn_sim (g := g) t { word := w, reladdr := e.sim.regs regP } e.ops
  rw [step, hbegins]
  simp only [move, hplace]
  rw [interpIteration_of_fetched _ _ _ hfetched]
  rcases hresult : g.hooks.preInsn t { word := w, reladdr := e.sim.regs regP } e.ops with
    ⟨rc, t', o⟩
  rw [hresult] at hpre hsim
  subst hpre hsim
  dsimp only
  cases runInstruction g.undef g.bus t' w with
  | error u => rfl
  | ok u =>
    rcases hpost : g.hooks.postInsn u { word := w, reladdr := e.sim.regs regP } o with ⟨rc, v, o'⟩
    cases rc <;> simp [hpost]

/-- After the instruction the hook dispatches a cycle, whatever it does to the blocks. -/
theorem postInsn_sim (u : SimState σ) (i : Fetched) (o : OpsState σ) :
    (g.hooks.postInsn u i o).2.1 =
      { u with devices := (g.dispatchCycle u.devices).2, insnsExecuted := u.insnsExecuted + 1 } := by
  change (postInsnHook (tsimOps g.dispatchCycle) u i o).2.1 = _
  unfold postInsnHook
  dsimp only
  split
  · split <;> rfl
  · rfl

/-- A step in which nothing is executed leaves the driver where the interpreter is. -/
theorem Follows.quiet (h : Follows e s) (hA : s.regs 0#4 = 0#32) {w : Word} {t : SimState σ}
    (hlive : fetched g.bus s = some (w, t)) (hin : g.InStep e) (hbegins : g.begins e = none)
    (hstep : g.step e = some e') : Follows e' s ∧ e'.executed = e.executed := by
  have hexecuted := step_executed hstep
  rw [hbegins] at hexecuted
  refine ⟨?_, hexecuted⟩
  obtain ⟨d, hmove, rfl⟩ := step_of_begins_none hstep hbegins
  cases hplace : e.place with
  | top =>
    simp only [Follows, hplace] at h
    simp only [move, hplace] at hmove
    cases hready : e.ops.readyBlock with
    | none =>
      simp only [hready] at hmove
      obtain rfl := Option.some.inj hmove
      exact h
    | some ready =>
      obtain ⟨k, bb, code⟩ := ready
      simp only [hready] at hmove
      obtain rfl := Option.some.inj hmove
      cases code with
      | nil => exact h
      | cons v rest =>
        have hstart := enter_corresponds (g.entry e.sim) (s := s) hA
        simp only [Follows]
        rw [show e.sim.regs regP = s.regs 15#4 by rw [h.1]]
        exact ⟨by simp [frame, h.1], hstart.ahead, hstart.zero, h.2⟩
  | nested =>
    simp only [Follows, hplace] at h
    obtain ⟨t', hfetched, -⟩ := Same.fetched (s := s) (t := e.sim) ⟨h.1.symm, h.2.symm⟩ hlive
    have hover := nested_handsOver hplace hfetched hbegins
    simp only [InStep, hplace] at hin
    obtain rfl := hin _ _ hbegins hfetched
    rw [hstep] at hover
    rw [Option.some.inj hover]
    exact ⟨rfl, h⟩
  | block k bb offset rest cpu =>
    cases rest with
    | nil =>
      simp only [Follows, hplace] at h
      simp only [move, hplace] at hmove
      obtain rfl := Option.some.inj hmove
      exact h
    | cons v rest => simp [begins, hplace] at hbegins
  | leaving rc =>
    simp only [Follows, hplace] at h
    obtain ⟨rfl, hsame⟩ := h
    simp only [InStep, hplace] at hin
    simp only [move, hplace, le_refl, if_true] at hmove
    obtain rfl := Option.some.inj hmove
    exact ⟨hsame.1, hin.trans hsame.2⟩

/-- An instruction executed by both takes both on together. -/
theorem Follows.executes (h : Follows e s) {w : Word} {t : SimState σ} (hin : g.InStep e)
    (hbegins : g.begins e = some (w, t)) (hnext : g.interpNext s = some s')
    (hstep : g.step e = some e') : Follows e' s' ∧ e'.executed = e.executed + 1 := by
  have hexecuted := step_executed hstep
  rw [hbegins] at hexecuted
  refine ⟨?_, hexecuted⟩
  rcases begins_eq_some hbegins with ⟨hplace, hfetched, hpre⟩ | ⟨k, bb, offset, rest, cpu, hplace, rfl⟩
  · simp only [Follows, hplace] at h
    obtain ⟨t', hfetched', hsame⟩ := h.fetched hfetched
    obtain ⟨u', hrun', hgoes, hregs, hdevices⟩ := interpNext_eq_some hfetched' hnext
    rcases hsame.runInstruction g.undef g.bus w with
      ⟨u, v, hrun, hrun'', husame⟩ | ⟨u, v, -, herror, -⟩
    · obtain rfl : u' = v := Except.ok.inj (hrun'.symm.trans hrun'')
      rw [nested_executes hplace hfetched hpre, hrun] at hstep
      obtain rfl := Option.some.inj hstep
      dsimp only
      generalize (g.hooks.preInsn t { word := w, reladdr := e.sim.regs regP } e.ops).2.2 = o
      have hsim := postInsn_sim (g := g) u { word := w, reladdr := e.sim.regs regP } o
      rcases hpost : g.hooks.postInsn u { word := w, reladdr := e.sim.regs regP } o with ⟨rc, v, o'⟩
      rw [hpost] at hsim
      have hboth : Same v s' := by
        obtain rfl : v = _ := hsim
        exact ⟨by rw [hregs]; exact husame.1, by rw [hdevices, ← husame.2]⟩
      cases rc
      · exact hboth
      · exact ⟨rfl, hboth⟩
    · rw [hrun'] at herror
      cases herror
  · simp only [Follows, hplace] at h
    simp only [InStep, hplace] at hin
    obtain ⟨hend, hread, hlast, hcounts, hstore, hidle, -⟩ := hin
    have hP : s.regs regP = e.sim.regs regP + BitVec.ofNat 32 offset := h.ahead
    have hfetched : fetched g.bus s = some (w, s) := by
      have hdevices : e.sim.devices = s.devices := h.devices
      rw [← hP, hdevices] at hread
      rw [fetched, if_neg (by rw [hP]; exact hend), hread]
      rfl
    obtain ⟨u, hrun, -, hregs, hdevices⟩ := interpNext_eq_some hfetched hnext
    rw [hidle] at hdevices
    have hview : operandView e.sim.regs offset = s.advance.regs := h.operandView_eq
    rw [hview] at hcounts
    obtain ⟨hagrees, hcorresponds⟩ :=
      instruction_agrees g.undef g.host g.bus h hcounts hrun hstore
    rw [step_block hplace] at hstep
    obtain rfl := Option.some.inj hstep
    cases rest with
    | nil =>
      have hassigns : UpdatesP w := hlast.mpr rfl
      refine ⟨?_, ?_⟩
      · funext r
        rw [hregs]
        exact hagrees.2 r fun _ ↦ ⟨w, by simp, hassigns⟩
      · rw [hdevices]
        exact hagrees.1
    | cons v rest =>
      have hnot : ¬ UpdatesP w := fun hassigns ↦ by cases hlast.mp hassigns
      have hnew := hcorresponds hnot
      have hbase : (execute g.host g.bus (frame e cpu) (buildInstruction w offset).1).regs regP =
          e.sim.regs regP := by
        rw [hnew.stale]
        simp [regP]
      simp only [Follows, inBlock]
      rw [hbase]
      exact ⟨by rw [hregs]; exact hnew.stale, by rw [hregs]; exact hnew.ahead,
        by rw [hregs]; exact hnew.zero, by rw [hdevices]; exact hnew.devices⟩

theorem store_eq_error {bus : Bus σ} {t u : SimState σ} {addr value : Word}
    (h : t.store bus addr value = .error u) : u = t := by
  unfold SimState.store at h
  split at h
  · exact (Except.error.inj h).symm
  · cases h

theorem load_eq_error {bus : Bus σ} {t u : SimState σ} {z : RegIndex} {addr : Word}
    (h : t.load bus z addr = .error u) : u = t := by
  unfold SimState.load at h
  split at h
  · exact (Except.error.inj h).symm
  · cases h

/-- An access that fails leaves only `P` changed. -/
theorem runInstruction_error {undef : UndefinedShifts} {bus : Bus σ} {t u : SimState σ} {w : Word}
    (h : runInstruction undef bus t w = .error u) : u = t.advance := by
  rw [runInstruction_eq] at h
  rcases fieldDd_cases w with hdd | hdd | hdd | hdd
  all_goals simp only [hdd] at h
  · cases h
  · exact store_eq_error h
  · exact store_eq_error h
  · exact load_eq_error h

/-- Register `A` is never assigned. -/
theorem runInstruction_regA {undef : UndefinedShifts} {bus : Bus σ} {t u : SimState σ} {w : Word}
    (h : runInstruction undef bus t w = .ok u) : u.regs 0#4 = t.regs 0#4 := by
  have hadvance : t.advance.regs 0#4 = t.regs 0#4 := by
    simp [SimState.advance, SimState.setReg, regP]
  have hwrite (v : SimState σ) (z : RegIndex) (value : Word) :
      (v.writeBack z value).regs 0#4 = v.regs 0#4 := by
    unfold SimState.writeBack
    split
    · rfl
    · rename_i hz
      simp [SimState.setReg, Ne.symm hz]
  rw [runInstruction_eq] at h
  rw [← hadvance]
  rcases fieldDd_cases w with hdd | hdd | hdd | hdd
  all_goals simp only [hdd] at h
  · obtain rfl := Except.ok.inj h
    exact hwrite _ _ _
  · obtain ⟨_, devices, -, rfl⟩ := SimState.store_eq_ok.mp h
    rfl
  · obtain ⟨_, devices, -, rfl⟩ := SimState.store_eq_ok.mp h
    rfl
  · obtain ⟨_, devices, -, rfl⟩ := SimState.load_eq_ok.mp h
    exact hwrite _ _ _

theorem interpNext_regA (h : g.interpNext s = some s') (hA : s.regs 0#4 = 0#32) :
    s'.regs 0#4 = 0#32 := by
  obtain ⟨w, t, hfetched⟩ := exists_fetched_of_interpNext h
  obtain ⟨u, hrun, -, hregs, -⟩ := interpNext_eq_some hfetched h
  calc
    s'.regs 0#4 = u.regs 0#4 := by rw [hregs]
    _ = t.regs 0#4 := runInstruction_regA hrun
    _ = s.regs 0#4 := by rw [fetched_regs hfetched]
    _ = 0#32 := hA

/-- What the emitted code of an instruction does when the interpreter's access fails: nothing, or
it takes whatever is left for the datum. -/
theorem executes_failing {base : Word} {offset : ℕ} {f : Frame σ} {t : SimState σ} {w : Word}
    (h : Corresponds base offset f t) (hcounts : CountsInRange (operandView f.regs offset) w)
    (hstore : ¬ StoresP w) {u : SimState σ}
    (hfails : runInstruction g.undef g.bus t w = .error u) :
    (execute g.host g.bus f (buildInstruction w offset).1).visible =
      (if fieldDd w = 3#2 ∧ fieldZ w ≠ 0#4 then
        Function.update f.regs (fieldZ w)
          (g.host.failedFetch (rhsValue g.undef (operandView f.regs offset) w))
      else f.regs, f.devices) := by
  obtain ⟨value, hvisible, hvalue⟩ :=
    execute_buildInstruction g.undef g.host g.bus f offset w
  have hzero : f.regs 0#4 = 0#32 := (h.regs_eq (by decide)).trans h.zero
  obtain rfl := hvalue hzero hcounts
  rw [hvisible, transferred]
  rw [runInstruction_eq, ← h.operandView_eq] at hfails
  generalize rhsValue g.undef (operandView f.regs offset) w = value at hfails ⊢
  have hdevices : t.advance.devices = f.devices := h.devices.symm
  -- the registers other than `P` are those of the interpreter
  have hview (hz : fieldZ w ≠ 15#4) : operandView f.regs offset (fieldZ w) = f.regs (fieldZ w) := by
    simp [operandView, hz]
  rcases fieldDd_cases w with hdd | hdd | hdd | hdd
  all_goals simp only [hdd] at hfails ⊢
  · cases hfails
  · rw [hview fun hz ↦ hstore ⟨hz, .inl hdd⟩, SimState.store, hdevices] at hfails
    cases hwrite : g.bus.dispatchOp f.devices .write value (f.regs (fieldZ w)) with
    | none => simp [store, hwrite]
    | some result => simp [hwrite] at hfails
  · rw [hview fun hz ↦ hstore ⟨hz, .inr hdd⟩, SimState.store, hdevices] at hfails
    cases hwrite : g.bus.dispatchOp f.devices .write (f.regs (fieldZ w)) value with
    | none => simp [store, hwrite]
    | some result => simp [hwrite] at hfails
  · rw [SimState.load, hdevices] at hfails
    cases hread : g.bus.dispatchOp f.devices .dataRead value 0#32 with
    | none => simp [fetch, hread]
    | some result => simp [hread] at hfails

end Step

/-! ## What the hooks let the driver do next -/

section Hooks

variable {s t t' : SimState σ} {i i' : Fetched} {o : OpsState σ}

/-- The current block is not compiled, and not due for it. -/
def Interpreting (g : Engine σ) (o : OpsState σ) : Prop :=
  ∃ k bb, o.currBb = some k ∧ o.basicBlocks[k]? = some bb ∧ bb.compiled = none ∧
    g.runCountThreshold.slt bb.runCount = false

theorem openBlock_current (tsearch : Search) (o : OpsState σ) (addr : Word) :
    (openBlock tsearch o addr).1.currBb = some (openBlock tsearch o addr).2 := by
  unfold openBlock
  split
  · assumption
  · split <;> rfl

/-- A block in which an instruction is interpreted goes on being interpreted. -/
theorem interpreting_of_preInsn (h : (g.hooks.preInsn t i o).1 = false) :
    Interpreting g (g.hooks.preInsn t i o).2.2 := by
  change (preInsnHook g.tsearch g.runCountThreshold (tsimOps g.dispatchCycle) t i o).1 = false at h
  change Interpreting g
    (preInsnHook g.tsearch g.runCountThreshold (tsimOps g.dispatchCycle) t i o).2.2
  have hcurrent := openBlock_current g.tsearch o i.reladdr
  unfold preInsnHook at h ⊢
  generalize openBlock g.tsearch o i.reladdr = opened at h hcurrent ⊢
  rcases opened with ⟨o', k⟩
  dsimp only at h hcurrent ⊢
  cases hblock : o'.basicBlocks[k]? with
  | none => simp [hblock] at h
  | some bb =>
    simp only [hblock] at h ⊢
    by_cases hcompiled : bb.compiled.isSome = true
    · rw [if_pos hcompiled] at h
      cases h
    · have hnone : bb.compiled = none := by simpa using hcompiled
      rw [if_neg hcompiled] at h ⊢
      by_cases hat : bb.runCount = g.runCountThreshold
      · have hnot : g.runCountThreshold.slt bb.runCount = false := by
          rw [hat, BitVec.slt_eq_decide]
          simp
        rw [if_pos hat]
        dsimp only
        cases hcache : bb.cacheInsn i with
        | none => exact ⟨k, bb, hcurrent, hblock, hnone, hnot⟩
        | some bb' =>
          refine ⟨k, bb', hcurrent, setBlock_getElem? hblock bb', ?_, ?_⟩
          all_goals
            unfold BasicBlock.cacheInsn at hcache
            dsimp only at hcache
            split at hcache
            · obtain rfl := Option.some.inj hcache
              assumption
            · cases hcache
      · rw [if_neg hat] at h ⊢
        by_cases habove : g.runCountThreshold.slt bb.runCount = true
        · rw [if_pos habove] at h
          cases hcompile : bb.compile <;> simp [hcompile] at h
        · rw [if_neg habove]
          exact ⟨k, bb, hcurrent, hblock, hnone, by simpa using habove⟩

theorem Interpreting.readyBlock_eq (h : Interpreting g o) : o.readyBlock = none := by
  rcases h with ⟨k, bb, hcurrent, hblock, hnone, -⟩
  simp [OpsState.readyBlock, hcurrent, hblock, hnone]

theorem Interpreting.preInsn (h : Interpreting g o) : (g.hooks.preInsn t i o).1 = false := by
  rcases h with ⟨k, bb, hcurrent, hblock, hnone, hbelow⟩
  change (preInsnHook g.tsearch g.runCountThreshold (tsimOps g.dispatchCycle) t i o).1 = false
  have hopen : openBlock g.tsearch o i.reladdr = (o, k) := by simp [openBlock, hcurrent]
  unfold preInsnHook
  simp only [hopen, hblock, hnone]
  by_cases hat : bb.runCount = g.runCountThreshold
  · simp [hat, tsimOps]
  · simp [hat, hbelow, tsimOps]

/-- Opening a block at a jump finds an existing one or appends a new one. -/
theorem openBlock_fresh {tsearch : Search} (hfinds : tsearch.Finds) (hcurrent : o.currBb = none)
    (addr : Word) :
    ∃ o' k bb, openBlock tsearch o addr = (o', k) ∧ o'.currBb = some k ∧
      o'.basicBlocks[k]? = some bb ∧
      (bb ∈ o.basicBlocks ∨ bb.compiled = none ∧ bb.runCount = 0#32) := by
  unfold openBlock
  rw [hcurrent]
  cases hsearch : tsearch (o.basicBlocks.map BasicBlock.base) addr with
  | none => exact ⟨_, _, _, rfl, rfl, by simp; rfl, .inr ⟨rfl, rfl⟩⟩
  | some k =>
    have hbase := hfinds _ _ _ hsearch
    rw [List.getElem?_map, Option.map_eq_some_iff] at hbase
    rcases hbase with ⟨bb, hbb, -⟩
    exact ⟨_, k, bb, rfl, rfl, hbb, .inl (List.mem_of_getElem? hbb)⟩

/-- Where the hook asks for compiled code, there is some. -/
theorem readyBlock_of_preInsn (hfinds : g.tsearch.Finds)
    (hthreshold : (1#32).slt g.runCountThreshold = true) (hcompilable : g.Compilable o)
    (hcurrent : o.currBb = none) (h : (g.hooks.preInsn t i o).1 = true) :
    ∃ k bb w rest, (g.hooks.preInsn t i o).2.2.readyBlock = some (k, bb, w :: rest) := by
  change (preInsnHook g.tsearch g.runCountThreshold (tsimOps g.dispatchCycle) t i o).1 = true at h
  change ∃ k bb w rest, (preInsnHook g.tsearch g.runCountThreshold
    (tsimOps g.dispatchCycle) t i o).2.2.readyBlock = some (k, bb, w :: rest)
  obtain ⟨o', k, bb, hopen, hcurr, hblock, hknown⟩ := openBlock_fresh hfinds hcurrent i.reladdr
  unfold preInsnHook at h ⊢
  simp only [hopen, hblock] at h ⊢
  by_cases hcompiled : bb.compiled.isSome = true
  · rw [if_pos hcompiled]
    obtain ⟨code, hcode⟩ := Option.isSome_iff_exists.mp hcompiled
    rcases hknown with hmem | ⟨hnone, -⟩
    · cases code with
      | nil => exact absurd hcode (hcompilable bb hmem).1
      | cons w rest =>
        refine ⟨k, bb, w, rest, ?_⟩
        simp [OpsState.readyBlock, hcurr, hblock, hcode]
    · rw [hnone] at hcompiled
      cases hcompiled
  · rw [if_neg hcompiled] at h ⊢
    by_cases hat : bb.runCount = g.runCountThreshold
    · rw [if_pos hat] at h
      simp [tsimOps] at h
    · rw [if_neg hat] at h ⊢
      by_cases habove : g.runCountThreshold.slt bb.runCount = true
      · rw [if_pos habove] at h ⊢
        rcases hknown with hmem | ⟨-, hzero⟩
        · obtain ⟨w, rest, hcode⟩ :=
            (hcompilable bb hmem).2 (by simpa using hcompiled) habove
          rw [Option.bind_eq_some_iff] at hcode
          rcases hcode with ⟨bb', hcompile, hcode⟩
          refine ⟨k, bb', w, rest, ?_⟩
          simp only [hcompile]
          rw [OpsState.readyBlock, show (o'.setBlock k bb').currBb = some k from hcurr]
          dsimp only
          rw [setBlock_getElem? hblock bb']
          simp [hcode]
        · rw [hzero] at habove
          simp only [BitVec.slt_eq_decide, decide_eq_true_eq] at habove hthreshold
          have hone : (1#32 : Word).toInt = 1 := by decide
          have hnil : (0#32 : Word).toInt = 0 := by decide
          omega
      · rw [if_neg habove] at h
        simp [tsimOps] at h

end Hooks

/-! ## Whole runs -/

section Runs

variable {s : SimState σ} {n : ℕ} {e e' : EngineState σ}

/-- The driver keeps step with the interpreter up to the instruction that fails. -/
def InStepUntil (g : Engine σ) (s : SimState σ) (n : ℕ) : Prop :=
  ∀ e, g.Reaches s e → e.executed ≤ n → g.InStep e

/-- Up to the failing instruction the interpreter always finds one to execute. -/
theorem FaultsAfter.exists_fetched (h : g.FaultsAfter s n) {k : ℕ} (hle : k ≤ n) {t : SimState σ}
    (ht : steps g.interpNext k s = some t) : ∃ w u, fetched g.bus t = some (w, u) := by
  rcases h with ⟨last, u, hrun, hfault⟩
  obtain ⟨t', ht', hrest⟩ := steps_of_le g.interpNext hle hrun
  obtain rfl : t = t' := Option.some.inj (ht.symm.trans ht')
  cases hleft : n - k with
  | zero =>
    rw [hleft] at hrest
    obtain rfl : t = last := by simpa using hrest
    obtain ⟨w, v, hfetched, -⟩ := iteration_eq_fault hfault
    exact ⟨w, v, hfetched⟩
  | succ m =>
    rw [hleft, steps_succ, Option.bind_eq_some_iff] at hrest
    rcases hrest with ⟨v, hnext, -⟩
    exact exists_fetched_of_interpNext hnext

/-- Before the failing instruction it goes on. -/
theorem FaultsAfter.exists_interpNext (h : g.FaultsAfter s n) {k : ℕ} (hlt : k < n)
    {t : SimState σ} (ht : steps g.interpNext k s = some t) :
    ∃ t', g.interpNext t = some t' ∧ steps g.interpNext (k + 1) s = some t' := by
  rcases h with ⟨last, u, hrun, -⟩
  obtain ⟨t', ht', -⟩ := steps_of_le g.interpNext (Nat.succ_le_of_lt hlt) hrun
  refine ⟨t', ?_, ht'⟩
  rw [Nat.succ_eq_add_one, steps_succ_last, ht] at ht'
  exact ht'

/-- As long as it keeps step, the driver has got as far as its count of instructions says. -/
theorem Reaches.follows (h : g.Reaches s e) (hA : s.regs 0#4 = 0#32) (hfault : g.FaultsAfter s n)
    (hin : InStepUntil g s n) (hle : e.executed ≤ n) :
    ∃ t, steps g.interpNext e.executed s = some t ∧ Follows e t ∧ t.regs 0#4 = 0#32 := by
  have hinvariant : e.executed ≤ n →
      ∃ t, steps g.interpNext e.executed s = some t ∧ Follows e t ∧ t.regs 0#4 = 0#32 := by
    apply h.invariant (fun a ↦ a.executed ≤ n →
      ∃ t, steps g.interpNext a.executed s = some t ∧ Follows a t ∧ t.regs 0#4 = 0#32)
    · intro _
      exact ⟨s, rfl, ⟨rfl, rfl⟩, hA⟩
    · intro a b ha hfollows hstep hb
      have hcount := step_executed hstep
      cases hbegins : g.begins a with
      | none =>
        simp only [hbegins, Option.isSome_none, Bool.false_eq_true, if_false] at hcount
        have hle : a.executed ≤ n := by omega
        obtain ⟨t, ht, hfol, htA⟩ := hfollows hle
        obtain ⟨w, u, hfetched⟩ := hfault.exists_fetched hle ht
        obtain ⟨hnew, -⟩ := hfol.quiet htA hfetched (hin a ha hle) hbegins hstep
        exact ⟨t, by rw [hcount]; exact ht, hnew, htA⟩
      | some result =>
        simp only [hbegins, Option.isSome_some, if_true] at hcount
        have hlt : a.executed < n := by omega
        obtain ⟨t, ht, hfol, htA⟩ := hfollows hlt.le
        obtain ⟨t', hnext, ht'⟩ := hfault.exists_interpNext hlt ht
        obtain ⟨hnew, -⟩ := hfol.executes (hin a ha hlt.le) hbegins hnext hstep
        exact ⟨t', by rw [hcount]; exact ht', hnew, interpNext_regA hnext htA⟩
  exact hinvariant hle

/-- The control point names a compiled block of the table. -/
def InTable (e : EngineState σ) : Prop :=
  match e.place with
  | .block _ bb _ _ _ => bb ∈ e.ops.basicBlocks ∧ bb.compiled ≠ none
  | _ => True

theorem Reaches.inTable (h : g.Reaches s e) : InTable e := by
  apply h.invariant InTable trivial
  intro a b _ ha hstep
  rw [step, Option.map_eq_some_iff] at hstep
  rcases hstep with ⟨d, hmove, rfl⟩
  unfold move at hmove
  split at hmove
  · split at hmove
    · rename_i k bb code hready
      obtain rfl := Option.some.inj hmove
      unfold OpsState.readyBlock at hready
      split at hready
      · cases hready
      · split at hready
        · cases hready
        · rename_i bb' hblock
          rw [Option.map_eq_some_iff] at hready
          rcases hready with ⟨code', hcode, htriple⟩
          obtain ⟨rfl, rfl, rfl⟩ : _ = k ∧ bb' = bb ∧ code' = code := by simpa using htriple
          exact ⟨List.mem_of_getElem? hblock, by simp [hcode]⟩
    · obtain rfl := Option.some.inj hmove
      trivial
  · rename_i hplace
    obtain rfl := Option.some.inj hmove
    simpa [InTable, hplace, inBlock] using ha
  · obtain rfl := Option.some.inj hmove
    trivial
  · rename_i hplace
    split at hmove
    · obtain rfl := Option.some.inj hmove
      simp [InTable, hplace]
    · obtain rfl := Option.some.inj hmove
      trivial
  · split at hmove
    · obtain rfl := Option.some.inj hmove
      trivial
    · cases hmove

/-- A failing instruction in the nested interpreter. -/
theorem Follows.faults_nested {t u m : SimState σ} {w : Word} (h : Follows e t)
    (hplace : e.place = .nested) (hbegins : g.begins e = some (w, m))
    (hfault : g.iteration t = .returned 1 u ()) :
    ∃ ops, Interpreting g ops ∧ g.step e = some
      { sim := m.advance, ops, place := .leaving 1, executed := e.executed + 1 } := by
  rcases begins_eq_some hbegins with ⟨-, hfetched, hpre⟩ | ⟨k, bb, offset, rest, cpu, hblock, -⟩
  · refine ⟨_, interpreting_of_preInsn hpre, ?_⟩
    simp only [Follows, hplace] at h
    obtain ⟨t', hfetched', hsame⟩ := h.fetched hfetched
    obtain ⟨w', t'', hfetched'', herror⟩ := iteration_eq_fault hfault
    obtain ⟨rfl, rfl⟩ := Prod.mk.inj (Option.some.inj (hfetched'.symm.trans hfetched''))
    rcases hsame.runInstruction g.undef g.bus w with ⟨_, v, -, hok, -⟩ | ⟨v, _, hfails, -, -⟩
    · rw [herror] at hok
      cases hok
    · obtain rfl := runInstruction_error hfails
      rw [nested_executes hplace hfetched hpre, hfails]
  · rw [hplace] at hblock
    cases hblock

/-- A failing instruction in a compiled block. -/
theorem Follows.faults_block {t u : SimState σ} {w : Word} {k offset : ℕ} {bb : BasicBlock}
    {rest : List Word} {cpu : Cpu GpVar} (h : Follows e t)
    (hplace : e.place = .block k bb offset (w :: rest) cpu) (hin : g.InStep e)
    (hfault : g.iteration t = .returned 1 u ()) :
    (UpdatesP w → fieldDd w = 3#2) ∧ ∃ cpu', g.step e = some
      { e with
        sim :=
          { e.sim with
            regs :=
              if fieldDd w = 3#2 ∧ fieldZ w ≠ 0#4 then
                Function.update e.sim.regs (fieldZ w)
                  (g.host.failedFetch (rhsValue g.undef (operandView e.sim.regs offset) w))
              else e.sim.regs }
        place := .block k bb (offset + 1) rest cpu'
        executed := e.executed + 1 } := by
  simp only [Follows, hplace] at h
  simp only [InStep, hplace] at hin
  obtain ⟨hend, hread, -, hcounts, hstore, -, -⟩ := hin
  have hP : t.regs regP = e.sim.regs regP + BitVec.ofNat 32 offset := h.ahead
  have hfetched : fetched g.bus t = some (w, t) := by
    have hdevices : e.sim.devices = t.devices := h.devices
    rw [← hP, hdevices] at hread
    rw [fetched, if_neg (by rw [hP]; exact hend), hread]
    rfl
  obtain ⟨w', t', hfetched', hfails⟩ := iteration_eq_fault hfault
  obtain ⟨rfl, rfl⟩ := Prod.mk.inj (Option.some.inj (hfetched.symm.trans hfetched'))
  constructor
  · rintro ⟨-, hdd | hdd⟩
    · rw [runInstruction_eq, hdd] at hfails
      cases hfails
    · exact hdd
  · have hvisible := executes_failing h hcounts hstore hfails
    obtain ⟨hregs, hdevices⟩ := Prod.mk.inj hvisible
    refine ⟨(execute g.host g.bus (frame e cpu) (buildInstruction w offset).1).cpu, ?_⟩
    rw [step_block hplace, inBlock, hregs, hdevices]
    rfl

/-- After the failing instruction, with nothing left to execute. -/
def Ending (g : Engine σ) (n : ℕ) (e : EngineState σ) : Prop :=
  e.executed = n + 1 ∧
    match e.place with
    | .top => e.ops.readyBlock = none ∧ fetched g.bus e.sim = none
    | .nested => fetched g.bus e.sim = none
    | .block _ _ _ rest _ => rest = [] ∧ fetched g.bus e.sim = none
    | .leaving rc => rc < 0 ∨ e.ops.readyBlock = none ∧
        fetched g.bus { e.sim with devices := (g.dispatchCycle e.sim.devices).2 } = none

theorem Ending.begins (h : Ending g n e) : g.begins e = none := by
  rcases h with ⟨-, hplace⟩
  unfold Engine.begins
  split
  · rename_i hnested
    simp only [hnested] at hplace
    rw [hplace]
  · rename_i hblock
    simp only [hblock] at hplace
    cases hplace.1
  · rfl

/-- The driver stays where nothing is left to execute. -/
theorem Ending.step (h : Ending g n e) (hstep : g.step e = some e') : Ending g n e' := by
  have hcount := step_executed hstep
  rw [h.begins] at hcount
  obtain ⟨d, hmove, rfl⟩ := step_of_begins_none hstep h.begins
  refine ⟨hcount.trans h.1, ?_⟩
  rcases h with ⟨-, hplace⟩
  cases hwhere : e.place with
  | top =>
    simp only [hwhere] at hplace
    simp only [move, hwhere, hplace.1] at hmove
    obtain rfl := Option.some.inj hmove
    exact hplace.2
  | nested =>
    simp only [hwhere] at hplace
    simp only [move, hwhere] at hmove
    rw [interpIteration_of_fetched_none _ _ _ hplace] at hmove
    obtain rfl := Option.some.inj hmove
    exact .inl (by decide)
  | block k bb offset rest cpu =>
    simp only [hwhere] at hplace
    obtain ⟨rfl, hnone⟩ := hplace
    simp only [move, hwhere] at hmove
    obtain rfl := Option.some.inj hmove
    have hsame : Same e.sim (e.sim.count bb.len.toNat) := ⟨rfl, rfl⟩
    exact hsame.fetched_none hnone
  | leaving rc =>
    simp only [hwhere] at hplace
    simp only [move, hwhere] at hmove
    rcases hplace with hneg | hnone
    · rw [if_neg (by omega)] at hmove
      cases hmove
    · split at hmove
      · obtain rfl := Option.some.inj hmove
        exact hnone
      · cases hmove

/-- Where the condition holds, the failing instruction leaves nothing to execute, and changes no
register but `P`. -/
theorem StopsHere.ends {t u m : SimState σ} {w : Word} (h : g.StopsHere e) (hfol : Follows e t)
    (hin : g.InStep e) (hbegins : g.begins e = some (w, m))
    (hfault : g.iteration t = .returned 1 u ()) (hstep : g.step e = some e') :
    Ending g e.executed e' ∧ (∀ r, r ≠ regP → e'.sim.regs r = m.regs r) ∧
      e'.sim.devices = m.devices := by
  rcases begins_eq_some hbegins with ⟨hplace, -, -⟩ | ⟨k, bb, offset, rest, cpu, hplace, rfl⟩
  · obtain ⟨ops, hops, hnext⟩ := hfol.faults_nested hplace hbegins hfault
    obtain rfl := Option.some.inj (hstep.symm.trans hnext)
    simp only [StopsHere, hplace] at h
    refine ⟨⟨rfl, .inr ⟨hops.readyBlock_eq, h w m hbegins⟩⟩, ?_, rfl⟩
    intro r hr
    simp [SimState.advance, SimState.setReg, hr]
  · obtain ⟨hloads, cpu', hnext⟩ := hfol.faults_block hplace hin hfault
    obtain rfl := Option.some.inj (hstep.symm.trans hnext)
    simp only [StopsHere, hplace] at h
    simp only [InStep, hplace] at hin
    obtain ⟨hassigns, hnone⟩ := h
    have hz : fieldZ w ≠ 0#4 := by
      rw [hassigns.1]
      decide
    dsimp only
    rw [if_pos ⟨hloads hassigns, hz⟩, hassigns.1]
    refine ⟨⟨rfl, hin.2.2.1.mp hassigns, hnone⟩, ?_, rfl⟩
    intro r hr
    simp [hr]

/-- The nested interpreter executes another instruction, or leads to a block that does. -/
theorem goes_on (hfinds : g.tsearch.Finds) (hthreshold : (1#32).slt g.runCountThreshold = true)
    (hreaches : g.Reaches s e) (hplace : e.place = .nested)
    (hcurrent : e.ops.currBb = none) (hcompilable : g.Compilable e.ops) {w : Word} {m : SimState σ}
    (hfetched : fetched g.bus e.sim = some (w, m)) :
    ∃ e', g.Reaches s e' ∧ e'.executed = e.executed ∧ (g.begins e').isSome := by
  cases hbegins : g.begins e with
  | some result => exact ⟨e, hreaches, rfl, by rw [hbegins]; rfl⟩
  | none =>
    have hpre : (g.hooks.preInsn m { word := w, reladdr := e.sim.regs regP } e.ops).1 = true := by
      rw [begins_nested hplace hfetched] at hbegins
      by_contra hnot
      simp [hnot] at hbegins
    obtain ⟨k, bb, v, rest, hready⟩ :=
      readyBlock_of_preInsn hfinds hthreshold hcompilable hcurrent hpre
    have hleave := hreaches.next (nested_handsOver hplace hfetched hbegins)
    have htop := hleave.next (step_leaving rfl (le_refl 0))
    have hblock := htop.next (step_ready rfl hready)
    exact ⟨_, hblock, rfl, by simp [Engine.begins]⟩

/-- Another instruction executed is one too many. -/
theorem StopsAfter.begins_none (h : g.StopsAfter s n) (hreaches : g.Reaches s e)
    (hcount : e.executed = n + 1) : g.begins e = none := by
  cases hbegins : g.begins e with
  | none => rfl
  | some result =>
    have hsome : ∃ e', g.step e = some e' := by
      obtain ⟨w, m⟩ := result
      rcases begins_eq_some hbegins with ⟨hplace, hfetched, hpre⟩ | ⟨k, bb, offset, rest, cpu, hplace, -⟩
      · exact ⟨_, nested_executes hplace hfetched hpre⟩
      · exact ⟨_, step_block hplace⟩
    rcases hsome with ⟨e', hstep⟩
    have hafter := step_executed hstep
    have hbound := (h e' (hreaches.next hstep)).1
    simp only [hbegins, Option.isSome_some, if_true] at hafter
    omega

/-- The condition is enough for every state of the run. -/
theorem stopsAfter_of_stopsHere (hA : s.regs 0#4 = 0#32) (hfault : g.FaultsAfter s n)
    (hin : InStepUntil g s n) (hhere : ∀ e, g.Reaches s e → e.executed = n → g.StopsHere e) :
    g.StopsAfter s n := by
  have hlast {a : EngineState σ} (ha : g.Reaches s a) (hcount : a.executed = n) :
      ∃ t u, Follows a t ∧ g.iteration t = .returned 1 u () := by
    obtain ⟨t, ht, hfol, -⟩ := ha.follows hA hfault hin hcount.le
    rcases hfault with ⟨t', u, ht', hreturned⟩
    rw [hcount, ht'] at ht
    obtain rfl := Option.some.inj ht
    exact ⟨t', u, hfol, hreturned⟩
  have hends {a b : EngineState σ} {w : Word} {m : SimState σ} (ha : g.Reaches s a)
      (hcount : a.executed = n) (hbegins : g.begins a = some (w, m)) (hstep : g.step a = some b) :
      Ending g n b ∧ (∀ r, r ≠ regP → b.sim.regs r = m.regs r) ∧ b.sim.devices = m.devices := by
    obtain ⟨t, u, hfol, hreturned⟩ := hlast ha hcount
    have h := (hhere a ha hcount).ends hfol (hin a ha hcount.le) hbegins hreturned hstep
    rw [hcount] at h
    exact h
  intro e he
  constructor
  · have hphase : e.executed ≤ n ∨ Ending g n e := by
      apply he.invariant (fun a ↦ a.executed ≤ n ∨ Ending g n a) (.inl (Nat.zero_le n))
      intro a b ha hphase hstep
      rcases hphase with hle | hending
      · have hcount := step_executed hstep
        cases hbegins : g.begins a with
        | none =>
          simp only [hbegins, Option.isSome_none, Bool.false_eq_true, if_false] at hcount
          left
          omega
        | some result =>
          simp only [hbegins, Option.isSome_some, if_true] at hcount
          rcases Nat.lt_or_eq_of_le hle with hlt | heq
          · left
            omega
          · right
            exact (hends ha heq hbegins hstep).1
      · exact .inr (hending.step hstep)
    rcases hphase with hle | hending
    · omega
    · exact hending.1.le
  · intro w m e' hcount hbegins hstep
    exact (hends he hcount hbegins hstep).2

/-- The condition is necessary in the nested interpreter: the driver calls it again. -/
theorem StopsAfter.nested (h : g.StopsAfter s n) (hreaches : g.Reaches s e)
    (hcount : e.executed = n) (hplace : e.place = .nested) {t u : SimState σ} (hfol : Follows e t)
    (hfault : g.iteration t = .returned 1 u ()) : g.StopsHere e := by
  simp only [StopsHere, hplace]
  intro w m hbegins
  obtain ⟨ops, hops, hstep⟩ := hfol.faults_nested hplace hbegins hfault
  by_contra hgoes
  obtain ⟨⟨v, m'⟩, hfetched⟩ := Option.ne_none_iff_exists'.mp hgoes
  have hleave := hreaches.next hstep
  have htop := hleave.next (step_leaving rfl (by decide))
  have hnested := htop.next (step_notReady rfl hops.readyBlock_eq)
  have hnone := h.begins_none hnested (congrArg (· + 1) hcount)
  rw [begins_nested rfl hfetched] at hnone
  change (if (g.hooks.preInsn m' _ ops).1 = true then none else some (v, m')) = none at hnone
  rw [show (g.hooks.preInsn m' _ ops).1 = false from hops.preInsn] at hnone
  cases hnone

/-- It is necessary in a compiled block: the rest of the block is executed, and so is whatever the
failed read leads to. -/
theorem StopsAfter.block (h : g.StopsAfter s n) (hfinds : g.tsearch.Finds)
    (hthreshold : (1#32).slt g.runCountThreshold = true) (hreaches : g.Reaches s e)
    (hcount : e.executed = n) {k offset : ℕ} {bb : BasicBlock} {w : Word} {rest : List Word}
    {cpu : Cpu GpVar} (hplace : e.place = .block k bb offset (w :: rest) cpu) (hin : g.InStep e)
    {t u : SimState σ} (hfol : Follows e t) (hfault : g.iteration t = .returned 1 u ()) :
    g.StopsHere e := by
  obtain ⟨hloads, cpu', hstep⟩ := hfol.faults_block hplace hin hfault
  simp only [InStep, hplace] at hin
  obtain ⟨-, -, hlast, -, -, -, hcompilable⟩ := hin
  have hblock := hreaches.next hstep
  have hassigns : UpdatesP w := by
    by_contra hnot
    cases rest with
    | nil => exact hnot (hlast.mpr rfl)
    | cons v rest =>
      have hnone := h.begins_none hblock (by simp [hcount])
      simp [Engine.begins] at hnone
  obtain rfl := hlast.mp hassigns
  simp only [StopsHere, hplace]
  refine ⟨hassigns, ?_⟩
  by_contra hgoes
  obtain ⟨⟨v, m⟩, hfetched⟩ := Option.ne_none_iff_exists'.mp hgoes
  have hz : fieldZ w ≠ 0#4 := by
    rw [hassigns.1]
    decide
  dsimp only at hblock
  rw [if_pos ⟨hloads hassigns, hz⟩, hassigns.1] at hblock
  generalize g.host.failedFetch (rhsValue g.undef (operandView e.sim.regs offset) w) = datum
    at hblock hfetched
  have hnested := hblock.next (step_leaveBlock rfl)
  have hsame : Same (e.sim.setReg regP datum)
      ((e.sim.setReg regP datum).count bb.len.toNat) := ⟨rfl, rfl⟩
  obtain ⟨m', hfetched', -⟩ := hsame.fetched hfetched
  have hknown := hreaches.inTable
  simp only [InTable, hplace] at hknown
  have hstill : g.Compilable (e.ops.setBlock k { bb with runCount := bb.runCount + 1#32 }) := by
    intro b hb
    rcases List.mem_or_eq_of_mem_set hb with hmem | rfl
    · exact hcompilable b hmem
    · exact ⟨(hcompilable bb hknown.1).1, fun hnone ↦ absurd hnone hknown.2⟩
  obtain ⟨e', hreaches', hcount', hbegins⟩ :=
    goes_on hfinds hthreshold hnested rfl rfl hstill hfetched'
  have hlater : e'.executed = n + 1 := hcount'.trans (congrArg (· + 1) hcount)
  rw [h.begins_none hreaches' hlater] at hbegins
  cases hbegins

end Runs

/-! ## A load that fails -/

/-- `B <- [A]` -/
def loadB : Word := type012 0#2 3#2 1#4 0#4 0#4 .bitwiseOr 0#12

/-- Instructions can be fetched from some addresses, and no data access succeeds. -/
def loading (fetches : Word → Bool) : Engine (Word → Word) where
  undef := .masked
  host := clearHost
  entry _ := clearCpu
  bus := memoryBus fun op addr ↦ op == .insnRead && fetches addr
  tsearch _ _ := none
  runCountThreshold := 10#32
  dispatchCycle := noCycle

/-- Memory is full of loads. -/
def loads : SimState (Word → Word) := { atBase with devices := fun _ ↦ loadB }

theorem iteration_loads {fetches : Word → Bool} (hbase : fetches 0x1000#32 = true) :
    (loading fetches).iteration loads = .returned 1 loads.advance () := by
  have hfetched : fetched (loading fetches).bus loads = some (loadB, loads) := by
    simp [fetched, loading, loads, atBase, memoryBus, regP, hbase]
  have hdd : fieldDd loadB = 3#2 := by decide
  rw [iteration_of_fetched hfetched, runInstruction_eq, hdd]
  simp [SimState.load, loading, memoryBus]

theorem faultsAfter_loads {fetches : Word → Bool} (hbase : fetches 0x1000#32 = true) {n : ℕ} :
    (loading fetches).FaultsAfter loads n ↔ n = 0 := by
  have hiteration := iteration_loads hbase
  constructor
  · rintro ⟨t, u, hrun, -⟩
    cases n with
    | zero => rfl
    | succ n => simp [steps_succ, interpNext, hiteration] at hrun
  · rintro rfl
    exact ⟨loads, _, rfl, hiteration⟩

/-- Before the load, the driver enters the nested interpreter. -/
theorem reaches_loads {fetches : Word → Bool} (hbase : fetches 0x1000#32 = true)
    {e : EngineState (Word → Word)} (h : (loading fetches).Reaches loads e) :
    e = start loads ∨
      e = { start loads with place := .nested } ∧
        (loading fetches).begins e = some (loadB, loads) ∨
      1 ≤ e.executed := by
  have hbegins : (loading fetches).begins { start loads with place := .nested } =
      some (loadB, loads) := by
    have hfetched : fetched (loading fetches).bus (start loads).sim = some (loadB, loads) := by
      simp [fetched, loading, start, loads, atBase, memoryBus, regP, hbase]
    have hnested := begins_nested (e := { start loads with place := .nested }) rfl hfetched
    exact hnested
  apply h.invariant _ (.inl rfl)
  intro a b _ ha hstep
  have hcount := step_executed hstep
  rcases ha with rfl | ⟨rfl, -⟩ | hpos
  · right
    left
    obtain rfl : { start loads with place := .nested } = b := Option.some.inj hstep
    exact ⟨rfl, hbegins⟩
  · right
    right
    rw [hbegins] at hcount
    simp [hcount]
  · right
    right
    rw [hcount]
    split <;> omega

/-- **Faults stop both engines alike** exactly when nothing can be fetched where the driver goes on
from the instruction that fails, and a compiled block is not left in the middle. -/
theorem faultsStop_iff (g : Engine σ) (hfinds : g.tsearch.Finds)
    (hthreshold : (1#32).slt g.runCountThreshold = true) {s : SimState σ} (hA : s.regs 0#4 = 0#32)
    (hin : ∀ n, g.FaultsAfter s n → ∀ e, g.Reaches s e → e.executed ≤ n → g.InStep e) :
    g.FaultsStop s ↔
      ∀ n, g.FaultsAfter s n → ∀ e, g.Reaches s e → e.executed = n → g.StopsHere e := by
  constructor
  · intro hstop n hfault e hreaches hcount
    obtain ⟨t, ht, hfol, -⟩ := hreaches.follows hA hfault (hin n hfault) hcount.le
    obtain ⟨t', u, ht', hreturned⟩ := hfault
    rw [hcount, ht'] at ht
    obtain rfl := Option.some.inj ht
    have hafter := hstop n ⟨t', u, ht', hreturned⟩
    cases hplace : e.place with
    | top => simp [StopsHere, hplace]
    | leaving rc => simp [StopsHere, hplace]
    | nested => exact hafter.nested hreaches hcount hplace hfol hreturned
    | block k bb offset rest cpu =>
      cases rest with
      | nil => simp [StopsHere, hplace]
      | cons w rest =>
        exact hafter.block hfinds hthreshold hreaches hcount hplace
          (hin n ⟨t', u, ht', hreturned⟩ e hreaches hcount.le) hfol hreturned
  · intro hhere n hfault
    exact stopsAfter_of_stopsHere hA hfault (hin n hfault) (hhere n hfault)

/-- Where nothing but the load can be fetched, both engines stop at it. -/
theorem faultsStop_loads : (loading fun addr ↦ addr == 0x1000#32).FaultsStop loads := by
  have hreach {n : ℕ} {e : EngineState (Word → Word)}
      (hfault : (loading fun addr ↦ addr == 0x1000#32).FaultsAfter loads n)
      (h : (loading fun addr ↦ addr == 0x1000#32).Reaches loads e) (hle : e.executed ≤ n) :
      e = start loads ∨
        e = { start loads with place := .nested } ∧
          (loading fun addr ↦ addr == 0x1000#32).begins e = some (loadB, loads) := by
    rw [faultsAfter_loads rfl] at hfault
    rcases reaches_loads rfl h with hstart | hnested | hpos
    · exact .inl hstart
    · exact .inr hnested
    · omega
  have hin : ∀ n, (loading fun addr ↦ addr == 0x1000#32).FaultsAfter loads n →
      ∀ e, (loading fun addr ↦ addr == 0x1000#32).Reaches loads e → e.executed ≤ n →
        (loading fun addr ↦ addr == 0x1000#32).InStep e := by
    intro n hfault e h hle
    rcases hreach hfault h hle with rfl | ⟨rfl, hbegins⟩
    · trivial
    · intro w t hnone
      rw [hbegins] at hnone
      cases hnone
  refine (faultsStop_iff (loading fun addr ↦ addr == 0x1000#32) ?_ (by decide) rfl hin).mpr ?_
  · intro bases base k hnone
    cases hnone
  · intro n hfault e h hcount
    rcases hreach hfault h hcount.le with rfl | ⟨rfl, hbegins⟩
    · trivial
    · intro w t hsome
      obtain ⟨rfl, rfl⟩ := Prod.mk.inj (Option.some.inj (hbegins.symm.trans hsome))
      rfl

/-- The driver goes on to the next load. -/
theorem not_faultsStop_loads : ¬ (loading fun _ ↦ true).FaultsStop loads := by
  intro hstop
  have hexecuted :
      (steps (loading fun _ ↦ true).step 5 (start loads)).map EngineState.executed = some 2 := by
    rfl
  rw [Option.map_eq_some_iff] at hexecuted
  rcases hexecuted with ⟨e, he, hcount⟩
  have hbound := (hstop 0 ((faultsAfter_loads rfl).mpr rfl) e ⟨5, he⟩).1
  omega

end Engine

end Tenyr.Jit
