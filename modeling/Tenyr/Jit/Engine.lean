import Tenyr.Jit.Driver

/-!
# The driver and its emitted code, one instruction at a time

`jitStep` runs a compiled block at once and describes its effect by the instructions it was compiled
from. That is not how a block behaves once an access fails: the callbacks of emitted code cannot
report it. Here the driver executes the code that was emitted, and the places between the
instructions of a block, before the nested interpreter and after it are states of their own.
-/

namespace Tenyr.Jit

open Isa Sim Lib.Transition
open Lib.X86 (Cpu)

variable {σ : Type}

/-! ## Fetching -/

/-- The instruction that the interpreter is about to look at, and the machine once it has been
read. There is none at the end condition, or when the read fails. -/
def fetched (bus : Bus σ) (s : SimState σ) : Option (Word × SimState σ) :=
  if s.regs regP = 0xffffffff#32 then none
  else (bus.dispatchOp s.devices .insnRead (s.regs regP) 0#32).map fun result ↦
    (result.1, { s with devices := result.2 })

theorem fetched_regs {bus : Bus σ} {s t : SimState σ} {w : Word}
    (h : fetched bus s = some (w, t)) : t.regs = s.regs := by
  unfold fetched at h
  split at h
  · cases h
  · rw [Option.map_eq_some_iff] at h
    rcases h with ⟨result, -, hpair⟩
    rw [← (Prod.mk.inj hpair).2]

theorem interpIteration_of_fetched_none {ω : Type} (undef : UndefinedShifts) {bus : Bus σ}
    (ops : RunOps σ ω) {s : SimState σ} (ud : ω) (h : fetched bus s = none) :
    interpIteration undef bus ops s ud = .returned (-1) s ud := by
  unfold fetched at h
  unfold interpIteration
  by_cases hend : s.regs regP = 0xffffffff#32
  · rw [if_pos hend]
  · rw [if_neg hend, Option.map_eq_none_iff] at h
    rw [if_neg hend, h]

theorem interpIteration_of_fetched {ω : Type} (undef : UndefinedShifts) {bus : Bus σ}
    (ops : RunOps σ ω) {s t : SimState σ} {w : Word} (ud : ω) (h : fetched bus s = some (w, t)) :
    interpIteration undef bus ops s ud =
      match ops.preInsn t { word := w, reladdr := s.regs regP } ud with
      | (true, t, ud) => .returned 0 t ud
      | (false, t, ud) =>
        match runInstruction undef bus t w with
        | .error t => .returned 1 t ud
        | .ok t =>
          match ops.postInsn t { word := w, reladdr := s.regs regP } ud with
          | (true, t, ud) => .returned 0 t ud
          | (false, t, ud) => .running t ud := by
  unfold fetched at h
  unfold interpIteration
  by_cases hend : s.regs regP = 0xffffffff#32
  · simp [hend] at h
  · rw [if_neg hend, Option.map_eq_some_iff] at h
    rcases h with ⟨⟨word, devices⟩, hread, hpair⟩
    obtain ⟨rfl, rfl⟩ := Prod.mk.inj hpair
    rw [if_neg hend]
    split
    · rename_i hnone
      rw [hread] at hnone
      cases hnone
    · rename_i hsome
      rw [hread] at hsome
      cases hsome
      rfl

/-! ## The machine -/

/-- What `jit_run_sim` is run on and with: besides the devices, what emitted code finds in the
virtual registers of a block when it is entered. -/
structure Engine (σ : Type) where
  undef : UndefinedShifts
  host : Host
  entry : SimState σ → Cpu GpVar
  bus : Bus σ
  tsearch : Search
  runCountThreshold : Word
  dispatchCycle : σ → Bool × σ

/-- The control point of `jit_run_sim`. -/
inductive Place where
  | top
  | nested
  | block (k : ℕ) (bb : BasicBlock) (offset : ℕ) (rest : List Word) (cpu : Cpu GpVar)
  | leaving (rc : ℤ)  -- the nested interpreter has returned

/-- `executed` counts the instructions begun so far; the program does not look at it. -/
structure EngineState (σ : Type) where
  sim : SimState σ
  ops : OpsState σ
  place : Place
  executed : ℕ

namespace Engine

variable (g : Engine σ)

/-- The hooks that the nested interpreter is given. -/
def hooks : RunOps σ (OpsState σ) :=
  wrappers g.tsearch g.runCountThreshold (tsimOps g.dispatchCycle)

/-- The instruction that the next step executes, and the machine it executes it on. -/
def begins (e : EngineState σ) : Option (Word × SimState σ) :=
  match e.place with
  | .nested =>
    match fetched g.bus e.sim with
    | none => none
    | some (w, t) =>
      if (g.hooks.preInsn t { word := w, reladdr := e.sim.regs regP } e.ops).1 then none
      else some (w, t)
  | .block _ _ _ (w :: _) _ => some (w, e.sim)
  | _ => none

/-- The registers and devices as emitted code sees them. -/
def frame (e : EngineState σ) (cpu : Cpu GpVar) : Frame σ where
  cpu := cpu
  regs := e.sim.regs
  devices := e.sim.devices

/-- Emitted code has left this frame behind, and the rest of its block is to follow. -/
def inBlock (e : EngineState σ) (k : ℕ) (bb : BasicBlock) (offset : ℕ) (rest : List Word)
    (f : Frame σ) : EngineState σ :=
  { e with
    sim := { e.sim with regs := f.regs, devices := f.devices }
    place := .block k bb offset rest f.cpu }

/-- The block has been run to its end. -/
def leaveBlock (e : EngineState σ) (k : ℕ) (bb : BasicBlock) : EngineState σ :=
  let s := e.sim.count bb.len.toNat
  { e with
    sim := s
    ops :=
      { e.ops.setBlock k { bb with runCount := bb.runCount + 1#32 } with
        currBb := none, written := e.ops.written ++ [s] }
    place := .nested }

/-- The nested interpreter has returned a number that is not negative. -/
def pump (e : EngineState σ) : EngineState σ :=
  { e with
    sim := { e.sim with devices := (g.dispatchCycle e.sim.devices).2 }
    place := .top }

/-- The next control point of `jit_run_sim`. -/
def move (e : EngineState σ) : Option (EngineState σ) :=
  match e.place with
  | .top =>
    match e.ops.readyBlock with
    | some (k, bb, code) => some { e with place := .block k bb 0 code (g.entry e.sim) }
    | none => some { e with place := .nested }
  | .block k bb offset (w :: rest) cpu =>
    let f := execute g.host g.bus (frame e cpu) (buildInstruction w offset).1
    some (inBlock e k bb (offset + 1) rest f)
  | .block k bb _ [] _ => some (leaveBlock e k bb)
  | .nested =>
    match interpIteration g.undef g.bus g.hooks e.sim e.ops with
    | .running sim ops => some { e with sim, ops }
    | .returned rc sim ops => some { e with sim, ops, place := .leaving rc }
  | .leaving rc => if 0 ≤ rc then some (g.pump e) else none

def step (e : EngineState σ) : Option (EngineState σ) :=
  (g.move e).map fun e' ↦
    { e' with executed := if (g.begins e).isSome then e.executed + 1 else e.executed }

/-- `jit_run_sim` before its loop. -/
def start (s : SimState σ) : EngineState σ where
  sim := s
  ops := { basicBlocks := [], currBb := none, fault := false, written := [] }
  place := .top
  executed := 0

/-- The run of `jit_run_sim` from this state of the machine comes to this point. -/
def Reaches (s : SimState σ) (e : EngineState σ) : Prop :=
  ∃ m, steps g.step m (start s) = some e

/-- What holds before the loop and is preserved by every step holds wherever a run gets. -/
theorem Reaches.invariant {g : Engine σ} {s : SimState σ} {e : EngineState σ} (h : g.Reaches s e)
    (Inv : EngineState σ → Prop) (hstart : Inv (start s))
    (hstep : ∀ a b, g.Reaches s a → Inv a → g.step a = some b → Inv b) : Inv e := by
  rcases h with ⟨m, hm⟩
  have hboth : g.Reaches s e ∧ Inv e := by
    apply steps_invariant g.step (fun a ↦ g.Reaches s a ∧ Inv a) _ ⟨⟨0, rfl⟩, hstart⟩ hm
    rintro a b ⟨⟨n, hn⟩, ha⟩ hab
    refine ⟨⟨n + 1, ?_⟩, hstep a b ⟨n, hn⟩ ha hab⟩
    rw [steps_succ_last, hn]
    exact hab
  exact hboth.2

theorem Reaches.next {g : Engine σ} {s : SimState σ} {e e' : EngineState σ} (h : g.Reaches s e)
    (hstep : g.step e = some e') : g.Reaches s e' := by
  rcases h with ⟨m, hm⟩
  refine ⟨m + 1, ?_⟩
  rw [steps_succ_last, hm]
  exact hstep

/-! ## What one step does -/

variable {g} {e : EngineState σ}

theorem begins_nested {w : Word} {t : SimState σ} (hplace : e.place = .nested)
    (hfetched : fetched g.bus e.sim = some (w, t)) :
    g.begins e =
      if (g.hooks.preInsn t { word := w, reladdr := e.sim.regs regP } e.ops).1 then none
      else some (w, t) := by
  simp [begins, hplace, hfetched]

/-- Only the nested interpreter and compiled blocks execute instructions. -/
theorem begins_eq_some {w : Word} {t : SimState σ} (h : g.begins e = some (w, t)) :
    (e.place = .nested ∧ fetched g.bus e.sim = some (w, t) ∧
        (g.hooks.preInsn t { word := w, reladdr := e.sim.regs regP } e.ops).1 = false) ∨
      ∃ k bb offset rest cpu, e.place = .block k bb offset (w :: rest) cpu ∧ t = e.sim := by
  unfold begins at h
  split at h
  · rename_i hplace
    split at h
    · cases h
    · rename_i w' t' hfetched
      split at h
      · cases h
      · rename_i hpre
        obtain ⟨rfl, rfl⟩ := Prod.mk.inj (Option.some.inj h)
        exact .inl ⟨hplace, hfetched, by simpa using hpre⟩
  · rename_i k bb offset w' rest cpu hplace
    obtain ⟨rfl, rfl⟩ := Prod.mk.inj (Option.some.inj h)
    exact .inr ⟨k, bb, offset, rest, cpu, hplace, rfl⟩
  · cases h

/-- The hook before an instruction leaves the machine alone. -/
theorem preInsn_sim (t : SimState σ) (i : Fetched) (o : OpsState σ) :
    (g.hooks.preInsn t i o).2.1 = t := by
  change (preInsnHook g.tsearch g.runCountThreshold (tsimOps g.dispatchCycle) t i o).2.1 = t
  unfold preInsnHook
  dsimp only
  split
  · rfl
  · split
    · rfl
    · split
      · rfl
      · split
        · split <;> rfl
        · rfl

theorem step_block {k : ℕ} {bb : BasicBlock} {offset : ℕ} {w : Word} {rest : List Word}
    {cpu : Cpu GpVar} (hplace : e.place = .block k bb offset (w :: rest) cpu) :
    g.step e = some
      { inBlock e k bb (offset + 1) rest
          (execute g.host g.bus (frame e cpu) (buildInstruction w offset).1) with
        executed := e.executed + 1 } := by
  simp [step, begins, move, hplace]

theorem step_ready {k : ℕ} {bb : BasicBlock} {code : List Word} (hplace : e.place = .top)
    (hready : e.ops.readyBlock = some (k, bb, code)) :
    g.step e = some { e with place := .block k bb 0 code (g.entry e.sim) } := by
  simp [step, begins, move, hplace, hready]

theorem step_notReady (hplace : e.place = .top) (hready : e.ops.readyBlock = none) :
    g.step e = some { e with place := .nested } := by
  simp [step, begins, move, hplace, hready]

theorem step_leaving {rc : ℤ} (hplace : e.place = .leaving rc) (hrc : 0 ≤ rc) :
    g.step e = some (g.pump e) := by
  simp [step, begins, move, hplace, hrc, pump]

theorem step_leaveBlock {k : ℕ} {bb : BasicBlock} {offset : ℕ} {cpu : Cpu GpVar}
    (hplace : e.place = .block k bb offset [] cpu) : g.step e = some (leaveBlock e k bb) := by
  simp [step, begins, move, hplace, leaveBlock]

/-- The steps through a compiled block execute the code that was generated for it. -/
theorem steps_block {k : ℕ} {bb : BasicBlock} {offset : ℕ} {words : List Word} {cpu : Cpu GpVar}
    (hplace : e.place = .block k bb offset words cpu) :
    steps g.step words.length e = some
      { inBlock e k bb (offset + words.length) []
          (execute g.host g.bus (frame e cpu) (genFrom offset words)) with
        executed := e.executed + words.length } := by
  induction words generalizing e offset cpu with
  | nil =>
    rw [List.length_nil, Nat.add_zero, Nat.add_zero, steps_zero, inBlock, frame]
    simp [genFrom, ← hplace]
  | cons w rest ih =>
    rw [List.length_cons, steps_succ, step_block hplace, Option.bind_some, ih rfl, genFrom,
      execute_append, Nat.add_comm rest.length 1, ← Nat.add_assoc, ← Nat.add_assoc]
    rfl

/-- One pass of the driver in the nested interpreter is one step, or two when it returns. -/
theorem jitStep_nested (hplace : e.place = .nested) :
    jitStep g.undef g.bus g.tsearch g.runCountThreshold g.dispatchCycle
        { sim := e.sim, ops := e.ops, nested := true } =
      (g.step e).bind fun d ↦
        match d.place with
        | .leaving _ => (g.step d).map fun d ↦ { sim := d.sim, ops := d.ops, nested := false }
        | _ => some { sim := d.sim, ops := d.ops, nested := true } := by
  unfold jitStep step
  rw [if_pos rfl]
  rw [show wrappers g.tsearch g.runCountThreshold (tsimOps g.dispatchCycle) = g.hooks from rfl]
  simp only [move, hplace]
  cases interpIteration g.undef g.bus g.hooks e.sim e.ops with
  | running sim ops => simp
  | returned rc sim ops =>
    by_cases hrc : 0 ≤ rc <;> simp [hrc, pump]

end Engine

end Tenyr.Jit
