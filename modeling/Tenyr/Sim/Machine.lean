import Tenyr.Sim.Operation
import Tenyr.Lib.Transition

/-!
# The instruction interpreter

`runInstruction` and `interpIteration` follow `run_instruction` and the loop body of
`interp_run_sim`. Devices are reached through a dispatcher alone, so the interpreter is generic in
the type of device states; plain memory is one instance.
-/

namespace Tenyr.Sim

open Isa

/-- `enum memory_op`. -/
inductive MemoryOp where
  | insnRead | dataRead | write
  deriving DecidableEq, Repr

/-- `op_dispatcher`: an access either returns zero with a datum and a new device state, or fails
and changes nothing. -/
structure Bus (σ : Type) where
  dispatchOp : σ → MemoryOp → Word → Word → Option (Word × σ)

/-- The parts of `struct sim_state` that a run changes. -/
structure SimState (σ : Type) where
  regs : RegIndex → Word
  devices : σ
  insnsExecuted : ℕ

/-- Register `P`. -/
abbrev regP : RegIndex := 15#4

/-- Memory cells behind a bus that handles some of the accesses. -/
def memoryBus (handles : MemoryOp → Word → Bool) : Bus (Word → Word) where
  dispatchOp cells op addr data :=
    if handles op addr then
      match op with
      | .write => some (data, Function.update cells addr data)
      | _ => some (cells addr, cells)
    else none

/-- A bus that also records the writes it accepted, oldest first. -/
def Bus.logged {σ : Type} (bus : Bus σ) : Bus (σ × List (Word × Word)) where
  dispatchOp devices op addr data :=
    (bus.dispatchOp devices.1 op addr data).map fun result ↦
      (result.1, result.2, if op = .write then devices.2 ++ [(addr, data)] else devices.2)

variable {σ : Type}

namespace SimState

def setReg (s : SimState σ) (z : RegIndex) (value : Word) : SimState σ :=
  { s with regs := Function.update s.regs z value }

/-- `insns_executed += k`. -/
def count (s : SimState σ) (k : ℕ) : SimState σ :=
  { s with insnsExecuted := s.insnsExecuted + k }

/-- `++*ip`. -/
def advance (s : SimState σ) : SimState σ :=
  s.setReg regP (s.regs regP + 1#32)

end SimState

/-- `do_common`. The error carries the state in which a failed access leaves the machine. -/
def doCommon (bus : Bus σ) (s : SimState σ) (z : RegIndex) (rhs : Word)
    (loading storing arrowRight : Bool) : Except (SimState σ) (SimState σ) := do
  let r := if arrowRight then s.regs z else rhs
  let w := if arrowRight then rhs else s.regs z
  let (value, s) ←
    if loading then
      match bus.dispatchOp s.devices .dataRead r 0#32 with
      | none => throw s
      | some (value, devices) => pure (value, { s with devices })
    else pure (r, s)
  if storing then
    match bus.dispatchOp s.devices .write w value with
    | none => throw s
    | some (_, devices) => pure { s with devices }
  else if arrowRight then pure s  -- the destination is the local right-hand side
  else if z ≠ 0#4 then pure (s.setReg z value)
  else pure s  -- throw away write to reg 0

/-- The right-hand side that `run_instruction` computes after advancing `P`. -/
def rhsValue (undef : UndefinedShifts) (regs : RegIndex → Word) (w : Word) : Word :=
  if fieldP w = 3#2 then
    doOp undef .bitwiseOr (fieldP w) (regs (fieldX w)) 0#32 ((fieldImm20 w).setWidth 32)
  else
    doOp undef (fieldOp w) (fieldP w) (regs (fieldX w)) (regs (fieldY w))
      ((fieldImm12 w).setWidth 32)

def runInstruction (undef : UndefinedShifts) (bus : Bus σ) (s : SimState σ) (w : Word) :
    Except (SimState σ) (SimState σ) :=
  let s := s.advance
  let dd := fieldDd w
  doCommon bus s (fieldZ w) (rhsValue undef s.regs w)
    (dd == 3#2) (dd == 1#2 || dd == 2#2) (dd == 1#2)

/-! ## What one instruction does, by dereference mode -/

/-- The operation an instruction word selects; type 3 has no operation field. -/
def insnOp (w : Word) : Op :=
  if fieldP w = 3#2 then .bitwiseOr else fieldOp w

/-- The operands an instruction word selects. -/
def insnOperands (regs : RegIndex → Word) (w : Word) : Operands :=
  if fieldP w = 3#2 then
    { p2 := 0#32, p1 := regs (fieldX w), p0 := (fieldImm20 w).signExtend 32 }
  else
    match fieldP w with
    | 0#2 => { p2 := regs (fieldX w), p1 := regs (fieldY w), p0 := (fieldImm12 w).signExtend 32 }
    | 1#2 => { p2 := regs (fieldX w), p1 := (fieldImm12 w).signExtend 32, p0 := regs (fieldY w) }
    | _ => { p2 := (fieldImm12 w).signExtend 32, p1 := regs (fieldX w), p0 := regs (fieldY w) }

/-- Shift counts and the bit index of `@` lie in `0..31`. -/
def CountsInRange (regs : RegIndex → Word) (w : Word) : Prop :=
  CountInRange (insnOp w) (insnOperands regs w).p1

theorem sextend32_imm12 (imm : BitVec 12) :
    sextend32 smallImmediateBitwidth (imm.setWidth 32) = imm.signExtend 32 := by
  simp [sextend32, smallImmediateBitwidth]

theorem sextend32_imm20 (imm : BitVec 20) :
    sextend32 mediumImmediateBitwidth (imm.setWidth 32) = imm.signExtend 32 := by
  simp [sextend32, mediumImmediateBitwidth]

theorem rhsValue_eq (undef : UndefinedShifts) (regs : RegIndex → Word) (w : Word) :
    rhsValue undef regs w =
      if dropsAddend (insnOp w) (insnOperands regs w).p1 then 0#32
      else opValue undef (insnOp w) (insnOperands regs w).p2 (insnOperands regs w).p1 +
        (insnOperands regs w).p0 := by
  unfold rhsValue insnOp insnOperands
  generalize fieldP w = p
  obtain rfl | rfl | rfl | rfl : p = 0#2 ∨ p = 1#2 ∨ p = 2#2 ∨ p = 3#2 := by
    revert p
    decide
  all_goals simp [doOp_eq, operands, sextend32_imm12, sextend32_imm20]

theorem rhsValue_of_countsInRange (undef : UndefinedShifts) {regs : RegIndex → Word} {w : Word}
    (h : CountsInRange regs w) :
    rhsValue undef regs w =
      opValue undef (insnOp w) (insnOperands regs w).p2 (insnOperands regs w).p1 +
        (insnOperands regs w).p0 := by
  rw [rhsValue_eq, if_neg h.not_dropsAddend]

namespace SimState

/-- Assign register `z`; a write to register `A` is thrown away. -/
def writeBack (s : SimState σ) (z : RegIndex) (value : Word) : SimState σ :=
  if z = 0#4 then s else s.setReg z value

theorem advance_devices (s : SimState σ) : s.advance.devices = s.devices := rfl

@[simp]
theorem writeBack_devices (s : SimState σ) (z : RegIndex) (value : Word) :
    (s.writeBack z value).devices = s.devices := by
  unfold writeBack
  split <;> rfl

/-- A data write through the bus. -/
def store (bus : Bus σ) (s : SimState σ) (addr value : Word) :
    Except (SimState σ) (SimState σ) :=
  match bus.dispatchOp s.devices .write addr value with
  | none => .error s
  | some (_, devices) => .ok { s with devices }

/-- A data read through the bus into register `z`. -/
def load (bus : Bus σ) (s : SimState σ) (z : RegIndex) (addr : Word) :
    Except (SimState σ) (SimState σ) :=
  match bus.dispatchOp s.devices .dataRead addr 0#32 with
  | none => .error s
  | some (value, devices) => .ok (({ s with devices } : SimState σ).writeBack z value)

theorem store_eq_ok {bus : Bus σ} {s s' : SimState σ} {addr value : Word} :
    s.store bus addr value = .ok s' ↔
      ∃ datum devices, bus.dispatchOp s.devices .write addr value = some (datum, devices) ∧
        s' = { s with devices } := by
  unfold store
  cases bus.dispatchOp s.devices .write addr value with
  | none => simp
  | some result =>
    constructor
    · intro h
      exact ⟨result.1, result.2, rfl, (Except.ok.inj h).symm⟩
    · rintro ⟨datum, devices, hresult, rfl⟩
      obtain rfl := Option.some.inj hresult
      rfl

theorem load_eq_ok {bus : Bus σ} {s s' : SimState σ} {z : RegIndex} {addr : Word} :
    s.load bus z addr = .ok s' ↔
      ∃ datum devices, bus.dispatchOp s.devices .dataRead addr 0#32 = some (datum, devices) ∧
        s' = ({ s with devices } : SimState σ).writeBack z datum := by
  unfold load
  cases bus.dispatchOp s.devices .dataRead addr 0#32 with
  | none => simp
  | some result =>
    constructor
    · intro h
      exact ⟨result.1, result.2, rfl, (Except.ok.inj h).symm⟩
    · rintro ⟨datum, devices, hresult, rfl⟩
      obtain rfl := Option.some.inj hresult
      rfl

end SimState

/-- `Z <- rhs`, `Z -> [rhs]`, `[Z] <- rhs` and `Z <- [rhs]`, after `P` has been advanced. -/
theorem runInstruction_eq (undef : UndefinedShifts) (bus : Bus σ) (s : SimState σ) (w : Word) :
    runInstruction undef bus s w =
      match fieldDd w with
      | 0#2 => .ok (s.advance.writeBack (fieldZ w) (rhsValue undef s.advance.regs w))
      | 1#2 => s.advance.store bus (rhsValue undef s.advance.regs w) (s.advance.regs (fieldZ w))
      | 2#2 => s.advance.store bus (s.advance.regs (fieldZ w)) (rhsValue undef s.advance.regs w)
      | _ => s.advance.load bus (fieldZ w) (rhsValue undef s.advance.regs w) := by
  unfold runInstruction doCommon SimState.store SimState.load SimState.writeBack
  generalize fieldDd w = dd
  obtain rfl | rfl | rfl | rfl : dd = 0#2 ∨ dd = 1#2 ∨ dd = 2#2 ∨ dd = 3#2 := by
    revert dd
    decide
  · by_cases hz : fieldZ w = 0#4 <;> simp [hz, pure, Except.pure, bind, Except.bind]
  · simp only [pure, Except.pure, bind, Except.bind, throw, throwThe, MonadExceptOf.throw]
    rfl
  · simp only [pure, Except.pure, bind, Except.bind, throw, throwThe, MonadExceptOf.throw]
    rfl
  · simp only [pure, Except.pure, bind, Except.bind, throw, throwThe, MonadExceptOf.throw]
    cases hread : bus.dispatchOp s.advance.devices .dataRead
        (rhsValue undef s.advance.regs w) 0#32 with
    | none => simp [hread]
    | some result => by_cases hz : fieldZ w = 0#4 <;> simp [hread, hz]

/-- The instruction assigns `P`. -/
def UpdatesP (w : Word) : Prop :=
  fieldZ w = regP ∧ (fieldDd w = 0#2 ∨ fieldDd w = 3#2)

instance (w : Word) : Decidable (UpdatesP w) := inferInstanceAs (Decidable (_ ∧ _))

/-- Every other instruction is followed by the next one. -/
theorem runInstruction_regP {undef : UndefinedShifts} {bus : Bus σ} {s s' : SimState σ} {w : Word}
    (h : runInstruction undef bus s w = .ok s') (hP : ¬ UpdatesP w) :
    s'.regs regP = s.regs regP + 1#32 := by
  have hadvance : s.advance.regs regP = s.regs regP + 1#32 := by
    simp [SimState.advance, SimState.setReg]
  have hwrite (t : SimState σ) (value : Word) (hz : fieldZ w ≠ regP) :
      (t.writeBack (fieldZ w) value).regs regP = t.regs regP := by
    unfold SimState.writeBack
    split
    · rfl
    · simp [SimState.setReg, hz.symm]
  rw [runInstruction_eq] at h
  rw [← hadvance]
  rcases fieldDd_cases w with hdd | hdd | hdd | hdd
  all_goals simp only [hdd] at h
  · obtain rfl := Except.ok.inj h
    exact hwrite _ _ fun hz ↦ hP ⟨hz, .inl hdd⟩
  · obtain ⟨_, devices, -, rfl⟩ := SimState.store_eq_ok.mp h
    rfl
  · obtain ⟨_, devices, -, rfl⟩ := SimState.store_eq_ok.mp h
    rfl
  · obtain ⟨_, devices, -, rfl⟩ := SimState.load_eq_ok.mp h
    exact hwrite _ _ fun hz ↦ hP ⟨hz, .inr hdd⟩

/-- Renumber the instructions executed so far in whatever state is reached. -/
def countResult (k : ℕ) : Except (SimState σ) (SimState σ) → Except (SimState σ) (SimState σ)
  | .ok s => .ok (s.count k)
  | .error s => .error (s.count k)

theorem writeBack_count (t : SimState σ) (k : ℕ) (z : RegIndex) (value : Word) :
    (t.count k).writeBack z value = (t.writeBack z value).count k := by
  unfold SimState.writeBack
  split <;> rfl

theorem store_count (bus : Bus σ) (t : SimState σ) (k : ℕ) (addr value : Word) :
    (t.count k).store bus addr value = countResult k (t.store bus addr value) := by
  have hdevices : (t.count k).devices = t.devices := rfl
  unfold SimState.store
  rw [hdevices]
  cases bus.dispatchOp t.devices .write addr value <;> rfl

theorem load_count (bus : Bus σ) (t : SimState σ) (k : ℕ) (z : RegIndex) (addr : Word) :
    (t.count k).load bus z addr = countResult k (t.load bus z addr) := by
  have hdevices : (t.count k).devices = t.devices := rfl
  unfold SimState.load
  rw [hdevices]
  cases bus.dispatchOp t.devices .dataRead addr 0#32 with
  | none => rfl
  | some result => exact congrArg Except.ok (writeBack_count { t with devices := result.2 } k z result.1)

/-- Instructions neither read nor change the count of instructions. -/
theorem runInstruction_count (undef : UndefinedShifts) (bus : Bus σ) (s : SimState σ) (k : ℕ)
    (w : Word) :
    runInstruction undef bus (s.count k) w = countResult k (runInstruction undef bus s w) := by
  have hadvance : (s.count k).advance = s.advance.count k := rfl
  have hregs : (s.advance.count k).regs = s.advance.regs := rfl
  rw [runInstruction_eq, runInstruction_eq, hadvance, hregs, store_count, store_count, load_count,
    writeBack_count]
  split <;> rfl

/-! ## The run loop -/

/-- The fetched `struct element` that hooks are shown. -/
structure Fetched where
  word : Word
  reladdr : Word

/-- `struct run_ops` with its user data threaded through; `true` is a non-zero return. -/
structure RunOps (σ ω : Type) where
  preInsn : SimState σ → Fetched → ω → Bool × SimState σ × ω
  postInsn : SimState σ → Fetched → ω → Bool × SimState σ × ω

inductive Iteration (σ ω : Type) where
  | returned (rc : ℤ) (s : SimState σ) (ud : ω)
  | running (s : SimState σ) (ud : ω)

/-- The body of the loop of `interp_run_sim`. -/
def interpIteration {ω : Type} (undef : UndefinedShifts) (bus : Bus σ) (ops : RunOps σ ω)
    (s : SimState σ) (ud : ω) : Iteration σ ω :=
  if s.regs regP = 0xffffffff#32 then .returned (-1) s ud  -- end condition
  else
    match bus.dispatchOp s.devices .insnRead (s.regs regP) 0#32 with
    | none => .returned (-1) s ud
    | some (word, devices) =>
      let i : Fetched := { word, reladdr := s.regs regP }
      match ops.preInsn { s with devices } i ud with
      | (true, s, ud) => .returned 0 s ud
      | (false, s, ud) =>
        match runInstruction undef bus s word with
        | .error s => .returned 1 s ud
        | .ok s =>
          match ops.postInsn s i ud with
          | (true, s, ud) => .returned 0 s ud
          | (false, s, ud) => .running s ud

/-- `interp_run_sim`, cut off after `fuel` iterations. -/
def interpRunSim {ω : Type} (undef : UndefinedShifts) (bus : Bus σ) (ops : RunOps σ ω) :
    ℕ → SimState σ → ω → Option (ℤ × SimState σ × ω)
  | 0, _, _ => none
  | fuel + 1, s, ud =>
    match interpIteration undef bus ops s ud with
    | .returned rc s ud => some (rc, s, ud)
    | .running s ud => interpRunSim undef bus ops fuel s ud

/-- The hooks of `tsim`: instructions are counted and device cycles pumped after each of them. -/
def tsimOps (devicesDispatchCycle : σ → Bool × σ) : RunOps σ Unit where
  preInsn s _ ud := (false, s, ud)
  postInsn s _ ud :=
    let (rc, devices) := devicesDispatchCycle s.devices
    (rc, { s with devices, insnsExecuted := s.insnsExecuted + 1 }, ud)

/-- `devices_dispatch_cycle` when no device has a cycle callback. -/
def noCycle (devices : σ) : Bool × σ := (false, devices)

/-- One instruction of `interp_run_sim` under the hooks of `tsim`. -/
def interpStep (undef : UndefinedShifts) (bus : Bus σ) (s : SimState σ) : Option (SimState σ) :=
  match interpIteration undef bus (tsimOps noCycle) s () with
  | .returned .. => none
  | .running s _ => some s

/-- One counted instruction: the end condition does not hold, the fetch succeeds and so does the
instruction. -/
theorem interpStep_eq_some_iff (undef : UndefinedShifts) (bus : Bus σ) (s s' : SimState σ) :
    interpStep undef bus s = some s' ↔
      s.regs regP ≠ 0xffffffff#32 ∧
      ∃ word devices next,
        bus.dispatchOp s.devices .insnRead (s.regs regP) 0#32 = some (word, devices) ∧
        runInstruction undef bus { s with devices } word = .ok next ∧
        s' = { next with insnsExecuted := next.insnsExecuted + 1 } := by
  unfold interpStep interpIteration
  by_cases hend : s.regs regP = 0xffffffff#32
  · simp [hend]
  · cases hfetch : bus.dispatchOp s.devices .insnRead (s.regs regP) 0#32 with
    | none => simp [hend]
    | some fetched =>
      obtain ⟨word, devices⟩ := fetched
      cases hrun : runInstruction undef bus { s with devices } word with
      | error failed => simp [hend, tsimOps, hrun]
      | ok next =>
        simp only [hend, tsimOps, hrun, noCycle]
        constructor
        · intro h
          exact ⟨hend, word, devices, next, rfl, hrun, (Option.some.inj h).symm⟩
        · rintro ⟨_, word', devices', next', hfetch', hrun', rfl⟩
          obtain ⟨rfl, rfl⟩ := Prod.mk.inj (Option.some.inj hfetch')
          obtain rfl : next = next' := by simpa [hrun] using hrun'
          rfl

end Tenyr.Sim
