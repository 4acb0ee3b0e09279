import Tenyr.Hw.Core
import Tenyr.Sim.Machine

/-!
# One traversal of the core state machine
-/

namespace Tenyr.Hw

open Isa Sim

/-! ## The arithmetic path -/

section Arithmetic

variable (undef : UndefinedShifts)

theorem pack_eq (a b : Word) :
    (a.extractLsb' 0 20 ++ b.extractLsb' 0 12 : BitVec (20 + 12)) =
      (a <<< 12 ||| (b &&& 0xfff#32) : Word) := by
  apply BitVec.eq_of_getLsbD_eq
  intro k hk
  have hmask : (0xfff#32).getLsbD k = decide (k < 12) := by
    revert k
    decide
  rw [BitVec.getLsbD_append]
  by_cases hlow : k < 12
  · simp [hlow, hmask]
  · have hsub : k - 12 < 20 := by omega
    simp [hlow, hmask, hsub]
    omega

/-- Within the defined range of counts the pipeline combines operands as the simulator does. -/
theorem execY_eq_opValue (op : Op) (a b : Word) (hcount : CountInRange op b) :
    execY op.code a b = opValue undef op a b := by
  cases op
  case pack => exact pack_eq a b
  case testBit =>
    have hlt : b < 32#32 := hcount rfl
    simp [execY, opValue, Op.code, undef.shl_of_lt hlt]
  case shiftRightLogic => simp [execY, opValue, Op.code, undef.shr_of_lt (hcount rfl)]
  case shiftRightArith => simp [execY, opValue, Op.code, undef.sar_of_lt (hcount rfl)]
  all_goals rfl

theorem op_eq_code (w : Word) : op w = (insnOp w).code := by
  unfold op insnOp kind tI fieldOp fieldP
  split
  · rfl
  · rw [Op.code_ofCode, BitVec.extractLsb'_extractLsb'_of_le (by decide)]

theorem idxY_eq (w : Word) : idxY w = if fieldP w = 3#2 then 0#4 else fieldY w := by
  unfold idxY tI fieldP fieldY kind
  split
  · rfl
  · rw [BitVec.extractLsb'_extractLsb'_of_le (by decide)]

theorem valI_eq (w : Word) :
    valI w = if fieldP w = 3#2 then (fieldImm20 w).signExtend 32
      else (fieldImm12 w).signExtend 32 := by
  unfold valI tI fieldP fieldImm12 fieldImm20 kind
  split
  · rfl
  · rw [BitVec.extractLsb'_extractLsb'_of_le (by decide)]

/-- `Decode` and `Shuf` place the operands as the array of `do_op` does. -/
theorem shuffled_eq (c : Core) :
    c.shuffled =
      { valA := (insnOperands c.read c.insn).p2,
        valB := (insnOperands c.read c.insn).p1,
        valC := (insnOperands c.read c.insn).p0 } := by
  have hkind : kind c.insn = fieldP c.insn := rfl
  have hX : c.valX = c.read (fieldX c.insn) := rfl
  unfold Core.shuffled Core.valY insnOperands
  rw [hkind, hX, idxY_eq, valI_eq]
  generalize fieldP c.insn = p
  obtain rfl | rfl | rfl | rfl : p = 0#2 ∨ p = 1#2 ∨ p = 2#2 ∨ p = 3#2 := by
    revert p
    decide
  all_goals simp [shuf]

/-- The value that leaves `Exec` is the right-hand side of `run_instruction`. -/
theorem pipeline_value (c : Core) (hcount : CountsInRange c.read c.insn) :
    execY (op c.insn) c.shuffled.valA c.shuffled.valB + c.shuffled.valC =
      rhsValue undef c.read c.insn := by
  rw [rhsValue_of_countsInRange undef hcount, shuffled_eq, op_eq_code]
  exact congrArg (· + _) (execY_eq_opValue undef _ _ _ hcount)

end Arithmetic

/-! ## One clock edge in each state -/

/-- Reset and halt are low. -/
def Input.Quiet (i : Input) : Prop :=
  i.reset = false ∧ Core.halt i = false

namespace Core

variable {c : Core} {i : Input}

theorem nextStore_of_ne_s4 (hs : c.state ≠ .s4) : c.nextStore = c.store := by
  simp [nextStore, upZ, hs]

theorem tick_s0 (hs : c.state = .s0) (hi : i.Quiet) :
    c.tick i = { c with state := .s1, exec := c.exec.tick true (op c.insn) c.shuffled } := by
  simp [tick, hs, hi.1, hi.2, nextStore_of_ne_s4]

theorem tick_s1_wait (hs : c.state = .s1) (hi : i.Quiet) (hdone : c.exec.done = false) :
    c.tick i = { c with
      irhs := c.exec.valZ, exec := c.exec.tick false (op c.insn) c.shuffled } := by
  simp [tick, hs, hi.1, nextStore_of_ne_s4, hdone]
  rfl

theorem tick_s1_done (hs : c.state = .s1) (hi : i.Quiet) (hdone : c.exec.done = true) :
    c.tick i = { c with
      state := .s2, irhs := c.exec.valZ,
      exec := c.exec.tick false (op c.insn) c.shuffled } := by
  simp [tick, hs, hi.1, nextStore_of_ne_s4, hdone]
  rfl

theorem tick_s2 (hs : c.state = .s2) (hi : i.Quiet) :
    c.tick i = { c with
      state := if c.memory then .s3 else .s4, adrO := c.adrD,
      exec := c.exec.tick false (op c.insn) c.shuffled } := by
  simp [tick, hs, hi.1, nextStore_of_ne_s4]
  rfl

theorem tick_s3 (hs : c.state = .s3) (hi : i.Quiet) :
    c.tick i = { c with
      state := if i.ackI then .s4 else .s3, data := i.datI,
      exec := c.exec.tick false (op c.insn) c.shuffled } := by
  simp [tick, hs, hi.1, nextStore_of_ne_s4]
  rfl

theorem tick_s4 (hs : c.state = .s4) (hi : i.Quiet) :
    c.tick i = { c with
      state := .s5, adrO := c.nextI, store := c.nextStore,
      exec := c.exec.tick false (op c.insn) c.shuffled } := by
  simp [tick, hs, hi.1]
  rfl

theorem tick_s5 (hs : c.state = .s5) (hi : i.Quiet) :
    c.tick i = { c with
      state := if i.ackI then .s6 else .s5, nextP := c.adrO + 1#32,
      exec := c.exec.tick false (op c.insn) c.shuffled } := by
  simp [tick, hs, hi.1, nextStore_of_ne_s4]
  rfl

theorem tick_s6 (hs : c.state = .s6) (hi : i.Quiet) :
    c.tick i = { c with
      state := .s0, insn := i.datI,
      exec := c.exec.tick false (op c.insn) c.shuffled } := by
  simp [tick, hs, hi.1, nextStore_of_ne_s4]
  rfl

end Core

/-! ## The execution pipeline -/

/-- No operation is under way. -/
def Exec.Idle (e : Exec) : Prop :=
  e.done = false ∧ e.add = false ∧ e.act = false ∧ e.staged = false

theorem Exec.Idle.tick {e : Exec} (h : e.Idle) (op : BitVec 4) (val : Shuffled) :
    (e.tick false op val).Idle := by
  obtain ⟨_, hadd, hact, hstaged⟩ := h
  exact ⟨hadd, hact, hstaged, rfl⟩

/-- The core between two clock edges, for a given sequence of inputs. -/
structure Clocked (core : ℕ → Core) (input : ℕ → Input) : Prop where
  tick : ∀ t, core (t + 1) = (core t).tick (input t)
  quiet : ∀ t, (input t).Quiet

section Pipeline

variable {core : ℕ → Core} {input : ℕ → Input}

/-- The token started in `s0` passes four stages, so `s1` is held for four edges and the core
reaches `s2` with the value of the instruction in `_irhs` and an idle pipeline. -/
theorem compute (h : Clocked core input) {t : ℕ} (hs : (core t).state = .s0)
    (hidle : (core t).exec.Idle) :
    (∀ k, 0 < k → k < 5 → (core (t + k)).state = .s1) ∧
    ∃ exec : Exec, exec.Idle ∧
      core (t + 5) =
        { core t with
          state := .s2, exec,
          irhs := execY (op (core t).insn) (core t).shuffled.valA (core t).shuffled.valB +
            (core t).shuffled.valC } := by
  obtain ⟨hdone, hadd, hact, hstaged⟩ := hidle
  let c := core t
  let next (e : Exec) : Exec := e.tick false (op c.insn) c.shuffled
  let e1 : Exec := c.exec.tick true (op c.insn) c.shuffled
  have h1 : core (t + 1) = { c with state := .s1, exec := e1 } := by
    rw [h.tick, Core.tick_s0 hs (h.quiet t)]
  have h2 : core (t + 2) = { c with state := .s1, irhs := e1.valZ, exec := next e1 } := by
    rw [h.tick, h1]
    exact Core.tick_s1_wait rfl (h.quiet _) hadd
  have h3 : core (t + 3) =
      { c with state := .s1, irhs := (next e1).valZ, exec := next (next e1) } := by
    rw [h.tick, h2]
    exact Core.tick_s1_wait rfl (h.quiet _) hact
  have h4 : core (t + 4) =
      { c with state := .s1, irhs := (next (next e1)).valZ, exec := next (next (next e1)) } := by
    rw [h.tick, h3]
    exact Core.tick_s1_wait rfl (h.quiet _) hstaged
  have h5 : core (t + 5) =
      { c with
        state := .s2, irhs := (next (next (next e1))).valZ
        exec := next (next (next (next e1))) } := by
    rw [h.tick, h4]
    exact Core.tick_s1_done rfl (h.quiet _) rfl
  refine ⟨?_, next (next (next (next e1))), ⟨rfl, rfl, rfl, rfl⟩, h5⟩
  intro k hpos hlt
  obtain rfl | rfl | rfl | rfl : k = 1 ∨ k = 2 ∨ k = 3 ∨ k = 4 := by omega
  · rw [h1]
  · rw [h2]
  · rw [h3]
  · rw [h4]

end Pipeline

end Tenyr.Hw
