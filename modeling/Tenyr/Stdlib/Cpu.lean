import Tenyr.Lib.Until
import Tenyr.Sim.Machine

/-!
# Routines on the simulated machine

Registers by name, instructions as the routines of the library write them, and what a run of the
simulator on flat memory reaches when it only writes where it may.
-/

namespace Tenyr.Stdlib

open Isa Sim Lib.Transition

/-! ## Registers -/

/-- `A` is always zero, `O` is the stack pointer and `P` the address of the next instruction. -/
inductive Reg where
  | a | b | c | d | e | f | g | h | i | j | k | l | m | n | o | p
  deriving DecidableEq, Repr

def Reg.index : Reg → RegIndex
  | a => 0#4 | b => 1#4 | c => 2#4 | d => 3#4 | e => 4#4 | f => 5#4 | g => 6#4 | h => 7#4
  | i => 8#4 | j => 9#4 | k => 10#4 | l => 11#4 | m => 12#4 | n => 13#4 | o => 14#4 | p => 15#4

def Reg.ofIndex (r : RegIndex) : Reg :=
  match r with
  | 0#4 => a | 1#4 => b | 2#4 => c | 3#4 => d | 4#4 => e | 5#4 => f | 6#4 => g | 7#4 => h
  | 8#4 => i | 9#4 => j | 10#4 => k | 11#4 => l | 12#4 => m | 13#4 => n | 14#4 => o | _ => p

/-- Registers and memory. -/
@[ext]
structure Cpu where
  b : Word
  c : Word
  d : Word
  e : Word
  f : Word
  g : Word
  h : Word
  i : Word
  j : Word
  k : Word
  l : Word
  m : Word
  n : Word
  o : Word
  p : Word
  mem : Word → Word

namespace Cpu

@[simp]
def get (cpu : Cpu) : Reg → Word
  | .a => 0#32
  | .b => cpu.b | .c => cpu.c | .d => cpu.d | .e => cpu.e | .f => cpu.f | .g => cpu.g | .h => cpu.h
  | .i => cpu.i | .j => cpu.j | .k => cpu.k | .l => cpu.l | .m => cpu.m | .n => cpu.n | .o => cpu.o
  | .p => cpu.p

@[simp]
def set (cpu : Cpu) (z : Reg) (value : Word) : Cpu :=
  match z with
  | .a => cpu
  | .b => { cpu with b := value }
  | .c => { cpu with c := value }
  | .d => { cpu with d := value }
  | .e => { cpu with e := value }
  | .f => { cpu with f := value }
  | .g => { cpu with g := value }
  | .h => { cpu with h := value }
  | .i => { cpu with i := value }
  | .j => { cpu with j := value }
  | .k => { cpu with k := value }
  | .l => { cpu with l := value }
  | .m => { cpu with m := value }
  | .n => { cpu with n := value }
  | .o => { cpu with o := value }
  | .p => { cpu with p := value }

def state (cpu : Cpu) (insnsExecuted : ℕ) : SimState (Word → Word) where
  regs r := cpu.get (.ofIndex r)
  devices := cpu.mem
  insnsExecuted

def ofState (s : SimState (Word → Word)) : Cpu where
  b := s.regs 1#4
  c := s.regs 2#4
  d := s.regs 3#4
  e := s.regs 4#4
  f := s.regs 5#4
  g := s.regs 6#4
  h := s.regs 7#4
  i := s.regs 8#4
  j := s.regs 9#4
  k := s.regs 10#4
  l := s.regs 11#4
  m := s.regs 12#4
  n := s.regs 13#4
  o := s.regs 14#4
  p := s.regs 15#4
  mem := s.devices

/-- Memory that answers everywhere. -/
def flatBus : Bus (Word → Word) := memoryBus fun _ _ ↦ true

/-- One instruction of the simulator. -/
def step (undef : UndefinedShifts) (cpu : Cpu) : Option Cpu :=
  (interpStep undef flatBus (cpu.state 0)).map ofState

end Cpu

/-! ## Instructions -/

/-- Right-hand sides, by type. -/
inductive Rhs where
  | type0 (x : Reg) (op : Op) (y : Reg) (imm : BitVec 12)
  | type1 (x : Reg) (op : Op) (imm : BitVec 12) (y : Reg)
  | type2 (imm : BitVec 12) (op : Op) (x y : Reg)
  | type3 (x : Reg) (imm : BitVec 20)
  deriving DecidableEq, Repr

/-- `Z <- rhs`, `Z <- [rhs]`, `Z -> [rhs]` and `[Z] <- rhs`. -/
inductive Insn where
  | assign (z : Reg) (rhs : Rhs)
  | load (z : Reg) (rhs : Rhs)
  | store (z : Reg) (rhs : Rhs)
  | storeTo (z : Reg) (rhs : Rhs)
  deriving DecidableEq, Repr

def Rhs.word (dd : BitVec 2) (z : Reg) : Rhs → Word
  | type0 x op y imm => type012 0#2 dd z.index x.index y.index op imm
  | type1 x op imm y => type012 1#2 dd z.index x.index y.index op imm
  | type2 imm op x y => type012 2#2 dd z.index x.index y.index op imm
  | type3 x imm => Isa.type3 3#2 dd z.index x.index imm

def Insn.word : Insn → Word
  | assign z rhs => rhs.word 0#2 z
  | load z rhs => rhs.word 3#2 z
  | store z rhs => rhs.word 1#2 z
  | storeTo z rhs => rhs.word 2#2 z

/-- `left op right + addend`, as `do_op` computes it. -/
def combine (undef : UndefinedShifts) (op : Op) (left right addend : Word) : Word :=
  if dropsAddend op right then 0#32 else opValue undef op left right + addend

@[simp]
def Rhs.value (undef : UndefinedShifts) (cpu : Cpu) : Rhs → Word
  | type0 x op y imm => combine undef op (cpu.get x) (cpu.get y) (imm.signExtend 32)
  | type1 x op imm y => combine undef op (cpu.get x) (imm.signExtend 32) (cpu.get y)
  | type2 imm op x y => combine undef op (imm.signExtend 32) (cpu.get x) (cpu.get y)
  | type3 x imm => cpu.get x + imm.signExtend 32

@[simp]
def Insn.exec (undef : UndefinedShifts) (insn : Insn) (cpu : Cpu) : Cpu :=
  let cpu := { cpu with p := cpu.p + 1#32 }
  match insn with
  | assign z rhs => cpu.set z (rhs.value undef cpu)
  | load z rhs => cpu.set z (cpu.mem (rhs.value undef cpu))
  | store z rhs => { cpu with mem := Function.update cpu.mem (rhs.value undef cpu) (cpu.get z) }
  | storeTo z rhs => { cpu with mem := Function.update cpu.mem (cpu.get z) (rhs.value undef cpu) }

/-- The address that is written to. -/
@[simp]
def Insn.target (undef : UndefinedShifts) (insn : Insn) (cpu : Cpu) : Option Word :=
  match insn with
  | assign _ _ | load _ _ => none
  | store _ rhs => some (rhs.value undef { cpu with p := cpu.p + 1#32 })
  | storeTo z _ => some (Cpu.get { cpu with p := cpu.p + 1#32 } z)

theorem combine_shiftLeft (undef : UndefinedShifts) {left right addend : Word}
    (hright : right < 32#32) : combine undef .shiftLeft left right addend = left <<< right + addend := by
  rw [combine, if_neg fun h ↦ absurd hright (BitVec.not_lt.mpr h.2)]
  rfl

theorem combine_eq (undef : UndefinedShifts) {op : Op} (hop : op ≠ .shiftLeft)
    (left right addend : Word) :
    combine undef op left right addend = opValue undef op left right + addend :=
  if_neg fun h ↦ hop h.1

namespace Reg

@[simp]
theorem ofIndex_index (r : Reg) : ofIndex r.index = r := by
  cases r <;> rfl

@[simp]
theorem index_ofIndex (r : RegIndex) : (ofIndex r).index = r := by
  revert r
  decide

theorem ofIndex_eq_iff (r : RegIndex) (z : Reg) : ofIndex r = z ↔ r = z.index := by
  constructor
  · rintro rfl
    exact (index_ofIndex r).symm
  · rintro rfl
    exact ofIndex_index z

end Reg

namespace Cpu

variable (undef : UndefinedShifts) (cpu : Cpu)

@[simp]
theorem ofState_state (insnsExecuted : ℕ) : ofState (cpu.state insnsExecuted) = cpu := rfl

theorem get_set (z r : Reg) (value : Word) :
    (cpu.set z value).get r = if r = z ∧ z ≠ .a then value else cpu.get r := by
  cases z <;> cases r <;> rfl

theorem set_mem (z : Reg) (value : Word) : (cpu.set z value).mem = cpu.mem := by
  cases z <;> rfl

theorem state_setReg {z : Reg} (hz : z ≠ .a) (value : Word) (insnsExecuted : ℕ) :
    (cpu.state insnsExecuted).setReg z.index value = (cpu.set z value).state insnsExecuted := by
  have hregs : Function.update (cpu.state insnsExecuted).regs z.index value =
      ((cpu.set z value).state insnsExecuted).regs := by
    funext r
    change _ = (cpu.set z value).get (.ofIndex r)
    rw [get_set]
    by_cases hr : r = z.index
    · rw [if_pos ⟨(Reg.ofIndex_eq_iff r z).mpr hr, hz⟩, hr, Function.update_self]
    · rw [if_neg fun h ↦ hr ((Reg.ofIndex_eq_iff r z).mp h.1), Function.update_of_ne hr]
      rfl
  rw [SimState.setReg, hregs]
  cases z <;> rfl

theorem state_writeBack (z : Reg) (value : Word) (insnsExecuted : ℕ) :
    (cpu.state insnsExecuted).writeBack z.index value = (cpu.set z value).state insnsExecuted := by
  have hzero : z.index = 0#4 ↔ z = .a := by
    cases z <;> decide
  rw [SimState.writeBack]
  by_cases hz : z = .a
  · rw [if_pos (hzero.mpr hz), hz]
    rfl
  · rw [if_neg (hzero.not.mpr hz), state_setReg cpu hz]

theorem state_advance (insnsExecuted : ℕ) : (cpu.state insnsExecuted).advance =
    ({ cpu with p := cpu.p + 1#32 } : Cpu).state insnsExecuted :=
  state_setReg cpu (by decide : Reg.p ≠ .a) _ _

theorem state_get (r : Reg) (insnsExecuted : ℕ) :
    (cpu.state insnsExecuted).regs r.index = cpu.get r := by
  change cpu.get (.ofIndex r.index) = _
  rw [Reg.ofIndex_index]

theorem rhsValue_word (rhs : Rhs) (dd : BitVec 2) (z : Reg) (insnsExecuted : ℕ) :
    rhsValue undef (cpu.state insnsExecuted).regs (rhs.word dd z) = rhs.value undef cpu := by
  have hget : ∀ r : Reg, (cpu.state insnsExecuted).regs r.index = cpu.get r :=
    fun r ↦ state_get cpu r insnsExecuted
  rw [rhsValue_eq]
  cases rhs with
  | type0 x op y imm =>
    simp only [Rhs.word, insnOp, insnOperands, fieldP_type012, fieldOp_type012, fieldX_type012,
      fieldY_type012, fieldImm12_type012, hget]
    rfl
  | type1 x op imm y =>
    simp only [Rhs.word, insnOp, insnOperands, fieldP_type012, fieldOp_type012, fieldX_type012,
      fieldY_type012, fieldImm12_type012, hget]
    rfl
  | type2 imm op x y =>
    simp only [Rhs.word, insnOp, insnOperands, fieldP_type012, fieldOp_type012, fieldX_type012,
      fieldY_type012, fieldImm12_type012, hget]
    rfl
  | type3 x imm =>
    simp only [Rhs.word, insnOp, insnOperands, fieldP_type3, fieldX_type3, fieldImm20_type3, hget,
      if_true, opValue, BitVec.zero_or, dropsAddend]
    rfl

theorem fieldDd_word (rhs : Rhs) (dd : BitVec 2) (z : Reg) : fieldDd (rhs.word dd z) = dd := by
  cases rhs <;> simp [Rhs.word]

theorem fieldZ_word (rhs : Rhs) (dd : BitVec 2) (z : Reg) : fieldZ (rhs.word dd z) = z.index := by
  cases rhs <;> simp [Rhs.word]

theorem runInstruction_word (insn : Insn) (insnsExecuted : ℕ) :
    runInstruction undef flatBus (cpu.state insnsExecuted) insn.word =
      .ok ((insn.exec undef cpu).state insnsExecuted) := by
  rw [runInstruction_eq, state_advance]
  cases insn with
  | assign z rhs =>
    rw [Insn.word, fieldDd_word, fieldZ_word, rhsValue_word, state_writeBack]
    rfl
  | load z rhs =>
    rw [Insn.word, fieldDd_word, fieldZ_word, rhsValue_word]
    exact congrArg Except.ok (state_writeBack _ z _ _)
  | store z rhs =>
    rw [Insn.word, fieldDd_word, fieldZ_word, rhsValue_word, state_get]
    rfl
  | storeTo z rhs =>
    rw [Insn.word, fieldDd_word, fieldZ_word, rhsValue_word, state_get]
    rfl

/-- The simulator executes an instruction that is fetched. -/
theorem interpStep_word {insn : Insn} (hfetch : cpu.mem cpu.p = insn.word)
    (hend : cpu.p ≠ 0xffffffff#32) (insnsExecuted : ℕ) :
    interpStep undef flatBus (cpu.state insnsExecuted) =
      some ((insn.exec undef cpu).state (insnsExecuted + 1)) := by
  rw [interpStep_eq_some_iff]
  refine ⟨hend, insn.word, cpu.mem, _, ?_, runInstruction_word undef cpu insn insnsExecuted, rfl⟩
  rw [← hfetch]
  rfl

/-- Every word is an instruction. -/
theorem exists_word_eq (w : Word) : ∃ insn : Insn, insn.word = w := by
  have hrhs : ∃ (rhs : Rhs) (z : Reg), rhs.word (fieldDd w) z = w := by
    have h012 := type012_fields w
    rcases fieldP_cases w with hp | hp | hp | hp
    · refine ⟨.type0 (.ofIndex (fieldX w)) (fieldOp w) (.ofIndex (fieldY w)) (fieldImm12 w),
        .ofIndex (fieldZ w), ?_⟩
      rw [hp] at h012
      simp only [Rhs.word, Reg.index_ofIndex, h012]
    · refine ⟨.type1 (.ofIndex (fieldX w)) (fieldOp w) (fieldImm12 w) (.ofIndex (fieldY w)),
        .ofIndex (fieldZ w), ?_⟩
      rw [hp] at h012
      simp only [Rhs.word, Reg.index_ofIndex, h012]
    · refine ⟨.type2 (fieldImm12 w) (fieldOp w) (.ofIndex (fieldX w)) (.ofIndex (fieldY w)),
        .ofIndex (fieldZ w), ?_⟩
      rw [hp] at h012
      simp only [Rhs.word, Reg.index_ofIndex, h012]
    · have h3 := type3_fields w
      rw [hp] at h3
      refine ⟨.type3 (.ofIndex (fieldX w)) (fieldImm20 w), .ofIndex (fieldZ w), ?_⟩
      simp only [Rhs.word, Reg.index_ofIndex, h3]
  obtain ⟨rhs, z, hw⟩ := hrhs
  rcases fieldDd_cases w with hdd | hdd | hdd | hdd
  · exact ⟨.assign z rhs, by rw [Insn.word, ← hdd, hw]⟩
  · exact ⟨.store z rhs, by rw [Insn.word, ← hdd, hw]⟩
  · exact ⟨.storeTo z rhs, by rw [Insn.word, ← hdd, hw]⟩
  · exact ⟨.load z rhs, by rw [Insn.word, ← hdd, hw]⟩

/-- The end condition of the simulator. -/
theorem interpStep_eq_none {s : SimState (Word → Word)} (hend : s.regs regP = 0xffffffff#32) :
    interpStep undef flatBus s = none := by
  rw [Option.eq_none_iff_forall_not_mem]
  intro s' hs
  exact ((interpStep_eq_some_iff undef flatBus s s').mp hs).1 hend

theorem step_eq_none {cpu : Cpu} (hend : cpu.p = 0xffffffff#32) : cpu.step undef = none := by
  rw [step, interpStep_eq_none undef (hend : (cpu.state 0).regs regP = _)]
  rfl

/-- Steps are steps of the simulator, which counts them. -/
theorem interpStep_state (insnsExecuted : ℕ) :
    interpStep undef flatBus (cpu.state insnsExecuted) =
      (cpu.step undef).map fun cpu ↦ cpu.state (insnsExecuted + 1) := by
  by_cases hend : cpu.p = 0xffffffff#32
  · have hregs : (cpu.state insnsExecuted).regs regP = 0xffffffff#32 := hend
    rw [step_eq_none undef hend, interpStep_eq_none undef hregs]
    rfl
  · obtain ⟨insn, hinsn⟩ := exists_word_eq (cpu.mem cpu.p)
    rw [step, interpStep_word undef cpu hinsn.symm hend, interpStep_word undef cpu hinsn.symm hend]
    rfl

/-- Runs are runs of the simulator. -/
theorem steps_interpStep_state (count insnsExecuted : ℕ) :
    steps (interpStep undef flatBus) count (cpu.state insnsExecuted) =
      (steps (step undef) count cpu).map fun cpu ↦ cpu.state (insnsExecuted + count) := by
  induction count generalizing cpu insnsExecuted with
  | zero => rfl
  | succ count ih =>
    rw [steps_succ, steps_succ, interpStep_state]
    cases cpu.step undef with
    | none => rfl
    | some next =>
      rw [Option.map_some, Option.bind_some, Option.bind_some, ih, Nat.add_right_comm,
        Nat.add_assoc]

theorem step_word {insn : Insn} (hfetch : cpu.mem cpu.p = insn.word) (hend : cpu.p ≠ 0xffffffff#32) :
    cpu.step undef = some (insn.exec undef cpu) := by
  rw [step, interpStep_word undef cpu hfetch hend]
  rfl

end Cpu

end Tenyr.Stdlib
