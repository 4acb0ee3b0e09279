import Tenyr.Lib.X86
import Tenyr.Sim.Machine

/-!
# Code generation of the just-in-time compiler

`buildOp`, `buildInstruction` and `jitGenBlock` emit, for a block of instruction words, the x86
instructions that the C++ functions of these names ask the assembler library for. Registers of the
simulated machine live in memory behind `regs`; the emitted code reaches the devices through calls
of `fetch` and `store`, which ignore failures.
-/

namespace Tenyr.Jit

open Isa Sim
open Lib.X86 (Insn Cpu Flags)

/-- The virtual registers of one instruction. -/
inductive Role where
  | tmp | x | y | i
  deriving DecidableEq, Repr

/-- Every instruction of a block creates its own virtual registers. -/
abbrev GpVar := ℕ × Role

/-- What the compiler object is told to emit. `Reg(N)` operands are memory operands. -/
inductive Emitted where
  | insn (i : Insn GpVar)
  | movFromReg (dst : GpVar) (n : RegIndex)
  | movToReg (n : RegIndex) (src : GpVar)
  | callFetch (addr dst : GpVar)
  | callStore (addr data : GpVar)

def buildOp (op : Op) (T A B : GpVar) : List (Insn GpVar) :=
  match op with
  | .add => [.add A B]
  | .subtract => [.sub A B]
  | .bitwiseAndn => [.not B, .and A B]
  | .bitwiseAnd => [.and A B]
  | .bitwiseOrn => [.not B, .or A B]
  | .bitwiseOr => [.or A B]
  | .bitwiseXor => [.xor A B]
  | .multiply => [.imul A B]
  | .shiftRightLogic =>
      [.shr A B, .andImm B (~~~31#32), .movImm T 0#32,
        .cmov .nz A T]  -- zeros if shift-amount is larger than 31
  | .shiftRightArith =>
      [.mov T B, .andImm T (~~~31#32), .movImm T 31#32,
        .cmov .nz B T,  -- convert to a shift by 31 if > 31
        .sar A B]
  | .shiftLeft =>
      [.sal A B, .andImm B (~~~31#32), .movImm T 0#32,
        .cmov .nz A T]  -- zeros if shift-amount is larger than 31
  | .pack => [.shlImm A 12#32, .andImm B 0xfff#32, .or A B]
  | .testBit => [.bt A B, .movImm A 0#32, .sbb A A]
  | .compareLt => [.movImm T (-1#32), .cmp A B, .movImm A 0#32, .cmov .l A T]
  | .compareEq => [.movImm T (-1#32), .cmp A B, .movImm A 0#32, .cmov .z A T]
  | .compareGe => [.movImm T (-1#32), .cmp A B, .movImm A 0#32, .cmov .ge A T]

/-- The operation on `a` and `b`, then the addition of `c`. -/
def combine (op : Op) (tmp a b c : GpVar) : List (Insn GpVar) :=
  buildOp op tmp a b ++ [.add a c]

/-- Load a register operand: `P` is ahead of the block's base, and `A` is zero. -/
def buildOperand (v : GpVar) (n : RegIndex) (offset : ℕ) : List Emitted :=
  if n ≠ 0#4 then
    .movFromReg v n ::
      (if n = 15#4 then [.insn (.addImm v (BitVec.ofNat 32 (offset + 1)))] else [])
  else [.insn (.xor v v)]

/-- The variable that ends up holding the right-hand side. -/
def rhsVar (offset : ℕ) (instruction : Word) : GpVar :=
  if fieldP instruction = 2#2 then (offset, .i) else (offset, .x)

/-- The emitted code up to `cc.add(*a, *c)`. -/
def buildRhs (offset : ℕ) (instruction : Word) : List Emitted :=
  let tmp : GpVar := (offset, .tmp)
  let x : GpVar := (offset, .x)
  let y : GpVar := (offset, .y)
  let i : GpVar := (offset, .i)
  let op := fieldOp instruction
  buildOperand x (fieldX instruction) offset ++
    if fieldP instruction = 3#2 then
      [.insn (.addImm x ((fieldImm20 instruction).signExtend 32))]
    else
      buildOperand y (fieldY instruction) offset ++
        .insn (.movImm i ((fieldImm12 instruction).signExtend 32)) ::
          match fieldP instruction with
          | 0#2 => (combine op tmp x y i).map .insn
          | 1#2 => (combine op tmp x i y).map .insn
          | _ => (combine op tmp i x y).map .insn

/-- The emitted code for the dereference mode. -/
def buildTransfer (offset : ℕ) (instruction : Word) : List Emitted :=
  let tmp : GpVar := (offset, .tmp)
  let a := rhsVar offset instruction
  let z := fieldZ instruction
  match fieldDd instruction with
  | 0#2 => if z ≠ 0#4 then [.movToReg z a] else []
  | 1#2 => [.movFromReg tmp z, .callStore a tmp]
  | 2#2 => [.movFromReg tmp z, .callStore tmp a]
  | _ => .callFetch a tmp :: if z ≠ 0#4 then [.movToReg z tmp] else []

/-- The emitted code, and whether the instruction names `P` as its `Z`. -/
def buildInstruction (instruction : Word) (offset : ℕ) : List Emitted × Bool :=
  (buildRhs offset instruction ++ buildTransfer offset instruction, fieldZ instruction == 15#4)

/-- The loop of `jit_gen_block` from index `i` on. -/
def genFrom (i : ℕ) : List Word → List Emitted
  | [] => []
  | instruction :: rest => (buildInstruction instruction i).1 ++ genFrom (i + 1) rest

def jitGenBlock (instructions : List Word) : List Emitted := genFrom 0 instructions

/-! ## Executing emitted code -/

/-- What the emitted code must not depend on: undescribed flags, and the datum that an access
leaves behind when it fails. -/
structure Host where
  flags : Insn GpVar → Cpu GpVar → Flags
  callFlags : Cpu GpVar → Flags
  failedFetch : Word → Word

/-- Virtual registers, the array behind `regs`, and the devices behind the cookie. -/
structure Frame (σ : Type) where
  cpu : Cpu GpVar
  regs : RegIndex → Word
  devices : σ

variable {σ : Type}

/-- What outlives a block: the register file and the devices. -/
def Frame.visible (f : Frame σ) : (RegIndex → Word) × σ := (f.regs, f.devices)

/-- The callback `fetch`. -/
def fetch (host : Host) (bus : Bus σ) (devices : σ) (addr : Word) : Word × σ :=
  match bus.dispatchOp devices .dataRead addr 0#32 with
  | none => (host.failedFetch addr, devices)
  | some result => result

/-- The callback `store`. -/
def store (bus : Bus σ) (devices : σ) (addr value : Word) : σ :=
  match bus.dispatchOp devices .write addr value with
  | none => devices
  | some (_, devices) => devices

def Emitted.step (host : Host) (bus : Bus σ) (f : Frame σ) : Emitted → Frame σ
  | insn i => { f with cpu := i.step host.flags f.cpu }
  | movFromReg dst n => { f with cpu := f.cpu.set dst (f.regs n) }
  | movToReg n src => { f with regs := Function.update f.regs n (f.cpu.vals src) }
  | callFetch addr dst =>
      let (data, devices) := fetch host bus f.devices (f.cpu.vals addr)
      { f with
        cpu := { f.cpu.set dst data with flags := host.callFlags f.cpu }
        devices }
  | callStore addr data =>
      { f with
        cpu := { f.cpu with flags := host.callFlags f.cpu }
        devices := store bus f.devices (f.cpu.vals addr) (f.cpu.vals data) }

def execute (host : Host) (bus : Bus σ) (f : Frame σ) (code : List Emitted) : Frame σ :=
  code.foldl (Emitted.step host bus) f

@[simp]
theorem execute_nil (host : Host) (bus : Bus σ) (f : Frame σ) : execute host bus f [] = f := rfl

@[simp]
theorem execute_cons (host : Host) (bus : Bus σ) (f : Frame σ) (e : Emitted)
    (code : List Emitted) :
    execute host bus f (e :: code) = execute host bus (e.step host bus f) code := rfl

theorem execute_append (host : Host) (bus : Bus σ) (f : Frame σ) (code rest : List Emitted) :
    execute host bus f (code ++ rest) = execute host bus (execute host bus f code) rest := by
  simp [execute]

/-- Plain data instructions only change the virtual registers and flags. -/
theorem execute_insns (host : Host) (bus : Bus σ) (f : Frame σ) (code : List (Insn GpVar)) :
    execute host bus f (code.map .insn) =
      { f with cpu := Lib.X86.run host.flags f.cpu code } := by
  induction code generalizing f with
  | nil => rfl
  | cons i code ih => exact ih _

/-! ## Operations -/

/-- Selecting one bit with a mask and testing it. -/
theorem and_shl_one_ne_zero (a : Word) {n : Word} (hn : n < 32#32) :
    (a &&& 1#32 <<< n != 0#32) = a.getLsbD n.toNat := by
  have hlt : n.toNat < 32 := by simpa using BitVec.lt_def.mp hn
  have hbit (k : ℕ) : (a &&& 1#32 <<< n).getLsbD k = (decide (k = n.toNat) && a.getLsbD k) := by
    rw [BitVec.getLsbD_and, BitVec.shiftLeft_eq', BitVec.getLsbD_shiftLeft, BitVec.getLsbD_one]
    by_cases hk : k = n.toNat
    · subst hk
      simp [hlt]
    · have hsub : k < n.toNat ∨ k - n.toNat ≠ 0 := by omega
      rcases hsub with hsub | hsub <;> simp [hk, hsub]
  cases hset : a.getLsbD n.toNat
  · have hzero : a &&& 1#32 <<< n = 0#32 := by
      apply BitVec.eq_of_getLsbD_eq
      intro k hk
      rw [hbit, BitVec.getLsbD_zero]
      by_cases heq : k = n.toNat
      · subst heq
        simp [hset]
      · simp [heq]
    rw [hzero]
    rfl
  · have hne : a &&& 1#32 <<< n ≠ 0#32 := by
      intro hzero
      have hself := hbit n.toNat
      rw [hzero] at hself
      simp [hset] at hself
    simpa using hne

/-- The emitted operation leaves the combination of its operands in the first, and disturbs only
the scratch variable and the second one besides. -/
theorem run_buildOp (undef : UndefinedShifts) (flags : Insn GpVar → Cpu GpVar → Flags)
    (c : Cpu GpVar) (op : Op) {T A B : GpVar} (hTA : T ≠ A) (hTB : T ≠ B) (hAB : A ≠ B)
    (hcount : CountInRange op (c.vals B)) :
    (Lib.X86.run flags c (buildOp op T A B)).vals A =
      opValue undef op (c.vals A) (c.vals B) := by
  cases op <;>
    simp [buildOp, Insn.step, Cpu.set, Cpu.setFlags, opValue, hTA, hAB, hTA.symm, hTB.symm,
      hAB.symm]
  case shiftRightArith | shiftRightLogic | shiftLeft =>
    have hn : c.vals B < 32#32 := hcount rfl
    simp [Lib.X86.holds_nz_logicFlags, Lib.X86.and_not_31_of_lt hn,
      Lib.X86.toNat_and_31_of_lt hn, UndefinedShifts.sar_of_lt, UndefinedShifts.shr_of_lt, hn]
  case testBit =>
    have hn : c.vals B < 32#32 := hcount rfl
    rw [Lib.X86.toNat_and_31_of_lt hn, undef.shl_of_lt hn, and_shl_one_ne_zero _ hn]
    cases (c.vals A).getLsbD (c.vals B).toNat <;> simp [negBool]
  case compareEq => simp only [Lib.X86.holds_z_subFlags, negBool, BitVec.reduceNeg]
  case compareLt => simp only [Lib.X86.holds_l_subFlags, negBool, BitVec.reduceNeg]
  case compareGe => simp only [Lib.X86.holds_ge_subFlags, negBool, BitVec.reduceNeg]

/-- Every other variable keeps its value, whatever the operands are. -/
theorem run_buildOp_of_ne (flags : Insn GpVar → Cpu GpVar → Flags) (c : Cpu GpVar) (op : Op)
    {T A B v : GpVar} (hT : v ≠ T) (hA : v ≠ A) (hB : v ≠ B) :
    (Lib.X86.run flags c (buildOp op T A B)).vals v = c.vals v := by
  cases op <;> simp [buildOp, Insn.step, Cpu.set, Cpu.setFlags, hT, hA, hB]

/-! ## One instruction -/

/-- Register contents as an instruction at `offset` reads them: nobody has advanced `P`. -/
def operandView (regs : RegIndex → Word) (offset : ℕ) (n : RegIndex) : Word :=
  if n = 15#4 then regs n + BitVec.ofNat 32 (offset + 1) else regs n

theorem execute_buildOperand (host : Host) (bus : Bus σ) (f : Frame σ) (v : GpVar) (n : RegIndex)
    (offset : ℕ) :
    ∃ cpu, execute host bus f (buildOperand v n offset) = { f with cpu } ∧
      (f.regs 0#4 = 0#32 → cpu.vals v = operandView f.regs offset n) ∧
      ∀ u, u ≠ v → cpu.vals u = f.cpu.vals u := by
  unfold buildOperand operandView
  by_cases hzero : n = 0#4
  · subst hzero
    refine ⟨_, rfl, ?_, ?_⟩
    · intro hA
      simp [Insn.step, Cpu.setFlags, hA]
    · intro u hu
      simp [Insn.step, Cpu.setFlags, hu]
  · by_cases hP : n = 15#4
    · subst hP
      refine ⟨_, rfl, ?_, ?_⟩
      · intro _
        simp [Emitted.step, Insn.step, Cpu.setFlags, Cpu.set]
      · intro u hu
        simp [Emitted.step, Insn.step, Cpu.setFlags, Cpu.set, hu]
    · refine ⟨f.cpu.set v (f.regs n), ?_, ?_, ?_⟩
      · simp [hzero, hP, Emitted.step]
      · intro _
        simp [Cpu.set, hP]
      · intro u hu
        simp [Cpu.set, hu]

theorem run_combine (undef : UndefinedShifts) (flags : Insn GpVar → Cpu GpVar → Flags)
    (c : Cpu GpVar) (op : Op) {tmp a b d : GpVar} (hta : tmp ≠ a) (htb : tmp ≠ b) (hab : a ≠ b)
    (hdt : d ≠ tmp) (hda : d ≠ a) (hdb : d ≠ b) (hcount : CountInRange op (c.vals b)) :
    (Lib.X86.run flags c (combine op tmp a b d)).vals a =
      opValue undef op (c.vals a) (c.vals b) + c.vals d := by
  rw [combine, Lib.X86.run_append]
  simp [Insn.step, Cpu.setFlags, run_buildOp undef flags c op hta htb hab hcount,
    run_buildOp_of_ne flags c op hdt hda hdb]

/-- The code for the right-hand side only changes virtual registers, and computes what the
interpreter does. -/
theorem execute_buildRhs (undef : UndefinedShifts) (host : Host) (bus : Bus σ) (f : Frame σ)
    (offset : ℕ) (w : Word) :
    ∃ cpu, execute host bus f (buildRhs offset w) = { f with cpu } ∧
      (f.regs 0#4 = 0#32 → CountsInRange (operandView f.regs offset) w →
        cpu.vals (rhsVar offset w) = rhsValue undef (operandView f.regs offset) w) := by
  obtain ⟨cx, hx, hxval, -⟩ :=
    execute_buildOperand host bus f (offset, .x) (fieldX w) offset
  unfold buildRhs
  simp only [execute_append, hx]
  by_cases hp : fieldP w = 3#2
  · rw [if_pos hp]
    refine ⟨_, rfl, ?_⟩
    intro hA hcounts
    rw [rhsValue_of_countsInRange undef hcounts]
    simp [Insn.step, Cpu.setFlags, rhsVar, insnOp, insnOperands, opValue, hp, hxval hA]
  · rw [if_neg hp, execute_append]
    obtain ⟨cy, hy, hyval, hykeep⟩ :=
      execute_buildOperand host bus { f with cpu := cx } (offset, .y) (fieldY w) offset
    rw [hy, execute_cons]
    have hxy : cy.vals (offset, .x) = cx.vals (offset, .x) := hykeep _ (by simp)
    obtain hp | hp | hp : fieldP w = 0#2 ∨ fieldP w = 1#2 ∨ fieldP w = 2#2 := by
      revert hp
      generalize fieldP w = p
      revert p
      decide
    all_goals
      rw [hp]
      refine ⟨_, execute_insns host bus _ _, ?_⟩
      intro hA hcounts
      rw [rhsValue_of_countsInRange undef hcounts]
      simp only [CountsInRange, insnOp, insnOperands, hp, BitVec.reduceEq, if_false] at hcounts ⊢
      simp only [rhsVar, hp, BitVec.reduceEq, if_true, if_false]
      rw [run_combine undef host.flags _ _ (by simp) (by simp) (by simp) (by simp) (by simp)
        (by simp)] <;>
        simp [Emitted.step, Insn.step, Cpu.set, hxy, hxval hA, hyval hA, hcounts]
    exact hcounts

/-- The register file and the devices after the code for the dereference mode, when the right-hand
side has come out as `value`. -/
def transferred (host : Host) (bus : Bus σ) (regs : RegIndex → Word) (devices : σ) (w value : Word) :
    (RegIndex → Word) × σ :=
  match fieldDd w with
  | 0#2 => (if fieldZ w ≠ 0#4 then Function.update regs (fieldZ w) value else regs, devices)
  | 1#2 => (regs, store bus devices value (regs (fieldZ w)))
  | 2#2 => (regs, store bus devices (regs (fieldZ w)) value)
  | _ =>
      let (data, devices) := fetch host bus devices value
      (if fieldZ w ≠ 0#4 then Function.update regs (fieldZ w) data else regs, devices)

theorem execute_buildTransfer (host : Host) (bus : Bus σ) (f : Frame σ) (offset : ℕ) (w : Word) :
    (execute host bus f (buildTransfer offset w)).visible =
      transferred host bus f.regs f.devices w (f.cpu.vals (rhsVar offset w)) := by
  have hne : rhsVar offset w ≠ (offset, .tmp) := by
    unfold rhsVar
    split <;> simp
  unfold buildTransfer transferred
  generalize fieldDd w = dd
  obtain rfl | rfl | rfl | rfl : dd = 0#2 ∨ dd = 1#2 ∨ dd = 2#2 ∨ dd = 3#2 := by
    revert dd
    decide
  · by_cases hz : fieldZ w = 0#4 <;> simp [hz, Emitted.step, Frame.visible]
  · simp [Emitted.step, Cpu.set, hne, Frame.visible]
  · simp [Emitted.step, Cpu.set, hne, Frame.visible]
  · by_cases hz : fieldZ w = 0#4 <;> simp [hz, Emitted.step, Cpu.set, Frame.visible]

/-- The emitted code for one instruction, from the value of its right-hand side. -/
theorem execute_buildInstruction (undef : UndefinedShifts) (host : Host) (bus : Bus σ)
    (f : Frame σ) (offset : ℕ) (w : Word) :
    ∃ value,
      (execute host bus f (buildInstruction w offset).1).visible =
        transferred host bus f.regs f.devices w value ∧
      (f.regs 0#4 = 0#32 → CountsInRange (operandView f.regs offset) w →
        value = rhsValue undef (operandView f.regs offset) w) := by
  obtain ⟨cpu, hcpu, hvalue⟩ := execute_buildRhs undef host bus f offset w
  refine ⟨cpu.vals (rhsVar offset w), ?_, hvalue⟩
  simpa only [buildInstruction, execute_append, hcpu] using
    execute_buildTransfer host bus { f with cpu } offset w

/-! ## Agreement with the interpreter -/

/-- The instruction stores `P`, or stores at the address in `P`. -/
def StoresP (w : Word) : Prop :=
  fieldZ w = 15#4 ∧ (fieldDd w = 1#2 ∨ fieldDd w = 2#2)

instance (w : Word) : Decidable (StoresP w) := inferInstanceAs (Decidable (_ ∧ _))

/-- Between the instructions of a block, the array behind `regs` still has the block's base in
`P`. -/
structure Corresponds (base : Word) (offset : ℕ) (f : Frame σ) (s : SimState σ) : Prop where
  stale : f.regs = Function.update s.regs 15#4 base
  ahead : s.regs 15#4 = base + BitVec.ofNat 32 offset
  zero : s.regs 0#4 = 0#32
  devices : f.devices = s.devices

namespace Corresponds

variable {base : Word} {offset : ℕ} {f : Frame σ} {s : SimState σ}

/-- Adding the index makes up for the stale `P`. -/
theorem operandView_eq (h : Corresponds base offset f s) :
    operandView f.regs offset = s.advance.regs := by
  funext n
  by_cases hn : n = 15#4
  · subst hn
    simp [operandView, h.stale, SimState.advance, SimState.setReg, h.ahead, regP,
      BitVec.ofNat_add, BitVec.add_assoc]
  · simp [operandView, h.stale, SimState.advance, SimState.setReg, regP, hn]

theorem advance (h : Corresponds base offset f s) :
    Corresponds base (offset + 1) f s.advance where
  stale := by
    rw [h.stale]
    simp [SimState.advance, SimState.setReg, regP]
  ahead := by
    simp [SimState.advance, SimState.setReg, regP, h.ahead, BitVec.ofNat_add, BitVec.add_assoc]
  zero := by simp [SimState.advance, SimState.setReg, regP, h.zero]
  devices := h.devices

theorem regs_eq (h : Corresponds base offset f s) {r : RegIndex} (hr : r ≠ 15#4) :
    f.regs r = s.regs r := by
  simp [h.stale, hr]

theorem withDevices (h : Corresponds base offset f s) {f' : Frame σ} {devices : σ}
    (hf : f'.visible = (f.regs, devices)) :
    Corresponds base offset f' { s with devices } := by
  obtain ⟨hregs, hdevices⟩ := Prod.mk.inj hf
  exact ⟨hregs.trans h.stale, h.ahead, h.zero, hdevices⟩

/-- Assigning the same value to the same register, other than `P`. -/
theorem writeBack (h : Corresponds base offset f s) {z : RegIndex} (hz : z ≠ 15#4) (value : Word)
    (devices : σ) {f' : Frame σ}
    (hf : f'.visible = (if z ≠ 0#4 then Function.update f.regs z value else f.regs, devices)) :
    Corresponds base offset f' (({ s with devices } : SimState σ).writeBack z value) := by
  obtain ⟨hregs, hdevices⟩ := Prod.mk.inj hf
  by_cases hzero : z = 0#4
  · subst hzero
    exact ⟨hregs.trans h.stale, h.ahead, h.zero, hdevices⟩
  · rw [if_pos hzero, h.stale, Function.update_comm hz.symm] at hregs
    rw [SimState.writeBack, if_neg hzero]
    refine ⟨hregs, ?_, ?_, hdevices⟩
    · simpa [SimState.setReg, hz.symm] using h.ahead
    · simpa [SimState.setReg, Ne.symm hzero] using h.zero

end Corresponds

/-- Registers and devices agree; `P` only counts once the block has assigned it. -/
def Agrees (words : List Word) (f : Frame σ) (s : SimState σ) : Prop :=
  f.devices = s.devices ∧
    ∀ r, (r = 15#4 → ∃ w ∈ words.getLast?, UpdatesP w) → f.regs r = s.regs r

/-- Assigning `P` ends the block with the register file of the interpreter. -/
theorem assigned_agrees {base : Word} {offset : ℕ} {f f' : Frame σ} {t : SimState σ} {w : Word}
    (h : Corresponds base offset f t) (hP : UpdatesP w) (value : Word) (devices : σ)
    (hf : f'.visible = (if fieldZ w ≠ 0#4 then Function.update f.regs (fieldZ w) value else f.regs,
      devices)) :
    Agrees [w] f' (({ t with devices } : SimState σ).writeBack (fieldZ w) value) ∧
      (¬ UpdatesP w → Corresponds base offset f'
        (({ t with devices } : SimState σ).writeBack (fieldZ w) value)) := by
  obtain ⟨hregs, hdevices⟩ := Prod.mk.inj hf
  rw [hP.1, if_pos (by decide)] at hregs
  refine ⟨⟨?_, ?_⟩, fun hnot ↦ absurd hP hnot⟩
  · simpa using hdevices
  · intro r _
    rw [hregs, h.stale]
    simp [hP.1, SimState.writeBack, SimState.setReg, regP]

/-- The callback writes what the interpreter writes. -/
theorem stored_agrees {bus : Bus σ} {base : Word} {offset : ℕ} {f f' : Frame σ} {t s' : SimState σ}
    {addr value : Word} (h : Corresponds base offset f t)
    (hrun : t.store bus addr value = .ok s')
    (hf : f'.visible = (f.regs, store bus f.devices addr value)) :
    Corresponds base offset f' s' := by
  rw [store, h.devices] at hf
  rw [SimState.store] at hrun
  cases hwrite : bus.dispatchOp t.devices .write addr value with
  | none => simp [hwrite] at hrun
  | some result =>
    simp only [hwrite] at hf hrun
    obtain rfl := Except.ok.inj hrun
    exact h.withDevices hf

/-- What one instruction that does not store `P` leaves behind. -/
theorem instruction_agrees (undef : UndefinedShifts) (host : Host) (bus : Bus σ) {base : Word}
    {offset : ℕ} {f : Frame σ} {s s' : SimState σ} {w : Word} (h : Corresponds base offset f s)
    (hcounts : CountsInRange s.advance.regs w) (hrun : runInstruction undef bus s w = .ok s')
    (hstore : ¬ StoresP w) :
    Agrees [w] (execute host bus f (buildInstruction w offset).1) s' ∧
      (¬ UpdatesP w →
        Corresponds base (offset + 1) (execute host bus f (buildInstruction w offset).1) s') := by
  obtain ⟨value, hvisible, hvalue⟩ := execute_buildInstruction undef host bus f offset w
  have hzero : f.regs 0#4 = 0#32 := (h.regs_eq (by decide)).trans h.zero
  rw [h.operandView_eq] at hvalue
  obtain rfl := hvalue hzero hcounts
  rw [runInstruction_eq] at hrun
  generalize rhsValue undef s.advance.regs w = value at hvisible hrun
  generalize execute host bus f (buildInstruction w offset).1 = f' at hvisible ⊢
  have hadv := h.advance
  -- it is enough to follow the correspondence, except when `P` itself is assigned
  have hagrees (hc : Corresponds base (offset + 1) f' s') (hP : ¬ UpdatesP w) :
      Agrees [w] f' s' ∧ (¬ UpdatesP w → Corresponds base (offset + 1) f' s') := by
    refine ⟨⟨hc.devices, ?_⟩, fun _ ↦ hc⟩
    intro r hr
    apply hc.regs_eq
    rintro rfl
    simp [hP] at hr
  have hstale (r : RegIndex) (hr : r ≠ 15#4) : f.regs r = s.advance.regs r := hadv.regs_eq hr
  unfold transferred at hvisible
  rcases fieldDd_cases w with hdd | hdd | hdd | hdd
  · simp only [hdd] at hvisible hrun
    obtain rfl := Except.ok.inj hrun
    rw [h.devices] at hvisible
    by_cases hz : fieldZ w = 15#4
    · exact assigned_agrees hadv ⟨hz, .inl hdd⟩ value s.devices hvisible
    · exact hagrees (hadv.writeBack hz value s.devices hvisible) (fun hP ↦ hz hP.1)
  · have hz : fieldZ w ≠ 15#4 := fun hz ↦ hstore ⟨hz, .inl hdd⟩
    simp only [hdd, hstale _ hz] at hvisible hrun
    refine hagrees ?_ (fun hP ↦ hz hP.1)
    exact stored_agrees hadv hrun hvisible
  · have hz : fieldZ w ≠ 15#4 := fun hz ↦ hstore ⟨hz, .inr hdd⟩
    simp only [hdd, hstale _ hz] at hvisible hrun
    refine hagrees ?_ (fun hP ↦ hz hP.1)
    exact stored_agrees hadv hrun hvisible
  · simp only [hdd, SimState.load, fetch] at hvisible hrun
    rw [show s.advance.devices = f.devices from h.devices.symm] at hrun
    cases hread : bus.dispatchOp f.devices .dataRead value 0#32 with
    | none => simp [hread] at hrun
    | some result =>
      obtain ⟨data, devices⟩ := result
      simp only [hread] at hvisible hrun
      obtain rfl := Except.ok.inj hrun
      by_cases hz : fieldZ w = 15#4
      · exact assigned_agrees hadv ⟨hz, .inr hdd⟩ data devices hvisible
      · exact hagrees (hadv.writeBack hz data devices hvisible) (fun hP ↦ hz hP.1)

/-- `run_instruction` on the words one after another. -/
def runWords (undef : UndefinedShifts) (bus : Bus σ) (s : SimState σ) (words : List Word) :
    Except (SimState σ) (SimState σ) :=
  words.foldlM (runInstruction undef bus) s

/-- Every instruction of the run has its counts in range. -/
def CountsInRangeAlong (undef : UndefinedShifts) (bus : Bus σ) (s : SimState σ) :
    List Word → Prop
  | [] => True
  | w :: rest =>
      CountsInRange s.advance.regs w ∧
        ∀ s', runInstruction undef bus s w = .ok s' → CountsInRangeAlong undef bus s' rest

@[simp]
theorem runWords_singleton (undef : UndefinedShifts) (bus : Bus σ) (s : SimState σ) (w : Word) :
    runWords undef bus s [w] = runInstruction undef bus s w := by
  simp [runWords]

theorem runWords_cons {undef : UndefinedShifts} {bus : Bus σ} {s final : SimState σ} {w : Word}
    {rest : List Word} (h : runWords undef bus s (w :: rest) = .ok final) :
    ∃ s', runInstruction undef bus s w = .ok s' ∧ runWords undef bus s' rest = .ok final := by
  rw [runWords, List.foldlM_cons] at h
  cases hrun : runInstruction undef bus s w with
  | error failed =>
    rw [hrun] at h
    cases h
  | ok s' =>
    rw [hrun] at h
    exact ⟨s', rfl, h⟩

/-- A block in which only the last word may assign `P` and none stores it leaves what the
interpreter leaves. -/
theorem genFrom_agrees (undef : UndefinedShifts) (host : Host) (bus : Bus σ) {base : Word}
    {offset : ℕ} {f : Frame σ} {s final : SimState σ} {words : List Word} (hne : words ≠ [])
    (h : Corresponds base offset f s) (honly : ∀ w ∈ words.dropLast, ¬ UpdatesP w)
    (hcounts : CountsInRangeAlong undef bus s words)
    (hrun : runWords undef bus s words = .ok final) (hstore : ∀ w ∈ words, ¬ StoresP w) :
    Agrees words (execute host bus f (genFrom offset words)) final := by
  induction words generalizing offset f s with
  | nil => exact absurd rfl hne
  | cons w rest ih =>
    rcases runWords_cons hrun with ⟨s', hfirst, hrest⟩
    have hstep := instruction_agrees undef host bus h hcounts.1 hfirst (hstore w (by simp))
    rw [genFrom, execute_append]
    cases rest with
    | nil =>
      obtain rfl : s' = final := Except.ok.inj hrest
      exact hstep.1
    | cons w' rest =>
      have hP : ¬ UpdatesP w := honly w (by simp)
      have hlast := ih (by simp) (hstep.2 hP) (fun v hv ↦ honly v (by simp [hv]))
        (hcounts.2 s' hfirst) hrest (fun v hv ↦ hstore v (by simp [hv]))
      simpa [Agrees] using hlast

/-! ## Devices that see every write -/

/-- The instruction writes to memory. -/
def storing (w : Word) : Bool := fieldDd w == 1#2 || fieldDd w == 2#2

theorem store_logged (bus : Bus σ) (devices : σ × List (Word × Word)) (addr value : Word) :
    (store bus.logged devices addr value).2 = devices.2 ∨
      (store bus.logged devices addr value).2 = devices.2 ++ [(addr, value)] := by
  unfold store Bus.logged
  cases hwrite : bus.dispatchOp devices.1 .write addr value <;> simp [hwrite]

/-- Emitted code for one instruction logs at most one write, and none unless it is a store. -/
theorem instruction_log (undef : UndefinedShifts) (host : Host) (bus : Bus σ)
    (f : Frame (σ × List (Word × Word))) (offset : ℕ) (w : Word) :
    ∃ e, (execute host bus.logged f (buildInstruction w offset).1).devices.2 = f.devices.2 ++ e ∧
      e.length ≤ [w].countP storing := by
  obtain ⟨value, hvisible, -⟩ := execute_buildInstruction undef host bus.logged f offset w
  generalize execute host bus.logged f (buildInstruction w offset).1 = f' at hvisible ⊢
  have hdevices : f'.devices = _ := congrArg Prod.snd hvisible
  rw [hdevices]
  unfold transferred storing
  rcases fieldDd_cases w with hdd | hdd | hdd | hdd
  · exact ⟨[], by simp [hdd]⟩
  · rcases store_logged bus f.devices value (f.regs (fieldZ w)) with hlog | hlog
    · exact ⟨[], by simp [hdd, hlog]⟩
    · exact ⟨_, by simpa [hdd] using hlog, by simp [hdd]⟩
  · rcases store_logged bus f.devices (f.regs (fieldZ w)) value with hlog | hlog
    · exact ⟨[], by simp [hdd, hlog]⟩
    · exact ⟨_, by simpa [hdd] using hlog, by simp [hdd]⟩
  · refine ⟨[], ?_, by simp⟩
    simp only [hdd, fetch, Bus.logged]
    cases bus.dispatchOp f.devices.1 .dataRead value 0#32 <;> simp

theorem genFrom_log (undef : UndefinedShifts) (host : Host) (bus : Bus σ)
    (f : Frame (σ × List (Word × Word))) (offset : ℕ) (words : List Word) :
    ∃ e, (execute host bus.logged f (genFrom offset words)).devices.2 = f.devices.2 ++ e ∧
      e.length ≤ words.countP storing := by
  induction words generalizing offset f with
  | nil => exact ⟨[], by simp [genFrom]⟩
  | cons w rest ih =>
    obtain ⟨e, he, hlen⟩ := instruction_log undef host bus f offset w
    obtain ⟨e', he', hlen'⟩ :=
      ih (execute host bus.logged f (buildInstruction w offset).1) (offset + 1)
    refine ⟨e ++ e', ?_, ?_⟩
    · rw [genFrom, execute_append, he', he, List.append_assoc]
    · rw [List.length_append, ← List.singleton_append, List.countP_append]
      exact Nat.add_le_add hlen hlen'

/-- The interpreter logs exactly one write for a store that succeeds. -/
theorem runInstruction_log {undef : UndefinedShifts} {bus : Bus σ}
    {s s' : SimState (σ × List (Word × Word))} {w : Word}
    (h : runInstruction undef bus.logged s w = .ok s') :
    ∃ e, s'.devices.2 = s.devices.2 ++ e ∧ e.length = [w].countP storing ∧
      (fieldDd w = 1#2 → e = [(rhsValue undef s.advance.regs w, s.advance.regs (fieldZ w))]) ∧
      (fieldDd w = 2#2 → e = [(s.advance.regs (fieldZ w), rhsValue undef s.advance.regs w)]) := by
  have hlogged {addr value : Word} (hok : s.advance.store bus.logged addr value = .ok s') :
      s'.devices.2 = s.devices.2 ++ [(addr, value)] := by
    unfold SimState.store Bus.logged at hok
    cases hwrite : bus.dispatchOp s.advance.devices.1 .write addr value with
    | none => simp [hwrite] at hok
    | some result =>
      simp only [hwrite, Option.map_some] at hok
      obtain rfl := Except.ok.inj hok
      rfl
  rw [runInstruction_eq] at h
  rcases fieldDd_cases w with hdd | hdd | hdd | hdd
  all_goals
    simp only [hdd] at h
  · obtain rfl := Except.ok.inj h
    refine ⟨[], ?_, by simp [storing, hdd], by simp [hdd], by simp [hdd]⟩
    simp [SimState.writeBack_devices, SimState.advance_devices]
  · exact ⟨_, hlogged h, by simp [storing, hdd], fun _ ↦ rfl, by simp [hdd]⟩
  · exact ⟨_, hlogged h, by simp [storing, hdd], by simp [hdd], fun _ ↦ rfl⟩
  · refine ⟨[], ?_, by simp [storing, hdd], by simp [hdd], by simp [hdd]⟩
    unfold SimState.load Bus.logged at h
    cases hread : bus.dispatchOp s.advance.devices.1 .dataRead
        (rhsValue undef s.advance.regs w) 0#32 with
    | none => simp [hread] at h
    | some result =>
      simp only [hread, Option.map_some] at h
      obtain rfl := Except.ok.inj h
      simp [SimState.writeBack_devices, SimState.advance_devices]

theorem runWords_log {undef : UndefinedShifts} {bus : Bus σ}
    {s final : SimState (σ × List (Word × Word))} {words : List Word}
    (h : runWords undef bus.logged s words = .ok final) :
    ∃ e, final.devices.2 = s.devices.2 ++ e ∧ e.length = words.countP storing := by
  induction words generalizing s with
  | nil =>
    obtain rfl : s = final := Except.ok.inj h
    exact ⟨[], by simp⟩
  | cons w rest ih =>
    rcases runWords_cons h with ⟨s', hfirst, hrest⟩
    obtain ⟨e, he, hlen, -⟩ := runInstruction_log hfirst
    obtain ⟨e', he', hlen'⟩ := ih hrest
    refine ⟨e ++ e', ?_, ?_⟩
    · rw [he', he, List.append_assoc]
    · rw [List.length_append, ← List.singleton_append, List.countP_append, hlen, hlen']

/-- A store of `P` in emitted code uses the base of the block, and the log shows it. -/
theorem instruction_log_ne (undef : UndefinedShifts) (host : Host) (bus : Bus σ) {base : Word}
    {offset : ℕ} {f : Frame (σ × List (Word × Word))} {s s' : SimState (σ × List (Word × Word))}
    {w : Word} (h : Corresponds base offset f s) (hindex : BitVec.ofNat 32 (offset + 1) ≠ 0#32)
    (hrun : runInstruction undef bus.logged s w = .ok s') (hstore : StoresP w) (e : List (Word × Word))
    (hlog : (execute host bus.logged f (buildInstruction w offset).1).devices.2 = f.devices.2 ++ e) :
    s'.devices.2 ≠ s.devices.2 ++ e := by
  obtain ⟨value, hvisible, -⟩ := execute_buildInstruction undef host bus.logged f offset w
  obtain ⟨e', he', hlen, hright, hleft⟩ := runInstruction_log hrun
  have hdevices : (execute host bus.logged f (buildInstruction w offset).1).devices = _ :=
    congrArg Prod.snd hvisible
  rw [hdevices] at hlog
  have hP : f.regs 15#4 ≠ s.advance.regs 15#4 := by
    rw [h.stale, h.advance.ahead]
    simpa using hindex
  rw [he']
  intro heq
  obtain rfl := List.append_cancel_left heq
  rcases hstore with ⟨hz, hdd | hdd⟩
  · rw [hright hdd] at hlog
    simp only [transferred, hdd, hz] at hlog
    rcases store_logged bus f.devices value (f.regs 15#4) with hstored | hstored
    · simp [hstored] at hlog
    · rw [hstored] at hlog
      simp [hP] at hlog
  · rw [hleft hdd] at hlog
    simp only [transferred, hdd, hz] at hlog
    rcases store_logged bus f.devices (f.regs 15#4) value with hstored | hstored
    · simp [hstored] at hlog
    · rw [hstored] at hlog
      simp [hP] at hlog

/-- Once the logs differ at a store of `P`, later writes cannot make up for it. -/
theorem genFrom_disagrees (undef : UndefinedShifts) (host : Host) (bus : Bus σ) {base : Word}
    {offset : ℕ} {f : Frame (σ × List (Word × Word))}
    {s final : SimState (σ × List (Word × Word))} {words : List Word}
    (h : Corresponds base offset f s) (hlen : offset + words.length < 2 ^ 32)
    (honly : ∀ w ∈ words.dropLast, ¬ UpdatesP w)
    (hcounts : CountsInRangeAlong undef bus.logged s words)
    (hrun : runWords undef bus.logged s words = .ok final) (hstore : ∃ w ∈ words, StoresP w) :
    ¬ Agrees words (execute host bus.logged f (genFrom offset words)) final := by
  induction words generalizing offset f s with
  | nil => simp at hstore
  | cons w rest ih =>
    rcases runWords_cons hrun with ⟨s', hfirst, hrest⟩
    rw [genFrom, execute_append]
    by_cases hw : StoresP w
    · rintro ⟨hdevices, -⟩
      obtain ⟨e, he, hlene⟩ := instruction_log undef host bus f offset w
      obtain ⟨e₁, he₁, hlene₁⟩ := genFrom_log undef host bus
        (execute host bus.logged f (buildInstruction w offset).1) (offset + 1) rest
      obtain ⟨e', he', hlene', -⟩ := runInstruction_log hfirst
      obtain ⟨e₁', he₁', hlene₁'⟩ := runWords_log hrest
      have hindex : BitVec.ofNat 32 (offset + 1) ≠ 0#32 := by
        intro hzero
        have htoNat := congrArg BitVec.toNat hzero
        simp only [BitVec.toNat_ofNat, List.length_cons] at htoNat hlen
        omega
      have hne := instruction_log_ne undef host bus h hindex hfirst hw e he
      apply hne
      -- both logs extend the common one, and the emitted code has written no more words
      rw [hdevices, he₁', he', he, h.devices, List.append_assoc, List.append_assoc] at he₁
      have htails := List.append_cancel_left he₁
      have hsame : e'.length = e.length := by
        have htotal := congrArg List.length htails
        simp only [List.length_append] at htotal
        omega
      rw [he', (List.append_inj htails hsame).1]
    · cases rest with
      | nil => simp [hw] at hstore
      | cons w' rest =>
        have hP : ¬ UpdatesP w := honly w (by simp)
        have hstep := instruction_agrees undef host bus.logged h hcounts.1 hfirst hw
        have hlater : ∃ v ∈ w' :: rest, StoresP v := by simpa [hw] using hstore
        have hrest' := ih (hstep.2 hP) (by simp only [List.length_cons] at hlen ⊢; omega)
          (fun v hv ↦ honly v (by simp [hv])) (hcounts.2 s' hfirst) hrest hlater
        simpa [Agrees] using hrest'

/-! ## Blocks -/

/-- Entering a block: `regs` is the interpreter's register file, and `P` is the base. -/
def enter (cpu : Cpu GpVar) (s : SimState σ) : Frame σ where
  cpu := cpu
  regs := s.regs
  devices := s.devices

theorem enter_corresponds (cpu : Cpu GpVar) {s : SimState σ} (hA : s.regs 0#4 = 0#32) :
    Corresponds (s.regs 15#4) 0 (enter cpu s) s where
  stale := by simp [enter]
  ahead := by simp
  zero := hA
  devices := rfl

/-- **A generated block agrees with the interpreter** exactly when no word of it stores `P`. Over
devices of any kind that is sufficient; over devices that see every write it is necessary. -/
theorem jitGenBlock_agrees_iff (undef : UndefinedShifts) (host : Host) (bus : Bus σ)
    (cpu : Cpu GpVar) (words : List Word) (hne : words ≠ []) (hlen : words.length < 2 ^ 31)
    (honly : ∀ w ∈ words.dropLast, ¬ UpdatesP w) :
    (∀ s final : SimState σ, s.regs 0#4 = 0#32 → CountsInRangeAlong undef bus s words →
      runWords undef bus s words = .ok final → (∀ w ∈ words, ¬ StoresP w) →
      Agrees words (execute host bus (enter cpu s) (jitGenBlock words)) final) ∧
    (∀ s final : SimState (σ × List (Word × Word)), s.regs 0#4 = 0#32 →
      CountsInRangeAlong undef bus.logged s words →
      runWords undef bus.logged s words = .ok final →
      (Agrees words (execute host bus.logged (enter cpu s) (jitGenBlock words)) final ↔
        ∀ w ∈ words, ¬ StoresP w)) := by
  refine ⟨?_, ?_⟩
  · intro s final hA hcounts hrun hstore
    exact genFrom_agrees undef host bus hne (enter_corresponds cpu hA) honly hcounts hrun hstore
  · intro s final hA hcounts hrun
    constructor
    · intro hagrees
      by_contra hstore
      have hsome : ∃ w ∈ words, StoresP w := by simpa using hstore
      exact genFrom_disagrees undef host bus (enter_corresponds cpu hA) (by omega) honly hcounts
        hrun hsome hagrees
    · exact genFrom_agrees undef host bus.logged hne (enter_corresponds cpu hA) honly hcounts hrun

/-- A host that leaves all undescribed flags clear and reads zero where nothing answers. -/
def clearHost : Host where
  flags _ _ := { zf := false, sf := false, cf := false, of := false }
  callFlags _ := { zf := false, sf := false, cf := false, of := false }
  failedFetch _ := 0#32

/-- No register or flag is set when the block is entered. -/
def clearCpu : Cpu GpVar where
  vals _ := 0#32
  flags := { zf := false, sf := false, cf := false, of := false }

/-- All of memory answers. -/
abbrev allMemory : Bus (Word → Word) := memoryBus fun _ _ ↦ true

/-- `B <- C + D`, `B -> [C + 0x100]`, `E <- [P + 1]` and `P <- E`. -/
def sumWords : List Word :=
  [type012 0#2 0#2 1#4 2#4 3#4 .add 0#12, type012 0#2 1#2 1#4 2#4 0#4 .bitwiseOr 0x100#12,
    type012 0#2 3#2 4#4 15#4 0#4 .bitwiseOr 1#12, type012 0#2 0#2 15#4 4#4 0#4 .bitwiseOr 0#12]

/-- `C` is 5 and `D` is 7, and the block starts at `0x1000`. -/
def sumRegs : RegIndex → Word :=
  Function.update (Function.update (Function.update (fun _ ↦ 0#32) 2#4 5#32) 3#4 7#32) 15#4 0x1000#32

/-- The word that the block loads lies behind it. -/
def sumCells : Word → Word := Function.update (fun _ ↦ 0#32) 0x1004#32 0x2a#32

theorem sumWords_counts {σ : Type} (undef : UndefinedShifts) (bus : Bus σ) (s : SimState σ) :
    CountsInRangeAlong undef bus s sumWords := by
  have hcount {op : Op} (hop : usesCount op = false) (right : Word) : CountInRange op right :=
    fun huses ↦ absurd (hop.symm.trans huses) Bool.false_ne_true
  exact ⟨hcount rfl _, fun _ _ ↦ ⟨hcount rfl _, fun _ _ ↦ ⟨hcount rfl _, fun _ _ ↦ ⟨hcount rfl _, fun _ _ ↦ trivial⟩⟩⟩⟩

theorem runWords_sumWords :
    (∃ final, runWords .masked allMemory ⟨sumRegs, sumCells, 0⟩ sumWords = .ok final ∧ ∀ r, final.regs r =
      Function.update (Function.update (Function.update sumRegs 1#4 12#32) 4#4 0x2a#32) 15#4 0x2a#32 r) ∧
    ∃ final, runWords .masked allMemory.logged ⟨sumRegs, (sumCells, []), 0⟩ sumWords = .ok final ∧
      final.devices = (Function.update sumCells 0x105#32 12#32, [(0x105#32, 12#32)]) :=
  ⟨⟨_, rfl, by decide⟩, ⟨_, rfl, rfl⟩⟩

/-- The block writes one word and goes on where the loaded word says, over plain cells and over cells with a log. -/
theorem jitGenBlock_agrees_sumWords :
    (∀ r, (execute clearHost allMemory (enter clearCpu ⟨sumRegs, sumCells, 0⟩) (jitGenBlock sumWords)).regs r =
      Function.update (Function.update (Function.update sumRegs 1#4 12#32) 4#4 0x2a#32) 15#4 0x2a#32 r) ∧
    (execute clearHost allMemory.logged (enter clearCpu ⟨sumRegs, (sumCells, []), 0⟩)
      (jitGenBlock sumWords)).devices = (Function.update sumCells 0x105#32 12#32, [(0x105#32, 12#32)]) := by
  have hstore : ∀ w ∈ sumWords, ¬ StoresP w := by simp [sumWords, StoresP]
  obtain ⟨hplain, hlogged⟩ := jitGenBlock_agrees_iff .masked clearHost allMemory clearCpu sumWords
    (List.cons_ne_nil _ _) (by simp [sumWords]) (by simp [sumWords, UpdatesP, regP])
  obtain ⟨⟨final, hrun, hregs⟩, ⟨last, hrun', hdevices⟩⟩ := runWords_sumWords
  constructor
  · intro r
    have hagrees := hplain _ final rfl (sumWords_counts _ _ _) hrun hstore
    rw [hagrees.2 r fun _ ↦ ⟨_, rfl, by simp [UpdatesP]⟩, hregs]
  · have hagrees := (hlogged _ last rfl (sumWords_counts _ _ _) hrun').mpr hstore
    rw [hagrees.1, hdevices]

/-- Registers and memory are zero, and the block starts at `0x1000`. -/
def atBase : SimState (Word → Word) where
  regs r := if r = 15#4 then 0x1000#32 else 0#32
  devices _ := 0#32
  insnsExecuted := 0

/-- `P -> [B]` -/
def storeP : Word := type012 0#2 1#2 15#4 1#4 0#4 .bitwiseOr 0#12

/-- Running `P -> [B]` stores the address of the next instruction, but the block generated for it
stores its own base. -/
theorem jitGenBlock_storeP :
    CountsInRangeAlong .masked allMemory atBase [storeP] ∧
    (∀ w ∈ [storeP].dropLast, ¬ UpdatesP w) ∧
    ∃ final, runWords .masked allMemory atBase [storeP] = .ok final ∧
      final.devices 0#32 = 0x1001#32 ∧
      (execute clearHost allMemory (enter clearCpu atBase) (jitGenBlock [storeP])).devices 0#32 =
        0x1000#32 ∧
      ¬ Agrees [storeP]
        (execute clearHost allMemory (enter clearCpu atBase) (jitGenBlock [storeP])) final := by
  have hrhs : rhsValue .masked atBase.advance.regs storeP = 0#32 := by
    simp [storeP, rhsValue, doOp, operands, atBase, SimState.advance, SimState.setReg, regP]
  have hblock : (execute clearHost allMemory (enter clearCpu atBase)
      (jitGenBlock [storeP])).devices 0#32 = 0x1000#32 := by
    simp [jitGenBlock, genFrom, buildInstruction, buildRhs, buildTransfer, buildOperand, storeP,
      combine, buildOp, rhsVar, Emitted.step, Insn.step, Cpu.set, Cpu.setFlags, store, memoryBus,
      enter, atBase, clearCpu]
  let final : SimState (Word → Word) :=
    { atBase.advance with devices := Function.update (fun _ ↦ 0#32) 0#32 0x1001#32 }
  have hrun : runWords .masked allMemory atBase [storeP] = .ok final := by
    rw [runWords_singleton, runInstruction_eq, hrhs]
    simp [storeP, SimState.store, memoryBus, final, atBase, SimState.advance, SimState.setReg]
  refine ⟨⟨?_, fun _ _ ↦ trivial⟩, by simp, final, hrun, by simp [final], hblock, ?_⟩
  · simp [CountsInRange, CountInRange, storeP, insnOp, usesCount]
  · rintro ⟨hdevices, -⟩
    rw [hdevices] at hblock
    simp [final] at hblock

end Tenyr.Jit
