import Tenyr.Jit.Codegen
import Tenyr.Lib.Transition

/-!
# The driver of the just-in-time compiler

`preInsnHook`, `postInsnHook` and `jitStep` follow `pre_insn_hook`, `post_insn_hook` and the loop of
`jit_run_sim`. Basic blocks are found through `tsearch`, which is a parameter: all that is used is
that a block it finds has the base it was asked for. A compiled block is represented by the words it
was compiled from. Accesses outside the cache, reads of entries never written and failed assertions
set `fault`.
-/

namespace Tenyr.Jit

open Isa Sim Lib.Transition

/-- `struct basic_block`. -/
structure BasicBlock where
  runCount : Word
  complete : Bool
  base : Word
  len : Word
  compiled : Option (List Word)
  cache : Option (List (Option Word))

/-- `struct ops_state`. Blocks are listed in the order of their creation. `written` collects the
states in which `P` has just been written; the program does not look at it. -/
structure OpsState (σ : Type) where
  basicBlocks : List BasicBlock
  currBb : Option ℕ
  fault : Bool
  written : List (SimState σ)

/-- `tsearch` on the bases of the blocks so far: the index of an existing block, or none when the
key is inserted. -/
abbrev Search := List Word → Word → Option ℕ

/-- A found block compares equal to the key. -/
def Search.Finds (tsearch : Search) : Prop :=
  ∀ bases base k, tsearch bases base = some k → bases[k]? = some base

variable {σ : Type}

/-- The current block, created when there is none at this address. -/
def openBlock (tsearch : Search) (o : OpsState σ) (reladdr : Word) : OpsState σ × ℕ :=
  match o.currBb with
  | some k => (o, k)
  | none =>
    match tsearch (o.basicBlocks.map BasicBlock.base) reladdr with
    | some k => ({ o with currBb := some k }, k)
    | none =>
      let nb : BasicBlock :=
        { runCount := 0#32, complete := false, base := reladdr, len := 0#32,
          compiled := none, cache := none }
      let k := o.basicBlocks.length
      ({ o with basicBlocks := o.basicBlocks ++ [nb], currBb := some k }, k)

/-- Cache an instruction so that it is ready for compilation; `none` is an access out of bounds. -/
def BasicBlock.cacheInsn (bb : BasicBlock) (i : Fetched) : Option BasicBlock :=
  let cache := bb.cache.getD (List.replicate bb.len.toNat none)
  let index := (i.reladdr - bb.base).toNat
  if index < cache.length then some { bb with cache := some (cache.set index (some i.word)) }
  else none

/-- Compile the cached instructions; `none` is a failed assertion or an invalid read. -/
def BasicBlock.compile (bb : BasicBlock) : Option BasicBlock :=
  if bb.complete then
    match bb.cache with
    | none => none
    | some cache =>
      if bb.len.toNat ≤ cache.length then
        ((cache.take bb.len.toNat).mapM id).map fun code ↦
          { bb with compiled := some code, cache := none }
      else none
  else none

namespace OpsState

def setBlock (o : OpsState σ) (k : ℕ) (bb : BasicBlock) : OpsState σ :=
  { o with basicBlocks := o.basicBlocks.set k bb }

def setFault (o : OpsState σ) : OpsState σ :=
  { o with fault := true }

end OpsState

def preInsnHook (tsearch : Search) (runCountThreshold : Word) (ops : RunOps σ Unit)
    (s : SimState σ) (i : Fetched) (o : OpsState σ) : Bool × SimState σ × OpsState σ :=
  let (o, k) := openBlock tsearch o i.reladdr
  match o.basicBlocks[k]? with
  | none => (true, s, o.setFault)
  | some bb =>
    if bb.compiled.isSome then (true, s, o)  -- indicate that JIT should be used
    else if bb.runCount = runCountThreshold then
      let o :=
        match bb.cacheInsn i with
        | none => o.setFault
        | some bb => o.setBlock k bb
      let (rc, s, _) := ops.preInsn s i ()
      (rc, s, o)
    else if runCountThreshold.slt bb.runCount then
      match bb.compile with
      | none => (true, s, o.setFault)
      | some bb => (true, s, o.setBlock k bb)
    else
      let (rc, s, _) := ops.preInsn s i ()
      (rc, s, o)

def postInsnHook (ops : RunOps σ Unit) (s : SimState σ) (i : Fetched) (o : OpsState σ) :
    Bool × SimState σ × OpsState σ :=
  let (rc, s, _) := ops.postInsn s i ()
  if UpdatesP i.word then  -- P is being updated
    match o.currBb.bind fun k ↦ o.basicBlocks[k]?.map fun bb ↦ (k, bb) with
    | none => (true, s, o.setFault)
    | some (k, bb) =>
      let bb :=
        { bb with
          len := i.reladdr - bb.base + 1#32, complete := true, runCount := bb.runCount + 1#32 }
      (true, s, { o.setBlock k bb with currBb := none, written := o.written ++ [s] })
  else (rc, s, o)

def wrappers (tsearch : Search) (runCountThreshold : Word) (ops : RunOps σ Unit) :
    RunOps σ (OpsState σ) where
  preInsn := preInsnHook tsearch runCountThreshold ops
  postInsn := postInsnHook ops

/-- `jit_run_sim` is at the top of its loop, or in the nested interpreter. -/
structure JitState (σ : Type) where
  sim : SimState σ
  ops : OpsState σ
  nested : Bool

/-- The effect of a compiled block: its instructions in order. A failed access is not noticed. -/
def runCompiled (undef : UndefinedShifts) (bus : Bus σ) (code : List Word) (s : SimState σ) :
    SimState σ :=
  match runWords undef bus s code with
  | .ok s => s
  | .error s => s

/-- The block that the loop of `jit_run_sim` calls before the nested interpreter. -/
def OpsState.readyBlock (o : OpsState σ) : Option (ℕ × BasicBlock × List Word) :=
  match o.currBb with
  | none => none
  | some k =>
    match o.basicBlocks[k]? with
    | none => none
    | some bb => bb.compiled.map fun code ↦ (k, bb, code)

/-- Run a compiled block and leave it. -/
def runBlock (undef : UndefinedShifts) (bus : Bus σ) (j : JitState σ) (k : ℕ) (bb : BasicBlock)
    (code : List Word) : JitState σ :=
  let s := (runCompiled undef bus code j.sim).count bb.len.toNat
  { sim := s
    ops :=
      { j.ops.setBlock k { bb with runCount := bb.runCount + 1#32 } with
        currBb := none, written := j.ops.written ++ [s] }
    nested := true }

/-- One pass of `jit_run_sim`: entering the nested interpreter, or one iteration in it. The machine
stops when the nested interpreter returns a negative number. -/
def jitStep (undef : UndefinedShifts) (bus : Bus σ) (tsearch : Search) (runCountThreshold : Word)
    (dispatchCycle : σ → Bool × σ) (j : JitState σ) : Option (JitState σ) :=
  if j.nested then
    match interpIteration undef bus
        (wrappers tsearch runCountThreshold (tsimOps dispatchCycle)) j.sim j.ops with
    | .running sim ops => some { sim, ops, nested := true }
    | .returned rc sim ops =>
      if 0 ≤ rc then
        some { sim := { sim with devices := (dispatchCycle sim.devices).2 }, ops, nested := false }
      else none
  else
    match j.ops.readyBlock with
    | some (k, bb, code) => some (runBlock undef bus j k bb code)
    | none => some { j with nested := true }

/-- `jit_run_sim` before its loop. -/
def jitInit (s : SimState σ) : JitState σ where
  sim := s
  ops := { basicBlocks := [], currBb := none, fault := false, written := [] }
  nested := false

end Tenyr.Jit
