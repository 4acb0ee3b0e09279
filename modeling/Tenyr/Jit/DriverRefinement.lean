import Tenyr.Jit.Driver

/-!
# The driver follows the interpreter

A block table is sound when every complete block is a straight line of instruction words that ends
in the first one to assign `P`, and caches and compiled blocks hold the words of such a line. Under
a sound table every pass of the driver is some number of steps of the interpreter, so both machines
go through the same states wherever `P` has just been written.
-/

namespace Tenyr.Jit

open Isa Sim Lib.Transition

variable {σ : Type}

/-- The interpreter together with the states in which `P` had just been written. -/
structure Observed (σ : Type) where
  sim : SimState σ
  written : List (SimState σ)

/-- The instruction about to be executed assigns `P`. -/
def aboutToWriteP (bus : Bus σ) (s : SimState σ) : Bool :=
  (bus.dispatchOp s.devices .insnRead (s.regs regP) 0#32).any fun fetched ↦ UpdatesP fetched.1

/-- One instruction of the interpreter. -/
def observedStep (undef : UndefinedShifts) (bus : Bus σ) (a : Observed σ) : Option (Observed σ) :=
  (interpStep undef bus a.sim).map fun s ↦
    { sim := s, written := if aboutToWriteP bus a.sim then a.written ++ [s] else a.written }

/-- The interpreter before its first instruction. -/
def Observed.start (s : SimState σ) : Observed σ where
  sim := s
  written := []

theorem steps_observedStep_sim {undef : UndefinedShifts} {bus : Bus σ} {n : ℕ} {a b : Observed σ}
    (h : steps (observedStep undef bus) n a = some b) :
    steps (interpStep undef bus) n a.sim = some b.sim := by
  induction n generalizing a with
  | zero =>
    obtain rfl : a = b := by simpa using h
    rfl
  | succ n ih =>
    rw [steps_succ, Option.bind_eq_some_iff] at h
    rcases h with ⟨c, hstep, hrest⟩
    rw [observedStep, Option.map_eq_some_iff] at hstep
    rcases hstep with ⟨s, hs, rfl⟩
    rw [steps_succ, hs]
    exact ih hrest

/-- The programs and memories the driver is run on: no access fails before the end condition, and
no word fetched as an instruction ever differs from what it was at the start. -/
structure Settled (undef : UndefinedShifts) (handles : MemoryOp → Word → Bool)
    (start : SimState (Word → Word)) : Prop where
  accessible : ∀ n s, steps (interpStep undef (memoryBus handles)) n start = some s →
    s.regs regP ≠ 0xffffffff#32 → interpStep undef (memoryBus handles) s ≠ none
  unwritten : ∀ n m s t, steps (interpStep undef (memoryBus handles)) n start = some s →
    steps (interpStep undef (memoryBus handles)) m start = some t →
    s.regs regP ≠ 0xffffffff#32 → t.devices (s.regs regP) = start.devices (s.regs regP)

section Program

variable (undef : UndefinedShifts) (handles : MemoryOp → Word → Bool)
  (start : SimState (Word → Word))

/-- The interpreter reaches this point. -/
def Reached (a : Observed (Word → Word)) : Prop :=
  ∃ n, steps (observedStep undef (memoryBus handles)) n (.start start) = some a

/-- An instruction is fetched from this address at some time. -/
def IsCode (addr : Word) : Prop :=
  addr ≠ 0xffffffff#32 ∧ ∃ a, Reached undef handles start a ∧ a.sim.regs regP = addr

/-- The word at an offset from a base. -/
def wordAt (base : Word) (i : ℕ) : Word :=
  start.devices (base + BitVec.ofNat 32 i)

/-- The words of a line of code. -/
def lineWords (base : Word) (len : ℕ) : List Word :=
  (List.range len).map (wordAt start base)

/-- `len` instructions of which the last one, and no other, assigns `P`. -/
structure StraightLine (base : Word) (len : ℕ) : Prop where
  pos : 0 < len
  code : ∀ i < len, IsCode undef handles start (base + BitVec.ofNat 32 i)
  inner : ∀ i, i + 1 < len → ¬ UpdatesP (wordAt start base i)
  last : UpdatesP (wordAt start base (len - 1))

variable {undef handles start}

theorem Reached.trans {a b : Observed (Word → Word)} {n : ℕ} (ha : Reached undef handles start a)
    (h : steps (observedStep undef (memoryBus handles)) n a = some b) :
    Reached undef handles start b := by
  rcases ha with ⟨m, hm⟩
  refine ⟨m + n, ?_⟩
  rw [steps_add, hm]
  exact h

/-- The interpreter at an address of the code executes the word that was there at the start. -/
theorem Settled.step (h : Settled undef handles start) {a : Observed (Word → Word)}
    (ha : Reached undef handles start a) (hend : a.sim.regs regP ≠ 0xffffffff#32) :
    ∃ next, handles .insnRead (a.sim.regs regP) = true ∧
      a.sim.devices (a.sim.regs regP) = start.devices (a.sim.regs regP) ∧
      runInstruction undef (memoryBus handles) a.sim (start.devices (a.sim.regs regP)) =
        .ok next ∧
      observedStep undef (memoryBus handles) a = some
        { sim := next.count 1
          written := if UpdatesP (start.devices (a.sim.regs regP)) then
            a.written ++ [next.count 1] else a.written } := by
  rcases ha with ⟨n, hn⟩
  have hsim := steps_observedStep_sim hn
  obtain ⟨s', hs'⟩ := Option.ne_none_iff_exists'.mp (h.accessible n _ hsim hend)
  have hword := h.unwritten n n _ _ hsim hsim hend
  obtain ⟨-, word, devices, next, hfetch, hrun, rfl⟩ := (interpStep_eq_some_iff _ _ _ _).mp hs'
  have hhandles : handles .insnRead (a.sim.regs regP) = true := by
    by_contra hnot
    simp [memoryBus, hnot] at hfetch
  have hsome : word = a.sim.devices (a.sim.regs regP) ∧ devices = a.sim.devices := by
    have hpair : (a.sim.devices (a.sim.regs regP), a.sim.devices) = (word, devices) := by
      simpa [memoryBus, hhandles] using hfetch
    exact ⟨(congrArg Prod.fst hpair).symm, (congrArg Prod.snd hpair).symm⟩
  obtain ⟨rfl, rfl⟩ := hsome
  rw [hword] at hrun
  refine ⟨next, hhandles, hword, hrun, ?_⟩
  have habout : aboutToWriteP (memoryBus handles) a.sim =
      decide (UpdatesP (start.devices (a.sim.regs regP))) := by
    simp [aboutToWriteP, memoryBus, hhandles, hword]
  rw [observedStep, hs', habout]
  simp [SimState.count]

theorem runWords_of_ok {bus : Bus σ} {s s' : SimState σ} {w : Word} (rest : List Word)
    (h : runInstruction undef bus s w = .ok s') :
    runWords undef bus s (w :: rest) = runWords undef bus s' rest := by
  rw [runWords, List.foldlM_cons, h]
  rfl

theorem runWords_count (bus : Bus σ) (s : SimState σ) (k : ℕ) (words : List Word) :
    runWords undef bus (s.count k) words = countResult k (runWords undef bus s words) := by
  induction words generalizing s with
  | nil => rfl
  | cons w rest ih =>
    have hcount := runInstruction_count undef bus s k w
    cases hrun : runInstruction undef bus s w with
    | error failed =>
      rw [hrun] at hcount
      simp only [runWords, List.foldlM_cons, hcount, hrun]
      rfl
    | ok s' =>
      rw [hrun] at hcount
      rw [runWords_of_ok rest hcount, runWords_of_ok rest hrun]
      exact ih s'

theorem count_count (s : SimState σ) (k l : ℕ) : (s.count k).count l = s.count (k + l) := by
  simp [SimState.count, Nat.add_assoc]

@[simp]
theorem wordAt_zero (base : Word) : wordAt start base 0 = start.devices base := by
  simp [wordAt]

theorem add_ofNat_succ (base : Word) (i : ℕ) :
    base + BitVec.ofNat 32 (i + 1) = base + 1#32 + BitVec.ofNat 32 i := by
  rw [BitVec.ofNat_add, BitVec.add_comm (BitVec.ofNat 32 i), BitVec.add_assoc]

theorem wordAt_succ (base : Word) (i : ℕ) :
    wordAt start (base + 1#32) i = wordAt start base (i + 1) := by
  rw [wordAt, wordAt, add_ofNat_succ base i]

theorem lineWords_succ (base : Word) (len : ℕ) :
    lineWords start base (len + 1) = start.devices base :: lineWords start (base + 1#32) len := by
  simp [lineWords, List.range_succ_eq_map, Function.comp_def, wordAt_succ]

/-- The rest of a straight line after its first instruction. -/
theorem StraightLine.tail {base : Word} {len : ℕ}
    (h : StraightLine undef handles start base (len + 2)) :
    StraightLine undef handles start (base + 1#32) (len + 1) where
  pos := Nat.succ_pos len
  code i hi := by
    have hcode := h.code (i + 1) (by omega)
    rwa [add_ofNat_succ base i] at hcode
  inner i hi := by
    rw [wordAt_succ]
    exact h.inner (i + 1) (by omega)
  last := by
    rw [wordAt_succ]
    exact h.last

/-- **Running the words of a straight line** is running the interpreter over it. -/
theorem StraightLine.run (h : Settled undef handles start) {base : Word} {len : ℕ}
    (hline : StraightLine undef handles start base len) {a : Observed (Word → Word)}
    (ha : Reached undef handles start a) (hbase : a.sim.regs regP = base) :
    ∃ r, runWords undef (memoryBus handles) a.sim (lineWords start base len) = .ok r ∧
      steps (observedStep undef (memoryBus handles)) len a = some
        { sim := r.count len, written := a.written ++ [r.count len] } := by
  induction len generalizing base a with
  | zero => exact absurd hline.pos (Nat.lt_irrefl 0)
  | succ len ih =>
    have hend : a.sim.regs regP ≠ 0xffffffff#32 := by
      have hcode := (hline.code 0 hline.pos).1
      simpa [hbase] using hcode
    obtain ⟨next, -, -, hrun, hstep⟩ := h.step ha hend
    rw [hbase] at hrun hstep
    rw [lineWords_succ, runWords_of_ok _ hrun, steps_succ, hstep, Option.bind_some]
    cases len with
    | zero =>
      have hlast : UpdatesP (start.devices base) := by simpa using hline.last
      rw [if_pos hlast]
      exact ⟨next, rfl, rfl⟩
    | succ len =>
      have hinner : ¬ UpdatesP (start.devices base) := by simpa using hline.inner 0 (by omega)
      rw [if_neg hinner] at hstep ⊢
      have hreached : Reached undef handles start
          { sim := next.count 1, written := a.written } := ha.trans (n := 1) (by
        rw [steps_succ, hstep]
        rfl)
      have hnext : (next.count 1).regs regP = base + 1#32 := by
        rw [← hbase, ← runInstruction_regP hrun hinner]
        rfl
      obtain ⟨r, hr, hsteps⟩ := ih hline.tail hreached hnext
      -- the count of the first instruction passes through the remaining ones
      rw [runWords_count] at hr
      cases hwords : runWords undef (memoryBus handles) next (lineWords start (base + 1#32) (len + 1)) with
      | error failed =>
        rw [hwords] at hr
        cases hr
      | ok r' =>
        rw [hwords] at hr
        obtain rfl : r'.count 1 = r := Except.ok.inj hr
        refine ⟨r', rfl, ?_⟩
        rw [hsteps, count_count, Nat.add_comm 1]

/-- A line ends at the first instruction that assigns `P`, so its length is determined. -/
theorem StraightLine.length_eq {base : Word} {len off : ℕ}
    (h : StraightLine undef handles start base len)
    (hinner : ∀ i < off, ¬ UpdatesP (wordAt start base i)) (hlast : UpdatesP (wordAt start base off)) :
    len = off + 1 := by
  have hpos := h.pos
  rcases Nat.lt_trichotomy len (off + 1) with hlt | heq | hgt
  · exact absurd h.last (hinner (len - 1) (by omega))
  · exact heq
  · exact absurd hlast (h.inner off hgt)

/-- Before the first instruction that assigns `P`, one is within the line. -/
theorem StraightLine.lt_of_inner {base : Word} {len off : ℕ}
    (h : StraightLine undef handles start base len)
    (hinner : ∀ i < off, ¬ UpdatesP (wordAt start base i)) : off < len := by
  have hpos := h.pos
  by_contra hle
  exact hinner (len - 1) (by omega) h.last

/-! ## The block table -/

/-- The first `n` entries of a cache hold the words of the line at `base`. -/
def Holds (start : SimState (Word → Word)) (base : Word) (cache : List (Option Word)) (n : ℕ) :
    Prop :=
  ∀ i < n, cache[i]? = some (some (wordAt start base i))

section Table

variable (undef handles start) (threshold : Word)

/-- What is known of a block between visits. -/
structure BlockOk (bb : BasicBlock) : Prop where
  code : IsCode undef handles start bb.base
  counted : bb.runCount ≠ 0#32 → bb.complete = true
  line : bb.complete = true → StraightLine undef handles start bb.base bb.len.toNat
  words : ∀ code, bb.compiled = some code →
    bb.complete = true ∧ code = lineWords start bb.base bb.len.toNat
  cached : ∀ cache, bb.cache = some cache →
    bb.complete = true ∧ cache.length = bb.len.toNat
  full : bb.compiled = none → threshold.slt bb.runCount = true →
    ∃ cache, bb.cache = some cache ∧ Holds start bb.base cache bb.len.toNat

/-- The interpreter is `off` instructions into a visit of a block. -/
structure Visiting (bb : BasicBlock) (addr : Word) (off : ℕ) : Prop where
  here : addr = bb.base + BitVec.ofNat 32 off
  bound : bb.base.toNat + off < 2 ^ 32
  code : ∀ i < off, IsCode undef handles start (bb.base + BitVec.ofNat 32 i)
  inner : ∀ i < off, ¬ UpdatesP (wordAt start bb.base i)
  cached : 0 < off → bb.runCount = threshold →
    ∃ cache, bb.cache = some cache ∧ Holds start bb.base cache off

/-- A block that is still interpreted. -/
def Interpreted (bb : BasicBlock) : Prop :=
  bb.compiled = none ∧ threshold.slt bb.runCount = false

/-- What the current block is, by where the driver is. -/
def CurrentOk (nested : Bool) (blocks : List BasicBlock) (addr : Word) : Option ℕ → Prop
  | none => True
  | some k => ∃ bb, blocks[k]? = some bb ∧
      if nested then
        Interpreted threshold bb ∧ ∃ off, Visiting undef handles start threshold bb addr off
      else bb.compiled.isSome ∧ bb.base = addr

/-- **The invariant of the driver.** -/
structure Tracks (j : JitState (Word → Word)) (a : Observed (Word → Word)) : Prop where
  sim : j.sim = a.sim
  written : j.ops.written = a.written
  reached : Reached undef handles start a
  sound : j.ops.fault = false
  blocks : ∀ bb ∈ j.ops.basicBlocks, BlockOk undef handles start threshold bb
  current : CurrentOk undef handles start threshold j.nested j.ops.basicBlocks
    (a.sim.regs regP) j.ops.currBb

end Table

section Blocks

variable {threshold : Word}

theorem Visiting.index {bb : BasicBlock} {addr : Word} {off : ℕ}
    (h : Visiting undef handles start threshold bb addr off) : (addr - bb.base).toNat = off := by
  have hbound := h.bound
  rw [h.here, BitVec.add_comm, BitVec.add_sub_cancel, BitVec.toNat_ofNat]
  exact Nat.mod_eq_of_lt (by omega)

/-- A visit starts at the base. -/
theorem Visiting.atBase {bb : BasicBlock} :
    Visiting undef handles start threshold bb bb.base 0 where
  here := by simp
  bound := bb.base.isLt
  code i hi := absurd hi (Nat.not_lt_zero i)
  inner i hi := absurd hi (Nat.not_lt_zero i)
  cached h := absurd h (Nat.lt_irrefl 0)

/-- A run count in excess of a threshold above one is not zero. -/
theorem runCount_ne_zero {runCount : Word} (hthreshold : (1#32).slt threshold = true)
    (h : runCount = threshold ∨ threshold.slt runCount = true) : runCount ≠ 0#32 := by
  rintro rfl
  rw [BitVec.slt_iff_toInt_lt] at hthreshold
  have hone : (1#32).toInt = 1 := by decide
  rcases h with rfl | hslt
  · simp [hone] at hthreshold
  · rw [BitVec.slt_iff_toInt_lt] at hslt
    simp at hslt
    omega

/-- The run count passes the threshold one by one. -/
theorem eq_threshold_of_slt_succ {runCount : Word} (hbelow : threshold.slt runCount = false)
    (habove : threshold.slt (runCount + 1#32) = true) : runCount = threshold := by
  rw [BitVec.slt_iff_toInt_lt] at habove
  have hnot : ¬ threshold.toInt < runCount.toInt := by
    rw [← BitVec.slt_iff_toInt_lt, hbelow]
    simp
  have hlow := threshold.le_toInt
  have hsucc : (runCount + 1#32).toInt ≤ runCount.toInt + 1 := by
    have hlt := runCount.toInt_lt
    have hle := runCount.le_toInt
    have hsum : (runCount + 1#32).toInt = (runCount.toInt + 1).bmod (2 ^ 32) := BitVec.toInt_add _ _
    simp only [Int.bmod, Nat.reducePow, Nat.cast_ofNat, Int.reduceAdd, Int.reduceDiv] at hsum
    split_ifs at hsum <;> omega
  apply BitVec.eq_of_toInt_eq
  omega

theorem mapM_id_map_some {α : Type} (l : List α) : (l.map some).mapM id = some l := by
  induction l with
  | nil => rfl
  | cons x l ih => simp [ih]

/-- Reading a full cache gives the words of the line. -/
theorem Holds.read {base : Word} {cache : List (Option Word)} {n : ℕ}
    (h : Holds start base cache n) :
    (cache.take n).mapM id = some (lineWords start base n) := by
  have htake : cache.take n = (lineWords start base n).map some := by
    apply List.ext_getElem?
    intro i
    by_cases hi : i < n
    · simp [lineWords, hi, h i hi]
    · simp [lineWords, hi]
  rw [htake, mapM_id_map_some]

/-- One more entry of the cache is filled. -/
theorem Holds.set {base : Word} {cache : List (Option Word)} {n : ℕ}
    (h : Holds start base cache n) (hn : n < cache.length) :
    Holds start base (cache.set n (some (wordAt start base n))) (n + 1) := by
  intro i hi
  by_cases heq : i = n
  · subst heq
    simp [hn]
  · rw [List.getElem?_set_ne (Ne.symm heq)]
    exact h i (by omega)

/-- Compiling a block whose visits have gone past the threshold. -/
theorem BlockOk.compile_eq {bb : BasicBlock}
    (h : BlockOk undef handles start threshold bb) (hnone : bb.compiled = none)
    (habove : threshold.slt bb.runCount = true) :
    ∃ bb', bb.compile = some bb' ∧ BlockOk undef handles start threshold bb' ∧
      bb'.compiled.isSome ∧ bb'.base = bb.base := by
  obtain ⟨cache, hcache, hholds⟩ := h.full hnone habove
  obtain ⟨hcomplete, hlen⟩ := h.cached cache hcache
  refine ⟨{ bb with compiled := some (lineWords start bb.base bb.len.toNat), cache := none },
    ?_, ?_, rfl, rfl⟩
  · simp [BasicBlock.compile, hcomplete, hcache, hlen, hholds.read]
  · exact
      { h with
        words := fun code hcode ↦ ⟨hcomplete, (Option.some.inj hcode).symm⟩
        cached := fun _ hnocache ↦ by cases hnocache
        full := fun hnotcompiled ↦ by cases hnotcompiled }

/-- On the visit at the threshold, each instruction goes to its place in the cache. -/
theorem BlockOk.cacheInsn_eq (hthreshold : (1#32).slt threshold = true) {bb : BasicBlock}
    (h : BlockOk undef handles start threshold bb) {addr : Word} {off : ℕ}
    (hvisit : Visiting undef handles start threshold bb addr off)
    (hat : bb.runCount = threshold) :
    ∃ cache, bb.cacheInsn { word := start.devices addr, reladdr := addr } =
        some { bb with cache := some cache } ∧
      BlockOk undef handles start threshold { bb with cache := some cache } ∧
      Holds start bb.base cache (off + 1) := by
  have hcomplete := h.counted (runCount_ne_zero hthreshold (.inl hat))
  have hlt := (h.line hcomplete).lt_of_inner hvisit.inner
  -- the cache is allocated on the first instruction and partly filled on later ones
  have hcache : ∃ cache, bb.cache.getD (List.replicate bb.len.toNat none) = cache ∧
      cache.length = bb.len.toNat ∧ Holds start bb.base cache off := by
    cases hsome : bb.cache with
    | none =>
      refine ⟨_, rfl, by simp, ?_⟩
      intro i hi
      obtain ⟨cache, hcached, -⟩ := hvisit.cached (by omega) hat
      simp [hsome] at hcached
    | some cache =>
      refine ⟨cache, rfl, (h.cached cache hsome).2, ?_⟩
      intro i hi
      obtain ⟨cache', hcached, hholds⟩ := hvisit.cached (by omega) hat
      obtain rfl : cache = cache' := Option.some.inj (hsome.symm.trans hcached)
      exact hholds i hi
  obtain ⟨cache, hget, hlen, hholds⟩ := hcache
  have hword : start.devices addr = wordAt start bb.base off := by rw [hvisit.here, wordAt]
  refine ⟨cache.set off (some (start.devices addr)), ?_, ?_, ?_⟩
  · simp only [BasicBlock.cacheInsn, hget, hvisit.index]
    rw [if_pos (by omega)]
  · exact
      { h with
        cached := fun _ hsome ↦ by
          obtain rfl := Option.some.inj hsome
          simpa using ⟨hcomplete, hlen⟩
        full := fun _ habove ↦ by
          rw [hat, BitVec.slt_iff_toInt_lt] at habove
          exact absurd habove (Int.lt_irrefl _) }
  · rw [hword]
    exact hholds.set (by omega)

/-- The instruction after one that does not assign `P`. -/
theorem Visiting.succ {bb : BasicBlock} {addr : Word} {off : ℕ}
    (h : Visiting undef handles start threshold bb addr off)
    (hcode : IsCode undef handles start addr) (hinner : ¬ UpdatesP (start.devices addr))
    (hcache : bb.runCount = threshold →
      ∃ cache, bb.cache = some cache ∧ Holds start bb.base cache (off + 1)) :
    Visiting undef handles start threshold bb (addr + 1#32) (off + 1) where
  here := by rw [h.here, BitVec.ofNat_add, BitVec.add_assoc]
  bound := by
    have hbound := h.bound
    have hend := hcode.1
    by_contra hge
    apply hend
    rw [h.here]
    apply BitVec.eq_of_toNat_eq
    rw [BitVec.toNat_add, BitVec.toNat_ofNat, BitVec.toNat_ofNat]
    omega
  code i hi := by
    rcases Nat.lt_succ_iff_lt_or_eq.mp hi with hlt | rfl
    · exact h.code i hlt
    · rw [← h.here]
      exact hcode
  inner i hi := by
    rcases Nat.lt_succ_iff_lt_or_eq.mp hi with hlt | rfl
    · exact h.inner i hlt
    · rw [wordAt, ← h.here]
      exact hinner
  cached _ := hcache

/-- The visit ends at an instruction that assigns `P`; the block is now complete. -/
theorem BlockOk.finish {bb : BasicBlock} (h : BlockOk undef handles start threshold bb)
    (hinterpreted : Interpreted threshold bb) {addr : Word} {off : ℕ}
    (hvisit : Visiting undef handles start threshold bb addr off)
    (hcode : IsCode undef handles start addr) (hlast : UpdatesP (start.devices addr))
    (hcache : bb.runCount = threshold →
      ∃ cache, bb.cache = some cache ∧ Holds start bb.base cache (off + 1)) :
    BlockOk undef handles start threshold
      { bb with
        len := addr - bb.base + 1#32, complete := true, runCount := bb.runCount + 1#32 } := by
  have hword : start.devices addr = wordAt start bb.base off := by rw [hvisit.here, wordAt]
  have hlen : (addr - bb.base + 1#32).toNat = off + 1 := by
    have hbound := hvisit.bound
    have hend := hcode.1
    have hindex := hvisit.index
    rw [BitVec.toNat_add, hindex, BitVec.toNat_ofNat]
    have hne : off + 1 ≠ 2 ^ 32 := by
      intro heq
      apply hend
      rw [hvisit.here]
      apply BitVec.eq_of_toNat_eq
      rw [BitVec.toNat_add, BitVec.toNat_ofNat, BitVec.toNat_ofNat]
      omega
    omega
  rw [hword] at hlast
  have hline : StraightLine undef handles start bb.base (off + 1) :=
    { pos := Nat.succ_pos off
      code := fun i hi ↦ by
        rcases Nat.lt_succ_iff_lt_or_eq.mp hi with hlt | rfl
        · exact hvisit.code i hlt
        · rw [← hvisit.here]
          exact hcode
      inner := fun i hi ↦ hvisit.inner i (by omega)
      last := hlast }
  -- an earlier visit found the same length
  have hsame (hcomplete : bb.complete = true) : bb.len.toNat = off + 1 :=
    (h.line hcomplete).length_eq hvisit.inner hlast
  exact
    { code := h.code
      counted := fun _ ↦ rfl
      line := fun _ ↦ by
        rw [hlen]
        exact hline
      words := fun code hcode ↦ by
        rw [hinterpreted.1] at hcode
        cases hcode
      cached := fun cache hsome ↦ by
        obtain ⟨hcomplete, hlength⟩ := h.cached cache hsome
        exact ⟨rfl, by rw [hlen, hlength, hsame hcomplete]⟩
      full := fun _ habove ↦ by
        rw [hlen]
        exact hcache (eq_threshold_of_slt_succ hinterpreted.2 habove) }

/-! ## Hooks -/

variable (undef handles start threshold) in
/-- The parts of `ops_state` that do not depend on where the interpreter is. -/
structure TableOk (o : OpsState (Word → Word)) (written : List (SimState (Word → Word))) :
    Prop where
  written : o.written = written
  sound : o.fault = false
  blocks : ∀ bb ∈ o.basicBlocks, BlockOk undef handles start threshold bb

variable (undef handles start threshold) in
/-- The interpreter goes on with the instruction at `addr`. -/
structure Continues (o : OpsState (Word → Word)) (addr : Word) (k : ℕ) (bb : BasicBlock)
    (off : ℕ) : Prop where
  current : o.currBb = some k
  block : o.basicBlocks[k]? = some bb
  interpreted : Interpreted threshold bb
  visiting : Visiting undef handles start threshold bb addr off
  cached : bb.runCount = threshold →
    ∃ cache, bb.cache = some cache ∧ Holds start bb.base cache (off + 1)

/-- The driver is to run the compiled block at `addr`. -/
def Enters (o : OpsState σ) (addr : Word) : Prop :=
  ∃ k bb, o.currBb = some k ∧ o.basicBlocks[k]? = some bb ∧ bb.compiled.isSome ∧ bb.base = addr

variable {o : OpsState (Word → Word)} {written : List (SimState (Word → Word))} {addr : Word}

theorem TableOk.setBlock (h : TableOk undef handles start threshold o written) {k : ℕ}
    {bb : BasicBlock} (hbb : BlockOk undef handles start threshold bb) :
    TableOk undef handles start threshold (o.setBlock k bb) written where
  written := h.written
  sound := h.sound
  blocks b hb := by
    rcases List.mem_or_eq_of_mem_set hb with hmem | rfl
    · exact h.blocks b hmem
    · exact hbb

theorem setBlock_getElem? {o : OpsState σ} {k : ℕ} {bb : BasicBlock}
    (h : o.basicBlocks[k]? = some bb) (bb' : BasicBlock) :
    (o.setBlock k bb').basicBlocks[k]? = some bb' := by
  have hlt : k < o.basicBlocks.length := (List.getElem?_eq_some_iff.mp h).1
  simp [OpsState.setBlock, hlt]

/-- Opening a block finds one at its base, or goes on with the current one. -/
theorem openBlock_spec {tsearch : Search} (hfinds : tsearch.Finds)
    (hthreshold : (1#32).slt threshold = true)
    (h : TableOk undef handles start threshold o written)
    (hcurrent : CurrentOk undef handles start threshold true o.basicBlocks addr o.currBb)
    (hcode : IsCode undef handles start addr) :
    ∃ o' k bb off, openBlock tsearch o addr = (o', k) ∧
      TableOk undef handles start threshold o' written ∧
      o'.currBb = some k ∧ o'.basicBlocks[k]? = some bb ∧
      (bb.base = addr ∨ Interpreted threshold bb) ∧
      Visiting undef handles start threshold bb addr off := by
  unfold openBlock
  cases hcurr : o.currBb with
  | some k =>
    rw [hcurr] at hcurrent
    obtain ⟨bb, hbb, hinterpreted, off, hvisit⟩ := hcurrent
    exact ⟨o, k, bb, off, rfl, h, hcurr, hbb, .inr hinterpreted, hvisit⟩
  | none =>
    cases hsearch : tsearch (o.basicBlocks.map BasicBlock.base) addr with
    | some k =>
      have hbase := hfinds _ _ _ hsearch
      rw [List.getElem?_map, Option.map_eq_some_iff] at hbase
      obtain ⟨bb, hbb, rfl⟩ := hbase
      exact ⟨_, k, bb, 0, rfl, ⟨h.written, h.sound, h.blocks⟩, rfl, hbb, .inl rfl, .atBase⟩
    | none =>
      refine ⟨_, _, _, 0, rfl, ⟨h.written, h.sound, ?_⟩, rfl, by simp; rfl, .inl rfl, .atBase⟩
      intro b hb
      rcases List.mem_append.mp hb with hmem | hnew
      · exact h.blocks b hmem
      · obtain rfl := List.mem_singleton.mp hnew
        exact
          { code := hcode
            counted := fun hne ↦ absurd rfl hne
            line := fun hcomplete ↦ by cases hcomplete
            words := fun code hcompiled ↦ by cases hcompiled
            cached := fun cache hcache ↦ by cases hcache
            full := fun _ habove ↦ absurd rfl (runCount_ne_zero hthreshold (.inr habove)) }

/-- Before an instruction, the hook either hands over to compiled code or lets it be interpreted. -/
theorem preInsnHook_spec {tsearch : Search} (hfinds : tsearch.Finds)
    (hthreshold : (1#32).slt threshold = true)
    (h : TableOk undef handles start threshold o written)
    (hcurrent : CurrentOk undef handles start threshold true o.basicBlocks addr o.currBb)
    (hcode : IsCode undef handles start addr) (s : SimState (Word → Word)) :
    ∃ o', TableOk undef handles start threshold o' written ∧
      ((preInsnHook tsearch threshold (tsimOps noCycle) s
          { word := start.devices addr, reladdr := addr } o = (true, s, o') ∧ Enters o' addr) ∨
        (preInsnHook tsearch threshold (tsimOps noCycle) s
          { word := start.devices addr, reladdr := addr } o = (false, s, o') ∧
          ∃ k bb off, Continues undef handles start threshold o' addr k bb off)) := by
  obtain ⟨o', k, bb, off, hopen, htable, hcurr, hbb, hwhere, hvisit⟩ :=
    openBlock_spec hfinds hthreshold h hcurrent hcode
  have hok : BlockOk undef handles start threshold bb :=
    htable.blocks bb (List.mem_of_getElem? hbb)
  unfold preInsnHook
  simp only [hopen, hbb]
  by_cases hcompiled : bb.compiled.isSome = true
  · refine ⟨o', htable, .inl ⟨by rw [if_pos hcompiled], k, bb, hcurr, hbb, hcompiled, ?_⟩⟩
    rcases hwhere with hbase | hinterpreted
    · exact hbase
    · simp [hinterpreted.1] at hcompiled
  · have hnone : bb.compiled = none := by simpa using hcompiled
    rw [if_neg hcompiled]
    by_cases hat : bb.runCount = threshold
    · rw [if_pos hat]
      obtain ⟨cache, hcacheInsn, hok', hholds⟩ := hok.cacheInsn_eq hthreshold hvisit hat
      rw [hcacheInsn]
      refine ⟨_, htable.setBlock (k := k) hok', .inr ⟨rfl, k, { bb with cache := some cache }, off, ?_⟩⟩
      exact
        { current := hcurr
          block := setBlock_getElem? hbb _
          interpreted := ⟨hnone, by
            rw [hat]
            simp [BitVec.slt_eq_decide]⟩
          visiting :=
            { hvisit with
              cached := fun _ _ ↦ ⟨cache, rfl, fun i hi ↦ hholds i (by omega)⟩ }
          cached := fun _ ↦ ⟨cache, rfl, hholds⟩ }
    · rw [if_neg hat]
      by_cases habove : threshold.slt bb.runCount = true
      · rw [if_pos habove]
        obtain ⟨bb', hcompile, hok', hsome, hbase'⟩ := hok.compile_eq hnone habove
        rw [hcompile]
        refine ⟨_, htable.setBlock (k := k) hok',
          .inl ⟨rfl, k, bb', hcurr, setBlock_getElem? hbb _, hsome, ?_⟩⟩
        rcases hwhere with hbase | hinterpreted
        · rw [hbase', hbase]
        · rw [hinterpreted.2] at habove
          cases habove
      · rw [if_neg habove]
        refine ⟨o', htable, .inr ⟨rfl, k, bb, off, ?_⟩⟩
        exact
          { current := hcurr
            block := hbb
            interpreted := ⟨hnone, by simpa using habove⟩
            visiting := hvisit
            cached := fun hthere ↦ absurd hthere hat }

/-- After an instruction that assigns `P`, the block is left and complete. -/
theorem postInsnHook_last (h : TableOk undef handles start threshold o written) {k off : ℕ}
    {bb : BasicBlock} (hcont : Continues undef handles start threshold o addr k bb off)
    (hcode : IsCode undef handles start addr) (hlast : UpdatesP (start.devices addr))
    (s : SimState (Word → Word)) :
    ∃ o', postInsnHook (tsimOps noCycle) s { word := start.devices addr, reladdr := addr } o =
        (true, s.count 1, o') ∧
      TableOk undef handles start threshold o' (written ++ [s.count 1]) ∧ o'.currBb = none := by
  have hok : BlockOk undef handles start threshold bb :=
    h.blocks bb (List.mem_of_getElem? hcont.block)
  have hset := h.setBlock (k := k)
    (hok.finish hcont.interpreted hcont.visiting hcode hlast hcont.cached)
  refine ⟨{ o.setBlock k _ with currBb := none, written := o.written ++ [s.count 1] }, ?_,
    ⟨congrArg (· ++ [s.count 1]) hset.written, hset.sound, hset.blocks⟩, rfl⟩
  simp only [postInsnHook, hlast, if_true, hcont.current, hcont.block, Option.bind_some,
    Option.map_some]
  rfl

/-- After any other instruction the visit goes on. -/
theorem postInsnHook_inner {k off : ℕ} {bb : BasicBlock}
    (hcont : Continues undef handles start threshold o addr k bb off)
    (hcode : IsCode undef handles start addr) (hinner : ¬ UpdatesP (start.devices addr))
    (s : SimState (Word → Word)) :
    postInsnHook (tsimOps noCycle) s { word := start.devices addr, reladdr := addr } o =
        (false, s.count 1, o) ∧
      CurrentOk undef handles start threshold true o.basicBlocks (addr + 1#32) o.currBb := by
  constructor
  · simp only [postInsnHook, hinner, if_false]
    rfl
  · rw [hcont.current]
    exact ⟨bb, hcont.block, hcont.interpreted, off + 1,
      hcont.visiting.succ hcode hinner hcont.cached⟩

/-! ## Passes of the driver -/

variable {tsearch : Search} {j : JitState (Word → Word)} {a : Observed (Word → Word)}

theorem Tracks.table (h : Tracks undef handles start threshold j a) :
    TableOk undef handles start threshold j.ops a.written :=
  ⟨h.written, h.sound, h.blocks⟩

/-- A pass in the nested interpreter executes one instruction, or hands over to compiled code. -/
theorem Tracks.nested_step (hsettled : Settled undef handles start) (hfinds : tsearch.Finds)
    (hthreshold : (1#32).slt threshold = true) (h : Tracks undef handles start threshold j a)
    (hnested : j.nested = true) (hend : a.sim.regs regP ≠ 0xffffffff#32) :
    ∃ j', jitStep undef (memoryBus handles) tsearch threshold noCycle j = some j' ∧
      ((∃ a', observedStep undef (memoryBus handles) a = some a' ∧
          Tracks undef handles start threshold j' a') ∨
        (Tracks undef handles start threshold j' a ∧ j'.nested = false ∧
          j'.ops.currBb.isSome)) := by
  obtain ⟨next, hhandles, hword, hrun, hstep⟩ := hsettled.step h.reached hend
  have hcode : IsCode undef handles start (a.sim.regs regP) := ⟨hend, a, h.reached, rfl⟩
  have hcurrent := h.current
  rw [hnested] at hcurrent
  obtain ⟨o', htable, hpre⟩ :=
    preInsnHook_spec hfinds hthreshold h.table hcurrent hcode a.sim
  have hfetch : (memoryBus handles).dispatchOp a.sim.devices .insnRead (a.sim.regs regP) 0#32 =
      some (start.devices (a.sim.regs regP), a.sim.devices) := by
    simp [memoryBus, hhandles, hword]
  unfold jitStep interpIteration
  rw [if_pos hnested, h.sim, if_neg hend, hfetch]
  simp only [wrappers]
  rcases hpre with ⟨hpre, k, bb, hcurr, hbb, hsome, hbase⟩ | ⟨hpre, k, bb, off, hcont⟩
  · -- the block at this address is compiled
    rw [hpre]
    refine ⟨_, rfl, .inr ⟨?_, rfl, ?_⟩⟩
    · exact
        { sim := rfl
          written := htable.written
          reached := h.reached
          sound := htable.sound
          blocks := htable.blocks
          current := by
            rw [hcurr]
            exact ⟨bb, hbb, hsome, hbase⟩ }
    · simp [hcurr]
  · rw [hpre]
    simp only [hrun]
    by_cases hlast : UpdatesP (start.devices (a.sim.regs regP))
    · obtain ⟨o'', hpost, htable', hnone⟩ := postInsnHook_last htable hcont hcode hlast next
      rw [if_pos hlast] at hstep
      rw [hpost]
      refine ⟨_, rfl, .inl ⟨_, hstep, ?_⟩⟩
      exact
        { sim := rfl
          written := htable'.written
          reached := h.reached.trans (n := 1) (by
            rw [steps_succ, hstep]
            rfl)
          sound := htable'.sound
          blocks := htable'.blocks
          current := by
            rw [hnone]
            trivial }
    · obtain ⟨hpost, hcurrent'⟩ := postInsnHook_inner hcont hcode hlast next
      rw [if_neg hlast] at hstep
      rw [hpost]
      refine ⟨_, rfl, .inl ⟨_, hstep, ?_⟩⟩
      have hP : (next.count 1).regs regP = a.sim.regs regP + 1#32 := by
        rw [← runInstruction_regP hrun hlast]
        rfl
      exact
        { sim := rfl
          written := htable.written
          reached := h.reached.trans (n := 1) (by
            rw [steps_succ, hstep]
            rfl)
          sound := htable.sound
          blocks := htable.blocks
          current := by
            rw [hP]
            exact hcurrent' }

/-- The end condition of the interpreter ends the driver. -/
theorem Tracks.nested_stop (h : Tracks undef handles start threshold j a)
    (hnested : j.nested = true) (hend : a.sim.regs regP = 0xffffffff#32) :
    jitStep undef (memoryBus handles) tsearch threshold noCycle j = none := by
  unfold jitStep interpIteration
  rw [if_pos hnested, h.sim, if_pos hend]
  rfl

/-- At the top of the loop without a compiled block, the nested interpreter is entered. -/
theorem Tracks.top_enter (tsearch : Search) (h : Tracks undef handles start threshold j a)
    (hnested : j.nested = false) (hcurr : j.ops.currBb = none) :
    jitStep undef (memoryBus handles) tsearch threshold noCycle j = some { j with nested := true } ∧
      Tracks undef handles start threshold { j with nested := true } a := by
  constructor
  · simp [jitStep, hnested, OpsState.readyBlock, hcurr]
  · exact
      { h with
        current := by
          rw [hcurr]
          trivial }

/-- **A compiled block** is as many steps of the interpreter as it has instructions. -/
theorem Tracks.top_run (tsearch : Search) (hsettled : Settled undef handles start)
    (h : Tracks undef handles start threshold j a) (hnested : j.nested = false)
    (hsome : j.ops.currBb.isSome = true) :
    ∃ j' len a', jitStep undef (memoryBus handles) tsearch threshold noCycle j = some j' ∧
      0 < len ∧ steps (observedStep undef (memoryBus handles)) len a = some a' ∧
      Tracks undef handles start threshold j' a' := by
  obtain ⟨k, hcurr⟩ := Option.isSome_iff_exists.mp hsome
  have hcurrent := h.current
  rw [hcurr, hnested] at hcurrent
  obtain ⟨bb, hbb, hcompiled, hbase⟩ := hcurrent
  obtain ⟨code, hcode⟩ := Option.isSome_iff_exists.mp hcompiled
  have hok : BlockOk undef handles start threshold bb := h.blocks bb (List.mem_of_getElem? hbb)
  obtain ⟨hcomplete, rfl⟩ := hok.words code hcode
  have hline := hok.line hcomplete
  obtain ⟨r, hrun, hsteps⟩ := hline.run hsettled h.reached hbase.symm
  have hready : j.ops.readyBlock = some (k, bb, lineWords start bb.base bb.len.toNat) := by
    simp [OpsState.readyBlock, hcurr, hbb, hcode]
  refine ⟨runBlock undef (memoryBus handles) j k bb (lineWords start bb.base bb.len.toNat),
    bb.len.toNat, _, ?_, hline.pos, hsteps, ?_⟩
  · simp [jitStep, hnested, hready]
  · have hrun' : runCompiled undef (memoryBus handles) (lineWords start bb.base bb.len.toNat)
        j.sim = r := by
      rw [runCompiled, h.sim, hrun]
    have hok' : BlockOk undef handles start threshold
        { bb with runCount := bb.runCount + 1#32 } :=
      { hok with
        counted := fun _ ↦ hcomplete
        full := fun hnone ↦ by
          rw [hcode] at hnone
          cases hnone }
    have htable := h.table.setBlock (k := k) hok'
    exact
      { sim := congrArg (·.count bb.len.toNat) hrun'
        written := by
          rw [← h.written]
          exact congrArg (fun s ↦ j.ops.written ++ [SimState.count s bb.len.toNat]) hrun'
        reached := h.reached.trans hsteps
        sound := htable.sound
        blocks := htable.blocks
        current := trivial }

/-- The interpreter stops at its end condition and nowhere else. -/
theorem Settled.stop_iff (hsettled : Settled undef handles start)
    (ha : Reached undef handles start a) :
    observedStep undef (memoryBus handles) a = none ↔ a.sim.regs regP = 0xffffffff#32 := by
  constructor
  · intro hnone
    by_contra hend
    obtain ⟨next, -, -, -, hstep⟩ := hsettled.step ha hend
    rw [hstep] at hnone
    cases hnone
  · intro hend
    have hnot (s : SimState (Word → Word)) :
        interpStep undef (memoryBus handles) a.sim ≠ some s := by
      rw [Ne, interpStep_eq_some_iff]
      exact fun h ↦ h.1 hend
    rw [observedStep, Option.eq_none_iff_forall_not_mem.mpr hnot]
    rfl

/-- A pass that leaves the nested interpreter for compiled code is followed by running it. -/
theorem Tracks.nested_advance (hsettled : Settled undef handles start) (hfinds : tsearch.Finds)
    (hthreshold : (1#32).slt threshold = true) (h : Tracks undef handles start threshold j a)
    (hnested : j.nested = true) (hend : a.sim.regs regP ≠ 0xffffffff#32) :
    ∃ m j' k a', steps (jitStep undef (memoryBus handles) tsearch threshold noCycle) m j = some j' ∧
      0 < k ∧ steps (observedStep undef (memoryBus handles)) k a = some a' ∧
      Tracks undef handles start threshold j' a' := by
  obtain ⟨j', hjit, ⟨a', hstep, htracks⟩ | ⟨htracks, hnested', hsome⟩⟩ :=
    h.nested_step hsettled hfinds hthreshold hnested hend
  · refine ⟨1, j', 1, a', ?_, Nat.one_pos, ?_, htracks⟩
    · rw [steps_succ, hjit]
      rfl
    · rw [steps_succ, hstep]
      rfl
  · obtain ⟨j'', len, a', hjit', hpos, hsteps, htracks'⟩ :=
      htracks.top_run tsearch hsettled hnested' hsome
    refine ⟨2, j'', len, a', ?_, hpos, hsteps, htracks'⟩
    rw [steps_succ, hjit, Option.bind_some, steps_succ, hjit']
    rfl

/-- **The driver simulates the interpreter.** -/
theorem tracks_simulation (hsettled : Settled undef handles start) (hfinds : tsearch.Finds)
    (hthreshold : (1#32).slt threshold = true) :
    Simulation (jitStep undef (memoryBus handles) tsearch threshold noCycle)
      (observedStep undef (memoryBus handles)) (Tracks undef handles start threshold) where
  step {j j' a} h hjit := by
    cases hnested : j.nested with
    | true =>
      by_cases hend : a.sim.regs regP = 0xffffffff#32
      · rw [h.nested_stop hnested hend] at hjit
        cases hjit
      · obtain ⟨j'', hjit', hcases⟩ := h.nested_step hsettled hfinds hthreshold hnested hend
        obtain rfl : j'' = j' := Option.some.inj (hjit'.symm.trans hjit)
        rcases hcases with ⟨a', hstep, htracks⟩ | ⟨htracks, -, -⟩
        · refine ⟨1, a', ?_, htracks⟩
          rw [steps_succ, hstep]
          rfl
        · exact ⟨0, a, rfl, htracks⟩
    | false =>
      cases hcurr : j.ops.currBb with
      | none =>
        obtain ⟨hjit', htracks⟩ := h.top_enter tsearch hnested hcurr
        obtain rfl := Option.some.inj (hjit'.symm.trans hjit)
        exact ⟨0, a, rfl, htracks⟩
      | some k =>
        obtain ⟨j'', len, a', hjit', -, hsteps, htracks⟩ :=
          h.top_run tsearch hsettled hnested (by simp [hcurr])
        obtain rfl : j'' = j' := Option.some.inj (hjit'.symm.trans hjit)
        exact ⟨len, a', hsteps, htracks⟩
  advance {j a a'} h hstep := by
    have hend : a.sim.regs regP ≠ 0xffffffff#32 := by
      intro hend
      rw [(hsettled.stop_iff h.reached).mpr hend] at hstep
      cases hstep
    cases hnested : j.nested with
    | true => exact h.nested_advance hsettled hfinds hthreshold hnested hend
    | false =>
      cases hcurr : j.ops.currBb with
      | none =>
        obtain ⟨hjit, htracks⟩ := h.top_enter tsearch hnested hcurr
        obtain ⟨m, j', k, b, hm, hpos, hk, htracks'⟩ :=
          htracks.nested_advance hsettled hfinds hthreshold rfl hend
        refine ⟨m + 1, j', k, b, ?_, hpos, hk, htracks'⟩
        rw [steps_succ, hjit]
        exact hm
      | some k =>
        obtain ⟨j', len, b, hjit, hpos, hsteps, htracks⟩ :=
          h.top_run tsearch hsettled hnested (by simp [hcurr])
        refine ⟨1, j', len, b, ?_, hpos, hsteps, htracks⟩
        rw [steps_succ, hjit]
        rfl
  stop {j a} h hjit := by
    rw [hsettled.stop_iff h.reached]
    by_contra hend
    cases hnested : j.nested with
    | true =>
      obtain ⟨j', hjit', -⟩ := h.nested_step hsettled hfinds hthreshold hnested hend
      rw [hjit] at hjit'
      cases hjit'
    | false =>
      cases hcurr : j.ops.currBb with
      | none =>
        have hjit' := (h.top_enter tsearch hnested hcurr).1
        rw [hjit] at hjit'
        cases hjit'
      | some k =>
        obtain ⟨j', len, b, hjit', -⟩ :=
          h.top_run tsearch hsettled hnested (by simp [hcurr])
        rw [hjit] at hjit'
        cases hjit'
  halt {j a} h hnone := by
    have hend := (hsettled.stop_iff h.reached).mp hnone
    cases hnested : j.nested with
    | true => exact ⟨0, j, rfl, h, h.nested_stop hnested hend⟩
    | false =>
      cases hcurr : j.ops.currBb with
      | none =>
        obtain ⟨hjit, htracks⟩ := h.top_enter tsearch hnested hcurr
        refine ⟨1, _, ?_, htracks, htracks.nested_stop rfl hend⟩
        rw [steps_succ, hjit]
        rfl
      | some k =>
        obtain ⟨j', len, b, hjit, hpos, hsteps, -⟩ :=
          h.top_run tsearch hsettled hnested (by simp [hcurr])
        -- no block begins at the end condition
        obtain ⟨len', rfl⟩ := Nat.exists_eq_succ_of_ne_zero (Nat.ne_of_gt hpos)
        rw [steps_succ, hnone] at hsteps
        cases hsteps

theorem tracks_init (threshold : Word) :
    Tracks undef handles start threshold (jitInit start) (.start start) where
  sim := rfl
  written := rfl
  reached := ⟨0, rfl⟩
  sound := rfl
  blocks bb hbb := by cases hbb
  current := trivial

end Blocks

/-! ## Equivalence -/

variable (undef handles start) in
/-- What a driver has in common with the interpreter started in the same state: the states in which
`P` has just been written, the instructions counted (they are part of the state), and where they
stop. Every compiled block holds the words of its complete line. -/
structure SameRuns (jit : JitState (Word → Word) → Option (JitState (Word → Word))) : Prop where
  follows : ∀ m j, steps jit m (jitInit start) = some j →
    ∃ n a, steps (observedStep undef (memoryBus handles)) n (.start start) = some a ∧
      j.sim = a.sim ∧ j.ops.written = a.written
  covers : ∀ n a, steps (observedStep undef (memoryBus handles)) n (.start start) = some a →
    ∃ m j n' b, n ≤ n' ∧ steps jit m (jitInit start) = some j ∧
      steps (observedStep undef (memoryBus handles)) n' (.start start) = some b ∧
      j.sim = b.sim ∧ j.ops.written = b.written
  stops : ∀ m j, steps jit m (jitInit start) = some j → jit j = none →
    ∃ n a, steps (observedStep undef (memoryBus handles)) n (.start start) = some a ∧
      observedStep undef (memoryBus handles) a = none ∧
      j.sim = a.sim ∧ j.ops.written = a.written
  stopped : ∀ n a, steps (observedStep undef (memoryBus handles)) n (.start start) = some a →
    observedStep undef (memoryBus handles) a = none →
    ∃ m j, steps jit m (jitInit start) = some j ∧ jit j = none ∧
      j.sim = a.sim ∧ j.ops.written = a.written
  sound : ∀ m j, steps jit m (jitInit start) = some j → j.ops.fault = false
  compiled : ∀ m j, steps jit m (jitInit start) = some j →
    ∀ bb ∈ j.ops.basicBlocks, ∀ code, bb.compiled = some code →
      bb.complete = true ∧ code.length = bb.len.toNat ∧
      ∀ i < bb.len.toNat, code[i]? = some (start.devices (bb.base + BitVec.ofNat 32 i))

/-- **The driver and the interpreter have the same runs**, for programs whose accesses all succeed
and which do not modify the instructions they execute. No access of the driver to a cache is out of
bounds. -/
theorem jit_same_runs (undef : UndefinedShifts) (handles : MemoryOp → Word → Bool)
    (start : SimState (Word → Word)) (tsearch : Search) (threshold : Word)
    (hfinds : tsearch.Finds) (hthreshold : (1#32).slt threshold = true)
    (hsettled : Settled undef handles start) :
    SameRuns undef handles start
      (jitStep undef (memoryBus handles) tsearch threshold noCycle) := by
  have hsim := tracks_simulation hsettled hfinds hthreshold
  have hinit : Tracks undef handles start threshold (jitInit start) (.start start) :=
    tracks_init threshold
  exact
    { follows := fun m j hm ↦ by
        obtain ⟨n, a, hn, h⟩ := hsim.run hinit hm
        exact ⟨n, a, hn, h.sim, h.written⟩
      covers := fun n a hn ↦ by
        obtain ⟨m, j, n', b, hle, hm, hn', h⟩ := hsim.covers hinit hn
        exact ⟨m, j, n', b, hle, hm, hn', h.sim, h.written⟩
      stops := fun m j hm hstop ↦ by
        obtain ⟨n, a, hn, h⟩ := hsim.run hinit hm
        exact ⟨n, a, hn, hsim.stop h hstop, h.sim, h.written⟩
      stopped := fun n a hn hstop ↦ by
        obtain ⟨m, j, hm, hjit, h⟩ := hsim.halts hinit hn hstop
        exact ⟨m, j, hm, hjit, h.sim, h.written⟩
      sound := fun m j hm ↦ by
        obtain ⟨n, a, -, h⟩ := hsim.run hinit hm
        exact h.sound
      compiled := fun m j hm bb hbb code hcode ↦ by
        obtain ⟨n, a, -, h⟩ := hsim.run hinit hm
        obtain ⟨hcomplete, rfl⟩ := (h.blocks bb hbb).words code hcode
        refine ⟨hcomplete, by simp [lineWords], ?_⟩
        intro i hi
        simp [lineWords, hi, wordAt] }

/-- `P <- A` -/
def jumpToZero : Word := type012 0#2 0#2 15#4 0#4 0#4 .bitwiseOr 0#12

/-- A machine about to run through zero memory that holds jumps to zero everywhere. -/
def jumping : SimState (Word → Word) where
  regs _ := 0#32
  devices _ := jumpToZero
  insnsExecuted := 0

theorem jumping_settled : Settled .masked (fun _ _ ↦ true) jumping := by
  have hinsn (s : SimState (Word → Word)) :
      runInstruction .masked (memoryBus fun _ _ ↦ true) s jumpToZero =
        .ok (s.advance.writeBack 15#4 (rhsValue .masked s.advance.regs jumpToZero)) := by
    rw [runInstruction_eq]
    simp [jumpToZero]
  have hkeep (n : ℕ) (s : SimState (Word → Word))
      (h : steps (interpStep .masked (memoryBus fun _ _ ↦ true)) n jumping = some s) :
      s.devices = fun _ ↦ jumpToZero := by
    refine steps_invariant _ (fun s ↦ s.devices = fun _ ↦ jumpToZero) ?_ rfl h
    intro s s' hs hstep
    obtain ⟨-, word, devices, next, hfetch, hrun, rfl⟩ := (interpStep_eq_some_iff _ _ _ _).mp hstep
    simp only [memoryBus, if_true, Option.some.injEq, Prod.mk.injEq, hs] at hfetch
    obtain ⟨rfl, rfl⟩ := hfetch
    rw [hinsn] at hrun
    obtain rfl := Except.ok.inj hrun
    rfl
  constructor
  · intro n s hn hend
    apply Option.ne_none_iff_exists'.mpr
    refine ⟨_, (interpStep_eq_some_iff _ _ _ _).mpr ⟨hend, jumpToZero, s.devices, _, ?_, hinsn s, rfl⟩⟩
    simp [memoryBus, hkeep n s hn]
  · intro n m s t _ hm _
    rw [hkeep m t hm]
    rfl

theorem jit_same_runs_jumping :
    SameRuns .masked (fun _ _ ↦ true) jumping
      (jitStep .masked (memoryBus fun _ _ ↦ true)
        (fun bases base ↦ bases.findIdx? (· == base)) 10#32 noCycle) := by
  refine jit_same_runs .masked _ jumping _ 10#32 ?_ (by decide) jumping_settled
  intro bases base k hfind
  rw [List.findIdx?_eq_some_iff_getElem] at hfind
  obtain ⟨hlt, hbase, -⟩ := hfind
  rw [List.getElem?_eq_getElem hlt]
  exact congrArg some (eq_of_beq hbase)

end Program

end Tenyr.Jit
