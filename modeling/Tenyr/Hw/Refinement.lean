import Tenyr.Hw.Traversal

/-!
# The core refines the interpreter

The core is closed with a memory that takes an arbitrary finite time to acknowledge each bus
cycle. From one instruction fetch to the next it performs the architectural step of
`run_instruction`, so the two machines agree after any number of instructions.
-/

namespace Tenyr.Hw

open Isa Sim

/-- The core with the memory on its bus and a record of the writes the memory accepted. -/
structure Soc where
  core : Core
  cells : Word → Word
  written : List (Word × Word)

namespace Soc

/-- A write is performed on the cycle in which it is acknowledged. -/
def tick (s : Soc) (i : Input) : Soc where
  core := s.core.tick i
  cells :=
    if s.core.wenO && i.ackI then Function.update s.cells s.core.adrO s.core.datO else s.cells
  written :=
    if s.core.wenO && i.ackI then s.written ++ [(s.core.adrO, s.core.datO)] else s.written

def run (s : Soc) (input : ℕ → Input) : ℕ → Soc
  | 0 => s
  | t + 1 => (run s input t).tick (input t)

end Soc

/-- What the environment promises: `halt` and `reset` stay low, every bus cycle is acknowledged
after a finite delay, and a read presents the word that the memory has at the address from its
acknowledge cycle on while the address is held, as long as no write is under way. -/
structure WellBehaved (soc : ℕ → Soc) (input : ℕ → Input) : Prop where
  quiet : ∀ t, (input t).Quiet
  acknowledged : ∀ t, (soc t).core.stbO = true → ∃ d, (input (t + d)).ackI = true
  presents : ∀ t d, (soc t).core.stbO = true → (input t).ackI = true →
    (∀ j ≤ d, (soc (t + j)).core.adrO = (soc t).core.adrO ∧ (soc (t + j)).core.wenO = false) →
    (input (t + d)).datI = (soc (t + d)).cells (soc t).core.adrO

/-- The memory seen by `tsim`, with the accesses it handles and its own record of writes. -/
abbrev LoggedMemory := (Word → Word) × List (Word × Word)

abbrev tsimBus (handles : MemoryOp → Word → Bool) : Bus LoggedMemory :=
  (memoryBus handles).logged

/-- The core is about to fetch in an architectural state of the interpreter: registers `A` to `O`
agree, the fetch address is `P`, and the memories and the writes performed so far agree. -/
structure AtFetch (s : Soc) (m : SimState LoggedMemory) : Prop where
  state : s.core.state = .s5
  idle : s.core.exec.Idle
  fetch : s.core.adrO = m.regs regP
  store : ∀ r, r ≠ regP → s.core.store r = m.regs r
  cells : s.cells = m.devices.1
  written : s.written = m.devices.2

/-- The state machine leaves `s5` once and comes back to it at time `t + n`. -/
def ReturnsAt (soc : ℕ → Soc) (t n : ℕ) : Prop :=
  ∃ d < n, (∀ j ≤ d, (soc (t + j)).core.state = .s5) ∧
    (∀ j, d < j → j < n → (soc (t + j)).core.state ≠ .s5) ∧
    (soc (t + n)).core.state = .s5

section Traversal

variable {soc : ℕ → Soc} {input : ℕ → Input}

/-- A run of the core with its memory. -/
structure Driven (soc : ℕ → Soc) (input : ℕ → Input) : Prop extends WellBehaved soc input where
  tick : ∀ t, soc (t + 1) = (soc t).tick (input t)

theorem Driven.clocked (h : Driven soc input) : Clocked (fun t ↦ (soc t).core) input where
  tick t := by rw [h.tick]; rfl
  quiet := h.quiet

/-- Outside `s3` the memory rests. -/
theorem Driven.rests (h : Driven soc input) {t : ℕ} (hs : (soc t).core.state ≠ .s3) :
    (soc (t + 1)).cells = (soc t).cells ∧ (soc (t + 1)).written = (soc t).written := by
  have hwen : (soc t).core.wenO = false := by simp [Core.wenO, Core.dStrb, hs]
  rw [h.tick]
  simp [Soc.tick, hwen]

/-- The instruction is latched: the register ports show the registers after `P` has been
advanced. -/
structure Latched (s : Soc) (m : SimState LoggedMemory) (w : Word) : Prop where
  insn : s.core.insn = w
  read : s.core.read = m.advance.regs
  idle : s.core.exec.Idle
  cells : s.cells = m.devices.1
  written : s.written = m.devices.2

/-- The core is away from `s5` in every cycle from `a` up to `b`. -/
def Away (soc : ℕ → Soc) (a b : ℕ) : Prop :=
  a ≤ b ∧ ∀ j, a ≤ j → j < b → (soc j).core.state ≠ .s5

theorem Away.trans {a b c : ℕ} (hab : Away soc a b) (hbc : Away soc b c) : Away soc a c := by
  refine ⟨hab.1.trans hbc.1, fun j haj hjc ↦ ?_⟩
  rcases Nat.lt_or_ge j b with hjb | hbj
  · exact hab.2 j haj hjb
  · exact hbc.2 j hbj hjc

theorem Away.single {a : ℕ} (h : (soc a).core.state ≠ .s5) : Away soc a (a + 1) :=
  ⟨Nat.le_succ a, fun j haj hja ↦ by
    obtain rfl : a = j := by omega
    exact h⟩

/-- While the fetch is not acknowledged nothing architectural changes. -/
theorem fetch_wait (h : Driven soc input) {m : SimState LoggedMemory} {t : ℕ}
    (hf : AtFetch (soc t) m) {d : ℕ} (hwait : ∀ j < d, (input (t + j)).ackI = false) :
    ∀ j ≤ d, AtFetch (soc (t + j)) m := by
  intro j hj
  induction j with
  | zero => exact hf
  | succ j ih =>
    have hj' := ih (Nat.le_of_succ_le hj)
    have hack := hwait j (Nat.lt_of_succ_le hj)
    have hcore : (soc (t + j + 1)).core = (soc (t + j)).core.tick (input (t + j)) := by
      rw [h.tick]
      rfl
    rw [Core.tick_s5 hj'.state (h.quiet _), hack] at hcore
    have hrest := h.rests (t := t + j) (by rw [hj'.state]; decide)
    rw [← Nat.add_assoc]
    exact
      { state := by rw [hcore]; rfl
        idle := by rw [hcore]; exact hj'.idle.tick _ _
        fetch := by rw [hcore]; exact hj'.fetch
        store := by rw [hcore]; exact hj'.store
        cells := hrest.1.trans hj'.cells
        written := hrest.2.trans hj'.written }

/-- The fetch ends after a finite delay with the addressed word latched in `s0`. -/
theorem fetch_latches (h : Driven soc input) {m : SimState LoggedMemory} {t : ℕ}
    (hf : AtFetch (soc t) m) :
    ∃ d, (∀ j ≤ d, (soc (t + j)).core.state = .s5) ∧
      Away soc (t + d + 1) (t + d + 2) ∧
      (soc (t + d + 2)).core.state = .s0 ∧
      Latched (soc (t + d + 2)) m (m.devices.1 (m.regs regP)) := by
  have hstb : (soc t).core.stbO = true := by simp [Core.stbO, Core.iStrb, hf.state]
  let d := Nat.find (h.acknowledged t hstb)
  have hack : (input (t + d)).ackI = true := Nat.find_spec (h.acknowledged t hstb)
  have hwait : ∀ j < d, (input (t + j)).ackI = false := fun j hj ↦ by
    simpa using Nat.find_min (h.acknowledged t hstb) hj
  have hfetch := fetch_wait h hf hwait
  have hd := hfetch d le_rfl
  have h1 : (soc (t + d + 1)).core = (soc (t + d)).core.tick (input (t + d)) := by
    rw [h.tick]
    rfl
  rw [Core.tick_s5 hd.state (h.quiet _), hack] at h1
  have hs6 : (soc (t + d + 1)).core.state = .s6 := by rw [h1]; rfl
  have hrest1 := h.rests (t := t + d) (by rw [hd.state]; decide)
  -- the address is held in `s6`, so the word is still presented when it is latched
  have hdat : (input (t + d + 1)).datI = (soc (t + d)).cells (soc (t + d)).core.adrO := by
    rw [← hrest1.1]
    apply h.presents (t + d) 1 (by simp [Core.stbO, Core.iStrb, hd.state]) hack
    intro j hj
    obtain rfl | rfl : j = 0 ∨ j = 1 := by omega
    · exact ⟨rfl, by simp [Core.wenO, Core.dStrb, hd.state]⟩
    · exact ⟨by rw [h1], by simp [Core.wenO, Core.dStrb, hs6]⟩
  have h2 : (soc (t + d + 2)).core = (soc (t + d + 1)).core.tick (input (t + d + 1)) := by
    rw [h.tick]
    rfl
  rw [Core.tick_s6 hs6 (h.quiet _), hdat, hd.cells, hd.fetch] at h2
  have hrest2 := h.rests (t := t + d + 1) (by rw [hs6]; decide)
  refine ⟨d, fun j hj ↦ (hfetch j hj).state, Away.single (by rw [hs6]; decide), by rw [h2], ?_⟩
  exact
    { insn := by rw [h2]
      read := by
        funext r
        rw [h2, h1]
        by_cases hr : r = regP
        · simp [Core.read, SimState.advance, SimState.setReg, hr, hd.fetch]
        · simp [Core.read, SimState.advance, SimState.setReg, hr, hd.store r hr]
      idle := by rw [h2, h1]; exact (hd.idle.tick _ _).tick _ _
      cells := (hrest2.1.trans hrest1.1).trans hd.cells
      written := (hrest2.2.trans hrest1.2).trans hd.written }

/-- The right-hand side has reached `_irhs`. -/
structure Computed (undef : UndefinedShifts) (s : Soc) (m : SimState LoggedMemory)
    (w : Word) : Prop extends Latched s m w where
  irhs : s.core.irhs = rhsValue undef m.advance.regs w

theorem exec_computes (undef : UndefinedShifts) (h : Driven soc input)
    {m : SimState LoggedMemory} {w : Word} {t : ℕ} (hs : (soc t).core.state = .s0)
    (hl : Latched (soc t) m w) (hcount : CountsInRange m.advance.regs w) :
    Away soc t (t + 5) ∧ (soc (t + 5)).core.state = .s2 ∧
      Computed undef (soc (t + 5)) m w := by
  obtain ⟨hwait, exec, hidle, h5⟩ := compute h.clocked hs hl.idle
  have hne (k : ℕ) (hk : k < 5) : (soc (t + k)).core.state ≠ .s3 ∧
      (soc (t + k)).core.state ≠ .s5 := by
    rcases Nat.eq_zero_or_pos k with rfl | hpos
    · rw [Nat.add_zero, hs]
      decide
    · rw [hwait k hpos hk]
      decide
  have hrest : ∀ k ≤ 5, (soc (t + k)).cells = (soc t).cells ∧
      (soc (t + k)).written = (soc t).written := by
    intro k hk
    induction k with
    | zero => exact ⟨rfl, rfl⟩
    | succ k ih =>
      obtain ⟨hcells, hwritten⟩ := h.rests (hne k hk).1
      obtain ⟨hcells', hwritten'⟩ := ih (Nat.le_of_succ_le hk)
      exact ⟨hcells.trans hcells', hwritten.trans hwritten'⟩
  have hvalue := pipeline_value undef (soc t).core (by rw [hl.insn, hl.read]; exact hcount)
  refine ⟨⟨Nat.le_add_right t 5, fun j htj hjt ↦ ?_⟩, by rw [h5], ?_⟩
  · obtain ⟨k, rfl⟩ := Nat.exists_eq_add_of_le htj
    exact (hne k (by omega)).2
  · exact
      { insn := by rw [h5]; exact hl.insn
        read := by rw [h5]; exact hl.read
        idle := by rw [h5]; exact hidle
        cells := (hrest 5 le_rfl).1.trans hl.cells
        written := (hrest 5 le_rfl).2.trans hl.written
        irhs := by rw [h5, ← hl.read, ← hl.insn]; exact hvalue }

/-! ### The data cycle -/

theorem storing_eq (w : Word) : storing w = (fieldDd w == 1#2 || fieldDd w == 2#2) := by
  change ((fieldDd w).getLsbD 1 ^^ (fieldDd w).getLsbD 0) = _
  generalize fieldDd w = dd
  revert dd
  decide

theorem loading_eq (w : Word) : loading w = (fieldDd w == 3#2) := by
  change ((fieldDd w).getLsbD 1 && (fieldDd w).getLsbD 0) = _
  generalize fieldDd w = dd
  revert dd
  decide

theorem derefRhs_eq (w : Word) : derefRhs w = (fieldDd w == 1#2 || fieldDd w == 3#2) := by
  change (fieldDd w).getLsbD 0 = _
  generalize fieldDd w = dd
  revert dd
  decide

/-- A data cycle is under way. -/
structure Accessing (undef : UndefinedShifts) (s : Soc) (m : SimState LoggedMemory)
    (w : Word) : Prop extends Computed undef s m w where
  state : s.core.state = .s3
  memory : s.core.memory = true
  addr : s.core.adrO = s.core.adrD

theorem access_wait (undef : UndefinedShifts) (h : Driven soc input)
    {m : SimState LoggedMemory} {w : Word} {t : ℕ} (ha : Accessing undef (soc t) m w) {d : ℕ}
    (hwait : ∀ j < d, (input (t + j)).ackI = false) :
    ∀ j ≤ d, Accessing undef (soc (t + j)) m w := by
  intro j hj
  induction j with
  | zero => exact ha
  | succ j ih =>
    have hj' := ih (Nat.le_of_succ_le hj)
    have hack := hwait j (Nat.lt_of_succ_le hj)
    have hsoc : soc (t + j + 1) = (soc (t + j)).tick (input (t + j)) := h.tick _
    have hcore : (soc (t + j + 1)).core = (soc (t + j)).core.tick (input (t + j)) := by
      rw [hsoc]
      rfl
    rw [Core.tick_s3 hj'.state (h.quiet _), hack] at hcore
    rw [← Nat.add_assoc]
    exact
      { insn := by rw [hcore]; exact hj'.insn
        read := by rw [hcore]; exact hj'.read
        idle := by rw [hcore]; exact hj'.idle.tick _ _
        cells := by rw [hsoc]; simp [Soc.tick, hack, hj'.cells]
        written := by rw [hsoc]; simp [Soc.tick, hack, hj'.written]
        irhs := by rw [hcore]; exact hj'.irhs
        state := by rw [hcore]; rfl
        memory := by rw [hcore]; exact hj'.memory
        addr := by rw [hcore]; exact hj'.addr }

/-- The instruction is complete up to the register update of `s4`: memory is that of `m'`, and the
registers of `m'` are the present ones, updated at `Z` unless the instruction stores. -/
structure Completing (s : Soc) (m m' : SimState LoggedMemory) (w : Word) : Prop where
  state : s.core.state = .s4
  insn : s.core.insn = w
  read : s.core.read = m.advance.regs
  idle : s.core.exec.Idle
  cells : s.cells = m'.devices.1
  written : s.written = m'.devices.2
  regs : m'.regs =
    if storing w then m.advance.regs
    else (m.advance.writeBack (fieldZ w) s.core.nextZ).regs

/-- `s4` writes the result back and presents the next fetch address. -/
theorem complete (h : Driven soc input) {m m' : SimState LoggedMemory} {w : Word} {t : ℕ}
    (hc : Completing (soc t) m m' w) : AtFetch (soc (t + 1)) m' := by
  have hcore : (soc (t + 1)).core = (soc t).core.tick (input t) := by
    rw [h.tick]
    rfl
  rw [Core.tick_s4 hc.state (h.quiet _)] at hcore
  have hrest := h.rests (t := t) (by rw [hc.state]; decide)
  have hz : idxZ (soc t).core.insn = fieldZ w := by rw [hc.insn]; rfl
  have hP : (soc t).core.nextP = m.advance.regs regP := by
    rw [← hc.read]
    rfl
  have hstore (r : RegIndex) (hr : r ≠ regP) : (soc t).core.store r = m.advance.regs r := by
    rw [← hc.read, Core.read, if_neg hr]
  refine
    { state := by rw [hcore]
      idle := by rw [hcore]; exact hc.idle.tick _ _
      fetch := ?_
      store := fun r hr ↦ ?_
      cells := hrest.1.trans hc.cells
      written := hrest.2.trans hc.written }
  · rw [hcore, hc.regs]
    change (soc t).core.nextI = _
    unfold Core.nextI branching
    rw [hz, hc.insn, hP]
    cases storing w with
    | true => simp
    | false =>
      by_cases hzP : fieldZ w = 15#4
      · simp [hzP, SimState.writeBack, SimState.setReg]
      · by_cases hz0 : fieldZ w = 0#4
        · simp [hz0, SimState.writeBack]
        · simp [hzP, hz0, SimState.writeBack, SimState.setReg, Function.update_of_ne (Ne.symm hzP)]
  · rw [hcore, hc.regs]
    change (soc t).core.nextStore r = _
    unfold Core.nextStore Core.upZ
    rw [hz, hc.state, hc.insn]
    cases storing w with
    | true => simpa using hstore r hr
    | false =>
      by_cases hz0 : fieldZ w = 0#4
      · simpa [hz0, SimState.writeBack] using hstore r hr
      · by_cases hzP : fieldZ w = 15#4
        · simpa [hzP, SimState.writeBack, SimState.setReg, Function.update_of_ne hr] using
            hstore r hr
        · by_cases hrz : r = fieldZ w
          · subst hrz
            simp [hz0, hzP, SimState.writeBack, SimState.setReg]
          · simpa [hz0, hzP, SimState.writeBack, SimState.setReg, Function.update_of_ne hrz] using
              hstore r hr

/-- Address of the data cycle of `w`. -/
def dataAddr (undef : UndefinedShifts) (m : SimState LoggedMemory) (w : Word) : Word :=
  if derefRhs w then rhsValue undef m.advance.regs w else m.advance.regs (fieldZ w)

/-- Datum written by the data cycle of `w`. -/
def dataOut (undef : UndefinedShifts) (m : SimState LoggedMemory) (w : Word) : Word :=
  if derefRhs w then m.advance.regs (fieldZ w) else rhsValue undef m.advance.regs w

theorem Computed.adrD_eq {undef : UndefinedShifts} {s : Soc} {m : SimState LoggedMemory}
    {w : Word} (hc : Computed undef s m w) : s.core.adrD = dataAddr undef m w := by
  have hz : s.core.valZ = m.advance.regs (fieldZ w) := by
    rw [← hc.read, ← hc.insn]
    rfl
  rw [Core.adrD, dataAddr, hc.insn, hc.irhs, hz]

theorem Computed.datO_eq {undef : UndefinedShifts} {s : Soc} {m : SimState LoggedMemory}
    {w : Word} (hc : Computed undef s m w) : s.core.datO = dataOut undef m w := by
  have hz : s.core.valZ = m.advance.regs (fieldZ w) := by
    rw [← hc.read, ← hc.insn]
    rfl
  rw [Core.datO, dataOut, hc.insn, hc.irhs, hz]

/-- The memory after the data cycle of `w`, with its record of writes. -/
def memoryAfter (undef : UndefinedShifts) (m : SimState LoggedMemory) (w : Word) :
    LoggedMemory :=
  if storing w then
    (Function.update m.devices.1 (dataAddr undef m w) (dataOut undef m w),
      m.devices.2 ++ [(dataAddr undef m w, dataOut undef m w)])
  else m.devices

/-- The data cycle ends after a finite delay. A store is performed once, on the acknowledge cycle;
a load latches the addressed word. -/
theorem access_done (undef : UndefinedShifts) (h : Driven soc input)
    {m m' : SimState LoggedMemory} {w : Word} {t : ℕ} (ha : Accessing undef (soc t) m w)
    (hmem : m'.devices = memoryAfter undef m w)
    (hregs : m'.regs =
      if storing w then m.advance.regs
      else (m.advance.writeBack (fieldZ w) (m.devices.1 (dataAddr undef m w))).regs) :
    ∃ b, Away soc t b ∧ Completing (soc b) m m' w := by
  have hstb : (soc t).core.stbO = true := by
    simp [Core.stbO, Core.dStrb, ha.state, ha.memory]
  let d := Nat.find (h.acknowledged t hstb)
  have hack : (input (t + d)).ackI = true := Nat.find_spec (h.acknowledged t hstb)
  have hwait : ∀ j < d, (input (t + j)).ackI = false := fun j hj ↦ by
    simpa using Nat.find_min (h.acknowledged t hstb) hj
  have haccess := access_wait undef h ha hwait
  have hd := haccess d le_rfl
  have hsoc : soc (t + d + 1) = (soc (t + d)).tick (input (t + d)) := h.tick _
  have hcore : (soc (t + d + 1)).core = (soc (t + d)).core.tick (input (t + d)) := by
    rw [hsoc]
    rfl
  rw [Core.tick_s3 hd.state (h.quiet _), hack] at hcore
  have hwen : (soc (t + d)).core.wenO = storing w := by
    simp [Core.wenO, Core.dStrb, hd.state, hd.memory, hd.insn]
  have haddr : (soc (t + d)).core.adrO = dataAddr undef m w :=
    hd.addr.trans hd.toComputed.adrD_eq
  have hafter : ((soc (t + d + 1)).cells, (soc (t + d + 1)).written) =
      memoryAfter undef m w := by
    rw [hsoc]
    unfold memoryAfter Soc.tick
    rw [hwen, hack, haddr, hd.toComputed.datO_eq, hd.cells, hd.written]
    cases storing w <;> rfl
  refine ⟨t + d + 1, ⟨by omega, fun j htj hjt ↦ ?_⟩, ?_⟩
  · obtain ⟨k, rfl⟩ := Nat.exists_eq_add_of_le htj
    rw [(haccess k (by omega)).state]
    decide
  · exact
      { state := by rw [hcore]; rfl
        insn := by rw [hcore]; exact hd.insn
        read := by rw [hcore]; exact hd.read
        idle := by rw [hcore]; exact hd.idle.tick _ _
        cells := by rw [hmem, ← hafter]
        written := by rw [hmem, ← hafter]
        regs := by
          rw [hregs]
          cases hst : storing w with
          | true => simp
          | false =>
            -- only a load reaches the data cycle without storing
            have hload : loading w = true := by
              have hmemory := ha.memory
              rwa [Core.memory, ha.insn, hst, Bool.or_false] at hmemory
            have hderef : derefRhs w = true := by
              rw [loading_eq] at hload
              rw [derefRhs_eq, hload, Bool.or_true]
            have hdat := h.presents (t + d) 0 (by simp [Core.stbO, Core.dStrb, hd.state, hd.memory])
              hack (fun j hj ↦ by
                obtain rfl : j = 0 := by omega
                exact ⟨rfl, hwen.trans hst⟩)
            rw [Nat.add_zero, haddr, hd.cells] at hdat
            have hnextZ : (soc (t + d + 1)).core.nextZ = m.devices.1 (dataAddr undef m w) := by
              rw [hcore, ← hdat]
              simp [Core.nextZ, hd.insn, hderef]
            simp [hnextZ] }

/-- What a memory instruction of the interpreter does, in the terms of the data cycle. -/
theorem runInstruction_memoryAfter (undef : UndefinedShifts)
    (handles : MemoryOp → Word → Bool) {m m' : SimState LoggedMemory} {w : Word}
    (hdd : fieldDd w ≠ 0#2) (hrun : runInstruction undef (tsimBus handles) m w = .ok m') :
    m'.devices = memoryAfter undef m w ∧
      m'.regs = if storing w then m.advance.regs
        else (m.advance.writeBack (fieldZ w) (m.devices.1 (dataAddr undef m w))).regs := by
  have hdevices : m.advance.devices = m.devices := rfl
  unfold memoryAfter dataAddr dataOut
  rw [runInstruction_eq] at hrun
  rw [storing_eq, derefRhs_eq]
  rcases fieldDd_cases w with hcase | hcase | hcase | hcase
  · exact absurd hcase hdd
  · rw [hcase] at hrun ⊢
    by_cases hh : handles .write (rhsValue undef m.advance.regs w) = true
    · simp only [SimState.store, Bus.logged, memoryBus, hh, hdevices] at hrun
      obtain rfl := Except.ok.inj hrun
      exact ⟨rfl, rfl⟩
    · simp [SimState.store, Bus.logged, memoryBus, hh] at hrun
  · rw [hcase] at hrun ⊢
    by_cases hh : handles .write (m.advance.regs (fieldZ w)) = true
    · simp only [SimState.store, Bus.logged, memoryBus, hh, hdevices] at hrun
      obtain rfl := Except.ok.inj hrun
      exact ⟨rfl, rfl⟩
    · simp [SimState.store, Bus.logged, memoryBus, hh] at hrun
  · rw [hcase] at hrun ⊢
    by_cases hh : handles .dataRead (rhsValue undef m.advance.regs w) = true
    · simp only [SimState.load, Bus.logged, memoryBus, hh, hdevices] at hrun
      obtain rfl := Except.ok.inj hrun
      by_cases hz : fieldZ w = 0#4
      · exact ⟨by simp [SimState.writeBack, hz], by simp [SimState.writeBack, hz]⟩
      · exact ⟨by simp [SimState.writeBack, SimState.setReg, hz],
          by simp [SimState.writeBack, SimState.setReg, hz]⟩
    · simp [SimState.load, Bus.logged, memoryBus, hh] at hrun

/-- From `s2` the core completes what `run_instruction` does, with a data cycle exactly when the
instruction accesses memory. -/
theorem data_completes (undef : UndefinedShifts) (handles : MemoryOp → Word → Bool)
    (h : Driven soc input) {m m' : SimState LoggedMemory} {w : Word} {t : ℕ}
    (hs : (soc t).core.state = .s2) (hc : Computed undef (soc t) m w)
    (hrun : runInstruction undef (tsimBus handles) m w = .ok m') :
    ∃ b, Away soc t b ∧ Completing (soc b) m m' w := by
  have hcore : (soc (t + 1)).core = (soc t).core.tick (input t) := by
    rw [h.tick]
    rfl
  rw [Core.tick_s2 hs (h.quiet _)] at hcore
  have hrest := h.rests (t := t) (by rw [hs]; decide)
  have haway : Away soc t (t + 1) := Away.single (by rw [hs]; decide)
  by_cases hassign : fieldDd w = 0#2
  · rw [runInstruction_eq] at hrun
    have hst : storing w = false := by rw [storing_eq, hassign]; rfl
    have hld : loading w = false := by rw [loading_eq, hassign]; rfl
    have hderef : derefRhs w = false := by rw [derefRhs_eq, hassign]; rfl
    rw [hassign] at hrun
    obtain rfl := Except.ok.inj hrun
    refine ⟨t + 1, haway, ?_⟩
    have hdev (z : RegIndex) (v : Word) : (m.advance.writeBack z v).devices = m.devices := by
      unfold SimState.writeBack
      split <;> rfl
    exact
      { state := by rw [hcore]; simp [Core.memory, hc.insn, hst, hld]
        insn := by rw [hcore]; exact hc.insn
        read := by rw [hcore]; exact hc.read
        idle := by rw [hcore]; exact hc.idle.tick _ _
        cells := by rw [hdev, hrest.1, hc.cells]
        written := by rw [hdev, hrest.2, hc.written]
        regs := by
          rw [hcore]
          simp [Core.nextZ, hc.insn, hst, hderef, hc.irhs] }
  · have hmemory : (soc t).core.memory = true := by
      rw [Core.memory, hc.insn, storing_eq, loading_eq]
      revert hassign
      generalize fieldDd w = dd
      revert dd
      decide
    have ha : Accessing undef (soc (t + 1)) m w :=
      { insn := by rw [hcore]; exact hc.insn
        read := by rw [hcore]; exact hc.read
        idle := by rw [hcore]; exact hc.idle.tick _ _
        cells := hrest.1.trans hc.cells
        written := hrest.2.trans hc.written
        irhs := by rw [hcore]; exact hc.irhs
        state := by rw [hcore]; simp [hmemory]
        memory := by rw [hcore]; exact hmemory
        addr := by rw [hcore]; rfl }
    have hspec := runInstruction_memoryAfter undef handles hassign hrun
    obtain ⟨b, hab, hb⟩ := access_done undef h ha hspec.1 hspec.2
    exact ⟨b, haway.trans hab, hb⟩

/-- From one fetch to the next the core performs the step of `run_instruction`. -/
theorem traversal (undef : UndefinedShifts) (handles : MemoryOp → Word → Bool)
    (h : Driven soc input) {m m' : SimState LoggedMemory} {t : ℕ} (hf : AtFetch (soc t) m)
    (hcount : CountsInRange m.advance.regs (m.devices.1 (m.regs regP)))
    (hrun : runInstruction undef (tsimBus handles) m (m.devices.1 (m.regs regP)) = .ok m') :
    ∃ n, ReturnsAt soc t n ∧ AtFetch (soc (t + n)) m' := by
  obtain ⟨d, hfetch, haway1, hs0, hlatched⟩ := fetch_latches h hf
  obtain ⟨haway2, hs2, hcomputed⟩ := exec_computes undef h hs0 hlatched hcount
  obtain ⟨b, haway3, hcompleting⟩ := data_completes undef handles h hs2 hcomputed hrun
  have haway4 : Away soc b (b + 1) := Away.single (by rw [hcompleting.state]; decide)
  have haway := (haway1.trans haway2).trans (haway3.trans haway4)
  obtain ⟨n, hn⟩ := Nat.exists_eq_add_of_le (show t ≤ b + 1 by have := haway.1; omega)
  have hdone := complete h hcompleting
  rw [hn] at hdone haway
  refine ⟨n, ⟨d, by have := haway.1; omega, hfetch, fun j hdj hjn ↦ ?_, hdone.state⟩, hdone⟩
  exact haway.2 (t + j) (by omega) (by omega)

/-- `k` traversals lead from time `t` to time `t'`. -/
inductive Traversals (soc : ℕ → Soc) : ℕ → ℕ → ℕ → Prop
  | zero (t : ℕ) : Traversals soc t 0 t
  | succ {t n k t' : ℕ} : ReturnsAt soc t n → Traversals soc (t + n) k t' →
      Traversals soc t (k + 1) t'

open Lib.Transition in
/-- Shift counts and bit indices stay in `0..31` during `n` instructions from `m`. -/
def CountsInRangeFor (undef : UndefinedShifts) (handles : MemoryOp → Word → Bool) (n : ℕ)
    (m : SimState LoggedMemory) : Prop :=
  ∀ k < n, ∀ s, steps (interpStep undef (tsimBus handles)) k m = some s →
    CountsInRange s.advance.regs (s.devices.1 (s.regs regP))

open Lib.Transition in
/-- After any number of instructions the two machines agree. -/
theorem traversals (undef : UndefinedShifts) (handles : MemoryOp → Word → Bool)
    (h : Driven soc input) {n : ℕ} {m m' : SimState LoggedMemory} {t : ℕ}
    (hf : AtFetch (soc t) m) (hcount : CountsInRangeFor undef handles n m)
    (hrun : steps (interpStep undef (tsimBus handles)) n m = some m') :
    ∃ t', Traversals soc t n t' ∧ AtFetch (soc t') m' := by
  induction n generalizing m t with
  | zero =>
    obtain rfl : m = m' := by simpa using hrun
    exact ⟨t, .zero t, hf⟩
  | succ n ih =>
    rw [steps_succ, Option.bind_eq_some_iff] at hrun
    obtain ⟨m₁, hstep, hrest⟩ := hrun
    obtain ⟨_, word, devices, next, hfetch, hinsn, rfl⟩ :=
      (interpStep_eq_some_iff undef _ m m₁).mp hstep
    -- a fetch from logged memory changes nothing
    have hword : word = m.devices.1 (m.regs regP) ∧ devices = m.devices := by
      by_cases hh : handles .insnRead (m.regs regP) = true
      · simp only [Bus.logged, memoryBus, hh] at hfetch
        obtain ⟨rfl, rfl⟩ := Prod.mk.inj (Option.some.inj hfetch)
        exact ⟨rfl, rfl⟩
      · simp [Bus.logged, memoryBus, hh] at hfetch
    obtain ⟨rfl, rfl⟩ := hword
    obtain ⟨d, hreturn, hnext⟩ :=
      traversal undef handles h hf (hcount 0 (Nat.succ_pos n) m rfl) hinsn
    have hnext' : AtFetch (soc (t + d)) { next with insnsExecuted := next.insnsExecuted + 1 } :=
      ⟨hnext.state, hnext.idle, hnext.fetch, hnext.store, hnext.cells, hnext.written⟩
    obtain ⟨t', htraversals, hat⟩ := ih hnext' (fun k hk s hs ↦ by
      refine hcount (k + 1) (Nat.succ_lt_succ hk) s ?_
      rw [steps_succ, hstep]
      exact hs) hrest
    exact ⟨t', .succ hreturn htraversals, hat⟩

end Traversal

/-! ## Refinement -/

open Lib.Transition in
/-- **The core refines the interpreter.** Whenever the core is about to fetch in a state of the
interpreter, one traversal of its state machine is one `run_instruction` on the addressed word;
after `n` traversals it agrees with `tsim` after `n` instructions. -/
theorem core_refines_interpreter (undef : UndefinedShifts) (handles : MemoryOp → Word → Bool)
    (start : Soc) (input : ℕ → Input) (henv : WellBehaved (start.run input) input) :
    (∀ t m m', AtFetch (start.run input t) m →
      CountsInRange m.advance.regs (m.devices.1 (m.regs regP)) →
      runInstruction undef (tsimBus handles) m (m.devices.1 (m.regs regP)) = .ok m' →
      ∃ n, ReturnsAt (start.run input) t n ∧ AtFetch (start.run input (t + n)) m') ∧
    (∀ t m n m', AtFetch (start.run input t) m → CountsInRangeFor undef handles n m →
      steps (interpStep undef (tsimBus handles)) n m = some m' →
      ∃ t', Traversals (start.run input) t n t' ∧ AtFetch (start.run input t') m') := by
  have hdriven : Driven (start.run input) input := { henv with tick := fun _ ↦ rfl }
  exact ⟨fun _ _ _ hf hcount hrun ↦ traversal undef handles hdriven hf hcount hrun,
    fun _ _ _ _ hf hcount hrun ↦ traversals undef handles hdriven hf hcount hrun⟩

/-! ### A memory that shows its contents -/

namespace Soc

/-- The core on a memory that always shows the word at the address, with a given acknowledgement
in each cycle. -/
def answer (s : Soc) (ack : Bool) : Input where
  reset := false
  datI := s.cells s.core.adrO
  ackI := ack
  errI := false
  rtyI := false
  haltIn := false

def closed (s : Soc) (acks : ℕ → Bool) : ℕ → Soc
  | 0 => s
  | t + 1 => (closed s acks t).tick ((closed s acks t).answer (acks t))

def answers (s : Soc) (acks : ℕ → Bool) (t : ℕ) : Input := (s.closed acks t).answer (acks t)

theorem run_answers (s : Soc) (acks : ℕ → Bool) (t : ℕ) : s.run (s.answers acks) t = s.closed acks t := by
  induction t with
  | zero => rfl
  | succ t ih => rw [run, ih, closed, answers]

/-- Such a memory keeps the promises, also for a store over the word it shows. -/
theorem wellBehaved_answers (s : Soc) {acks : ℕ → Bool} (hacks : ∀ t, ∃ d, acks (t + d) = true) :
    WellBehaved (s.run (s.answers acks)) (s.answers acks) where
  quiet _ := ⟨rfl, rfl⟩
  acknowledged t _ := hacks t
  presents t d _ _ hheld := by
    rw [← (hheld d le_rfl).1, run_answers]
    rfl

end Soc

/-- A store to `[B]`, a load from it, a sum, and a store of the sum over its own word. -/
def storingWords : Word → Word :=
  Function.update (Function.update (Function.update (Function.update (fun _ ↦ 0xffffffff#32)
    0x1000#32 0x12100000#32) 0x1001#32 0x33100000#32) 0x1002#32 0x03324000#32) 0x1003#32 0x13f00fff#32

/-- `B` is `0x2000`, and `C` is 5. -/
def storingRegs : RegIndex → Word :=
  Function.update (Function.update (Function.update (fun _ ↦ 0#32) 1#4 0x2000#32) 2#4 5#32) regP resetVector

/-- The core about to fetch the first of these words. -/
def storingSoc : Soc where
  core :=
    { state := .s5, adrO := resetVector, insn := 0#32, data := 0#32, irhs := 0#32, nextP := 0#32
      exec :=
        { rop := 0#4, valZ := 0#32, rY := 0#32, rZ := 0#32, rA := 0#32, rB := 0#32, rC := 0#32
          done := false, add := false, act := false, staged := false }
      store := storingRegs }
  cells := storingWords
  written := []

def storingMachine : SimState LoggedMemory where
  regs := storingRegs
  devices := (storingWords, [])
  insnsExecuted := 0

/-- Every third cycle acknowledges. -/
def thirdAcks (t : ℕ) : Bool := t % 3 == 2

theorem thirdAcks_again (t : ℕ) : ∃ d, thirdAcks (t + d) = true := by
  refine ⟨2 - t % 3, ?_⟩
  rw [thirdAcks, beq_iff_eq]
  omega

theorem storingSoc_atFetch : AtFetch storingSoc storingMachine where
  state := rfl
  idle := ⟨rfl, rfl, rfl, rfl⟩
  fetch := rfl
  store _ _ := rfl
  cells := rfl
  written := rfl

open Lib.Transition in
theorem storingMachine_counts : CountsInRangeFor .masked (fun _ _ ↦ true) 4 storingMachine := by
  intro k hk s hs
  have hop : ∀ j < 4, ∃ op, (op = .bitwiseOr ∨ op = .add) ∧
      (steps (interpStep .masked (tsimBus fun _ _ ↦ true)) j storingMachine).map
        (fun m ↦ insnOp (m.devices.1 (m.regs regP))) = some op := by
    intro j hj
    match j, hj with
    | 0, _ => exact ⟨_, .inl rfl, rfl⟩
    | 1, _ => exact ⟨_, .inl rfl, rfl⟩
    | 2, _ => exact ⟨_, .inr rfl, rfl⟩
    | 3, _ => exact ⟨_, .inl rfl, rfl⟩
  obtain ⟨op, hop, hword⟩ := hop k hk
  rw [hs, Option.map_some, Option.some.injEq] at hword
  rw [CountsInRange, hword]
  rcases hop with rfl | rfl
  · exact fun h ↦ absurd h (by decide)
  · exact fun h ↦ absurd h (by decide)

/-- The first instruction by itself, and all four, the last of which overwrites its own word. -/
theorem core_refines_interpreter_storing :
    (∃ n m, ReturnsAt (storingSoc.run (storingSoc.answers thirdAcks)) 0 n ∧
      AtFetch (storingSoc.run (storingSoc.answers thirdAcks) (0 + n)) m ∧
      m.regs regP = 0x1001#32 ∧ m.devices.1 0x2000#32 = 5#32 ∧ m.devices.2 = [(0x2000#32, 5#32)]) ∧
    ∃ t m, Traversals (storingSoc.run (storingSoc.answers thirdAcks)) 0 4 t ∧
      AtFetch (storingSoc.run (storingSoc.answers thirdAcks) t) m ∧
      m.regs regP = 0x1004#32 ∧ m.regs 3#4 = 10#32 ∧ m.devices.1 0x1003#32 = 10#32 ∧
      m.devices.2 = [(0x2000#32, 5#32), (0x1003#32, 10#32)] := by
  obtain ⟨hone, hmany⟩ := core_refines_interpreter .masked (fun _ _ ↦ true) storingSoc
    (storingSoc.answers thirdAcks) (storingSoc.wellBehaved_answers thirdAcks_again)
  have hcounts := storingMachine_counts
  constructor
  · obtain ⟨n, hreturns, hfetch⟩ := hone 0 storingMachine _ storingSoc_atFetch
      (hcounts 0 (by decide) storingMachine rfl) (by rw [runInstruction_eq]; rfl)
    exact ⟨n, _, hreturns, hfetch, rfl, rfl, rfl⟩
  · obtain ⟨t, htraversals, hfetch⟩ := hmany 0 storingMachine 4 _ storingSoc_atFetch hcounts rfl
    exact ⟨t, _, htraversals, hfetch, rfl, rfl, rfl, rfl⟩

/-! ## Reaching a fetch -/

/-- The interpreter state that a core in `s5` stands for. -/
def Soc.architectural (s : Soc) : SimState LoggedMemory where
  regs r := if r = regP then s.core.adrO else s.core.store r
  devices := (s.cells, s.written)
  insnsExecuted := 0

theorem Core.tick_reset {c : Core} {i : Input} (hi : i.reset = true) :
    c.tick i = { c with
      state := .s5, adrO := resetVector, store := c.nextStore,
      exec := c.exec.tick (c.state == .s0) (op c.insn) c.shuffled } := by
  simp [Core.tick, hi]

/-- Five clock edges under `reset` drain the pipeline, whatever the core was doing, and leave it
fetching from the reset vector. -/
theorem reset_reaches_fetch (start : Soc) (input : ℕ → Input)
    (hreset : ∀ t < 5, (input t).reset = true) :
    AtFetch (start.run input 5) (start.run input 5).architectural ∧
      (start.run input 5).core.adrO = resetVector := by
  have htick (t : ℕ) : (start.run input (t + 1)).core =
      (start.run input t).core.tick (input t) := rfl
  have hcore (t : ℕ) (ht : t < 5) := (htick t).trans (Core.tick_reset (hreset t ht))
  have hs5 (t : ℕ) (ht : t < 5) : (start.run input (t + 1)).core.state = .s5 := by
    rw [hcore t ht]
  have htoken (t : ℕ) (ht : t < 4) :
      (start.run input (t + 2)).core.exec.staged = false := by
    rw [hcore (t + 1) (by omega)]
    simp [Exec.tick, hs5 t (by omega)]
  have hact (t : ℕ) (ht : t < 3) : (start.run input (t + 3)).core.exec.act = false := by
    rw [hcore (t + 2) (by omega)]
    exact htoken t (by omega)
  have hadd (t : ℕ) (ht : t < 2) : (start.run input (t + 4)).core.exec.add = false := by
    rw [hcore (t + 3) (by omega)]
    exact hact t (by omega)
  have hdone : (start.run input 5).core.exec.done = false := by
    rw [hcore 4 (by omega)]
    exact hadd 0 (by omega)
  have hidle : (start.run input 5).core.exec.Idle :=
    ⟨hdone, hadd 1 (by omega), hact 2 (by omega), htoken 3 (by omega)⟩
  refine ⟨?_, by rw [hcore 4 (by omega)]⟩
  exact
    { state := hs5 4 (by omega)
      idle := hidle
      fetch := by simp [Soc.architectural]
      store := fun r hr ↦ by simp [Soc.architectural, hr]
      cells := rfl
      written := rfl }

end Tenyr.Hw
