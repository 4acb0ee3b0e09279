import Tenyr.Sim.SpiCycle

/-!
# SPI transfers

From the write that sets `GO_BSY` on, the selected instance is clocked once for each bit, and the register has its
answers when `GO_BSY` is clear again. It is so for every length but zero, which stands for 128: bits leave and
enter as for a length of zero. And it is so as long as the other instances keep silent.
-/

namespace Tenyr.Sim

open Isa Lib.Traced

/-! ## Registers of a transfer -/

theorem goBsy_or_goMask (ctrl : Word) : goBsy (ctrl ||| goMask) = true := by
  rw [goBsy, BitVec.getLsbD_or, show goMask.getLsbD 8 = true from rfl, Bool.or_true]

theorem and_or_goMask {mask : Word} (hmask : goMask &&& mask = 0) (ctrl : Word) :
    (ctrl ||| goMask) &&& mask = ctrl &&& mask := by
  rw [BitVec.and_comm, BitVec.and_or_distrib_left, BitVec.and_comm mask goMask, hmask, BitVec.and_comm]
  exact BitVec.or_zero

theorem charLen_or_goMask (ctrl : Word) : charLen (ctrl ||| goMask) = charLen ctrl := by
  rw [charLen, and_or_goMask (by decide), charLen]

theorem lsbFirst_or_goMask (ctrl : Word) : lsbFirst (ctrl ||| goMask) = lsbFirst ctrl := by
  rw [lsbFirst, BitVec.getLsbD_or, show goMask.getLsbD 11 = false from rfl, Bool.or_false, lsbFirst]

theorem or_goMask_clear {ctrl : Word} (h : goBsy ctrl = false) : (ctrl ||| goMask) &&& ~~~goMask = ctrl := by
  refine BitVec.eq_of_getLsbD_eq fun i hi ↦ ?_
  have hmask : ∀ i < 32, goMask.getLsbD i = decide (i = 8) := by decide
  rw [BitVec.getLsbD_and, BitVec.getLsbD_or, BitVec.getLsbD_not, hmask i hi, decide_eq_true hi, Bool.true_and]
  rcases eq_or_ne i 8 with rfl | hne
  · exact (Bool.and_false _).trans h.symm
  · rw [decide_eq_false hne, Bool.or_false]
    exact Bool.and_true _

/-- What is in the registers besides the data before a transfer, and what is attached besides the instance that
is selected. -/
structure SpiSetting (C : Type) where
  impls : Fin 8 → Option (SpiOps C)
  inst : Fin 8
  ctrl : Word
  idle : goBsy ctrl = false
  divider : Word
  ss : Word
  oneHot : slaveSelect ss = (1 : Word) <<< inst.val

namespace SpiSetting

variable {C : Type} (setting : SpiSetting C)

def attach (ops : SpiOps C) : Fin 8 → Option (SpiOps C) :=
  Function.update setting.impls setting.inst (some ops)

/-- How many bits are to be transferred. -/
def length : ℕ := if charLen setting.ctrl = 0 then 128 else charLen setting.ctrl

/-- The bits to be transferred, in their order. -/
def bits (raw : Fin 7 → Word) : List Bool := dataBits (lsbFirst setting.ctrl) setting.length raw

/-- Before the transfer. -/
structure Ready (s : SpiState C) : Prop where
  state : s.state = .reset
  ctrl : s.raw 4 = setting.ctrl
  divider : s.raw 5 = setting.divider
  ss : s.raw 6 = setting.ss

/-- What has happened of the transfer. -/
structure Transferring (s : SpiState C) (clocks : List SpiClock) : Prop where
  ctrl : s.state ≠ .reset → s.raw 4 = setting.ctrl ||| goMask
  idle : s.state = .reset → s.raw 4 = setting.ctrl
  divider : s.raw 5 = setting.divider
  ss : s.raw 6 = setting.ss
  count : s.remaining.toNat + (ofInst setting.inst clocks).length = setting.length
  waiting : s.state = .started ∨ s.state = .selected → ofInst setting.inst clocks = []
  busy : s.state = .busy → s.remaining ≠ 0
  ended : s.state = .done ∨ s.state = .reset → s.remaining = 0

variable {setting} {u : OpenShifts} {ops : SpiOps C} {s s' : SpiState C} {out clocks : List SpiClock}

theorem length_pos : 0 < setting.length := by
  rw [length]
  split
  · decide
  · omega

theorem charLen_lt (register : Word) : charLen register < 128 := by
  rw [charLen, BitVec.toNat_and]
  exact Nat.lt_succ_of_le Nat.and_le_right

theorem length_le : setting.length ≤ 128 := by
  rw [length]
  split
  · exact le_rfl
  · exact (charLen_lt _).le

theorem Transferring.goBsy_iff (h : setting.Transferring s out) : goBsy (s.raw 4) = true ↔ s.state ≠ .reset := by
  constructor
  · intro hgo hreset
    rw [h.idle hreset, setting.idle] at hgo
    exact Bool.false_ne_true hgo
  · intro hstate
    rw [h.ctrl hstate]
    exact goBsy_or_goMask _

theorem Transferring.charLen (h : setting.Transferring s out) : charLen (s.raw 4) = charLen setting.ctrl := by
  rcases eq_or_ne s.state .reset with hstate | hstate
  · rw [h.idle hstate]
  · rw [h.ctrl hstate, charLen_or_goMask]

theorem Transferring.lsbFirst (h : setting.Transferring s out) : lsbFirst (s.raw 4) = lsbFirst setting.ctrl := by
  rcases eq_or_ne s.state .reset with hstate | hstate
  · rw [h.idle hstate]
  · rw [h.ctrl hstate, lsbFirst_or_goMask]

theorem toNat_sub_one {x : Word} (h : x ≠ 0) : (x - 1).toNat + 1 = x.toNat := by
  have hpos : x.toNat ≠ 0 := fun hzero ↦ h (BitVec.eq_of_toNat_eq hzero)
  have hlt := x.isLt
  rw [BitVec.toNat_sub]
  change (2 ^ 32 - 1 + x.toNat) % 2 ^ 32 + 1 = x.toNat
  omega

theorem Transferring.turn (h : setting.Transferring s out) (hturn : Turn u setting.inst ops s s' clocks) :
    setting.Transferring s' (out ++ clocks) := by
  have hctrl (state : SpiEmu) (hstate : s.state = state) (hne : state ≠ .reset) :
      s.raw 4 = setting.ctrl ||| goMask := h.ctrl (hstate ▸ hne)
  cases hturn with
  | started from' state raw remaining hclocks =>
    have hnone := h.waiting (.inl from')
    have hof : ofInst setting.inst (out ++ clocks) = [] := by
      rw [ofInst_append, hnone, hclocks, List.append_nil]
    refine ⟨fun _ ↦ ?_, ?_, raw ▸ h.divider, raw ▸ h.ss, ?_, fun _ ↦ hof, ?_, ?_⟩
    · rw [raw, hctrl _ from' (by decide)]
    · rw [state]
      rintro ⟨⟩
    · rw [remaining, hof, ← h.count, hnone]
    · rw [state]
      rintro ⟨⟩
    · rw [state]
      rintro (⟨⟨⟩⟩ | ⟨⟨⟩⟩)
  | selected from' state raw remaining hclocks =>
    have hnone := h.waiting (.inr from')
    have hof : ofInst setting.inst (out ++ clocks) = [] := by
      rw [ofInst_append, hnone, hclocks, List.append_nil]
    have hcount := h.count
    rw [hnone] at hcount
    have hpos : s.remaining ≠ 0 := by
      intro hzero
      rw [hzero] at hcount
      exact absurd hcount length_pos.ne
    refine ⟨fun _ ↦ ?_, ?_, raw ▸ h.divider, raw ▸ h.ss, ?_, fun _ ↦ hof, fun _ ↦ remaining ▸ hpos, ?_⟩
    · rw [raw, hctrl _ from' (by decide)]
    · rw [state]
      split
      · rintro ⟨⟩
      · rintro ⟨⟩
    · rw [remaining, hof, hcount]
    · rw [state]
      split
      · rintro (⟨⟨⟩⟩ | ⟨⟨⟩⟩)
      · rintro (⟨⟨⟩⟩ | ⟨⟨⟩⟩)
  | busy from' a cookie answer state raw remaining hclocks =>
    have hpos := h.busy from'
    have hlen := charLen_lt (s.raw 4)
    refine ⟨fun _ ↦ ?_, ?_, ?_, ?_, ?_, ?_, ?_, ?_⟩
    · rw [raw, doOneShift_of_le _ hlen _ le_rfl, hctrl _ from' (by decide)]
    · rw [state]
      split
      · rintro ⟨⟩
      · rintro ⟨⟩
    · rw [raw, doOneShift_of_le _ hlen _ (by decide), h.divider]
    · rw [raw, doOneShift_of_le _ hlen _ (by decide), h.ss]
    · rw [remaining, ofInst_append, hclocks, List.length_append, List.length_singleton, ← h.count,
        ← toNat_sub_one hpos]
      omega
    · rw [state]
      split
      · rintro (⟨⟨⟩⟩ | ⟨⟨⟩⟩)
      · rintro (⟨⟨⟩⟩ | ⟨⟨⟩⟩)
    · rw [state, remaining]
      split
      · rintro ⟨⟩
      · rename_i hleft
        exact fun _ ↦ hleft
    · rw [state, remaining]
      split
      · rename_i hnone
        exact fun _ ↦ hnone
      · rintro (⟨⟨⟩⟩ | ⟨⟨⟩⟩)
  | done from' state raw remaining hclocks =>
    have hended := h.ended (.inl from')
    refine ⟨fun hne ↦ absurd state hne, fun _ ↦ ?_, ?_, ?_, ?_, ?_, ?_, fun _ ↦ remaining.trans hended⟩
    · rw [raw, Function.update_self, hctrl _ from' (by decide)]
      exact or_goMask_clear setting.idle
    · rw [raw, Function.update_of_ne (by decide), h.divider]
    · rw [raw, Function.update_of_ne (by decide), h.ss]
    · rw [remaining, ofInst_append, hclocks, List.append_nil, h.count]
    · rw [state]
      rintro (⟨⟨⟩⟩ | ⟨⟨⟩⟩)
    · rw [state]
      rintro ⟨⟩

variable (setting) in
/-- The state after the write that sets `GO_BSY`. -/
def started (s : SpiState C) : SpiState C :=
  { s with
    state := .started
    remaining := BitVec.ofNat 32 setting.length
    raw := Function.update s.raw 4 (setting.ctrl ||| goMask) }

theorem started_raw {i : Fin 7} (hi : i ≠ 4) (s : SpiState C) : (setting.started s).raw i = s.raw i :=
  Function.update_of_ne hi _ _

theorem Ready.write_go {impls : Fin 8 → Option (SpiOps C)} (h : setting.Ready s) :
    spiOp impls s .write 4 (s.raw 4 ||| goMask) = .ok (setting.ctrl ||| goMask, setting.started s) := by
  have hset : (setting.ctrl ||| goMask) &&& goMask ≠ 0 := by
    intro hzero
    have hbit := congrArg (BitVec.getLsbD · 8) hzero
    rw [BitVec.getLsbD_and, ← goBsy, goBsy_or_goMask] at hbit
    cases hbit
  have hothers : (setting.ctrl ||| goMask) &&& ~~~goMask = setting.ctrl &&& ~~~goMask :=
    and_or_goMask (by decide) _
  have hlength : (if charLen setting.ctrl = 0 then (128 : Word) else BitVec.ofNat 32 (charLen setting.ctrl)) =
      BitVec.ofNat 32 setting.length := by
    rw [length]
    split <;> rfl
  rw [spiOp, if_neg (not_not.mpr h.state), if_pos rfl]
  dsimp only
  rw [h.ctrl, if_neg (fun hne ↦ hne.2 hothers), if_pos hset, hlength]
  rfl

theorem Ready.spiTransfer_eq {impls : Fin 8 → Option (SpiOps C)} (h : setting.Ready s) (events : List SpiEvent) :
    spiTransfer u impls s events = run (busyEvent u impls) (setting.started s) events := by
  rw [spiTransfer, h.write_go]
  rfl

theorem Ready.transferring (h : setting.Ready s) : setting.Transferring (setting.started s) [] where
  ctrl _ := by
    change Function.update s.raw 4 (setting.ctrl ||| goMask) 4 = _
    rw [Function.update_self]
  idle hstate := by cases hstate
  divider := (started_raw (by decide) s).trans h.divider
  ss := (started_raw (by decide) s).trans h.ss
  count := by
    have hlength := @length_le _ setting
    change (BitVec.ofNat 32 setting.length).toNat + 0 = setting.length
    rw [BitVec.toNat_ofNat, Nat.mod_eq_of_lt (by omega), Nat.add_zero]
  waiting _ := rfl
  busy hstate := by cases hstate
  ended hstate := by rcases hstate with hstate | hstate <;> cases hstate

theorem Transferring.divide (h : setting.Transferring s out) (cyc dividend : Word) :
    setting.Transferring { s with cyc, dividend } out :=
  ⟨h.ctrl, h.idle, h.divider, h.ss, h.count, h.waiting, h.busy, h.ended⟩

theorem Transferring.turn_of_ok (h : setting.Transferring s out) (hstate : s.state ≠ .reset)
    (hcycle : spiSlaveCycle u (setting.attach ops) s = .ok (s', clocks)) :
    Turn u setting.inst ops s s' clocks ∧ s'.cyc = s.cyc ∧ s'.dividend = s.dividend := by
  refine spiSlaveCycle_turn ?_ (Function.update_self _ _ _) hstate hcycle
  rw [h.ss, setting.oneHot]

/-- What every turn preserves, an event preserves. -/
theorem Transferring.event (P : SpiState C → List SpiClock → Prop)
    (hturn : ∀ s out m clocks, setting.Transferring s out → s.state ≠ .reset →
      spiSlaveCycle u (setting.attach ops) s = .ok (m, clocks) → P s out → P m (out ++ clocks))
    (hdivide : ∀ s out cyc dividend, P s out → P { s with cyc, dividend } out)
    {event : SpiEvent} (h : setting.Transferring s out) (hP : P s out)
    (hevent : busyEvent u (setting.attach ops) s event = .ok (s', clocks)) :
    setting.Transferring s' (out ++ clocks) ∧ P s' (out ++ clocks) := by
  rcases busyEvent_cases h.goBsy_iff.mp hevent with
    ⟨hstate, -, -, m, hcycle, rfl⟩ | ⟨-, -, -, rfl, rfl⟩ | ⟨-, rfl, rfl⟩
  · have hm := h.turn (h.turn_of_ok hstate hcycle).1
    exact ⟨hm.divide _ _, hdivide _ _ _ _ (hturn s out m clocks h hstate hcycle hP)⟩
  · rw [List.append_nil]
    exact ⟨h.divide _ _, hdivide _ _ _ _ hP⟩
  · rw [List.append_nil]
    exact ⟨h, hP⟩

/-- What holds at the start and is preserved by every turn holds after any events. -/
theorem Ready.induction (P : SpiState C → List SpiClock → Prop)
    (hturn : ∀ s out m clocks, setting.Transferring s out → s.state ≠ .reset →
      spiSlaveCycle u (setting.attach ops) s = .ok (m, clocks) → P s out → P m (out ++ clocks))
    (hdivide : ∀ s out cyc dividend, P s out → P { s with cyc, dividend } out)
    (hready : setting.Ready s) (hstart : P (setting.started s) []) {events : List SpiEvent}
    {t : SpiState C} (h : spiTransfer u (setting.attach ops) s events = .ok (t, clocks)) :
    setting.Transferring t clocks ∧ P t clocks := by
  rw [hready.spiTransfer_eq] at h
  exact run_invariant (fun s out ↦ setting.Transferring s out ∧ P s out)
    (fun s out event t here hs hevent ↦ hs.1.event P hturn hdivide hs.2 hevent)
    ⟨hready.transferring, hstart⟩ h

/-! ## The bits -/

variable (setting) in
/-- As many bits have left as answers took their place. -/
structure Exchanged (initial : List Bool) (answers : List Bool) (s : SpiState C) (out : List SpiClock) : Prop where
  selected : ∀ clock ∈ ofInst setting.inst out, clock.ss
  pulls : (ofInst setting.inst out).map SpiClock.pull = answers.map bitOf
  pushes : (ofInst setting.inst out).map SpiClock.push = (initial.take answers.length).map bitOf
  bits : setting.bits s.raw = initial.drop answers.length ++ answers

theorem bits_update_ctrl (raw : Fin 7 → Word) (w : Word) :
    setting.bits (Function.update raw 4 w) = setting.bits raw := by
  have hlength := @length_le _ setting
  refine List.map_congr_left fun k hk ↦ ?_
  rw [List.mem_range] at hk
  have hdata := dataBit_update raw w (i := 4) (k := if lsbFirst setting.ctrl then k else setting.length - 1 - k)
    (by decide) (by split <;> omega)
  refine hdata.trans (if_neg ?_)
  split <;> omega

theorem Exchanged.of_silent {initial answers : List Bool} (h : setting.Exchanged initial answers s out)
    (hclocks : ofInst setting.inst clocks = []) (hbits : setting.bits s'.raw = setting.bits s.raw) :
    setting.Exchanged initial answers s' (out ++ clocks) := by
  have hof : ofInst setting.inst (out ++ clocks) = ofInst setting.inst out := by
    rw [ofInst_append, hclocks, List.append_nil]
  refine ⟨?_, ?_, ?_, ?_⟩
  · rw [hof]
    exact h.selected
  · rw [hof, h.pulls]
  · rw [hof, h.pushes]
  · rw [hbits, h.bits]

/-- One bit leaves, and its answer is at the end. -/
theorem Exchanged.turn {initial answers : List Bool} (hlength : Sim.charLen setting.ctrl ≠ 0)
    (hinitial : initial.length = setting.length) (ht : setting.Transferring s out)
    (h : setting.Exchanged initial answers s out) (hturn : Turn u setting.inst ops s s' clocks) :
    ∃ answers, setting.Exchanged initial answers s' (out ++ clocks) := by
  cases hturn with
  | started from' state raw remaining hclocks => exact ⟨answers, h.of_silent hclocks (by rw [raw])⟩
  | selected from' state raw remaining hclocks => exact ⟨answers, h.of_silent hclocks (by rw [raw])⟩
  | done from' state raw remaining hclocks =>
    exact ⟨answers, h.of_silent hclocks (by rw [raw, bits_update_ctrl])⟩
  | busy from' a cookie answer state raw remaining hclocks =>
    have hn : setting.length = Sim.charLen setting.ctrl := if_neg hlength
    have hleft : answers.length < initial.length := by
      have hpulled := congrArg List.length h.pulls
      have hpos := toNat_sub_one (ht.busy from')
      have hcount := ht.count
      rw [List.length_map, List.length_map] at hpulled
      omega
    have hnext := List.drop_eq_getElem_cons hleft
    have hbits : dataBits (Sim.lsbFirst (s.raw 4)) (Sim.charLen setting.ctrl) s.raw =
        initial[answers.length] :: (initial.drop (answers.length + 1) ++ answers) := by
      rw [ht.lsbFirst, ← hn, ← List.cons_append, ← hnext]
      exact h.bits
    have hpos : 0 < Sim.charLen setting.ctrl := Nat.pos_of_ne_zero hlength
    have hpush := pushedBit_eq_head (u := u) hpos hbits
    rw [ht.charLen] at hclocks raw
    rw [hpush] at hclocks
    refine ⟨answers ++ [a], ?_, ?_, ?_, ?_⟩
    · rw [ofInst_append, hclocks]
      intro clock hclock
      rcases List.mem_append.mp hclock with hclock | hclock
      · exact h.selected clock hclock
      · rw [List.mem_singleton.mp hclock]
    · rw [ofInst_append, hclocks, List.map_append, List.map_append, h.pulls]
      rfl
    · rw [ofInst_append, hclocks, List.map_append, h.pushes, List.length_append, List.length_singleton,
        List.take_succ_eq_append_getElem hleft, List.map_append]
      rfl
    · rw [raw, SpiSetting.bits, ← ht.lsbFirst, hn, dataBits_doOneShift hpos (charLen_lt _), hbits, List.tail_cons,
        List.append_assoc, List.length_append, List.length_singleton]

/-! ## How long it takes -/

/-- How many turns are left, at most. -/
def turnsLeft (s : SpiState C) : ℕ :=
  match s.state with
  | .reset => 0
  | .done => 1
  | .busy => s.remaining.toNat + 1
  | .selected => s.remaining.toNat + 1 + if spiInitCycles < s.cyc then 1 else 5 - s.cyc.toNat
  | .started => s.remaining.toNat + 7

/-- How many cycles are left, at most. -/
def cyclesLeft (s : SpiState C) : ℕ :=
  turnsLeft s * ((Sim.divider (s.raw 5) + 1) * 2) - min s.dividend.toNat ((Sim.divider (s.raw 5) + 1) * 2 - 1)

theorem turnsLeft_turn (ht : setting.Transferring s out) (hturn : Turn u setting.inst ops s s' clocks)
    (hcyc : s'.cyc = s.cyc) (dividend : Word) :
    turnsLeft { s' with cyc := s'.cyc + 1, dividend } < turnsLeft s := by
  cases hturn with
  | started from' state raw remaining hclocks =>
    simp only [turnsLeft, from', state, remaining]
    split <;> omega
  | selected from' state raw remaining hclocks =>
    simp only [turnsLeft, from', state, remaining, hcyc]
    by_cases hready : spiInitCycles < s.cyc
    · simp only [if_pos hready]
      omega
    · simp only [if_neg hready]
      have hle : s.cyc.toNat ≤ 3 := by
        rw [BitVec.lt_def] at hready
        exact Nat.le_of_not_lt hready
      have hnext : (s.cyc + 1).toNat = s.cyc.toNat + 1 := by
        rw [BitVec.toNat_add]
        change (s.cyc.toNat + 1) % 2 ^ 32 = _
        omega
      split
      · omega
      · rw [hnext]
        omega
  | busy from' a cookie answer state raw remaining hclocks =>
    have hpos := toNat_sub_one (ht.busy from')
    by_cases hlast : s.remaining - 1 = 0
    · simp only [turnsLeft, from', state, if_pos hlast]
      omega
    · simp only [turnsLeft, from', state, if_neg hlast, remaining]
      omega
  | done from' state raw remaining hclocks =>
    simp only [turnsLeft, from', state]
    decide

theorem turnsLeft_pos (hstate : s.state ≠ .reset) : 0 < turnsLeft s := by
  rw [turnsLeft]
  split
  · exact absurd ‹_› hstate
  all_goals omega

theorem turnsLeft_reset (hstate : s.state = .reset) : turnsLeft s = 0 := by
  rw [turnsLeft, hstate]

theorem divider_lt (register : Word) : Sim.divider register < 2 ^ 16 := by
  rw [Sim.divider, BitVec.toNat_and]
  exact Nat.lt_succ_of_le Nat.and_le_right

theorem cyclesLeft_pos (hstate : s.state ≠ .reset) : 0 < cyclesLeft s := by
  have hmul := Nat.mul_le_mul_right ((Sim.divider (s.raw 5) + 1) * 2) (turnsLeft_pos hstate)
  rw [Nat.succ_mul, Nat.zero_mul] at hmul
  rw [cyclesLeft]
  generalize turnsLeft s * ((Sim.divider (s.raw 5) + 1) * 2) = cycles at hmul ⊢
  omega

theorem cyclesLeft_reset (hstate : s.state = .reset) : cyclesLeft s = 0 := by
  rw [cyclesLeft, turnsLeft_reset hstate, Nat.zero_mul, Nat.zero_sub]

/-- Every cycle brings the end nearer. -/
theorem cyclesLeft_event {event : SpiEvent} (ht : setting.Transferring s out) (hstate : s.state ≠ .reset)
    (hevent : busyEvent u (setting.attach ops) s event = .ok (s', clocks)) :
    cyclesLeft s' + (if event = .cycle then 1 else 0) ≤ cyclesLeft s := by
  have hpos := turnsLeft_pos hstate
  have hdivider := divider_lt (s.raw 5)
  rcases busyEvent_cases ht.goBsy_iff.mp hevent with
    ⟨-, rfl, hdue, m, hcycle, rfl⟩ | ⟨-, rfl, hdue, rfl, rfl⟩ | ⟨hnone, rfl, rfl⟩
  · obtain ⟨hturn, hcyc, -⟩ := ht.turn_of_ok hstate hcycle
    have hm : m.raw 5 = s.raw 5 := (ht.turn hturn).divider.trans ht.divider.symm
    have hless := turnsLeft_turn ht hturn hcyc 0
    rw [cyclesLeft, cyclesLeft, if_pos rfl, min_eq_right hdue]
    change turnsLeft _ * ((Sim.divider (m.raw 5) + 1) * 2) - min 0 _ + 1 ≤ _
    rw [hm, Nat.zero_min, Nat.sub_zero]
    have hmul := Nat.mul_le_mul_right ((Sim.divider (s.raw 5) + 1) * 2) hless
    rw [Nat.succ_mul] at hmul
    refine Nat.le_sub_of_add_le (le_trans ?_ hmul)
    omega
  · have hnext : (s.dividend + 1).toNat = s.dividend.toNat + 1 := by
      rw [BitVec.toNat_add]
      change (s.dividend.toNat + 1) % 2 ^ 32 = _
      omega
    rw [cyclesLeft, cyclesLeft, if_pos rfl]
    change turnsLeft s * ((Sim.divider (s.raw 5) + 1) * 2) -
      min (s.dividend + 1).toNat ((Sim.divider (s.raw 5) + 1) * 2 - 1) + 1 ≤ _
    rw [hnext, min_eq_left hdue, min_eq_left hdue.le]
    have hmul := Nat.mul_le_mul_right ((Sim.divider (s.raw 5) + 1) * 2) hpos
    rw [Nat.succ_mul, Nat.zero_mul] at hmul
    generalize turnsLeft s * ((Sim.divider (s.raw 5) + 1) * 2) = cycles at hmul ⊢
    omega
  · rw [if_neg (hnone (ht.goBsy_iff.mpr hstate)), Nat.add_zero]

/-- What is left after some events, while `GO_BSY` is set. -/
theorem cyclesLeft_run {events : List SpiEvent} (ht : setting.Transferring s out)
    (h : run (busyEvent u (setting.attach ops)) s events = .ok (s', clocks)) (hs' : s'.state ≠ .reset) :
    cyclesLeft s' + events.count .cycle ≤ cyclesLeft s := by
  induction events generalizing s out clocks with
  | nil =>
    cases h
    rw [List.count_nil, Nat.add_zero]
  | cons event rest ih =>
    obtain ⟨m, here, there, hevent, hrest, rfl⟩ := andThen_eq_ok h
    have hm := (ht.event (fun _ _ ↦ True) (fun _ _ _ _ _ _ _ _ ↦ trivial) (fun _ _ _ _ _ ↦ trivial)
      trivial hevent).1
    have hlater := ih hm hrest
    rcases eq_or_ne s.state .reset with hstate | hstate
    · have hsame : m = s := by
        rcases busyEvent_cases ht.goBsy_iff.mp hevent with ⟨hne, -⟩ | ⟨hne, -⟩ | ⟨-, -, rfl⟩
        · exact absurd hstate hne
        · exact absurd hstate hne
        · rfl
      rw [hsame, cyclesLeft_reset hstate] at hlater
      have hpos := cyclesLeft_pos hs'
      omega
    · have hfirst := cyclesLeft_event ht hstate hevent
      rw [List.count_cons]
      simp only [beq_iff_eq]
      omega

variable (setting) in
/-- Nothing comes from the instances that are not selected. -/
def OthersSilent : Prop :=
  ∀ x ≠ setting.inst, ∀ other, setting.impls x = some other → ∀ cookie b, other.Silent cookie (bitOf b)

theorem attach_of_ne {x : Fin 8} (hx : x ≠ setting.inst) : setting.attach ops x = setting.impls x :=
  Function.update_of_ne hx _ _

theorem cycleInst_total (hanswers : ops.Answers) (hothers : setting.OthersSilent) (width : ℕ) (b : Bool)
    (s : SpiState C) (x : Fin 8) : ∃ t here, cycleInst u (setting.attach ops) ((1 : Word) <<< setting.inst.val)
      width (bitOf b) s x = .ok (t, here) := by
  rw [cycleInst, getLsbD_oneHot]
  rcases eq_or_ne x setting.inst with rfl | hx
  · rw [attach, Function.update_self, decide_eq_true rfl]
    change ∃ t here, selectedInst u width (bitOf b) s ops setting.inst = _
    rw [selectedInst]
    cases s.state with
    | reset | started | selected | done => exact ⟨_, _, rfl⟩
    | busy =>
      obtain ⟨a, ha⟩ := hanswers (s.implCookies setting.inst) b
      have hbit : ¬ (bitOf a ≠ 0 ∧ bitOf a ≠ 1) := by
        cases a <;> decide
      dsimp only
      rw [ha, Option.getD_some, if_neg hbit]
      exact ⟨_, _, rfl⟩
  · rw [attach_of_ne hx, decide_eq_false hx]
    cases hother : setting.impls x with
    | none => exact ⟨_, _, rfl⟩
    | some other =>
      change ∃ t here, otherInst (bitOf b) s other x = _
      rw [otherInst]
      split
      · have hsilent := hothers x hx other hother (s.implCookies x) b
        exact ⟨_, _, if_neg (not_not.mpr hsilent)⟩
      · exact ⟨_, _, rfl⟩

/-- No turn of a transfer fails. -/
theorem spiSlaveCycle_total (hanswers : ops.Answers) (hothers : setting.OthersSilent)
    (hlength : Sim.charLen setting.ctrl ≠ 0) (ht : setting.Transferring s out) (hstate : s.state ≠ .reset) :
    ∃ t here, spiSlaveCycle u (setting.attach ops) s = .ok (t, here) := by
  obtain ⟨b, hpush⟩ : ∃ b, pushedBit u s.raw (Sim.charLen (s.raw 4)) = bitOf b :=
    ⟨_, pushedBit_eq s.raw (Nat.pos_of_ne_zero (ht.charLen ▸ hlength))⟩
  have hbit : ¬ (bitOf b ≠ 0 ∧ bitOf b ≠ 1) := by
    cases b <;> decide
  rw [spiSlaveCycle, if_neg hstate, ht.ss, setting.oneHot, if_neg (not_not.mpr (oneHot_and_sub_one _))]
  dsimp only
  rw [hpush, if_neg hbit]
  exact run_ok (cycleInst_total hanswers hothers (Sim.charLen (s.raw 4)) b) s (List.finRange 8)

theorem busyEvent_total (hanswers : ops.Answers) (hothers : setting.OthersSilent)
    (hlength : Sim.charLen setting.ctrl ≠ 0) (ht : setting.Transferring s out) (event : SpiEvent) :
    ∃ t here, busyEvent u (setting.attach ops) s event = .ok (t, here) := by
  rw [busyEvent]
  split
  · rename_i hgo
    have hstate := ht.goBsy_iff.mp hgo
    cases event with
    | cycle =>
      obtain ⟨m, here, hcycle⟩ := spiSlaveCycle_total (u := u) hanswers hothers hlength ht hstate
      rw [spiEvent, spiEmuCycle, hcycle]
      split
      · exact ⟨_, _, rfl⟩
      · exact ⟨_, _, rfl⟩
    | op op regnum data =>
      cases op with
      | write =>
        rw [spiEvent, spiOp, if_pos hstate]
        exact ⟨_, _, rfl⟩
      | insnRead | dataRead => exact ⟨_, _, rfl⟩
  · exact ⟨_, _, rfl⟩

theorem Ready.transfer_total (hanswers : ops.Answers) (hothers : setting.OthersSilent)
    (hlength : Sim.charLen setting.ctrl ≠ 0) (h : setting.Ready s) (events : List SpiEvent) :
    ∃ t clocks, spiTransfer u (setting.attach ops) s events = .ok (t, clocks) := by
  rw [h.spiTransfer_eq]
  have hstep : ∀ s out event, setting.Transferring s out →
      ∃ t here, busyEvent u (setting.attach ops) s event = .ok (t, here) ∧ setting.Transferring t (out ++ here) := by
    intro s out event ht
    obtain ⟨t, here, hevent⟩ := busyEvent_total hanswers hothers hlength ht event
    exact ⟨t, here, hevent, (ht.event (fun _ _ ↦ True) (fun _ _ _ _ _ _ _ _ ↦ trivial)
      (fun _ _ _ _ _ ↦ trivial) trivial hevent).1⟩
  obtain ⟨t, clocks, hrun, -⟩ := run_total setting.Transferring hstep h.transferring events
  exact ⟨t, clocks, hrun⟩

/-! ## Which transfers are right -/

variable (setting) in
/-- What a transfer from `s` has come to in `t`. -/
structure Transferred (ops : SpiOps C) (s t : SpiState C) (clocks : List SpiClock) : Prop where
  selected : ∀ clock ∈ ofInst setting.inst clocks, clock.ss
  /-- Bits have left, in their order, and an access only shows the registers. -/
  busy : goBsy (t.raw 4) →
    (ofInst setting.inst clocks).map SpiClock.push <+: (setting.bits s.raw).map bitOf ∧
    ∀ op regnum data, spiOp (setting.attach ops) t op regnum data =
      .ok (if op = .write then data else t.raw regnum, t)
  /-- All bits have left, and the answers are where they were. -/
  done : goBsy (t.raw 4) = false →
    (ofInst setting.inst clocks).map SpiClock.push = (setting.bits s.raw).map bitOf ∧
    (ofInst setting.inst clocks).map SpiClock.pull = (setting.bits t.raw).map bitOf

variable (setting u) in
/-- Whatever is in the data register, whatever is attached where the transfer goes, and whatever happens
meanwhile, a transfer does what it should and comes to an end. -/
def TransfersRight : Prop := ∀ ops : SpiOps C, ops.Answers → ∀ s, setting.Ready s →
  (∀ events, ∃ t clocks, spiTransfer u (setting.attach ops) s events = .ok (t, clocks) ∧
    setting.Transferred ops s t clocks) ∧
  ∃ bound, ∀ events t clocks, bound ≤ events.count .cycle →
    spiTransfer u (setting.attach ops) s events = .ok (t, clocks) → goBsy (t.raw 4) = false

theorem length_bits (raw : Fin 7 → Word) : (setting.bits raw).length = setting.length := length_dataBits _ _ _

theorem Ready.exchanged (hlength : Sim.charLen setting.ctrl ≠ 0) (h : setting.Ready s) {events : List SpiEvent}
    {t : SpiState C} (hrun : spiTransfer u (setting.attach ops) s events = .ok (t, clocks)) :
    setting.Transferring t clocks ∧ ∃ answers, setting.Exchanged (setting.bits s.raw) answers t clocks := by
  refine h.induction (fun t clocks ↦ ∃ answers, setting.Exchanged (setting.bits s.raw) answers t clocks)
    ?_ ?_ ?_ hrun
  · rintro s' out m here ht hstate hcycle ⟨answers, hexchanged⟩
    exact hexchanged.turn hlength (length_bits _) ht (ht.turn_of_ok hstate hcycle).1
  · rintro s' out cyc dividend ⟨answers, hexchanged⟩
    exact ⟨answers, hexchanged.selected, hexchanged.pulls, hexchanged.pushes, hexchanged.bits⟩
  · refine ⟨[], fun _ hclock ↦ absurd hclock List.not_mem_nil, rfl, rfl, ?_⟩
    rw [List.append_nil]
    exact bits_update_ctrl _ _

theorem Exchanged.transferred {initial : SpiState C} {answers : List Bool}
    (h : setting.Exchanged (setting.bits initial.raw) answers s out) (ht : setting.Transferring s out) :
    setting.Transferred ops initial s out where
  selected := h.selected
  busy hgo := by
    refine ⟨?_, fun op regnum data ↦ ?_⟩
    · rw [h.pushes]
      exact (List.take_prefix _ _).map _
    · cases op with
      | write =>
        rw [spiOp, if_pos (ht.goBsy_iff.mp hgo), if_pos rfl]
      | insnRead | dataRead => rfl
  done hgo := by
    have hstate : s.state = .reset := by
      by_contra hne
      rw [ht.goBsy_iff.mpr hne] at hgo
      cases hgo
    have hcount := ht.count
    have hpulled := congrArg List.length h.pulls
    rw [ht.ended (.inr hstate)] at hcount
    rw [List.length_map, List.length_map] at hpulled
    have hall : answers.length = (setting.bits initial.raw).length := by
      rw [length_bits, ← hcount, ← hpulled]
      exact (Nat.zero_add _).symm
    constructor
    · rw [h.pushes, hall, List.take_length]
    · rw [h.pulls, h.bits, hall, List.drop_length, List.nil_append]

theorem transfersRight_of_length (hlength : Sim.charLen setting.ctrl ≠ 0) (hothers : setting.OthersSilent) :
    setting.TransfersRight u := by
  intro ops hanswers s hready
  constructor
  · intro events
    obtain ⟨t, clocks, hrun⟩ := hready.transfer_total (u := u) hanswers hothers hlength events
    obtain ⟨ht, answers, hexchanged⟩ := hready.exchanged hlength hrun
    exact ⟨t, clocks, hrun, hexchanged.transferred ht⟩
  · refine ⟨cyclesLeft (setting.started s), fun events t clocks hbound hrun ↦ ?_⟩
    obtain ⟨ht, -⟩ := hready.exchanged hlength hrun
    rw [hready.spiTransfer_eq] at hrun
    by_contra hgo
    have hstate := ht.goBsy_iff.mp (Bool.of_not_eq_false hgo)
    have hpos := cyclesLeft_pos hstate
    have hleft := cyclesLeft_run hready.transferring hrun hstate
    omega

/-! ## Which are not -/

/-- An instance that always answers the same. -/
def constantOps (a : Bool) : SpiOps C where
  select := none
  clock cookie _ _ := (cookie, some (bitOf a))

theorem constantOps_answers (a : Bool) : (constantOps a : SpiOps C).Answers := fun _ _ ↦ ⟨a, rfl⟩

variable (setting) in
/-- Before a transfer, with some data and cookies. -/
def ready (data : Fin 7 → Word) (cookie : C) : SpiState C where
  state := .reset
  dividend := 0
  cyc := 0
  remaining := 0
  raw := Function.update (Function.update (Function.update data 4 setting.ctrl) 5 setting.divider) 6 setting.ss
  implCookies _ := cookie

variable (setting) in
theorem ready_ready (data : Fin 7 → Word) (cookie : C) : setting.Ready (setting.ready data cookie) :=
  ⟨rfl, rfl, rfl, rfl⟩

theorem dataBit_ready (data : Fin 7 → Word) (cookie : C) {k : ℕ} (hk : k < 128) :
    dataBit (setting.ready data cookie).raw k = dataBit data k := by
  have hupdate (raw : Fin 7 → Word) (w : Word) (i : ℕ) (hi : 4 ≤ i) (hi' : i < 7) :
      dataBit (Function.update raw (Fin.ofNat 7 i) w) k = dataBit raw k :=
    (dataBit_update raw w hi' (by omega)).trans (if_neg (by omega))
  exact (hupdate _ _ 6 (by decide) (by decide)).trans
    ((hupdate _ _ 5 (by decide) (by decide)).trans (hupdate _ _ 4 (by decide) (by decide)))

/-- A transfer that is right ends with as many bits as it should. -/
theorem TransfersRight.ends (h : setting.TransfersRight u) (hanswers : ops.Answers) (hready : setting.Ready s) :
    ∃ events t clocks, spiTransfer u (setting.attach ops) s events = .ok (t, clocks) ∧ t.state = .reset ∧
      (ofInst setting.inst clocks).map SpiClock.push = (setting.bits s.raw).map bitOf ∧
      (ofInst setting.inst clocks).map SpiClock.pull = (setting.bits t.raw).map bitOf := by
  obtain ⟨hright, bound, hends⟩ := h ops hanswers s hready
  obtain ⟨t, clocks, hrun, htransferred⟩ := hright (List.replicate bound .cycle)
  have hgo := hends _ t clocks (by rw [List.count_replicate_self]) hrun
  obtain ⟨hpushes, hpulls⟩ := htransferred.done hgo
  refine ⟨_, t, clocks, hrun, ?_, hpushes, hpulls⟩
  have ht := (hready.induction (fun _ _ ↦ True) (fun _ _ _ _ _ _ _ _ ↦ trivial) (fun _ _ _ _ _ ↦ trivial)
    trivial hrun).1
  by_contra hstate
  rw [ht.goBsy_iff.mpr hstate] at hgo
  cases hgo

/-- The first bit to leave is taken from the register as it was. -/
theorem Ready.first_push (hready : setting.Ready s) {events : List SpiEvent} {t : SpiState C}
    (hrun : spiTransfer u (setting.attach ops) s events = .ok (t, clocks)) {clock : SpiClock}
    (hclock : clock ∈ (ofInst setting.inst clocks).head?) :
    clock.push = pushedBit u (setting.started s).raw (Sim.charLen setting.ctrl) := by
  refine (hready.induction (fun s' out ↦
    (ofInst setting.inst out = [] → s'.raw = (setting.started s).raw) ∧
    ∀ clock ∈ (ofInst setting.inst out).head?,
      clock.push = pushedBit u (setting.started s).raw (Sim.charLen setting.ctrl)) ?_ ?_ ?_ hrun).2.2 clock hclock
  · rintro s' out m here ht hstate hcycle ⟨hnone, hfirst⟩
    rw [ofInst_append]
    rcases eq_or_ne (ofInst setting.inst out) [] with hout | hout
    · rw [hout, List.nil_append]
      cases (ht.turn_of_ok hstate hcycle).1 with
      | started from' state raw remaining hclocks | selected from' state raw remaining hclocks =>
        rw [hclocks, raw]
        exact ⟨fun _ ↦ hnone hout, fun _ hclock ↦ by cases hclock⟩
      | busy from' a cookie answer state raw remaining hclocks =>
        rw [hclocks, ← hnone hout, ← ht.charLen]
        exact ⟨fun hnil ↦ absurd hnil (List.cons_ne_nil _ _), fun _ hclock ↦ by cases hclock; rfl⟩
      | done from' state raw remaining hclocks =>
        have hcount := ht.count
        rw [hout, ht.ended (.inl from')] at hcount
        exact absurd hcount length_pos.ne
    · refine ⟨fun hnil ↦ absurd (List.append_eq_nil_iff.mp hnil).1 hout, fun clock hclock ↦ hfirst clock ?_⟩
      rwa [List.head?_append_of_ne_nil _ hout] at hclock
  · rintro s' out cyc dividend ⟨hnone, hfirst⟩
    exact ⟨hnone, hfirst⟩
  · exact ⟨fun _ ↦ rfl, fun _ hclock ↦ by cases hclock⟩

/-- With the greatest bit first, what leaves for a length of zero depends on one word only. -/
theorem TransfersRight.pushed_zero (h : setting.TransfersRight u) (hlength : Sim.charLen setting.ctrl = 0)
    (hlsb : Sim.lsbFirst setting.ctrl = false) (data : Fin 7 → Word) (cookie : C) :
    bitOf (dataBit data 127) = u.shr (data 0 &&& u.shl 1 (-1)) (-1) := by
  have hready := ready_ready setting data cookie
  obtain ⟨events, t, clocks, hrun, -, hpushes, -⟩ := h.ends (constantOps_answers false) hready
  have hbits : (setting.bits (setting.ready data cookie).raw).head? = some (dataBit data 127) := by
    rw [bits, dataBits, hlsb, length, if_pos hlength, ← dataBit_ready data cookie (by decide)]
    rfl
  have hhead := congrArg List.head? hpushes
  rw [List.head?_map, List.head?_map, hbits] at hhead
  obtain ⟨clock, hclock, hpush⟩ := Option.map_eq_some_iff.mp hhead
  have hfirst := hready.first_push hrun hclock
  rw [← hpush, hfirst, hlength, pushedBit]
  change (if Sim.lsbFirst (setting.ctrl ||| goMask) then _ else _) = _
  rw [lsbFirst_or_goMask, hlsb]
  rfl

/-- With the least bit first, the last answer is not where it should be. -/
theorem dataBit_doOneShift_zero {raw : Fin 7 → Word} (hlsb : Sim.lsbFirst (raw 4)) (input : Word) :
    dataBit (doOneShift u raw 0 input) 127 = false := by
  have hlast : (doOneShift u raw 0 input) 3 = (raw 3 >>> 1) &&& ~~~((1 : Word) <<< 31) := by
    rw [doOneShift, if_pos hlsb]
    rfl
  change (doOneShift u raw 0 input 3).getLsbD 31 = false
  rw [hlast, BitVec.getLsbD_and, BitVec.getLsbD_not]
  exact Bool.and_false _

theorem Ready.last_answer (hlength : Sim.charLen setting.ctrl = 0) (hlsb : Sim.lsbFirst setting.ctrl)
    (hready : setting.Ready s) {events : List SpiEvent} {t : SpiState C}
    (hrun : spiTransfer u (setting.attach (constantOps true)) s events = .ok (t, clocks)) :
    (ofInst setting.inst clocks ≠ [] → dataBit t.raw 127 = false) ∧
      ∀ clock ∈ ofInst setting.inst clocks, clock.pull = bitOf true := by
  refine (hready.induction (fun s' out ↦
    (ofInst setting.inst out ≠ [] → dataBit s'.raw 127 = false) ∧
    ∀ clock ∈ ofInst setting.inst out, clock.pull = bitOf true) ?_ ?_ ?_ hrun).2
  · rintro s' out m here ht hstate hcycle ⟨hlast, hpulls⟩
    rw [ofInst_append]
    cases (ht.turn_of_ok hstate hcycle).1 with
    | started from' state raw remaining hclocks | selected from' state raw remaining hclocks =>
      rw [hclocks, raw, List.append_nil]
      exact ⟨hlast, hpulls⟩
    | busy from' a cookie answer state raw remaining hclocks =>
      refine ⟨fun _ ↦ ?_, fun clock hclock ↦ ?_⟩
      · rw [raw, ht.charLen, hlength]
        exact dataBit_doOneShift_zero (ht.lsbFirst.trans hlsb) _
      · rw [hclocks] at hclock
        rcases List.mem_append.mp hclock with hclock | hclock
        · exact hpulls clock hclock
        · rw [List.mem_singleton.mp hclock]
          exact answer.symm
    | done from' state raw remaining hclocks =>
      rw [hclocks, raw, List.append_nil]
      refine ⟨fun hsome ↦ ?_, hpulls⟩
      exact ((dataBit_update s'.raw _ (i := 4) (k := 127) (by decide) (by decide)).trans
        (if_neg (by decide))).trans (hlast hsome)
  · rintro s' out cyc dividend hP
    exact hP
  · exact ⟨fun hsome ↦ absurd rfl hsome, fun _ hclock ↦ absurd hclock List.not_mem_nil⟩

theorem TransfersRight.charLen_ne_zero [Inhabited C] (h : setting.TransfersRight u) :
    Sim.charLen setting.ctrl ≠ 0 := by
  intro hlength
  cases hlsb : Sim.lsbFirst setting.ctrl with
  | false =>
    have hclear := h.pushed_zero hlength hlsb (fun _ ↦ 0) default
    have hset := h.pushed_zero hlength hlsb (Function.update (fun _ ↦ 0) 3 ((1 : Word) <<< 31)) default
    have hsame : bitOf false = bitOf true := hclear.trans hset.symm
    cases hsame
  | true =>
    have hready := ready_ready setting (fun _ ↦ 0) default
    obtain ⟨events, t, clocks, hrun, -, -, hpulls⟩ := h.ends (constantOps_answers true) hready
    obtain ⟨hlast, hanswers⟩ := hready.last_answer hlength hlsb hrun
    have hmem : dataBit t.raw 127 ∈ setting.bits t.raw := by
      rw [bits, dataBits, hlsb, length, if_pos hlength]
      exact List.mem_map.mpr ⟨127, List.mem_range.mpr (by decide), rfl⟩
    have hpulled := List.mem_map_of_mem (f := bitOf) hmem
    rw [← hpulls] at hpulled
    obtain ⟨clock, hclock, hpull⟩ := List.mem_map.mp hpulled
    rw [hlast (List.ne_nil_of_mem hclock), hanswers clock hclock] at hpull
    cases hpull

/-- Every instance that is not selected is asked before the first bit leaves. -/
theorem TransfersRight.othersSilent (h : setting.TransfersRight u) (hlength : Sim.charLen setting.ctrl ≠ 0) :
    setting.OthersSilent := by
  intro x hx other hother cookie b
  have hready := ready_ready setting (fun _ ↦ if b then BitVec.allOnes 32 else 0) cookie
  obtain ⟨events, t, clocks, hrun, hreset, -, -⟩ := h.ends (constantOps_answers false) hready
  have hattached : setting.attach (constantOps false) x = some other := (attach_of_ne hx).trans hother
  have hasked := (hready.induction (fun s' _ ↦ other.Silent cookie (bitOf b) ∨
    s'.implCookies x = cookie ∧ (∀ k < 128, dataBit s'.raw k = b) ∧
      (s'.state = .started ∨ s'.state = .selected ∧ x < setting.inst)) ?_ ?_ ?_ hrun).2
  · rcases hasked with hsilent | ⟨-, -, hstate | ⟨hstate, -⟩⟩
    · exact hsilent
    · cases hreset.symm.trans hstate
    · cases hreset.symm.trans hstate
  · rintro s' out m here ht hstate hcycle (hsilent | ⟨hcookie, hdata, hwhere⟩)
    · exact .inl hsilent
    · have hss : slaveSelect (s'.raw 6) = (1 : Word) <<< setting.inst.val := by
        rw [ht.ss, setting.oneHot]
      have hops : setting.attach (constantOps false) setting.inst = some (constantOps false) :=
        Function.update_self _ _ _
      have hpush : pushedBit u s'.raw (Sim.charLen (s'.raw 4)) = bitOf b := by
        have hlt := charLen_lt (s'.raw 4)
        rw [pushedBit_eq s'.raw (Nat.pos_of_ne_zero (ht.charLen ▸ hlength)), hdata _ (by split <;> omega)]
      rcases hwhere with hstarted | ⟨hselected, hlt⟩
      · obtain ⟨hkept, hsilent⟩ := silent_of_started hss hops hstarted hcycle hattached
        rw [hcookie, hpush] at hsilent
        rcases lt_or_gt_of_ne hx with hlt | hgt
        · cases (ht.turn_of_ok hstate hcycle).1 with
          | started from' state raw remaining hclocks =>
            refine .inr ⟨(hkept hlt).trans hcookie, ?_, .inr ⟨state, hlt⟩⟩
            rw [raw]
            exact hdata
          | selected from' | busy from' | done from' => cases hstarted.symm.trans from'
        · exact .inl (hsilent hgt)
      · have hsilent := silent_of_selected hss hops hselected hcycle hattached hlt
        rw [hcookie, hpush] at hsilent
        exact .inl hsilent
  · exact fun _ _ _ _ hP ↦ hP
  · refine .inr ⟨rfl, fun k hk ↦ ?_, .inl rfl⟩
    have hupdate := (dataBit_update (setting.ready (fun _ ↦ if b then BitVec.allOnes 32 else 0) cookie).raw
      (setting.ctrl ||| goMask) (i := 4) (k := k) (by decide) (by omega)).trans (if_neg (by omega))
    refine hupdate.trans ((dataBit_ready _ cookie hk).trans ?_)
    cases b with
    | false => exact BitVec.getLsbD_zero
    | true =>
      exact BitVec.getLsbD_allOnes.trans (decide_eq_true (Nat.mod_lt _ (by decide)))

variable (setting u) in
/-- A transfer does what it should exactly when its length is not zero, and nothing comes from the instances
that are not selected. -/
theorem transfersRight_iff [Inhabited C] :
    setting.TransfersRight u ↔ Sim.charLen setting.ctrl ≠ 0 ∧ setting.OthersSilent := by
  constructor
  · intro h
    have hlength := h.charLen_ne_zero
    exact ⟨hlength, h.othersSilent hlength⟩
  · rintro ⟨hlength, hothers⟩
    exact transfersRight_of_length hlength hothers

/-- Shifts on a processor that looks at five bits of how far to shift. -/
def fiveBitShifts : OpenShifts where
  left x n := x <<< (n.emod 32).toNat
  right x n := x >>> (n.emod 32).toNat

/-- A length of zero, and nothing attached but the first instance. -/
def zeroLength : SpiSetting Unit where
  impls _ := none
  inst := 0
  ctrl := 0
  idle := rfl
  divider := 0
  ss := 1
  oneHot := rfl

theorem not_transfersRight_zeroLength : ¬ zeroLength.TransfersRight fiveBitShifts := fun h ↦
  h.charLen_ne_zero rfl

/-- A second instance that echoes what is pushed, as `spidummy_spi_clock` does. -/
def echoBehind : SpiSetting Unit where
  impls x := if x = 1 then some { select := none, clock := fun _ _ push ↦ ((), some push) } else none
  inst := 0
  ctrl := 8
  idle := rfl
  divider := 0
  ss := 1
  oneHot := rfl

theorem not_transfersRight_echoBehind : ¬ echoBehind.TransfersRight fiveBitShifts := by
  intro h
  have hsilent := h.othersSilent (by decide) 1 (by decide) _ rfl () false
  change bitOf false = -1 at hsilent
  exact absurd hsilent (by decide)

end SpiSetting

end Tenyr.Sim
