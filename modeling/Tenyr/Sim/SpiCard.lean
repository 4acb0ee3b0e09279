import Tenyr.Sim.SpiTransfer
import Tenyr.Sim.Spisd

/-!
# The card behind the SPI device

The SD card as the instance that a transfer goes to. The bits of the data register are the frame that the card
finds in its shift register, and what the card shifts out is in the data register afterwards.
-/

namespace Tenyr.Sim

open Isa Lib.Traced

/-! ## What the selected instance sees -/

section

variable {C : Type} (ops : SpiOps C)

/-- The instance after bits were pushed to it. -/
def SpiOps.clocked (cookie : C) (pushes : List Word) : C :=
  pushes.foldl (fun cookie push ↦ (ops.clock cookie true push).1) cookie

/-- What is pulled from it meanwhile. -/
def SpiOps.answered (cookie : C) : List Word → List Word
  | [] => []
  | push :: pushes =>
    (ops.clock cookie true push).2.getD (-1) :: SpiOps.answered (ops.clock cookie true push).1 pushes

/-- The instance after it is selected or not any more, with `ASS` set. -/
def SpiOps.selectedAuto (auto : Bool) (cookie : C) (ss : Bool) : C :=
  if auto then ops.select.elim cookie fun select ↦ select cookie ss else cookie

theorem SpiOps.clocked_concat (cookie : C) (pushes : List Word) (push : Word) :
    ops.clocked cookie (pushes ++ [push]) = (ops.clock (ops.clocked cookie pushes) true push).1 := by
  rw [SpiOps.clocked, List.foldl_concat]
  rfl

theorem SpiOps.answered_concat (cookie : C) (pushes : List Word) (push : Word) :
    ops.answered cookie (pushes ++ [push]) =
      ops.answered cookie pushes ++ [(ops.clock (ops.clocked cookie pushes) true push).2.getD (-1)] := by
  induction pushes generalizing cookie with
  | nil => rfl
  | cons first pushes ih => exact congrArg (_ :: ·) (ih _)

variable {ops} {u : OpenShifts} {impls : Fin 8 → Option (SpiOps C)} {inst : Fin 8} {s s' : SpiState C}
  {clocks : List SpiClock}

theorem selectAuto_cookie (ss : Bool) : (s.selectAuto ops inst ss).implCookies inst =
    ops.selectedAuto (autoSelect (s.raw 4)) (s.implCookies inst) ss := by
  rw [SpiState.selectAuto, SpiOps.selectedAuto]
  split
  · rw [SpiState.select]
    cases ops.select with
    | none => rfl
    | some select => exact Function.update_self _ _ _
  · rfl

/-- The part of a cycle that the selected instance has in it. -/
theorem spiSlaveCycle_own (hss : slaveSelect (s.raw 6) = (1 : Word) <<< inst.val)
    (hops : impls inst = some ops) (hstate : s.state ≠ .reset)
    (h : spiSlaveCycle u impls s = .ok (s', clocks)) :
    ∃ s₁ s₂ here, selectedInst u (charLen (s.raw 4)) (pushedBit u s.raw (charLen (s.raw 4))) s₁ ops inst =
        .ok (s₂, here) ∧
      s₁.state = s.state ∧ s₁.raw = s.raw ∧ s₁.implCookies inst = s.implCookies inst ∧
      s'.state = s₂.state ∧ s'.implCookies inst = s₂.implCookies inst ∧
      ofInst inst clocks = ofInst inst here := by
  rw [spiSlaveCycle, if_neg hstate, hss, if_neg (not_not.mpr (oneHot_and_sub_one inst))] at h
  dsimp only at h
  split at h
  · cases h
  · rw [finRange_eq inst] at h
    obtain ⟨s₁, first, rest, hfirst, hrest, rfl⟩ := run_append_eq_ok h
    obtain ⟨s₂, here, last, hhere, hlast, rfl⟩ := andThen_eq_ok hrest
    have hnodup : (List.finRange 8).Nodup := List.nodup_finRange 8
    have hbefore : inst ∉ before inst := fun hmem ↦ lt_irrefl _ (mem_before.mp hmem)
    have hbehind : inst ∉ behind inst := fun hmem ↦ lt_irrefl _ (mem_behind.mp hmem)
    have haside := run_aside hbefore (hnodup.filter _) hfirst
    have hafter := run_aside hbehind (hnodup.filter _) hlast
    rw [cycleInst, hops, getLsbD_oneHot, decide_eq_true rfl] at hhere
    refine ⟨s₁, s₂, here, hhere, ?_, ?_, haside.kept inst hbefore, ?_, hafter.kept inst hbehind, ?_⟩
    · rw [haside.only]
    · rw [haside.only]
    · rw [hafter.only]
    · rw [ofInst_append, ofInst_append, haside.ofInst_eq_nil hbefore, hafter.ofInst_eq_nil hbehind,
        List.nil_append, List.append_nil]

end

namespace SpiSetting

variable {C : Type} {setting : SpiSetting C} {ops : SpiOps C} {u : OpenShifts} {s m t : SpiState C}
  {out clocks : List SpiClock}

/-- What was pushed to the instance that is selected. -/
def pushes (setting : SpiSetting C) (out : List SpiClock) : List Word :=
  (ofInst setting.inst out).map SpiClock.push

variable (setting ops) in
/-- How far the instance has come that had a certain cookie before the transfer. -/
structure Served (cookie : C) (s : SpiState C) (out : List SpiClock) : Prop where
  before : s.state = .started → s.implCookies setting.inst = cookie
  during : s.state ≠ .started → s.state ≠ .reset → s.implCookies setting.inst =
    ops.clocked (ops.selectedAuto (autoSelect setting.ctrl) cookie true) (setting.pushes out)
  after : s.state = .reset → s.implCookies setting.inst = ops.selectedAuto (autoSelect setting.ctrl)
    (ops.clocked (ops.selectedAuto (autoSelect setting.ctrl) cookie true) (setting.pushes out)) false
  pulls : (ofInst setting.inst out).map SpiClock.pull =
    ops.answered (ops.selectedAuto (autoSelect setting.ctrl) cookie true) (setting.pushes out)

theorem Transferring.autoSelect (h : setting.Transferring s out) (hstate : s.state ≠ .reset) :
    autoSelect (s.raw 4) = autoSelect setting.ctrl := by
  rw [h.ctrl hstate, Sim.autoSelect, BitVec.getLsbD_or, show goMask.getLsbD 13 = false from rfl, Bool.or_false,
    Sim.autoSelect]

/-- A turn in which nothing is shifted. -/
theorem Served.quiet {cookie : C} (h : setting.Served ops cookie s out) (hclocks : ofInst setting.inst clocks = []) :
    setting.pushes (out ++ clocks) = setting.pushes out ∧ (ofInst setting.inst (out ++ clocks)).map SpiClock.pull =
      ops.answered (ops.selectedAuto (autoSelect setting.ctrl) cookie true) (setting.pushes out) := by
  rw [pushes, ofInst_append, hclocks, List.append_nil]
  exact ⟨rfl, h.pulls⟩

theorem Served.waits {cookie : C} (h : setting.Served ops cookie s out) (hs : s.state = .selected)
    (hclocks : ofInst setting.inst clocks = []) (hm : m.implCookies setting.inst = s.implCookies setting.inst)
    (hnext : m.state = .busy ∨ m.state = .selected) : setting.Served ops cookie m (out ++ clocks) := by
  obtain ⟨hpushes, hpulls⟩ := h.quiet hclocks
  have hsame := h.during (by rw [hs]; decide) (by rw [hs]; decide)
  refine ⟨fun hstate ↦ ?_, fun _ _ ↦ ?_, fun hstate ↦ ?_, ?_⟩
  · rcases hnext with hnext | hnext <;> cases hnext.symm.trans hstate
  · rw [hm, hsame, hpushes]
  · rcases hnext with hnext | hnext <;> cases hnext.symm.trans hstate
  · rw [hpushes, hpulls]

theorem Served.shifted {cookie : C} (h : setting.Served ops cookie s out) (hs : s.state = .busy) {clock : SpiClock}
    (hclocks : ofInst setting.inst clocks = [clock])
    (hpull : clock.pull = (ops.clock (s.implCookies setting.inst) true clock.push).2.getD (-1))
    (hm : m.implCookies setting.inst = (ops.clock (s.implCookies setting.inst) true clock.push).1)
    (hnext : m.state = .done ∨ m.state = .busy) : setting.Served ops cookie m (out ++ clocks) := by
  have hpushes : setting.pushes (out ++ clocks) = setting.pushes out ++ [clock.push] := by
    rw [pushes, ofInst_append, hclocks, List.map_append]
    rfl
  have hsame := h.during (by rw [hs]; decide) (by rw [hs]; decide)
  refine ⟨fun hstate ↦ ?_, fun _ _ ↦ ?_, fun hstate ↦ ?_, ?_⟩
  · rcases hnext with hnext | hnext <;> cases hnext.symm.trans hstate
  · rw [hm, hpushes, ops.clocked_concat, hsame]
  · rcases hnext with hnext | hnext <;> cases hnext.symm.trans hstate
  · rw [hpushes, ops.answered_concat, ← hsame, ← hpull, ← h.pulls, ofInst_append, hclocks, List.map_append]
    rfl

theorem Served.turn {cookie : C} (ht : setting.Transferring s out) (hstate : s.state ≠ .reset)
    (hcycle : spiSlaveCycle u (setting.attach ops) s = .ok (m, clocks)) (h : setting.Served ops cookie s out) :
    setting.Served ops cookie m (out ++ clocks) := by
  have hss : slaveSelect (s.raw 6) = (1 : Word) <<< setting.inst.val := by rw [ht.ss, setting.oneHot]
  obtain ⟨s₁, s₂, here, hown, hstate₁, hraw, hcookie, hstate₂, hcookie₂, hclocks⟩ :=
    spiSlaveCycle_own hss (Function.update_self _ _ _) hstate hcycle
  have hauto : Sim.autoSelect (s₁.raw 4) = Sim.autoSelect setting.ctrl := by rw [hraw, ht.autoSelect hstate]
  rw [selectedInst] at hown
  cases hs : s.state with
  | reset => exact absurd hs hstate
  | started =>
    rw [hstate₁, hs] at hown
    obtain ⟨rfl, rfl⟩ := Prod.mk.inj (Except.ok.inj hown)
    obtain ⟨hpushes, hpulls⟩ := h.quiet hclocks
    have hnone : setting.pushes out = [] := by
      rw [pushes, ht.waiting (.inl hs)]
      rfl
    refine ⟨fun hm ↦ ?_, fun _ _ ↦ ?_, fun hm ↦ ?_, ?_⟩
    · cases hstate₂.symm.trans hm
    · rw [hpushes, hnone, hcookie₂, ← hauto, ← h.before hs, ← hcookie]
      exact selectAuto_cookie true
    · cases hstate₂.symm.trans hm
    · rw [hpushes, hpulls]
  | selected =>
    rw [hstate₁, hs] at hown
    obtain ⟨rfl, rfl⟩ := Prod.mk.inj (Except.ok.inj hown)
    refine h.waits hs hclocks ?_ ?_
    · rw [hcookie₂, ← hcookie]
      split <;> rfl
    · rw [hstate₂]
      split
      · exact .inl rfl
      · exact .inr (hstate₁.trans hs)
  | busy =>
    rw [hstate₁, hs] at hown
    dsimp only at hown
    split at hown
    · cases hown
    · obtain ⟨rfl, rfl⟩ := Prod.mk.inj (Except.ok.inj hown)
      refine h.shifted hs (hclocks.trans (List.filter_cons_of_pos (decide_eq_true rfl))) ?_ ?_ ?_
      · rw [← hcookie]
      · rw [hcookie₂, ← hcookie]
        exact Function.update_self _ _ _
      · rw [hstate₂]
        dsimp only
        split
        · exact .inl rfl
        · exact .inr rfl
  | done =>
    rw [hstate₁, hs] at hown
    obtain ⟨rfl, rfl⟩ := Prod.mk.inj (Except.ok.inj hown)
    obtain ⟨hpushes, hpulls⟩ := h.quiet hclocks
    have hsame := h.during (by rw [hs]; decide) hstate
    refine ⟨fun hm ↦ ?_, fun _ hm ↦ absurd hstate₂ hm, fun _ ↦ ?_, ?_⟩
    · cases hstate₂.symm.trans hm
    · rw [hcookie₂, hpushes, ← hsame, ← hauto, ← hcookie]
      exact selectAuto_cookie false
    · rw [hpushes, hpulls]

theorem Ready.served (hready : setting.Ready s) {events : List SpiEvent}
    (h : spiTransfer u (setting.attach ops) s events = .ok (t, clocks)) :
    setting.Served ops (s.implCookies setting.inst) t clocks := by
  refine (hready.induction (setting.Served ops (s.implCookies setting.inst)) ?_ ?_ ?_ h).2
  · exact fun _ _ _ _ ht hstate hcycle hserved ↦ hserved.turn ht hstate hcycle
  · exact fun _ _ _ _ hserved ↦ ⟨hserved.before, hserved.during, hserved.after, hserved.pulls⟩
  · exact ⟨fun _ ↦ rfl, fun hne ↦ absurd rfl hne, fun hreset ↦ (by cases hreset), rfl⟩

end SpiSetting

/-! ## The card as an instance -/

/-- The callbacks of the card, which the device pushes nothing to but 0 and 1. Where `breakpoint` is called the
simulation ends, and the cookie says so. -/
def spisdOps (env : SpisdEnv) : SpiOps (Except SpisdFault SpisdState) where
  select := some fun card ss ↦ card.map fun s ↦ spisdSpiSelect s ss
  clock card ss push :=
    match card with
    | .error fault => (.error fault, if ss then some 0 else none)
    | .ok s =>
      match spisdSpiClock env s ss (push == 1) with
      | .error fault => (.error fault, some 0)
      | .ok (s, outs) => (.ok s, (outs.head?.bind SpisdOutput.out).map bitOf)

section

variable {env : SpisdEnv}

theorem bitOf_beq_one (b : Bool) : (bitOf b == 1) = b := by
  cases b <;> decide

theorem spisdOps_answers : (spisdOps env).Answers := by
  intro cookie b
  cases cookie with
  | error fault => exact ⟨false, rfl⟩
  | ok s =>
    simp only [spisdOps, bitOf_beq_one]
    cases hclock : spisdSpiClock env s true b with
    | error fault => exact ⟨false, rfl⟩
    | ok result =>
      rw [spisdSpiClock] at hclock
      dsimp only [Bool.not_true] at hclock
      rw [if_neg (by decide)] at hclock
      split_ifs at hclock <;> cases hclock <;> exact ⟨_, rfl⟩

theorem spisdOps_clock {s s' : SpisdState} {b out : Bool} {command : Option SpisdCommand}
    (h : spisdEvent env s (.clock true b) = .ok (s', [⟨some out, command⟩])) :
    (spisdOps env).clock (.ok s) true (bitOf b) = (.ok s', some (bitOf out)) := by
  have hclock : spisdSpiClock env s true b = .ok (s', [⟨some out, command⟩]) := h
  simp only [spisdOps, bitOf_beq_one, hclock]
  rfl

theorem spisdOps_clock_fault {s : SpisdState} {b : Bool} {fault : SpisdFault}
    (h : spisdEvent env s (.clock true b) = .error fault) :
    (spisdOps env).clock (.ok s) true (bitOf b) = (.error fault, some 0) := by
  have hclock : spisdSpiClock env s true b = .error fault := h
  simp only [spisdOps, bitOf_beq_one, hclock]

/-- A card after bits that complete no frame. -/
def SpisdCard.after (card : SpisdCard) (n : ℕ) : SpisdCard :=
  { card with shiftOut := card.shiftOut <<< n, cycleCount := card.cycleCount + BitVec.ofNat 64 n }

variable (env) in
/-- The bits that come out meanwhile. -/
def SpisdCard.outBits (card : SpisdCard) (n : ℕ) : List Bool :=
  (List.range n).map fun k ↦ ((card.after k).shift env).1

theorem SpisdCard.after_zero (card : SpisdCard) : card.after 0 = card := by
  simp [SpisdCard.after]

theorem SpisdCard.tick_after (card : SpisdCard) (n : ℕ) (b : Bool) :
    (card.after n).tick env (.clock true b) = (some ((card.after n).shift env).1, card.after (n + 1)) := by
  have hcount : card.cycleCount + BitVec.ofNat 64 n + 1 = card.cycleCount + BitVec.ofNat 64 (n + 1) := by
    rw [BitVec.ofNat_add, BitVec.add_assoc]
    rfl
  simp only [SpisdCard.tick, SpisdCard.after, SpisdCard.shift, hcount, BitVec.shiftLeft_add, if_true]

theorem SpisdCard.outBits_succ (card : SpisdCard) (n : ℕ) :
    card.outBits env (n + 1) = card.outBits env n ++ [((card.after n).shift env).1] := by
  rw [SpisdCard.outBits, List.range_succ, List.map_append]
  rfl

/-- Bits that complete no frame. -/
theorem clocked_pending {s : SpisdState} {card : SpisdCard} (h : Framed s ⟨card, []⟩) {bits : List Bool}
    (hlength : bits.length < 48) :
    ∃ s', (spisdOps env).clocked (.ok s) (bits.map bitOf) = .ok s' ∧ Framed s' ⟨card.after bits.length, bits⟩ ∧
      (spisdOps env).answered (.ok s) (bits.map bitOf) = (card.outBits env bits.length).map bitOf := by
  induction bits using List.reverseRecOn with
  | nil => exact ⟨s, rfl, by rw [List.length_nil, SpisdCard.after_zero]; exact h, rfl⟩
  | append_singleton bits b ih =>
    rw [List.length_append, List.length_singleton] at hlength ⊢
    obtain ⟨s₁, hclocked, hframed, hanswered⟩ := ih (by omega)
    have hpending : pendingAfter bits (.clock true b) = bits ++ [b] := if_pos ⟨rfl, hlength⟩
    have hnone : completed bits (.clock true b) = none := if_neg fun hlast ↦ by omega
    obtain ⟨s', hevent, hframed'⟩ := hframed.event_incomplete env hnone
    rw [SpisdCard.tick_after] at hevent hframed'
    have hclock := spisdOps_clock hevent
    rw [List.map_append, List.map_singleton, SpiOps.clocked_concat, SpiOps.answered_concat, hclocked, hanswered,
      hclock, SpisdCard.outBits_succ, List.map_append]
    rw [hpending] at hframed'
    exact ⟨s', rfl, hframed', rfl⟩

/-- Bits with which the simulation ends. -/
def Breaks (bits : List Bool) : Prop := bits.length = 48 ∧ ¬ WellFormed bits

instance (bits : List Bool) : Decidable (Breaks bits) := inferInstanceAs (Decidable (_ ∧ _))

variable (env) in
/-- A card after a transfer: 48 bits are a command, and fewer bits are none. -/
def SpisdCard.transferred (card : SpisdCard) (bits : List Bool) : SpisdCard :=
  if bits.length = 48 then (card.after 48).handle env (handledCommand bits) else card.after bits.length

/-- Bits that complete a frame, or are too few. -/
theorem clocked_transferred {s : SpisdState} {card : SpisdCard} (h : Framed s ⟨card, []⟩) {bits : List Bool}
    (hlength : bits.length ≤ 48) :
    (¬ Breaks bits ∧ ∃ s', (spisdOps env).clocked (.ok s) (bits.map bitOf) = .ok s' ∧
        s'.card = card.transferred env bits ∧ (bits.length = 48 → s'.bitCount = 0) ∧
        (spisdOps env).answered (.ok s) (bits.map bitOf) = (card.outBits env bits.length).map bitOf) ∨
      Breaks bits ∧ ∃ fault, (spisdOps env).clocked (.ok s) (bits.map bitOf) = .error fault := by
  rcases hlength.lt_or_eq with hlt | heq
  · obtain ⟨s', hclocked, hframed, hanswered⟩ := clocked_pending h hlt
    refine .inl ⟨fun hbreaks ↦ hlt.ne hbreaks.1, s', hclocked, ?_, fun heq ↦ absurd heq hlt.ne, hanswered⟩
    rw [SpisdCard.transferred, if_neg hlt.ne]
    exact hframed.card
  · obtain ⟨bits, b, rfl⟩ : ∃ start b, bits = start ++ [b] :=
      ⟨_, _, (List.dropLast_append_getLast (List.ne_nil_of_length_pos (heq ▸ Nat.succ_pos 47))).symm⟩
    rw [Breaks, SpisdCard.transferred, if_pos heq, heq]
    rw [List.length_append, List.length_singleton] at heq
    have hbits : bits.length = 47 := by omega
    obtain ⟨s₁, hclocked, hframed, hanswered⟩ := clocked_pending h (by omega : bits.length < 48)
    rw [hbits] at hframed hanswered
    rw [List.map_append, List.map_singleton, SpiOps.clocked_concat, SpiOps.answered_concat, hclocked, hanswered]
    rcases hframed.clock_complete env b heq with ⟨hwell, s', hevent, hcount, hcard⟩ | ⟨hill, fault, hevent⟩
    · rw [SpisdCard.tick_after] at hevent hcard
      rw [spisdOps_clock hevent]
      refine .inl ⟨fun hbreaks ↦ hbreaks.2 hwell, s', rfl, hcard, fun _ ↦ hcount, ?_⟩
      rw [SpisdCard.outBits_succ, List.map_append]
      rfl
    · rw [spisdOps_clock_fault hevent]
      exact .inr ⟨⟨rfl, hill⟩, fault, rfl⟩

end

/-! ## Responses -/

/-- The byte of a response, greatest bit first. -/
def SpisdRspR1.bits (rsp : SpisdRspR1) : List Bool :=
  [false, false, false, false, rsp.crcError, false, false, rsp.idle]

theorem getLsbD_word (env : SpisdEnv) (rsp : SpisdRspR1) {j : ℕ} (hj : j < 8) :
    (rsp.word env).getLsbD j = rsp.bits.getD (7 - j) false := by
  have hbyte : ∀ crc idle, ∀ j < 8, ((BitVec.ofBool crc ++ 0#2 ++ BitVec.ofBool idle).setWidth 8).getLsbD j =
      [false, false, false, false, crc, false, false, idle].getD (7 - j) false := by decide
  rw [SpisdRspR1.word, BitVec.getLsbD_signExtend, BitVec.getLsbD_append, if_pos (by omega), if_pos hj,
    hbyte _ _ j hj, decide_eq_true (by omega : j < 64), Bool.true_and]
  rfl

/-- The byte of the response comes out first. -/
theorem outBits_response {env : SpisdEnv} {card : SpisdCard} {rsp : SpisdRspR1}
    (hshift : card.shiftOut = rsp.word env) (hlen : card.outShiftLen = 8) : card.outBits env 8 = rsp.bits := by
  have hbit : ∀ k < 8, ((card.after k).shift env).1 = rsp.bits.getD k false := by
    intro k hk
    simp only [SpisdCard.shift, SpisdCard.after, hlen, hshift]
    rw [if_pos (by decide)]
    change ((rsp.word env) <<< k).getLsbD 7 = _
    rw [BitVec.getLsbD_shiftLeft, getLsbD_word env rsp (by omega), Nat.sub_sub_self (by omega)]
    simp only [show ¬ 7 < k by omega, show 7 < 64 by decide, decide_true, decide_false, Bool.not_false, Bool.true_and]
  rw [SpisdCard.outBits]
  calc
    _ = (List.range 8).map fun k ↦ rsp.bits.getD k false :=
      List.map_congr_left fun k hk ↦ hbit k (List.mem_range.mp hk)
    _ = rsp.bits := rfl

/-! ## Transfers to the card -/

namespace SpiSetting

variable {env : SpisdEnv} {setting : SpiSetting (Except SpisdFault SpisdState)} {u : OpenShifts}
  {s t : SpiState (Except SpisdFault SpisdState)} {clocks : List SpiClock} {c : SpisdState}

variable (setting) in
/-- A transfer is about to go to a card that is in no frame, or will be when it is selected. -/
structure CardReady (c : SpisdState) (s : SpiState (Except SpisdFault SpisdState)) : Prop extends setting.Ready s where
  card : s.implCookies setting.inst = .ok c
  fresh : Sim.autoSelect setting.ctrl = true ∨ c.bitCount = 0

theorem selectedAuto_card {auto : Bool} (hfresh : auto = true ∨ c.bitCount = 0) :
    ∃ c', (spisdOps env).selectedAuto auto (.ok c) true = .ok c' ∧ Framed c' ⟨c.card, []⟩ := by
  cases auto with
  | true => exact ⟨_, rfl, rfl, rfl, Nat.succ_pos _, Nat.mod_one _⟩
  | false =>
    have hcount := hfresh.resolve_left Bool.false_ne_true
    exact ⟨c, rfl, rfl, hcount, Nat.succ_pos _, Nat.mod_one _⟩

theorem deselectedAuto_card (auto : Bool) (card : Except SpisdFault SpisdState) :
    (spisdOps env).selectedAuto auto card false = card := by
  cases auto with
  | false => rfl
  | true => cases card <;> rfl

theorem bitOf_injective : Function.Injective bitOf := by
  intro a b h
  cases a <;> cases b <;> first | rfl | exact absurd h (by decide)

/-- What a transfer that is over has come to. -/
theorem CardReady.transferred (h : setting.CardReady c s) (hlength : Sim.charLen setting.ctrl ≠ 0)
    (hle : Sim.charLen setting.ctrl ≤ 48) {events : List SpiEvent}
    (hrun : spiTransfer u (setting.attach (spisdOps env)) s events = .ok (t, clocks))
    (hgo : goBsy (t.raw 4) = false) :
    (¬ Breaks (setting.bits s.raw) ∧ ∃ c', t.implCookies setting.inst = .ok c' ∧
        c'.card = c.card.transferred env (setting.bits s.raw) ∧
        (Sim.charLen setting.ctrl = 48 → c'.bitCount = 0) ∧
        setting.bits t.raw = c.card.outBits env (Sim.charLen setting.ctrl)) ∨
      Breaks (setting.bits s.raw) ∧ ∃ fault, t.implCookies setting.inst = .error fault := by
  obtain ⟨ht, answers, hexchanged⟩ := h.toReady.exchanged hlength hrun
  have htransferred : setting.Transferred (spisdOps env) s t clocks := hexchanged.transferred ht
  obtain ⟨hpushes, hpulls⟩ := htransferred.done hgo
  have hreset : t.state = .reset := by
    by_contra hne
    rw [ht.goBsy_iff.mpr hne] at hgo
    cases hgo
  have hserved := h.toReady.served hrun
  have hcookie := hserved.after hreset
  have hanswered := hserved.pulls
  obtain ⟨c', hselected, hframed⟩ := selectedAuto_card h.fresh
  rw [h.card, hselected] at hcookie hanswered
  rw [deselectedAuto_card, pushes, hpushes] at hcookie
  rw [hpulls, pushes, hpushes] at hanswered
  have hbits : (setting.bits s.raw).length = Sim.charLen setting.ctrl := by
    rw [length_bits, SpiSetting.length, if_neg hlength]
  rcases clocked_transferred hframed (hbits ▸ hle) with
    ⟨hwell, c₁, hclocked, hcard, hcount, hout⟩ | ⟨hill, fault, hclocked⟩
  · rw [hclocked] at hcookie
    rw [hbits] at hcount hout
    rw [hout] at hanswered
    exact .inl ⟨hwell, c₁, hcookie, hcard, hcount, List.map_injective_iff.mpr bitOf_injective hanswered⟩
  · rw [hclocked] at hcookie
    exact .inr ⟨hill, fault, hcookie⟩

end SpiSetting

/-! ## Conversations -/

section

variable {env : SpisdEnv} {u : OpenShifts}

variable (env) in
/-- What a card has become and what it has answered after some transfers, if the simulation has not ended. -/
def SpisdCard.converse : SpisdCard → List (List Bool) → Option (SpisdCard × List (List Bool))
  | card, [] => some (card, [])
  | card, bits :: rest =>
    if Breaks bits then none
    else (SpisdCard.converse (card.transferred env bits) rest).map fun (last, answers) ↦
      (last, card.outBits env bits.length :: answers)

theorem SpisdCard.converse_append (card : SpisdCard) (past next : List (List Bool)) :
    card.converse env (past ++ next) = (card.converse env past).bind fun (middle, answers) ↦
      (middle.converse env next).map fun (last, more) ↦ (last, answers ++ more) := by
  induction past generalizing card with
  | nil =>
    change card.converse env next = (card.converse env next).map id
    rw [Option.map_id]
    rfl
  | cons first past ih =>
    rw [List.cons_append, SpisdCard.converse, SpisdCard.converse, ih]
    split
    · rfl
    · rw [Option.map_bind, Option.bind_map]
      refine congrArg _ (funext fun (middle, answers) ↦ ?_)
      exact Option.map_map _ _ _

theorem SpisdCard.converse_concat (card : SpisdCard) (past : List (List Bool)) (bits : List Bool) :
    card.converse env (past ++ [bits]) = (card.converse env past).bind fun (last, answers) ↦
      if Breaks bits then none
      else some (last.transferred env bits, answers ++ [last.outBits env bits.length]) := by
  rw [SpisdCard.converse_append]
  refine congrArg _ (funext fun (last, answers) ↦ ?_)
  change Option.map _ (if Breaks bits then _ else _) = if Breaks bits then _ else _
  split <;> rfl

variable (env u) in
/-- Transfers between a host and a card. Before each the host writes any registers, and it waits until the transfer
is over; each has at most 48 bits, and has `ASS` set where the card is still in a frame. The bits are kept that were
in the data register before and after each. -/
inductive Conversation (card : SpisdState) :
    List (List Bool × List Bool) → Except SpisdFault SpisdState → Prop where
  | start : Conversation card [] (.ok card)
  | transfer {past : List (List Bool × List Bool)} {c : SpisdState} (before : Conversation card past (.ok c))
      (setting : SpiSetting (Except SpisdFault SpisdState)) (s t : SpiState (Except SpisdFault SpisdState))
      (events : List SpiEvent) (clocks : List SpiClock) (ready : setting.CardReady c s)
      (ne_zero : charLen setting.ctrl ≠ 0) (le : charLen setting.ctrl ≤ 48)
      (run : spiTransfer u (setting.attach (spisdOps env)) s events = .ok (t, clocks))
      (ended : goBsy (t.raw 4) = false) :
      Conversation card (past ++ [(setting.bits s.raw, setting.bits t.raw)]) (t.implCookies setting.inst)

theorem Conversation.converse_eq {card : SpisdState} {past : List (List Bool × List Bool)}
    {c : Except SpisdFault SpisdState} (h : Conversation env u card past c) :
    (c.toOption.map fun last ↦ (last.card, past.map Prod.snd)) = card.card.converse env (past.map Prod.fst) := by
  induction h with
  | start => rfl
  | transfer before setting s t events clocks ready ne_zero le run ended ih =>
    have hbits : (setting.bits s.raw).length = charLen setting.ctrl := by
      rw [SpiSetting.length_bits, SpiSetting.length, if_neg ne_zero]
    rw [List.map_append, List.map_append, List.map_singleton, List.map_singleton, SpisdCard.converse_concat, ← ih]
    change _ = if Breaks (setting.bits s.raw) then none else _
    obtain ⟨hwell, last, hcookie, hcard, -, hout⟩ | ⟨hbreaks, fault, hcookie⟩ :=
      ready.transferred ne_zero le run ended
    · rw [if_neg hwell, hcookie, hbits, ← hcard, ← hout]
      rfl
    · rw [if_pos hbreaks, hcookie]
      rfl

theorem Conversation.next {card c : SpisdState} {past : List (List Bool × List Bool)}
    (h : Conversation env u card past (.ok c)) {setting : SpiSetting (Except SpisdFault SpisdState)}
    {s : SpiState (Except SpisdFault SpisdState)} (hothers : setting.OthersSilent) (hready : setting.CardReady c s)
    (hne : charLen setting.ctrl ≠ 0) (hle : charLen setting.ctrl ≤ 48) :
    ∃ bound, ∀ events, bound ≤ events.count .cycle →
      ∃ t clocks, spiTransfer u (setting.attach (spisdOps env)) s events = .ok (t, clocks) ∧
        Conversation env u card (past ++ [(setting.bits s.raw, setting.bits t.raw)])
          (t.implCookies setting.inst) := by
  have hright : setting.TransfersRight u := SpiSetting.transfersRight_of_length hne hothers
  obtain ⟨hruns, bound, hends⟩ := hright (spisdOps env) spisdOps_answers s hready.toReady
  refine ⟨bound, fun events hbound ↦ ?_⟩
  obtain ⟨t, clocks, hrun, -⟩ := hruns events
  exact ⟨t, clocks, hrun, h.transfer setting s t events clocks hready hne hle hrun
    (hends events t clocks hbound hrun)⟩

theorem Conversation.next_ok {card c : SpisdState} {past : List (List Bool × List Bool)}
    (h : Conversation env u card past (.ok c)) {setting : SpiSetting (Except SpisdFault SpisdState)}
    {s : SpiState (Except SpisdFault SpisdState)} (hothers : setting.OthersSilent) (hready : setting.CardReady c s)
    (hne : charLen setting.ctrl ≠ 0) (hle : charLen setting.ctrl ≤ 48) (hwell : ¬ Breaks (setting.bits s.raw)) :
    ∃ answer last, Conversation env u card (past ++ [(setting.bits s.raw, answer)]) (.ok last) := by
  obtain ⟨bound, hnext⟩ := h.next hothers hready hne hle
  obtain ⟨t, clocks, -, hgone⟩ := hnext (List.replicate bound .cycle) (by rw [List.count_replicate_self])
  have hconverse := hgone.converse_eq
  rw [List.map_append, List.map_singleton, List.map_append, List.map_singleton, SpisdCard.converse_concat,
    ← h.converse_eq] at hconverse
  change _ = if Breaks (setting.bits s.raw) then none else _ at hconverse
  rw [if_neg hwell] at hconverse
  cases hcookie : t.implCookies setting.inst with
  | error fault =>
    rw [hcookie] at hconverse
    cases hconverse
  | ok last => exact ⟨_, last, hcookie ▸ hgone⟩

/-- **Conversations with the card.** In any number of transfers, with any dividers, orders of the bits and values
in the registers, the card handles the frames that were in the data register, in their order and each once, as the
commands that `handledCommand` takes them for (the index is masked to five bits), and what the data register has
after each transfer is what the card answers. Unless the simulation has ended, and while no other instance answers,
the next transfer comes to an end and goes on with the conversation. -/
theorem conversation {card : SpisdState} {past : List (List Bool × List Bool)} {c : Except SpisdFault SpisdState}
    (h : Conversation env u card past c) :
    (c.toOption.map fun last ↦ (last.card, past.map Prod.snd)) = card.card.converse env (past.map Prod.fst) ∧
    ∀ last, c = .ok last → ∀ (setting : SpiSetting (Except SpisdFault SpisdState)) s, setting.OthersSilent →
      setting.CardReady last s → charLen setting.ctrl ≠ 0 → charLen setting.ctrl ≤ 48 →
      ∃ bound, ∀ events, bound ≤ events.count .cycle →
        ∃ t clocks, spiTransfer u (setting.attach (spisdOps env)) s events = .ok (t, clocks) ∧
          Conversation env u card (past ++ [(setting.bits s.raw, setting.bits t.raw)])
            (t.implCookies setting.inst) := by
  refine ⟨h.converse_eq, ?_⟩
  rintro last rfl setting s hothers hready hne hle
  exact h.next hothers hready hne hle

/-- Nothing is attached but a card, as the last instance. -/
def onlyCard (ctrl : Word) (idle : goBsy ctrl = false) : SpiSetting (Except SpisdFault SpisdState) where
  impls _ := none
  inst := Fin.last 7
  ctrl
  idle
  divider := 3
  ss := 0x80
  oneHot := rfl

/-- Two words in the data register. -/
def dataWords (low high : Word) : Fin 7 → Word := Function.update (Function.update (fun _ ↦ 0) 0 low) 1 high

/-- The bits of a transfer of these words. -/
def sentBits (ctrl : Word) (idle : goBsy ctrl = false) (low high : Word) : List Bool :=
  (onlyCard ctrl idle).bits ((onlyCard ctrl idle).ready (dataWords low high) (.ok spisdSpiInit)).raw

theorem Conversation.send {card c : SpisdState} {past : List (List Bool × List Bool)}
    (h : Conversation env u card past (.ok c)) (ctrl low high : Word) (idle : goBsy ctrl = false)
    (hauto : autoSelect ctrl = true) (hne : charLen ctrl ≠ 0) (hle : charLen ctrl ≤ 48)
    (hwell : ¬ Breaks (sentBits ctrl idle low high)) :
    ∃ answer last, Conversation env u card (past ++ [(sentBits ctrl idle low high, answer)]) (.ok last) := by
  have hothers : (onlyCard ctrl idle).OthersSilent := fun _ _ _ hother ↦ nomatch hother
  have hready : (onlyCard ctrl idle).CardReady c ((onlyCard ctrl idle).ready (dataWords low high) (.ok c)) :=
    { toReady := SpiSetting.ready_ready _ _ _, card := rfl, fresh := .inl hauto }
  have hnext := h.next_ok hothers hready hne hle hwell
  exact hnext

/-- A transfer of `CMD0`, of eight bits and of `CMD1`. -/
def goIdleBits : List Bool := sentBits 0x2030 rfl 0x95 0x4000

def pollBits : List Bool := sentBits 0x2008 rfl 0xff 0

def sendOpBits : List Bool := sentBits 0x2030 rfl 0xf9 0x4100

def emptyEnv : SpisdEnv where
  padding := 0
  firstOut _ := false

/-- Three transfers, the third of which asks for the answer to `CMD1`, and a fourth that is still to come. -/
theorem conversation_goIdle : ∃ past last, past.map Prod.fst = [goIdleBits, pollBits, sendOpBits] ∧
    Conversation emptyEnv SpiSetting.fiveBitShifts spisdSpiInit past (.ok last) ∧
    spisdSpiInit.card.converse emptyEnv [goIdleBits, pollBits, sendOpBits] = some (last.card, past.map Prod.snd) ∧
    ∃ bound, ∀ events : List SpiEvent, bound ≤ events.count .cycle → ∃ t clocks,
      spiTransfer SpiSetting.fiveBitShifts ((onlyCard 0x2008 rfl).attach (spisdOps emptyEnv))
        ((onlyCard 0x2008 rfl).ready (dataWords 0xff 0) (.ok last)) events = .ok (t, clocks) ∧
      Conversation emptyEnv SpiSetting.fiveBitShifts spisdSpiInit
        (past ++ [(pollBits, (onlyCard 0x2008 rfl).bits t.raw)]) (t.implCookies (Fin.last 7)) := by
  have hstart : Conversation emptyEnv SpiSetting.fiveBitShifts spisdSpiInit [] (.ok spisdSpiInit) := .start
  obtain ⟨first, card, h⟩ := hstart.send 0x2030 0x95 0x4000 rfl rfl (by decide) (by decide) (by decide)
  obtain ⟨second, card, h⟩ := h.send 0x2008 0xff 0 rfl rfl (by decide) (by decide) (by decide)
  obtain ⟨third, last, h⟩ := h.send 0x2030 0xf9 0x4100 rfl rfl (by decide) (by decide) (by decide)
  obtain ⟨hconverse, hnext⟩ := conversation h
  refine ⟨_, last, rfl, h, hconverse.symm, ?_⟩
  have hready : (onlyCard 0x2008 rfl).CardReady last ((onlyCard 0x2008 rfl).ready (dataWords 0xff 0) (.ok last)) :=
    { toReady := SpiSetting.ready_ready _ _ _, card := rfl, fresh := .inl rfl }
  exact hnext last rfl _ _ (fun _ _ _ hother ↦ nomatch hother) hready (by decide) (by decide)

/-! ### Resetting the card -/

/-- No command that resets. -/
def KeepsReset (bits : List Bool) : Prop := bits.length = 48 → (handledCommand bits).handler ≠ some .goIdle

instance (bits : List Bool) : Decidable (KeepsReset bits) := inferInstanceAs (Decidable (_ → _))

/-- A card to which some bits have gone since it was reset. -/
structure SinceReset (card : SpisdCard) (n : ℕ) : Prop where
  state : card.state = .idle ∨ card.state = .ready
  count : card.cycleCount = card.lastReset + BitVec.ofNat 64 n

theorem SinceReset.after {card : SpisdCard} {n : ℕ} (h : SinceReset card n) (k : ℕ) :
    SinceReset (card.after k) (n + k) where
  state := h.state
  count := by
    rw [SpisdCard.after, h.count, BitVec.ofNat_add, BitVec.add_assoc]

theorem SinceReset.cycle {card : SpisdCard} {n : ℕ} (h : SinceReset card n) :
    SinceReset (spisdCycleHandler card) n := by
  rw [spisdCycleHandler]
  split
  · exact ⟨.inr rfl, h.count⟩
  · exact h

theorem SinceReset.transferred {card : SpisdCard} {n : ℕ} (h : SinceReset card n) {bits : List Bool}
    (hkeeps : KeepsReset bits) : SinceReset (card.transferred env bits) (n + bits.length) := by
  rw [SpisdCard.transferred]
  split
  · rename_i hlength
    have hcycle := (h.after bits.length).cycle
    rw [hlength] at hcycle ⊢
    rw [SpisdCard.handle]
    cases hhandler : (handledCommand bits).handler with
    | none => exact hcycle
    | some handler =>
      cases handler with
      | goIdle => exact absurd hhandler (hkeeps hlength)
      | sendOp => exact ⟨hcycle.state, hcycle.count⟩
      | unimpApp => exact hcycle
  · exact h.after _

theorem SinceReset.converse {card last : SpisdCard} {n : ℕ} (h : SinceReset card n) {past answers : List (List Bool)}
    (hkeeps : ∀ bits ∈ past, KeepsReset bits) (hconverse : card.converse env past = some (last, answers)) :
    SinceReset last (n + (past.map List.length).sum) := by
  induction past generalizing card n answers with
  | nil =>
    obtain ⟨rfl, -⟩ := Prod.mk.inj (Option.some.inj hconverse)
    exact h
  | cons bits past ih =>
    rw [SpisdCard.converse] at hconverse
    split at hconverse
    · cases hconverse
    · obtain ⟨⟨middle, more⟩, hrest, heq⟩ := Option.map_eq_some_iff.mp hconverse
      obtain ⟨rfl, -⟩ := Prod.mk.inj heq
      have hbits : SinceReset (card.transferred env bits) (n + bits.length) :=
        h.transferred (hkeeps bits List.mem_cons_self)
      rw [List.map_cons, List.sum_cons, ← Nat.add_assoc]
      exact ih hbits (fun other hother ↦ hkeeps other (List.mem_cons_of_mem _ hother)) hrest

/-- `CMD0` with its CRC. -/
theorem sinceReset_goIdle (card : SpisdCard) {command : SpisdCommand} (hhandler : command.handler = some .goIdle)
    (hcrc : command.crc = 0x4a) : SinceReset (card.handle env command) 0 := by
  rw [SpisdCard.handle, hhandler]
  change SinceReset (spisdGoIdleHandler env _ _) 0
  rw [spisdGoIdleHandler, if_pos (.inl hcrc)]
  exact ⟨.inl rfl, (BitVec.add_zero _).symm⟩

/-- Once enough bits have gone to the card, it says that it is ready. -/
theorem SinceReset.ready {card : SpisdCard} {n : ℕ} (h : SinceReset card n) (hn : resetCycleReq.toNat < n)
    (hlt : n < 2 ^ 64) : (spisdCycleHandler card).state = .ready := by
  rw [spisdCycleHandler]
  split
  · rfl
  · rename_i hnot
    refine h.state.resolve_left fun hidle ↦ hnot ⟨hidle, ?_⟩
    rw [h.count, BitVec.add_comm, BitVec.add_sub_cancel, BitVec.lt_def, BitVec.toNat_ofNat, Nat.mod_eq_of_lt hlt]
    exact hn

/-- `CMD0` with its CRC, other transfers, `CMD1`, and the transfer of its answer. -/
structure Initialises (reset : List Bool) (others : List (List Bool)) (ask poll : List Bool) : Prop where
  reset_length : reset.length = 48
  reset_handler : (handledCommand reset).handler = some .goIdle
  reset_crc : (handledCommand reset).crc = 0x4a
  keeps : ∀ bits ∈ others, KeepsReset bits
  enough : resetCycleReq.toNat < (others.map List.length).sum + 48
  fits : (others.map List.length).sum + 48 < 2 ^ 64
  ask_length : ask.length = 48
  ask_handler : (handledCommand ask).handler = some .sendOp
  poll_length : poll.length = 8

theorem Initialises.converse {reset ask poll : List Bool} {others : List (List Bool)}
    (h : Initialises reset others ask poll) {card last : SpisdCard} {answers : List (List Bool)}
    (hconverse : card.converse env (reset :: (others ++ [ask, poll])) = some (last, answers)) :
    last.state = .ready ∧ answers.getLast? = some (SpisdRspR1.bits { idle := false, crcError := false }) := by
  rw [SpisdCard.converse] at hconverse
  split at hconverse
  · cases hconverse
  obtain ⟨⟨final, given⟩, hrest, heq⟩ := Option.map_eq_some_iff.mp hconverse
  obtain ⟨rfl, rfl⟩ := Prod.mk.inj heq
  rw [SpisdCard.converse_append] at hrest
  obtain ⟨⟨middle, past⟩, hothers, hlast⟩ := Option.bind_eq_some_iff.mp hrest
  obtain ⟨⟨final, more⟩, hend, heq⟩ := Option.map_eq_some_iff.mp hlast
  obtain ⟨rfl, rfl⟩ := Prod.mk.inj heq
  have hreset : SinceReset (card.transferred env reset) 0 := by
    rw [SpisdCard.transferred, if_pos h.reset_length]
    exact sinceReset_goIdle _ h.reset_handler h.reset_crc
  have hmiddle := hreset.converse h.keeps hothers
  rw [Nat.zero_add] at hmiddle
  have hready := (hmiddle.after 48).ready h.enough h.fits
  have hasked : (middle.transferred env ask).state = .ready ∧
      (middle.transferred env ask).shiftOut = (SpisdRspR1.mk false false).word env ∧
      (middle.transferred env ask).outShiftLen = 8 := by
    rw [SpisdCard.transferred, if_pos h.ask_length, SpisdCard.handle, h.ask_handler]
    change (spisdSendOpHandler env _).state = _ ∧ (spisdSendOpHandler env _).shiftOut = _ ∧ _
    rw [spisdSendOpHandler, hready]
    exact ⟨hready, rfl, rfl⟩
  have hpoll : ¬ poll.length = 48 := by
    rw [h.poll_length]
    decide
  simp only [SpisdCard.converse] at hend
  split_ifs at hend
  · cases hend
  · obtain ⟨rfl, rfl⟩ := Prod.mk.inj (Option.some.inj hend)
    generalize middle.transferred env ask = asked at hasked
    have hpolled : asked.transferred env poll = asked.after 8 := by
      rw [SpisdCard.transferred, if_neg hpoll, h.poll_length]
    dsimp only
    rw [hpolled, h.poll_length, outBits_response hasked.2.1 hasked.2.2]
    refine ⟨hasked.1, ?_⟩
    rw [List.getLast?_cons, List.getLast?_append]
    rfl

/-- **Initialising the card.** A host that resets the card and asks whether it is ready after more than
`RESET_CYCLE_REQ` bits is told that it is, whatever it has said before the reset, and whatever it says between but
for another reset. -/
theorem initialised {card last : SpisdState} {past : List (List Bool × List Bool)}
    (h : Conversation env u card past (.ok last)) {first others : List (List Bool)} {reset ask poll : List Bool}
    (hpast : past.map Prod.fst = first ++ reset :: (others ++ [ask, poll]))
    (hinit : Initialises reset others ask poll) : last.card.state = .ready ∧
      (past.map Prod.snd).getLast? = some (SpisdRspR1.bits { idle := false, crcError := false }) := by
  have hconverse := h.converse_eq
  rw [hpast, SpisdCard.converse_append] at hconverse
  obtain ⟨⟨middle, before⟩, -, hrest⟩ := Option.bind_eq_some_iff.mp hconverse.symm
  obtain ⟨⟨final, answers⟩, hrest, heq⟩ := Option.map_eq_some_iff.mp hrest
  obtain ⟨rfl, hanswers⟩ := Prod.mk.inj heq
  obtain ⟨hstate, hanswer⟩ := hinit.converse hrest
  refine ⟨hstate, ?_⟩
  rw [← hanswers, List.getLast?_append, hanswer]
  rfl

theorem initialises_poll : Initialises goIdleBits [pollBits] sendOpBits pollBits where
  reset_length := by decide
  reset_handler := by decide
  reset_crc := by decide
  keeps bits hbits := by
    rw [List.mem_singleton.mp hbits]
    decide
  enough := by decide
  fits := by decide
  ask_length := by decide
  ask_handler := by decide
  poll_length := by decide

theorem initialised_poll : ∃ past last,
    Conversation emptyEnv SpiSetting.fiveBitShifts spisdSpiInit past (.ok last) ∧
      past.map Prod.fst = [goIdleBits, pollBits, sendOpBits, pollBits] ∧ last.card.state = .ready ∧
      (past.map Prod.snd).getLast? = some [false, false, false, false, false, false, false, false] := by
  have hstart : Conversation emptyEnv SpiSetting.fiveBitShifts spisdSpiInit [] (.ok spisdSpiInit) := .start
  obtain ⟨first, card, h⟩ := hstart.send 0x2030 0x95 0x4000 rfl rfl (by decide) (by decide) (by decide)
  obtain ⟨second, card, h⟩ := h.send 0x2008 0xff 0 rfl rfl (by decide) (by decide) (by decide)
  obtain ⟨third, card, h⟩ := h.send 0x2030 0xf9 0x4100 rfl rfl (by decide) (by decide) (by decide)
  obtain ⟨fourth, card, h⟩ := h.send 0x2008 0xff 0 rfl rfl (by decide) (by decide) (by decide)
  have hpast : List.map Prod.fst [(goIdleBits, first), (pollBits, second), (sendOpBits, third), (pollBits, fourth)] =
      [] ++ goIdleBits :: ([pollBits] ++ [sendOpBits, pollBits]) := rfl
  exact ⟨_, card, h, rfl, initialised h hpast initialises_poll⟩

end

end Tenyr.Sim
