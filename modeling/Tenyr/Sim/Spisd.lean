import Tenyr.Lib.Traced
import Mathlib.Data.BitVec
import Mathlib.Data.Nat.Digits.Defs
import Mathlib.Tactic.Ring

/-!
# The SD card

A card that is clocked one bit at a time. After 48 bits there is a command in its shift register, which has six
bits for the index of the command; the card looks at five of them.
-/

namespace Tenyr.Sim

open Lib.Traced

/-- The states of `struct spisd_state`. -/
inductive SpisdPhase where
  | invalid | uninitialised | idle | ready
  deriving DecidableEq, Repr

/-- Where the simulation ends: `breakpoint` does not return. -/
inductive SpisdFault where
  | forcedZero47 | forcedOne46 | forcedOne0
  deriving DecidableEq, Repr

/-- What C leaves open: the bits of an answer that are no fields, and what comes out before there is one. -/
structure SpisdEnv where
  padding : BitVec 24
  firstOut : BitVec 64 → Bool

/-- What the handlers of commands see. -/
structure SpisdCard where
  state : SpisdPhase
  shiftOut : BitVec 64
  outShiftLen : ℤ
  cycleCount : BitVec 64
  lastReset : BitVec 64
  deriving DecidableEq, Repr

structure SpisdState where
  card : SpisdCard
  shiftIn : BitVec 64
  bitCount : ℕ
  deriving DecidableEq, Repr

/-- `RESET_CYCLE_REQ` -/
def resetCycleReq : BitVec 64 := 50

/-- `struct spisd_rsp_R1` -/
structure SpisdRspR1 where
  idle : Bool
  crcError : Bool

/-- An `int` that is read where the answer is. -/
def SpisdRspR1.word (env : SpisdEnv) (rsp : SpisdRspR1) : BitVec 64 :=
  (env.padding ++ ((BitVec.ofBool rsp.crcError ++ 0#2 ++ BitVec.ofBool rsp.idle).setWidth 8)).signExtend 64

/-- The answer is put where it will be shifted out. -/
def SpisdCard.respond (env : SpisdEnv) (card : SpisdCard) (rsp : SpisdRspR1) : SpisdCard :=
  { card with shiftOut := rsp.word env, outShiftLen := 8 * 1 }

/-- `spisd_go_idle_handler` -/
def spisdGoIdleHandler (env : SpisdEnv) (card : SpisdCard) (crc : BitVec 8) : SpisdCard :=
  if crc = 0x4a ∨ card.state ≠ .uninitialised then
    { card with state := .idle, lastReset := card.cycleCount }.respond env { idle := true, crcError := false }
  else { card with state := .uninitialised }.respond env { idle := false, crcError := true }

/-- `spisd_send_op_handler` -/
def spisdSendOpHandler (env : SpisdEnv) (card : SpisdCard) : SpisdCard :=
  let ready := match card.state with
    | .ready => true
    | .idle | .uninitialised | .invalid => false
  card.respond env { idle := !ready, crcError := false }

/-- `spisd_cycle_handler` -/
def spisdCycleHandler (card : SpisdCard) : SpisdCard :=
  if card.state = .idle ∧ resetCycleReq < card.cycleCount - card.lastReset then { card with state := .ready }
  else card

/-- The handlers in `spisd_commands`. -/
inductive SpisdHandler where
  | goIdle | sendOp | unimpApp
  deriving DecidableEq, Repr

/-- `spisd_commands` -/
def spisdCommands : BitVec 6 → Option SpisdHandler
  | 0 => some .goIdle
  | 1 => some .sendOp
  | 16 => some .unimpApp
  | _ => none

/-- A command as it is handled; no handler looks at the type. -/
structure SpisdCommand where
  handler : Option SpisdHandler
  arg : BitVec 32
  crc : BitVec 8
  deriving DecidableEq, Repr

/-- `spisd_cycle_handler`, and the handler if there is one. -/
def SpisdCard.handle (env : SpisdEnv) (card : SpisdCard) (command : SpisdCommand) : SpisdCard :=
  let card := spisdCycleHandler card
  match command.handler with
  | none | some .unimpApp => card
  | some .goIdle => spisdGoIdleHandler env card command.crc
  | some .sendOp => spisdSendOpHandler env card

/-- What one bit does apart from commands: the bit that comes out, and the card after it. -/
def SpisdCard.shift (env : SpisdEnv) (card : SpisdCard) : Bool × SpisdCard :=
  (if 0 < card.outShiftLen then card.shiftOut.getLsbD (card.outShiftLen - 1).toNat else env.firstOut card.shiftOut,
    { card with shiftOut := card.shiftOut <<< 1 })

inductive SpisdEvent where
  | select (ss : Bool)
  | clock (ss : Bool) (input : Bool)
  deriving DecidableEq, Repr

/-- What an event shows: `*out`, if it is written, and the command that is handled, if there is one. -/
structure SpisdOutput where
  out : Option Bool
  command : Option SpisdCommand
  deriving DecidableEq, Repr

/-- The command in the shift register. -/
def spisdCommand (shiftIn : BitVec 64) : SpisdCommand where
  handler := spisdCommands (((shiftIn >>> 40) &&& 0x1f).setWidth 6)
  arg := ((shiftIn >>> 8) &&& 0xffffffff).setWidth 32
  crc := ((shiftIn >>> 1) &&& 0x7f).setWidth 8

/-- `spisd_spi_clock` -/
def spisdSpiClock (env : SpisdEnv) (s : SpisdState) (ss input : Bool) :
    Outcome SpisdFault SpisdOutput SpisdState :=
  let card := { s.card with cycleCount := s.card.cycleCount + 1 }
  if !ss then .ok ({ s with card }, [⟨none, none⟩])
  else
    let shiftIn := (s.shiftIn <<< 1) ||| (BitVec.ofBool input).setWidth 64
    let bitCount := s.bitCount + 1
    let (out, card) := card.shift env
    if bitCount = 48 then
      if shiftIn.getLsbD 47 then .error .forcedZero47
      else if !shiftIn.getLsbD 46 then .error .forcedOne46
      else if !shiftIn.getLsbD 0 then .error .forcedOne0
      else
        let command := spisdCommand shiftIn
        .ok ({ card := card.handle env command, shiftIn, bitCount := 0 }, [⟨some out, some command⟩])
    else .ok ({ card, shiftIn, bitCount }, [⟨some out, none⟩])

/-- `spisd_spi_select` -/
def spisdSpiSelect (s : SpisdState) (ss : Bool) : SpisdState := if ss then { s with bitCount := 0 } else s

def spisdEvent (env : SpisdEnv) (s : SpisdState) : SpisdEvent → Outcome SpisdFault SpisdOutput SpisdState
  | .select ss => .ok (spisdSpiSelect s ss, [⟨none, none⟩])
  | .clock ss input => spisdSpiClock env s ss input

/-- `spisd_spi_init` -/
def spisdSpiInit : SpisdState where
  card := { state := .uninitialised, shiftOut := 0, outShiftLen := 0, cycleCount := 0, lastReset := 0 }
  shiftIn := 0
  bitCount := 0

/-! ## Frames -/

/-- A number, greatest bit first. -/
def bitsValue (bits : List Bool) : ℕ := Nat.ofDigits 2 (bits.reverse.map Bool.toNat)

/-- Bits of a frame, by their positions in it. -/
def frameField (frame : List Bool) (high low : ℕ) : ℕ := bitsValue ((frame.drop (47 - high)).take (high + 1 - low))

/-- The bits that are the same in every command. -/
def WellFormed (frame : List Bool) : Prop := frameField frame 47 46 = 1 ∧ frameField frame 0 0 = 1

instance (frame : List Bool) : Decidable (WellFormed frame) := inferInstanceAs (Decidable (_ ∧ _))

def frameIndex (frame : List Bool) : BitVec 6 := BitVec.ofNat 6 (frameField frame 45 40)

/-- The command in a frame. -/
def frameCommand (frame : List Bool) : SpisdCommand where
  handler := spisdCommands (frameIndex frame)
  arg := BitVec.ofNat 32 (frameField frame 39 8)
  crc := BitVec.ofNat 8 (frameField frame 7 1)

/-- The bits since the card was last selected or a frame was complete, after one more event. -/
def pendingAfter (pending : List Bool) : SpisdEvent → List Bool
  | .select ss => if ss then [] else pending
  | .clock ss input => if ss ∧ pending.length + 1 < 48 then pending ++ [input] else if ss then [] else pending

/-- The frame that an event completes. -/
def completed (pending : List Bool) : SpisdEvent → Option (List Bool)
  | .select _ => none
  | .clock ss input => if ss ∧ 48 ≤ pending.length + 1 then some (pending ++ [input]) else none

/-- The frames that are complete after some events. -/
def frames : List Bool → List SpisdEvent → List (List Bool)
  | _, [] => []
  | pending, event :: rest => (completed pending event).toList ++ frames (pendingAfter pending event) rest

/-- A card, and the bits that are not a frame yet. -/
structure FramedCard where
  card : SpisdCard
  pending : List Bool
  deriving DecidableEq, Repr

/-- What an event should do apart from commands. -/
def SpisdCard.tick (env : SpisdEnv) (card : SpisdCard) : SpisdEvent → Option Bool × SpisdCard
  | .select _ => (none, card)
  | .clock ss _ =>
    let card := { card with cycleCount := card.cycleCount + 1 }
    if ss then ((card.shift env).1, (card.shift env).2) else (none, card)

/-- What an event should do: a frame that it completes is a command. -/
def framedEvent (env : SpisdEnv) (s : FramedCard) (event : SpisdEvent) : Outcome Unit SpisdOutput FramedCard :=
  let (out, card) := s.card.tick env event
  let pending := pendingAfter s.pending event
  match completed s.pending event with
  | none => .ok ({ card, pending }, [⟨out, none⟩])
  | some frame =>
    if WellFormed frame then
      .ok ({ card := card.handle env (frameCommand frame), pending }, [⟨out, some (frameCommand frame)⟩])
    else .error ()

/-- What can be seen of a run. -/
def observed {F S : Type} (card : S → SpisdCard) (outcome : Outcome F SpisdOutput S) :
    Option (SpisdCard × List SpisdOutput) :=
  outcome.toOption.map fun result ↦ (card result.1, result.2)

/-- After any of the events, everything that was seen is what should be. -/
def FramesRight (env : SpisdEnv) (events : List SpisdEvent) : Prop := ∀ first, first <+: events →
  observed SpisdState.card (run (spisdEvent env) spisdSpiInit first) =
    observed FramedCard.card (run (framedEvent env) ⟨spisdSpiInit.card, []⟩ first)

/-! ## Numbers of bits -/

theorem bitsValue_append (high low : List Bool) :
    bitsValue (high ++ low) = bitsValue high * 2 ^ low.length + bitsValue low := by
  rw [bitsValue, List.reverse_append, List.map_append, Nat.ofDigits_append, List.length_map, List.length_reverse,
    Nat.add_comm, Nat.mul_comm]
  rfl

theorem bitsValue_lt (bits : List Bool) : bitsValue bits < 2 ^ bits.length := by
  have hlt := Nat.ofDigits_lt_base_pow_length (b := 2) (l := bits.reverse.map Bool.toNat) (by decide) (by
    intro x hx
    obtain ⟨b, -, rfl⟩ := List.mem_map.mp hx
    exact Bool.toNat_lt b)
  rwa [List.length_map, List.length_reverse] at hlt

theorem bitsValue_singleton (b : Bool) : bitsValue [b] = b.toNat := by
  cases b <;> rfl

/-- Some bits of a number. -/
theorem frameField_eq {frame : List Bool} (hframe : frame.length = 48) {high low : ℕ} (hlow : low ≤ high)
    (hhigh : high < 48) : frameField frame high low = bitsValue frame / 2 ^ low % 2 ^ (high + 1 - low) := by
  have hsplit : frame = frame.take (47 - high) ++
      ((frame.drop (47 - high)).take (high + 1 - low) ++ (frame.drop (47 - high)).drop (high + 1 - low)) := by
    rw [List.take_append_drop, List.take_append_drop]
  have hfield : ((frame.drop (47 - high)).take (high + 1 - low)).length = high + 1 - low := by
    rw [List.length_take, List.length_drop]
    omega
  have hrest : ((frame.drop (47 - high)).drop (high + 1 - low)).length = low := by
    rw [List.length_drop, List.length_drop]
    omega
  have hvalue := bitsValue_lt ((frame.drop (47 - high)).take (high + 1 - low))
  have hbelow := bitsValue_lt ((frame.drop (47 - high)).drop (high + 1 - low))
  rw [hfield] at hvalue
  rw [hrest] at hbelow
  have hnumber := congrArg bitsValue hsplit
  rw [bitsValue_append, bitsValue_append, List.length_append, hfield, hrest, pow_add, ← mul_assoc, ← add_assoc,
    ← add_mul] at hnumber
  rw [hnumber, Nat.add_comm, Nat.add_mul_div_right _ _ (by positivity), Nat.div_eq_of_lt hbelow, Nat.zero_add,
    Nat.mul_add_mod_self_right, Nat.mod_eq_of_lt hvalue, frameField]

/-- One more bit in the shift register. -/
theorem toNat_shiftIn (shiftIn : BitVec 64) (input : Bool) :
    ((shiftIn <<< 1) ||| (BitVec.ofBool input).setWidth 64).toNat =
      (2 * shiftIn.toNat + input.toNat) % 2 ^ 64 := by
  have hdisjoint : (shiftIn <<< 1) &&& (BitVec.ofBool input).setWidth 64 = 0#64 := by
    refine BitVec.eq_of_getLsbD_eq fun i hi ↦ ?_
    rw [BitVec.getLsbD_and, BitVec.getLsbD_shiftLeft, BitVec.getLsbD_setWidth, BitVec.getLsbD_ofBool]
    rcases Nat.eq_zero_or_pos i with rfl | hpos
    · simp
    · simp [hpos.ne']
  rw [← BitVec.add_eq_or_of_and_eq_zero _ _ hdisjoint, BitVec.toNat_add, BitVec.toNat_shiftLeft,
    BitVec.toNat_setWidth, BitVec.toNat_ofBool, Nat.shiftLeft_eq]
  have hbit := Bool.toNat_lt input
  omega

/-! ## One event -/

/-- The shift register ends with the bits of the frame that there are so far. -/
structure Framed (s : SpisdState) (t : FramedCard) : Prop where
  card : s.card = t.card
  count : s.bitCount = t.pending.length
  incomplete : t.pending.length < 48
  bits : s.shiftIn.toNat % 2 ^ t.pending.length = bitsValue t.pending

theorem Framed.shiftIn {s : SpisdState} {t : FramedCard} (h : Framed s t) (input : Bool) :
    ((s.shiftIn <<< 1) ||| (BitVec.ofBool input).setWidth 64).toNat % 2 ^ (t.pending ++ [input]).length =
      bitsValue (t.pending ++ [input]) := by
  have hlt := h.incomplete
  have hdvd : 2 ^ (t.pending ++ [input]).length ∣ 2 ^ 64 :=
    pow_dvd_pow 2 (by rw [List.length_append, List.length_singleton]; omega)
  rw [toNat_shiftIn, Nat.mod_mod_of_dvd _ hdvd, bitsValue_append, ← h.bits, bitsValue_singleton,
    List.length_append, List.length_singleton, pow_succ, pow_one]
  have hbit := Bool.toNat_lt input
  have hrest := Nat.mod_lt s.shiftIn.toNat (Nat.two_pow_pos t.pending.length)
  have hsplit : 2 * s.shiftIn.toNat + input.toNat =
      2 ^ t.pending.length * 2 * (s.shiftIn.toNat / 2 ^ t.pending.length) +
        (s.shiftIn.toNat % 2 ^ t.pending.length * 2 + input.toNat) := by
    conv_lhs => rw [← Nat.div_add_mod s.shiftIn.toNat (2 ^ t.pending.length)]
    ring
  rw [hsplit, Nat.mul_add_mod, Nat.mod_eq_of_lt (by omega)]

section

variable {shiftIn : BitVec 64} {frame : List Bool}

/-- Some bits of the shift register. -/
theorem shiftRight_frame (hframe : frame.length = 48) (h : shiftIn.toNat % 2 ^ 48 = bitsValue frame)
    {high low : ℕ} (hlow : low ≤ high) (hhigh : high < 48) (width : ℕ) (hwidth : width ≤ high + 1 - low) :
    shiftIn.toNat / 2 ^ low % 2 ^ width = frameField frame high low % 2 ^ width := by
  have hdvd : 2 ^ width ∣ 2 ^ (high + 1 - low) := pow_dvd_pow 2 hwidth
  have hbelow : 2 ^ (low + (high + 1 - low)) ∣ 2 ^ 48 := pow_dvd_pow 2 (by omega)
  rw [frameField_eq hframe hlow hhigh, Nat.mod_mod_of_dvd _ hdvd, ← h]
  rw [← Nat.mod_mod_of_dvd (shiftIn.toNat / 2 ^ low) hdvd, ← Nat.mod_mod_of_dvd (_ / 2 ^ low) hdvd]
  congr 1
  rw [← Nat.mod_mul_right_div_self, ← Nat.mod_mul_right_div_self, ← pow_add, Nat.mod_mod_of_dvd _ hbelow]

theorem frameField_lt (hframe : frame.length = 48) {high low : ℕ} (hlow : low ≤ high) (hhigh : high < 48) :
    frameField frame high low < 2 ^ (high + 1 - low) := by
  rw [frameField_eq hframe hlow hhigh]
  exact Nat.mod_lt _ (Nat.two_pow_pos _)

/-- One bit of it. -/
theorem getLsbD_frame (hframe : frame.length = 48) (h : shiftIn.toNat % 2 ^ 48 = bitsValue frame) {k : ℕ}
    (hk : k < 48) : shiftIn.getLsbD k = decide (frameField frame k k = 1) := by
  have hbit : shiftIn.getLsbD k = decide (shiftIn.toNat / 2 ^ k % 2 = 1) := Nat.testBit_eq_decide_div_mod_eq
  have hfield := shiftRight_frame hframe h (le_refl k) hk 1 (by omega)
  have hlt := frameField_lt hframe (le_refl k) hk
  rw [Nat.add_sub_cancel_left] at hlt
  rw [Nat.mod_eq_of_lt hlt, pow_one] at hfield
  rw [hbit, hfield]

/-- The command in the shift register is that of the frame, but for the greatest bit of its index. -/
theorem spisdCommand_eq (hframe : frame.length = 48) (h : shiftIn.toNat % 2 ^ 48 = bitsValue frame) :
    spisdCommand shiftIn =
      { frameCommand frame with handler := spisdCommands (frameIndex frame &&& 0x1f) } := by
  have hfield (high low width : ℕ) (hlow : low ≤ high) (hhigh : high < 48) (hwidth : width ≤ high + 1 - low)
      {w : ℕ} (hw : width ≤ w) :
      (((shiftIn >>> low) &&& BitVec.ofNat 64 (2 ^ width - 1)).setWidth w).toNat =
        frameField frame high low % 2 ^ width := by
    have hmask : (2 ^ width - 1) % 2 ^ 64 = 2 ^ width - 1 := by
      have hlt : 2 ^ width ≤ 2 ^ 64 := Nat.pow_le_pow_right (by decide) (by omega)
      exact Nat.mod_eq_of_lt (by omega)
    have hsmall : frameField frame high low % 2 ^ width < 2 ^ w :=
      lt_of_lt_of_le (Nat.mod_lt _ (Nat.two_pow_pos _)) (Nat.pow_le_pow_right (by decide) hw)
    rw [BitVec.toNat_setWidth, BitVec.toNat_and, BitVec.toNat_ofNat, hmask, BitVec.toNat_ushiftRight,
      Nat.shiftRight_eq_div_pow, Nat.and_two_pow_sub_one_eq_mod, shiftRight_frame hframe h hlow hhigh width hwidth,
      Nat.mod_eq_of_lt hsmall]
  have hindex : (((shiftIn >>> 40) &&& 0x1f).setWidth 6 : BitVec 6) = frameIndex frame &&& 0x1f := by
    refine BitVec.eq_of_toNat_eq ((hfield 45 40 5 (by decide) (by decide) (by decide) (by decide)).trans ?_)
    rw [BitVec.toNat_and, frameIndex, BitVec.toNat_ofNat]
    change _ = frameField frame 45 40 % 2 ^ 6 &&& (2 ^ 5 - 1)
    rw [Nat.and_two_pow_sub_one_eq_mod]
    omega
  have harg : (((shiftIn >>> 8) &&& 0xffffffff).setWidth 32 : BitVec 32) = BitVec.ofNat 32 (frameField frame 39 8) :=
    BitVec.eq_of_toNat_eq ((hfield 39 8 32 (by decide) (by decide) (by decide) (by decide)).trans
      (BitVec.toNat_ofNat _ _).symm)
  have hcrc : (((shiftIn >>> 1) &&& 0x7f).setWidth 8 : BitVec 8) = BitVec.ofNat 8 (frameField frame 7 1) := by
    refine BitVec.eq_of_toNat_eq ((hfield 7 1 7 (by decide) (by decide) (by decide) (by decide)).trans ?_)
    have hlt : frameField frame 7 1 < 2 ^ 7 := frameField_lt hframe (by decide) (by decide)
    rw [BitVec.toNat_ofNat]
    omega
  rw [spisdCommand, hindex, harg, hcrc]
  rfl

theorem wellFormed_iff (hframe : frame.length = 48) (h : shiftIn.toNat % 2 ^ 48 = bitsValue frame) :
    WellFormed frame ↔
      shiftIn.getLsbD 47 = false ∧ shiftIn.getLsbD 46 = true ∧ shiftIn.getLsbD 0 = true := by
  rw [getLsbD_frame hframe h (by decide), getLsbD_frame hframe h (by decide), getLsbD_frame hframe h (by decide),
    decide_eq_false_iff_not, decide_eq_true_iff, decide_eq_true_iff, WellFormed]
  rw [frameField_eq hframe (le_refl 46) (by decide), frameField_eq hframe (le_refl 47) (by decide),
    frameField_eq hframe (by decide : 46 ≤ 47) (by decide)]
  omega

variable {env : SpisdEnv} {s : SpisdState} {t : FramedCard}

/-- The command that is handled for a frame. -/
def handledCommand (frame : List Bool) : SpisdCommand :=
  { frameCommand frame with handler := spisdCommands (frameIndex frame &&& 0x1f) }

variable (env) in
/-- A selected bit that completes a frame. -/
theorem Framed.clock_complete (h : Framed s t) (input : Bool) (hlast : t.pending.length + 1 = 48) :
    (WellFormed (t.pending ++ [input]) ∧ ∃ s', spisdEvent env s (.clock true input) =
        .ok (s', [⟨(t.card.tick env (.clock true input)).1, some (handledCommand (t.pending ++ [input]))⟩]) ∧
      s'.bitCount = 0 ∧
      s'.card = (t.card.tick env (.clock true input)).2.handle env (handledCommand (t.pending ++ [input]))) ∨
    ¬ WellFormed (t.pending ++ [input]) ∧ ∃ fault, spisdEvent env s (.clock true input) = .error fault := by
  have hframe : (t.pending ++ [input]).length = 48 := by
    rw [List.length_append, List.length_singleton, hlast]
  have hbits := h.shiftIn input
  rw [hframe] at hbits
  rw [wellFormed_iff hframe hbits, handledCommand, ← spisdCommand_eq hframe hbits]
  have hcount : s.bitCount + 1 = 48 := by rw [h.count, hlast]
  simp only [spisdEvent, spisdSpiClock, Bool.not_true, Bool.false_eq_true, if_false, hcount, if_true, h.card]
  generalize (s.shiftIn <<< 1) ||| (BitVec.ofBool input).setWidth 64 = shiftIn
  cases h47 : shiftIn.getLsbD 47 with
  | true => exact .inr ⟨fun hwell ↦ (nomatch hwell.1), _, rfl⟩
  | false =>
    cases h46 : shiftIn.getLsbD 46 with
    | false => exact .inr ⟨fun hwell ↦ (nomatch hwell.2.1), _, rfl⟩
    | true =>
      cases h0 : shiftIn.getLsbD 0 with
      | false => exact .inr ⟨fun hwell ↦ (nomatch hwell.2.2), _, rfl⟩
      | true => exact .inl ⟨⟨rfl, rfl, rfl⟩, _, rfl, rfl, rfl⟩

variable (env) in
/-- Any other event. -/
theorem Framed.event_incomplete (h : Framed s t) {event : SpisdEvent} (hnone : completed t.pending event = none) :
    ∃ s', spisdEvent env s event = .ok (s', [⟨(t.card.tick env event).1, none⟩]) ∧
      Framed s' ⟨(t.card.tick env event).2, pendingAfter t.pending event⟩ := by
  cases event with
  | select ss =>
    refine ⟨_, rfl, ?_⟩
    cases ss with
    | false => exact h
    | true => exact ⟨h.card, rfl, Nat.succ_pos _, Nat.mod_one _⟩
  | clock ss input =>
    cases ss with
    | false =>
      refine ⟨_, rfl, ?_⟩
      exact ⟨by rw [SpisdCard.tick, ← h.card]; rfl, h.count, h.incomplete, h.bits⟩
    | true =>
      have hlt : t.pending.length + 1 < 48 := by
        by_contra hge
        rw [completed, if_pos ⟨rfl, Nat.le_of_not_lt hge⟩] at hnone
        cases hnone
      have hcount : s.bitCount + 1 ≠ 48 := by
        rw [h.count]
        exact hlt.ne
      have hlength : (t.pending ++ [input]).length = t.pending.length + 1 := by
        rw [List.length_append, List.length_singleton]
      have hpending : pendingAfter t.pending (.clock true input) = t.pending ++ [input] := if_pos ⟨rfl, hlt⟩
      rw [hpending]
      simp only [spisdEvent, spisdSpiClock, Bool.not_true, Bool.false_eq_true, if_false, if_neg hcount, h.card]
      refine ⟨_, rfl, rfl, ?_, ?_, h.shiftIn input⟩
      · rw [hlength, ← h.count]
      · rw [hlength]
        exact hlt

theorem completed_eq_some {pending : List Bool} {event : SpisdEvent} {frame : List Bool}
    (h : completed pending event = some frame) (hpending : pending.length < 48) :
    ∃ input, event = .clock true input ∧ pending.length + 1 = 48 ∧ frame = pending ++ [input] ∧
      pendingAfter pending event = [] := by
  cases event with
  | select ss => cases h
  | clock ss input =>
    rw [completed] at h
    split at h
    · rename_i hlast
      cases h
      obtain rfl : ss = true := hlast.1
      exact ⟨input, rfl, by omega, rfl, if_neg (fun hlt ↦ by omega)⟩
    · cases h

theorem frameIndex_masked_iff (index : BitVec 6) :
    spisdCommands (index &&& 0x1f) = spisdCommands index ↔ index ∉ [32#6, 33#6, 48#6] := by
  revert index
  decide

/-- The indices of the frames that are handled are found in five bits. -/
def IndicesFit (pending : List Bool) (events : List SpisdEvent) : Prop :=
  ∀ frame ∈ (frames pending events).takeWhile fun frame ↦ WellFormed frame, frameIndex frame ∉ [32#6, 33#6, 48#6]

theorem handledCommand_iff (frame : List Bool) :
    handledCommand frame = frameCommand frame ↔ frameIndex frame ∉ [32#6, 33#6, 48#6] := by
  rw [← frameIndex_masked_iff]
  constructor
  · intro h
    exact congrArg SpisdCommand.handler h
  · intro h
    rw [handledCommand, h]
    rfl

/-- What one event does in the card and in its description. -/
inductive Framed.Steps (env : SpisdEnv) (s : SpisdState) (t : FramedCard) (event : SpisdEvent) : Prop where
  | incomplete (hnone : completed t.pending event = none) (s' : SpisdState) (t' : FramedCard) (o : SpisdOutput)
      (code : spisdEvent env s event = .ok (s', [o])) (spec : framedEvent env t event = .ok (t', [o]))
      (pending : t'.pending = pendingAfter t.pending event) (framed : Framed s' t')
  | stops (frame : List Bool) (hsome : completed t.pending event = some frame) (hill : ¬ WellFormed frame)
      (fault : SpisdFault) (code : spisdEvent env s event = .error fault) (spec : framedEvent env t event = .error ())
  | complete (frame : List Bool) (hsome : completed t.pending event = some frame) (hwell : WellFormed frame)
      (s' : SpisdState) (t' : FramedCard) (out : Option Bool)
      (code : spisdEvent env s event = .ok (s', [⟨out, some (handledCommand frame)⟩]))
      (spec : framedEvent env t event = .ok (t', [⟨out, some (frameCommand frame)⟩]))
      (pending : t'.pending = pendingAfter t.pending event)
      (framed : handledCommand frame = frameCommand frame → Framed s' t')

variable (env) in
theorem Framed.steps (h : Framed s t) (event : SpisdEvent) : Framed.Steps env s t event := by
  cases hcompleted : completed t.pending event with
  | none =>
    obtain ⟨s', hcode, hframed⟩ := h.event_incomplete env hcompleted
    refine .incomplete hcompleted s' _ _ hcode ?_ rfl hframed
    rw [framedEvent, hcompleted]
  | some frame =>
    obtain ⟨input, rfl, hlast, rfl, hpending⟩ := completed_eq_some hcompleted h.incomplete
    rcases h.clock_complete env input hlast with ⟨hwell, s', hcode, hcount, hcard⟩ | ⟨hill, fault, hcode⟩
    · refine .complete _ hcompleted hwell s'
        ⟨(t.card.tick env (.clock true input)).2.handle env (frameCommand (t.pending ++ [input])),
          pendingAfter t.pending (.clock true input)⟩ _ hcode ?_ rfl fun hsame ↦ ?_
      · rw [framedEvent, hcompleted]
        exact if_pos hwell
      · rw [hpending]
        refine ⟨?_, hcount, Nat.succ_pos _, Nat.mod_one _⟩
        rw [hcard, hsame]
    · refine .stops _ hcompleted hill fault hcode ?_
      rw [framedEvent, hcompleted]
      exact if_neg hill

theorem observed_andThen {F S : Type} (card : S → SpisdCard) (s : S) (here : List SpisdOutput)
    (f : S → Outcome F SpisdOutput S) : observed card (andThen (.ok (s, here)) f) =
      (observed card (f s)).map fun seen ↦ (seen.1, here ++ seen.2) := by
  change observed card ((f s).bind _) = _
  cases f s with
  | error fault => rfl
  | ok result => rfl

theorem indicesFit_cons {pending : List Bool} {event : SpisdEvent} {rest : List SpisdEvent} :
    IndicesFit pending (event :: rest) ↔ match completed pending event with
      | none => IndicesFit (pendingAfter pending event) rest
      | some frame => WellFormed frame →
          frameIndex frame ∉ [32#6, 33#6, 48#6] ∧ IndicesFit (pendingAfter pending event) rest := by
  rw [IndicesFit, frames]
  cases completed pending event with
  | none => exact Iff.rfl
  | some frame =>
    change (∀ other ∈ (frame :: frames _ rest).takeWhile _, _) ↔ _
    by_cases hwell : WellFormed frame
    · rw [List.takeWhile_cons, if_pos (decide_eq_true hwell), List.forall_mem_cons]
      exact ⟨fun h _ ↦ h, fun h ↦ h hwell⟩
    · rw [List.takeWhile_cons, if_neg (fun h ↦ hwell (of_decide_eq_true h))]
      exact ⟨fun _ h ↦ absurd h hwell, fun _ other hother ↦ absurd hother List.not_mem_nil⟩

/-- Where the indices fit, runs agree. -/
theorem Framed.run_eq (h : Framed s t) {events : List SpisdEvent} (hfit : IndicesFit t.pending events) :
    observed SpisdState.card (run (spisdEvent env) s events) =
      observed FramedCard.card (run (framedEvent env) t events) := by
  induction events generalizing s t with
  | nil =>
    change some (s.card, _) = some (t.card, _)
    rw [h.card]
  | cons event rest ih =>
    rw [indicesFit_cons] at hfit
    rw [run, run]
    cases h.steps env event with
    | incomplete hnone s' t' o code spec pending framed =>
      rw [hnone, ← pending] at hfit
      rw [code, spec, observed_andThen, observed_andThen, ih framed hfit]
    | stops frame hsome hill fault code spec =>
      rw [code, spec]
      rfl
    | complete frame hsome hwell s' t' out code spec pending framed =>
      rw [hsome, ← pending] at hfit
      obtain ⟨hindex, hrest⟩ := hfit hwell
      have hsame := (handledCommand_iff frame).mpr hindex
      rw [code, spec, hsame, observed_andThen, observed_andThen, ih (framed hsame) hrest]

/-- Where all runs agree, the indices fit. -/
theorem Framed.indicesFit (h : Framed s t) {events : List SpisdEvent} (hagree : ∀ first, first <+: events →
    observed SpisdState.card (run (spisdEvent env) s first) =
      observed FramedCard.card (run (framedEvent env) t first)) : IndicesFit t.pending events := by
  induction events generalizing s t with
  | nil => exact fun frame hframe ↦ absurd hframe List.not_mem_nil
  | cons event rest ih =>
    have hlater {s' : SpisdState} {t' : FramedCard} {o : SpisdOutput}
        (code : spisdEvent env s event = .ok (s', [o])) (spec : framedEvent env t event = .ok (t', [o]))
        (framed : Framed s' t') : IndicesFit t'.pending rest := by
      refine ih framed fun first hfirst ↦ ?_
      have hsame := hagree (event :: first) (List.cons_prefix_cons.mpr ⟨rfl, hfirst⟩)
      rw [run, run, code, spec, observed_andThen, observed_andThen] at hsame
      refine Option.map_injective (fun a b hab ↦ ?_) hsame
      rw [Prod.mk.injEq] at hab
      exact Prod.ext hab.1 (List.append_cancel_left hab.2)
    rw [indicesFit_cons]
    cases h.steps env event with
    | incomplete hnone s' t' o code spec pending framed =>
      rw [hnone, ← pending]
      exact hlater code spec framed
    | stops frame hsome hill fault code spec =>
      rw [hsome]
      exact fun hwell ↦ absurd hwell hill
    | complete frame hsome hwell s' t' out code spec pending framed =>
      have hfirst := hagree [event] (List.cons_prefix_cons.mpr ⟨rfl, List.nil_prefix⟩)
      rw [run, run, code, spec, observed_andThen, observed_andThen] at hfirst
      have hsame : handledCommand frame = frameCommand frame := by
        injection hfirst with hseen
        injection hseen with _ houts
        injection houts with hout
        injection hout with _ hcommand
        exact Option.some.inj hcommand
      rw [hsome, ← pending]
      rw [hsame] at code
      exact fun _ ↦ ⟨(handledCommand_iff frame).mp hsame, hlater code spec (framed hsame)⟩

theorem framed_init : Framed spisdSpiInit ⟨spisdSpiInit.card, []⟩ := ⟨rfl, rfl, Nat.succ_pos _, rfl⟩

theorem IndicesFit.first {pending : List Bool} {events first : List SpisdEvent} (h : IndicesFit pending events)
    (hfirst : first <+: events) : IndicesFit pending first := by
  induction first generalizing pending events with
  | nil => exact fun frame hframe ↦ absurd hframe List.not_mem_nil
  | cons event rest ih =>
    obtain ⟨later, rfl⟩ := hfirst
    rw [List.cons_append, indicesFit_cons] at h
    rw [indicesFit_cons]
    cases hcompleted : completed pending event with
    | none =>
      rw [hcompleted] at h
      exact ih h (List.prefix_append _ _)
    | some frame =>
      rw [hcompleted] at h
      exact fun hwell ↦ ⟨(h hwell).1, ih (h hwell).2 (List.prefix_append _ _)⟩

variable (env) in
/-- Every frame is handled as the command that is in it, at the right time, exactly when no index is taken for
another one. -/
theorem framesRight_iff (events : List SpisdEvent) : FramesRight env events ↔ IndicesFit [] events := by
  constructor
  · intro h
    exact framed_init.indicesFit h
  · intro h first hfirst
    exact framed_init.run_eq (h.first hfirst)

/-- Command 32, which has no handler, in the first frame. -/
def eraseStart : List SpisdEvent :=
  .select true :: ([false, true, true] ++ List.replicate 44 false ++ [true]).map (.clock true)

theorem not_framesRight_eraseStart : ¬ FramesRight ⟨0, fun _ ↦ false⟩ eraseStart := by
  intro h
  have hframe := framed_init.indicesFit h ([false, true, true] ++ List.replicate 44 false ++ [true])
    (by decide +kernel)
  exact hframe (by decide +kernel)

end

end Tenyr.Sim
