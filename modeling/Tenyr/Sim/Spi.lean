import Tenyr.Sim.Machine
import Tenyr.Lib.Traced
import Mathlib.Data.List.FinRange
import Mathlib.Tactic.FinCases

/-!
# The SPI master

A transfer goes through five states, in a loop over the instances behind a clock divider. While it lasts, 128
bits in four registers are shifted, as bits leave for the selected instance and its answers take their place.
-/

namespace Tenyr.Sim

open Isa Lib.Traced

/-- The states of `struct spi_state`. -/
inductive SpiEmu where
  | reset | started | selected | busy | done
  deriving DecidableEq, Repr

/-- Where the simulation ends: `breakpoint` does not return. -/
inductive SpiFault where
  | goWithOthers | notOneHot | pushed | generated | notSelected
  deriving DecidableEq, Repr

instance neZero_registers : NeZero 7 := ⟨by decide⟩

/-- What a shift by less than nothing gives, which C leaves open. -/
structure OpenShifts where
  left : Word → ℤ → Word
  right : Word → ℤ → Word

/-- The callbacks of an instance. What `clock` does not write to `*out` stays there. -/
structure SpiOps (C : Type) where
  select : Option (C → Bool → C)
  clock : C → Bool → Word → C × Option Word

/-- A call of `clock`, and what is in `pull` after it. -/
structure SpiClock where
  inst : Fin 8
  ss : Bool
  push : Word
  pull : Word
  deriving DecidableEq, Repr

structure SpiState (C : Type) where
  state : SpiEmu
  dividend : Word
  cyc : Word
  remaining : Word
  raw : Fin 7 → Word
  implCookies : Fin 8 → C

/-- `SPI_INIT_CYCLES` -/
def spiInitCycles : Word := 3

def goMask : Word := (1 : Word) <<< 8

/-! ## Fields of the registers -/

section

variable (register : Word)

def charLen : ℕ := (register &&& 0x7f).toNat

def goBsy : Bool := register.getLsbD 8

def lsbFirst : Bool := register.getLsbD 11

def autoSelect : Bool := register.getLsbD 13

def divider : ℕ := (register &&& 0xffff).toNat

def slaveSelect : Word := register &&& 0xff

end

/-! ## Shifting -/

section

variable (u : OpenShifts)

def OpenShifts.shl (x : Word) (n : ℤ) : Word := if 0 ≤ n then x <<< n.toNat else u.left x n

def OpenShifts.shr (x : Word) (n : ℤ) : Word := if 0 ≤ n then x >>> n.toNat else u.right x n

/-- `(width - 1) / 32`; the width is below 128. -/
def lastWord (width : ℕ) : Fin 7 := Fin.ofNat 7 (((width : ℤ) - 1).tdiv 32).toNat

/-- `(width - 1) % 32` -/
def inWord (width : ℕ) : ℤ := ((width : ℤ) - 1).tmod 32

def shiftDown (raw : Fin 7 → Word) (i : Fin 7) : Fin 7 → Word :=
  let o := (raw i >>> 1) &&& ~~~((1 : Word) <<< 31)
  Function.update raw i (if i < 3 then o ||| ((raw (i + 1) &&& 1) <<< 31) else o)

def shiftUp (raw : Fin 7 → Word) (i : Fin 7) : Fin 7 → Word :=
  let o := (raw i <<< 1) &&& ~~~(1 : Word)
  Function.update raw i (if 0 < i then o ||| ((raw (i - 1) &&& ((1 : Word) <<< 31)) >>> 31) else o)

/-- `do_one_shift` -/
def doOneShift (raw : Fin 7 → Word) (width : ℕ) (input : Word) : Fin 7 → Word :=
  if lsbFirst (raw 4) then
    let raw := [0, 1, 2, 3].foldl shiftDown raw
    let i := lastWord width
    Function.update raw i
      ((raw i &&& ~~~(u.shl 1 (inWord width))) ||| u.shl input (inWord width))
  else
    let raw := [3, 2, 1, 0].foldl shiftUp raw
    Function.update raw 0 ((raw 0 &&& ~~~(1 : Word)) ||| input)

/-- The bit that is pushed outside of `SPI_EMU_RESET`. -/
def pushedBit (raw : Fin 7 → Word) (width : ℕ) : Word :=
  if lsbFirst (raw 4) then raw 0 &&& 1
  else u.shr (raw (lastWord width) &&& u.shl 1 (inWord width)) (inWord width)

/-! ## Cycles -/

variable {C : Type} (impls : Fin 8 → Option (SpiOps C))

/-- `select`, if there is one. -/
def SpiState.select (s : SpiState C) (ops : SpiOps C) (inst : Fin 8) (ss : Bool) : SpiState C :=
  match ops.select with
  | none => s
  | some select =>
    { s with implCookies := Function.update s.implCookies inst (select (s.implCookies inst) ss) }

/-- `select` again, with `ASS` set. -/
def SpiState.selectAuto (s : SpiState C) (ops : SpiOps C) (inst : Fin 8) (ss : Bool) : SpiState C :=
  if autoSelect (s.raw 4) then s.select ops inst ss else s

/-- The body of the loop over the instances, for one that is selected. -/
def selectedInst (width : ℕ) (push : Word) (s : SpiState C) (ops : SpiOps C) (inst : Fin 8) :
    Outcome SpiFault SpiClock (SpiState C) :=
  match s.state with
  | .reset => .ok (s, [])
  | .started =>
    .ok ({ s.selectAuto ops inst true with state := .selected }, [])
  | .selected => .ok (if spiInitCycles < s.cyc then { s with state := .busy } else s, [])
  | .busy =>
    let (cookie, out) := ops.clock (s.implCookies inst) true push
    let pull := out.getD (-1)
    if pull ≠ 0 ∧ pull ≠ 1 then .error .generated
    else .ok ({ s with
      implCookies := Function.update s.implCookies inst cookie
      raw := doOneShift u s.raw width pull
      remaining := s.remaining - 1
      state := if s.remaining - 1 = 0 then .done else .busy }, [⟨inst, true, push, pull⟩])
  | .done =>
    let s := s.selectAuto ops inst false
    .ok ({ s with state := .reset, raw := Function.update s.raw 4 (s.raw 4 &&& ~~~goMask) }, [])

/-- The same for one that is not selected. -/
def otherInst (push : Word) (s : SpiState C) (ops : SpiOps C) (inst : Fin 8) :
    Outcome SpiFault SpiClock (SpiState C) :=
  if s.state = .selected then
    let (cookie, out) := ops.clock (s.implCookies inst) false push
    let pull := out.getD (-1)
    if pull ≠ -1 then .error .notSelected
    else .ok ({ s with implCookies := Function.update s.implCookies inst cookie }, [⟨inst, false, push, pull⟩])
  else .ok (s, [])

def cycleInst (ss : Word) (width : ℕ) (push : Word) (s : SpiState C) (inst : Fin 8) :
    Outcome SpiFault SpiClock (SpiState C) :=
  match impls inst with
  | none => .ok (s, [])
  | some ops => if ss.getLsbD inst then selectedInst u width push s ops inst else otherInst push s ops inst

/-- `spi_slave_cycle` -/
def spiSlaveCycle (s : SpiState C) : Outcome SpiFault SpiClock (SpiState C) :=
  let width := charLen (s.raw 4)
  let ss := slaveSelect (s.raw 6)
  if s.state = .reset then run (cycleInst u impls ss width (-1)) s (List.finRange 8)
  else if ss &&& (ss - 1) ≠ 0 then .error .notOneHot
  else
    let push := pushedBit u s.raw width
    if push ≠ 0 ∧ push ≠ 1 then .error .pushed
    else run (cycleInst u impls ss width push) s (List.finRange 8)

/-- `spi_emu_cycle` -/
def spiEmuCycle (s : SpiState C) : Outcome SpiFault SpiClock (SpiState C) :=
  if (divider (s.raw 5) + 1) * 2 - 1 ≤ s.dividend.toNat then
    (spiSlaveCycle u impls s).bind fun (s, clocks) ↦ .ok ({ s with cyc := s.cyc + 1, dividend := 0 }, clocks)
  else .ok ({ s with dividend := s.dividend + 1 }, [])

/-- The loop over the instances that a write to the select register runs through. -/
def selectInsts (data : Word) (s : SpiState C) : SpiState C :=
  let oldSs := slaveSelect (s.raw 6)
  (List.finRange 8).foldl (fun s (inst : Fin 8) ↦
    if data.getLsbD inst = oldSs.getLsbD inst then s
    else match impls inst with
      | none => s
      | some ops => s.select ops inst (data.getLsbD inst)) s

/-- `spi_op` for the register at `SPI_BASE + 4 * regnum`. -/
def spiOp (s : SpiState C) (op : MemoryOp) (regnum : Fin 7) (data : Word) :
    Except SpiFault (Word × SpiState C) :=
  match op with
  | .write =>
    if s.state ≠ .reset then .ok (data, s)
    else if regnum = 4 then
      let old := s.raw regnum
      if data &&& goMask ≠ old &&& goMask ∧ data &&& ~~~goMask ≠ old &&& ~~~goMask then
        .error .goWithOthers
      else
        let s := if data &&& goMask ≠ 0 then
          { s with
            state := .started
            remaining := if charLen (s.raw 4) = 0 then 128 else BitVec.ofNat 32 (charLen (s.raw 4)) }
          else s
        .ok (data, { s with raw := Function.update s.raw regnum data })
    else
      let s := if regnum = 6 ∧ ¬ autoSelect (s.raw 4) then selectInsts impls data s else s
      .ok (data, { s with raw := Function.update s.raw regnum data })
  | _ => .ok (s.raw regnum, s)

/-! ## Transfers -/

inductive SpiEvent where
  | cycle
  | op (op : MemoryOp) (regnum : Fin 7) (data : Word)
  deriving DecidableEq, Repr

def spiEvent (s : SpiState C) : SpiEvent → Outcome SpiFault SpiClock (SpiState C)
  | .cycle => spiEmuCycle u impls s
  | .op op regnum data => (spiOp impls s op regnum data).bind fun result ↦ .ok (result.2, [])

/-- An event, if `GO_BSY` is still set. -/
def busyEvent (s : SpiState C) (event : SpiEvent) : Outcome SpiFault SpiClock (SpiState C) :=
  if goBsy (s.raw 4) then spiEvent u impls s event else .ok (s, [])

/-- `GO_BSY` is set, and events follow. -/
def spiTransfer (s : SpiState C) (events : List SpiEvent) : Outcome SpiFault SpiClock (SpiState C) :=
  (spiOp impls s .write 4 (s.raw 4 ||| goMask)).bind fun result ↦ run (busyEvent u impls) result.2 events

end

/-! ## The data register -/

section

variable {u : OpenShifts}

/-- A bit of the data register. -/
def dataBit (raw : Fin 7 → Word) (k : ℕ) : Bool := (raw (Fin.ofNat 7 (k / 32))).getLsbD (k % 32)

def bitOf (b : Bool) : Word := (BitVec.ofBool b).setWidth 32

theorem getLsbD_bitOf (b : Bool) (j : ℕ) : (bitOf b).getLsbD j = (decide (j = 0) && b) := by
  rw [bitOf, BitVec.getLsbD_setWidth, BitVec.getLsbD_ofBool]
  rcases Nat.eq_zero_or_pos j with rfl | hj
  · rfl
  · simp [hj.ne']

theorem inWord_of_pos {width : ℕ} (h : 0 < width) : inWord width = ((width - 1) % 32 : ℕ) := by
  rw [inWord, Int.natCast_emod, Int.natCast_pred_of_pos h, Int.tmod_eq_emod_of_nonneg (by omega)]
  rfl

theorem lastWord_of_pos {width : ℕ} (h : 0 < width) : lastWord width = Fin.ofNat 7 ((width - 1) / 32) := by
  rw [lastWord, Int.tdiv_eq_ediv_of_nonneg (by omega)]
  congr 1
  omega

/-- One word that is shifted down, with a bit of the next word at its top. -/
theorem getLsbD_downWord (x y : Word) {j : ℕ} (hj : j < 32) :
    (((x >>> 1) &&& ~~~((1 : Word) <<< 31)) ||| ((y &&& 1) <<< 31)).getLsbD j =
      if j = 31 then y.getLsbD 0 else x.getLsbD (j + 1) := by
  have hone (n : ℕ) : (1 : Word).getLsbD n = decide (n = 0) := by simp
  simp only [BitVec.getLsbD_or, BitVec.getLsbD_and, BitVec.getLsbD_not, BitVec.getLsbD_shiftLeft,
    BitVec.getLsbD_ushiftRight, hone, hj]
  rcases eq_or_ne j 31 with rfl | hne
  · simp
  · have hlt : j < 31 := by omega
    simp [hne, hlt, Nat.add_comm 1 j]

/-- One word that is shifted up, with a bit of the previous word at its bottom. -/
theorem getLsbD_upWord (x y : Word) {j : ℕ} (hj : j < 32) :
    (((x <<< 1) &&& ~~~(1 : Word)) ||| ((y &&& ((1 : Word) <<< 31)) >>> 31)).getLsbD j =
      if j = 0 then y.getLsbD 31 else x.getLsbD (j - 1) := by
  have hone (n : ℕ) : (1 : Word).getLsbD n = decide (n = 0) := by simp
  simp only [BitVec.getLsbD_or, BitVec.getLsbD_and, BitVec.getLsbD_not, BitVec.getLsbD_shiftLeft,
    BitVec.getLsbD_ushiftRight, hone, hj]
  rcases Nat.eq_zero_or_pos j with rfl | hpos
  · simp
  · have hne : ¬ 31 + j < 32 := by omega
    simp [hpos.ne', hne]

theorem dataBit_word (raw : Fin 7 → Word) (i : ℕ) {j : ℕ} (hj : j < 32) :
    dataBit raw (32 * i + j) = (raw (Fin.ofNat 7 i)).getLsbD j := by
  rw [dataBit, Nat.mul_add_div (by decide), Nat.mul_add_mod, Nat.div_eq_of_lt hj, Nat.mod_eq_of_lt hj,
    Nat.add_zero]

/-- Down by one, before the answer takes its place. -/
theorem dataBit_shiftDown (raw : Fin 7 → Word) {k : ℕ} (hk : k < 127) :
    dataBit ([0, 1, 2, 3].foldl shiftDown raw) k = dataBit raw (k + 1) := by
  have hword (i : ℕ) (hi : i ≤ 3) : ([0, 1, 2, 3].foldl shiftDown raw) (Fin.ofNat 7 i) =
      ((raw (Fin.ofNat 7 i) >>> 1) &&& ~~~((1 : Word) <<< 31)) |||
        (((if i < 3 then raw (Fin.ofNat 7 (i + 1)) else 0) &&& 1) <<< 31) := by
    have hnothing : ((0 : Word) &&& 1) <<< 31 = 0 := by decide
    match i with
    | 0 | 1 | 2 => rfl
    | 3 =>
      rw [if_neg (by decide), hnothing]
      exact BitVec.or_zero.symm
  obtain ⟨i, j, hj, rfl⟩ : ∃ i j, j < 32 ∧ k = 32 * i + j :=
    ⟨k / 32, k % 32, Nat.mod_lt _ (by decide), (Nat.div_add_mod k 32).symm⟩
  rw [dataBit_word _ _ hj, hword i (by omega), getLsbD_downWord _ _ hj]
  split_ifs with hlast hi
  · rw [hlast, Nat.add_assoc, ← Nat.mul_succ, ← Nat.add_zero (32 * _), dataBit_word _ _ (by decide)]
  · omega
  · rw [Nat.add_assoc, dataBit_word _ _ (by omega)]

/-- Up by one, before the answer takes its place. -/
theorem dataBit_shiftUp (raw : Fin 7 → Word) {k : ℕ} (hpos : 0 < k) (hk : k < 128) :
    dataBit ([3, 2, 1, 0].foldl shiftUp raw) k = dataBit raw (k - 1) := by
  have hword (i : ℕ) (hi : i ≤ 3) : ([3, 2, 1, 0].foldl shiftUp raw) (Fin.ofNat 7 i) =
      ((raw (Fin.ofNat 7 i) <<< 1) &&& ~~~(1 : Word)) |||
        (((if 0 < i then raw (Fin.ofNat 7 (i - 1)) else 0) &&& ((1 : Word) <<< 31)) >>> 31) := by
    have hnothing : ((0 : Word) &&& ((1 : Word) <<< 31)) >>> 31 = 0 := by decide
    match i with
    | 0 =>
      rw [if_neg (by decide), hnothing]
      exact BitVec.or_zero.symm
    | 1 | 2 | 3 => rfl
  obtain ⟨i, j, hj, rfl⟩ : ∃ i j, j < 32 ∧ k = 32 * i + j :=
    ⟨k / 32, k % 32, Nat.mod_lt _ (by decide), (Nat.div_add_mod k 32).symm⟩
  rw [dataBit_word _ _ hj, hword i (by omega), getLsbD_upWord _ _ hj]
  split_ifs with hfirst hi
  · have hprev : 32 * i + j - 1 = 32 * (i - 1) + 31 := by omega
    rw [hprev, dataBit_word _ _ (by decide)]
  · omega
  · rw [Nat.add_sub_assoc (by omega), dataBit_word _ _ (by omega)]

/-- A word with one bit put in. -/
theorem getLsbD_putBit (x : Word) (a : Bool) {n j : ℕ} (hn : n < 32) (hj : j < 32) :
    ((x &&& ~~~(u.shl 1 n)) ||| u.shl (bitOf a) n).getLsbD j = if j = n then a else x.getLsbD j := by
  have hone (m : ℕ) : (1 : Word).getLsbD m = decide (m = 0) := by simp
  rw [OpenShifts.shl, OpenShifts.shl, if_pos (Int.natCast_nonneg n), if_pos (Int.natCast_nonneg n), Int.toNat_natCast]
  simp only [BitVec.getLsbD_or, BitVec.getLsbD_and, BitVec.getLsbD_not, BitVec.getLsbD_shiftLeft,
    getLsbD_bitOf, hone, hj]
  rcases Nat.lt_trichotomy j n with hlt | rfl | hgt
  · simp [hlt, hlt.ne]
  · simp
  · simp [hgt.ne', Nat.sub_ne_zero_of_lt hgt]

theorem getLsbD_putLowBit (x : Word) (a : Bool) {j : ℕ} (hj : j < 32) :
    ((x &&& ~~~(1 : Word)) ||| bitOf a).getLsbD j = if j = 0 then a else x.getLsbD j := by
  have hone : (1 : Word).getLsbD j = decide (j = 0) := by simp
  rw [BitVec.getLsbD_or, BitVec.getLsbD_and, BitVec.getLsbD_not, getLsbD_bitOf, hone]
  rcases eq_or_ne j 0 with rfl | hne
  · simp
  · simp [hne, hj]

theorem dataBit_update (raw : Fin 7 → Word) (w : Word) {i k : ℕ} (hi : i < 7) (hk : k < 224) :
    dataBit (Function.update raw (Fin.ofNat 7 i) w) k =
      if k / 32 = i then w.getLsbD (k % 32) else dataBit raw k := by
  rw [dataBit, Function.update_apply]
  have hindex : Fin.ofNat 7 (k / 32) = Fin.ofNat 7 i ↔ k / 32 = i := by
    rw [Fin.ext_iff, Fin.val_ofNat, Fin.val_ofNat, Nat.mod_eq_of_lt hi, Nat.mod_eq_of_lt (by omega)]
  simp only [hindex]
  split
  · rfl
  · rfl

/-- With the least bit first, the answer is the last bit to leave. -/
theorem dataBit_doOneShift_lsb {raw : Fin 7 → Word} (hlsb : lsbFirst (raw 4)) {width : ℕ} (hpos : 0 < width)
    (hwidth : width < 128) (a : Bool) {k : ℕ} (hk : k < width) :
    dataBit (doOneShift u raw width (bitOf a)) k = if k + 1 = width then a else dataBit raw (k + 1) := by
  have hmod : (width - 1) % 32 < 32 := Nat.mod_lt _ (by decide)
  rw [doOneShift, if_pos hlsb, lastWord_of_pos hpos, inWord_of_pos hpos]
  dsimp only
  rw [dataBit_update _ _ (by omega) (by omega), getLsbD_putBit _ _ hmod (Nat.mod_lt _ (by decide)),
    ← dataBit_shiftDown raw (by omega)]
  split_ifs with hword hbit hlast hlast hlast
  · rfl
  · omega
  · omega
  · rw [dataBit, hword]
  · omega
  · rfl

/-- With the greatest bit first, too. -/
theorem dataBit_doOneShift_msb {raw : Fin 7 → Word} (hlsb : lsbFirst (raw 4) = false) (width : ℕ) (a : Bool)
    {k : ℕ} (hk : k < 128) :
    dataBit (doOneShift u raw width (bitOf a)) k = if k = 0 then a else dataBit raw (k - 1) := by
  rw [doOneShift, if_neg (by rw [hlsb]; exact Bool.false_ne_true)]
  dsimp only
  have hfirst := dataBit_update ([3, 2, 1, 0].foldl shiftUp raw)
    ((([3, 2, 1, 0].foldl shiftUp raw) 0 &&& ~~~(1 : Word)) ||| bitOf a) (i := 0) (k := k) (by decide) (by omega)
  refine hfirst.trans ?_
  rw [getLsbD_putLowBit _ _ (Nat.mod_lt _ (by decide))]
  split_ifs with hword hbit hzero hzero hzero
  · rfl
  · omega
  · omega
  · rw [← dataBit_shiftUp raw (Nat.pos_of_ne_zero hzero) hk, dataBit, hword]
    rfl
  · omega
  · rw [dataBit_shiftUp raw (Nat.pos_of_ne_zero hzero) hk]

/-- The bit that leaves. -/
theorem pushedBit_eq (raw : Fin 7 → Word) {width : ℕ} (hpos : 0 < width) :
    pushedBit u raw width = bitOf (dataBit raw (if lsbFirst (raw 4) then 0 else width - 1)) := by
  have hone (m : ℕ) : (1 : Word).getLsbD m = decide (m = 0) := by simp
  rw [pushedBit]
  split
  · refine BitVec.eq_of_getLsbD_eq fun j hj ↦ ?_
    rw [BitVec.getLsbD_and, hone, getLsbD_bitOf, Bool.and_comm, dataBit]
    rcases eq_or_ne j 0 with rfl | hne
    · rfl
    · rw [decide_eq_false hne, Bool.false_and, Bool.false_and]
  · have hmod : (width - 1) % 32 < 32 := Nat.mod_lt _ (by decide)
    rw [inWord_of_pos hpos, lastWord_of_pos hpos, OpenShifts.shr, OpenShifts.shl, if_pos (Int.natCast_nonneg _),
      if_pos (Int.natCast_nonneg _), Int.toNat_natCast, dataBit]
    refine BitVec.eq_of_getLsbD_eq fun j hj ↦ ?_
    rw [BitVec.getLsbD_ushiftRight, BitVec.getLsbD_and, BitVec.getLsbD_shiftLeft, hone, getLsbD_bitOf]
    rcases eq_or_ne j 0 with rfl | hne
    · simp [hmod]
    · have hsub : (width - 1) % 32 + j - (width - 1) % 32 ≠ 0 := by omega
      simp [hne]

theorem lastWord_lt {width : ℕ} (hwidth : width < 128) : lastWord width < 4 := by
  rcases Nat.eq_zero_or_pos width with rfl | hpos
  · decide
  · rw [lastWord_of_pos hpos, Fin.lt_def, Fin.val_ofNat, Nat.mod_eq_of_lt (by omega)]
    change _ < 4
    omega

theorem foldl_shiftDown_of_le (raw : Fin 7 → Word) {i : Fin 7} (hi : 4 ≤ i) :
    ([0, 1, 2, 3].foldl shiftDown raw) i = raw i := by
  simp only [List.foldl, shiftDown]
  iterate 4 rw [Function.update_of_ne (by omega)]

theorem foldl_shiftUp_of_le (raw : Fin 7 → Word) {i : Fin 7} (hi : 4 ≤ i) :
    ([3, 2, 1, 0].foldl shiftUp raw) i = raw i := by
  simp only [List.foldl, shiftUp]
  iterate 4 rw [Function.update_of_ne (by omega)]

/-- The other registers stay as they are. -/
theorem doOneShift_of_le (raw : Fin 7 → Word) {width : ℕ} (hwidth : width < 128) (input : Word) {i : Fin 7}
    (hi : 4 ≤ i) : doOneShift u raw width input i = raw i := by
  have hlast := lastWord_lt hwidth
  rw [doOneShift]
  split
  · dsimp only
    rw [Function.update_of_ne (by omega), foldl_shiftDown_of_le raw hi]
  · dsimp only
    rw [Function.update_of_ne (by omega), foldl_shiftUp_of_le raw hi]

/-- The bits that take part in a transfer, in the order in which they leave. -/
def dataBits (lsb : Bool) (n : ℕ) (raw : Fin 7 → Word) : List Bool :=
  (List.range n).map fun k ↦ dataBit raw (if lsb then k else n - 1 - k)

@[simp] theorem length_dataBits (lsb : Bool) (n : ℕ) (raw : Fin 7 → Word) : (dataBits lsb n raw).length = n := by
  rw [dataBits, List.length_map, List.length_range]

theorem getElem_dataBits (lsb : Bool) {n : ℕ} (raw : Fin 7 → Word) {k : ℕ} (hk : k < (dataBits lsb n raw).length) :
    (dataBits lsb n raw)[k] = dataBit raw (if lsb then k else n - 1 - k) := by
  simp only [dataBits, List.getElem_map, List.getElem_range]

/-- The bits are a queue: one leaves at the front, and the answer goes to the end. -/
theorem dataBits_doOneShift {raw : Fin 7 → Word} {n : ℕ} (hpos : 0 < n) (hn : n < 128) (a : Bool) :
    dataBits (lsbFirst (raw 4)) n (doOneShift u raw n (bitOf a)) = (dataBits (lsbFirst (raw 4)) n raw).tail ++ [a] := by
  refine List.ext_getElem (by simp [Nat.sub_add_cancel hpos]) fun k hk hk' ↦ ?_
  have hkn : k < n := by rwa [length_dataBits] at hk
  have hlen : (dataBits (lsbFirst (raw 4)) n raw).tail.length = n - 1 := by
    rw [List.length_tail, length_dataBits]
  rw [getElem_dataBits]
  rcases Nat.lt_or_ge k (n - 1) with hlt | hge
  · rw [List.getElem_append_left (by omega), List.getElem_tail, getElem_dataBits]
    cases hlsb : lsbFirst (raw 4) with
    | true =>
      rw [if_pos rfl, if_pos rfl, dataBit_doOneShift_lsb hlsb hpos hn a hkn, if_neg (by omega)]
    | false =>
      rw [if_neg Bool.false_ne_true, if_neg Bool.false_ne_true, dataBit_doOneShift_msb hlsb n a (by omega),
        if_neg (by omega), Nat.sub_sub _ k]
  · obtain rfl : k = n - 1 := by omega
    rw [List.getElem_append_right (by omega), List.getElem_singleton]
    cases hlsb : lsbFirst (raw 4) with
    | true => rw [if_pos rfl, dataBit_doOneShift_lsb hlsb hpos hn a hkn, if_pos (by omega)]
    | false =>
      rw [if_neg Bool.false_ne_true, dataBit_doOneShift_msb hlsb n a (by omega), if_pos (by omega)]

theorem pushedBit_eq_head {raw : Fin 7 → Word} {n : ℕ} (hpos : 0 < n) {b : Bool} {rest : List Bool}
    (h : dataBits (lsbFirst (raw 4)) n raw = b :: rest) : pushedBit u raw n = bitOf b := by
  have hfirst := getElem_dataBits (lsbFirst (raw 4)) raw (k := 0) (by rwa [length_dataBits])
  simp only [h, List.getElem_cons_zero] at hfirst
  rw [pushedBit_eq raw hpos, hfirst, Nat.sub_zero]

end

end Tenyr.Sim
