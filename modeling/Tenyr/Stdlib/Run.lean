import Tenyr.Stdlib.Cpu

/-!
# What runs of routines reach

Runs on memory with instructions in some places, which are never written to. Code is a list of lines
under labels, and `Wp` is what has to hold where some lines start for a run to reach a state.
-/

namespace Tenyr.Stdlib

open Isa Sim Lib.Transition

/-- Where instructions are, and where a run may write. -/
structure Setting where
  undef : UndefinedShifts
  insnAt : Word → Option Insn
  writable : Set Word
  fetched : insnAt 0xffffffff#32 = none  -- the end condition of the simulator
  apart : ∀ a ∈ writable, insnAt a = none

namespace Setting

variable (S : Setting)

def Loaded (mem : Word → Word) : Prop := ∀ a insn, S.insnAt a = some insn → mem a = insn.word

/-- Nothing is changed where a run may not write. -/
def Kept (mem mem' : Word → Word) : Prop := ∀ a ∉ S.writable, mem' a = mem a

/-- With the instructions loaded a run reaches `Q`, and it never writes where it may not. -/
def Leads (Q : Cpu → Prop) (cpu : Cpu) : Prop :=
  S.Loaded cpu.mem → Until (Cpu.step S.undef) (fun next ↦ S.Kept cpu.mem next.mem)
    (fun next ↦ S.Kept cpu.mem next.mem ∧ Q next) cpu

/-- An instruction writes where it may. -/
def Allows (insn : Insn) (cpu : Cpu) : Prop :=
  ∀ a, insn.target S.undef cpu = some a → a ∈ S.writable

/-- Instructions are where they should be. -/
def HoldsAt (a : Word) (insns : List Insn) : Prop :=
  ∀ k insn, insns[k]? = some insn → S.insnAt (a + BitVec.ofNat 32 k) = some insn

end Setting

section

variable {S : Setting} {Q R : Cpu → Prop} {cpu : Cpu} {mem mem' mem'' : Word → Word}

theorem Setting.Kept.refl (mem : Word → Word) : S.Kept mem mem := fun _ _ ↦ rfl

theorem Setting.Kept.trans (h : S.Kept mem mem') (h' : S.Kept mem' mem'') : S.Kept mem mem'' :=
  fun a ha ↦ (h' a ha).trans (h a ha)

theorem Setting.Kept.loaded (h : S.Kept mem mem') (hloaded : S.Loaded mem) : S.Loaded mem' := by
  intro a insn ha
  rw [h a, hloaded a insn ha]
  intro hwritable
  rw [S.apart a hwritable] at ha
  cases ha

theorem Insn.exec_mem (undef : UndefinedShifts) (insn : Insn) {a : Word}
    (h : insn.target undef cpu ≠ some a) : (insn.exec undef cpu).mem a = cpu.mem a := by
  cases insn with
  | assign z rhs | load z rhs => rw [Insn.exec, Cpu.set_mem]
  | store z rhs | storeTo z rhs =>
    apply Function.update_of_ne
    rintro rfl
    exact h rfl

theorem Setting.step_insn (S : Setting) {insn : Insn} (hat : S.insnAt cpu.p = some insn)
    (hallows : S.Allows insn cpu) (hloaded : S.Loaded cpu.mem) :
    cpu.step S.undef = some (insn.exec S.undef cpu) ∧
      S.Kept cpu.mem (insn.exec S.undef cpu).mem := by
  have hend : cpu.p ≠ 0xffffffff#32 := by
    intro hp
    rw [hp, S.fetched] at hat
    cases hat
  refine ⟨Cpu.step_word S.undef cpu (hloaded _ insn hat) hend, ?_⟩
  intro a ha
  apply Insn.exec_mem
  exact fun htarget ↦ ha (hallows a htarget)

namespace Setting.Leads

theorem here (h : Q cpu) : S.Leads Q cpu := fun _ ↦ .here ⟨.refl _, h⟩

theorem mono (h : S.Leads Q cpu) (hQ : ∀ next, S.Kept cpu.mem next.mem → Q next → R next) :
    S.Leads R cpu :=
  fun hloaded ↦ (h hloaded).mono (fun _ hkept ↦ hkept) fun next hnext ↦
    ⟨hnext.1, hQ next hnext.1 hnext.2⟩

theorem bind (h : S.Leads R cpu)
    (hrest : ∀ next, S.Kept cpu.mem next.mem → R next → S.Leads Q next) : S.Leads Q cpu := by
  intro hloaded
  apply (h hloaded).bind
  rintro next ⟨hkept, hR⟩
  apply (hrest next hkept hR (hkept.loaded hloaded)).mono
  · exact fun _ hkept' ↦ hkept.trans hkept'
  · exact fun _ hlast ↦ ⟨hkept.trans hlast.1, hlast.2⟩

theorem insn {insn : Insn} (hat : S.insnAt cpu.p = some insn) (hallows : S.Allows insn cpu)
    (h : S.Leads Q (insn.exec S.undef cpu)) : S.Leads Q cpu := by
  intro hloaded
  obtain ⟨hstep, hkept⟩ := S.step_insn hat hallows hloaded
  apply Until.next (.refl _) hstep
  apply (h (hkept.loaded hloaded)).mono
  · exact fun _ hkept' ↦ hkept.trans hkept'
  · exact fun _ hlast ↦ ⟨hkept.trans hlast.1, hlast.2⟩

/-- Where a run leads, the simulator gets to. -/
theorem steps_interpStep (h : S.Leads Q cpu) (hloaded : S.Loaded cpu.mem) (insnsExecuted : ℕ) :
    ∃ count next, steps (interpStep S.undef Cpu.flatBus) count (cpu.state insnsExecuted) =
        some (next.state (insnsExecuted + count)) ∧ S.Kept cpu.mem next.mem ∧ Q next := by
  obtain ⟨count, next, hsteps, hnext, -⟩ := until_iff_steps.mp (h hloaded)
  refine ⟨count, next, ?_, hnext⟩
  rw [Cpu.steps_interpStep_state, hsteps]
  rfl

/-- There is one state in which the simulator ends. -/
theorem and_of_end (h : S.Leads Q cpu) (h' : S.Leads R cpu) (hloaded : S.Loaded cpu.mem)
    (hQ : ∀ next, Q next → next.p = 0xffffffff#32) (hR : ∀ next, R next → next.p = 0xffffffff#32) :
    ∃ next, Q next ∧ R next := by
  obtain ⟨next, hnext, hnext'⟩ := (h hloaded).and_of_stop (h' hloaded)
    (fun next hnext ↦ Cpu.step_eq_none S.undef (hQ next hnext.2))
    (fun next hnext ↦ Cpu.step_eq_none S.undef (hR next hnext.2))
  exact ⟨next, hnext.2, hnext'.2⟩

/-- A run that comes back to `R` again and again does not reach the end. -/
theorem not_of_recurring
    (hturn : ∀ cpu, S.Loaded cpu.mem → R cpu → ∃ next, cpu.step S.undef = some next ∧
      S.Loaded next.mem ∧ S.Leads R next)
    (hQ : ∀ next, Q next → next.p = 0xffffffff#32) (hloaded : S.Loaded cpu.mem) (hR : S.Leads R cpu) :
    ¬ S.Leads Q cpu := by
  intro h
  have hrecurring : ∀ cpu, S.Loaded cpu.mem ∧ R cpu → ∃ next, cpu.step S.undef = some next ∧
      Until (Cpu.step S.undef) (fun _ ↦ True) (fun last ↦ S.Loaded last.mem ∧ R last) next := by
    rintro cpu ⟨hloaded, hR⟩
    obtain ⟨next, hstep, hnext, hleads⟩ := hturn cpu hloaded hR
    refine ⟨next, hstep, (hleads hnext).mono (fun _ _ ↦ trivial) ?_⟩
    exact fun last hlast ↦ ⟨hlast.1.loaded hnext, hlast.2⟩
  have hfirst : Until (Cpu.step S.undef) (fun _ ↦ True) (fun last ↦ S.Loaded last.mem ∧ R last) cpu :=
    (hR hloaded).mono (fun _ _ ↦ trivial) fun last hlast ↦ ⟨hlast.1.loaded hloaded, hlast.2⟩
  exact Until.not_of_recurring hrecurring
    (fun next hnext ↦ Cpu.step_eq_none S.undef (hQ next hnext.2)) hfirst (h hloaded)

end Setting.Leads

end

/-! ## Lines of code -/

/-- Instructions and the macros that use labels. -/
inductive Line (L : Type) where
  | insn (insn : Insn)
  | goto (l : L)
  | jnzrel (cond : Reg) (l : L)
  | jzrel (cond : Reg) (l : L)
  | call (l : L)
  | callr (r : Reg)

/-- Lines under labels, and the order in which the labels stand. -/
structure Code (L : Type) where
  labels : List L
  lines : L → List (Line L)

/-- `(@l - (. + 1))` -/
def distance (target : ℤ) (here : ℕ) : BitVec 12 := BitVec.ofInt 12 (target - (here + 1))

def insnGoto (target : ℤ) (here : ℕ) : Insn := .assign .p (.type2 (distance target here) .add .p .a)

/-- `push(p + 2)` -/
def pushReturn : List Insn :=
  [.storeTo .o (.type1 .p .add 2#12 .a), .assign .o (.type1 .o .add (-1#12) .a)]

namespace Line

variable {L : Type} (position : L → ℤ)

def size : Line L → ℕ
  | insn _ | goto _ | jnzrel _ _ | jzrel _ _ => 1
  | call _ | callr _ => 3

def insns (here : ℕ) : Line L → List Insn
  | insn i => [i]
  | goto l => [insnGoto (position l) here]
  | jnzrel cond l => [.assign .p (.type2 (distance (position l) here) .bitwiseAnd cond .p)]
  | jzrel cond l => [.assign .p (.type2 (distance (position l) here) .bitwiseAndn cond .p)]
  | call l => pushReturn ++ [insnGoto (position l) (here + 2)]
  | callr r => pushReturn ++ [.assign .p (.type0 r .bitwiseOr .a 0#12)]

/-- The distance to the label, if there is one, fits an immediate. -/
def Reaches (here : ℕ) (line : Line L) : Prop :=
  match line with
  | insn _ | callr _ => True
  | goto l | jnzrel _ l | jzrel _ l => -2048 ≤ position l - (here + 1) ∧ position l - (here + 1) < 2048
  | call l => -2048 ≤ position l - (here + 3) ∧ position l - (here + 3) < 2048

end Line

section

variable {L : Type}

def linesSize (lines : List (Line L)) : ℕ := (lines.map Line.size).sum

def insnsFrom (position : L → ℤ) : ℕ → List (Line L) → List Insn
  | _, [] => []
  | here, line :: lines => line.insns position here ++ insnsFrom position (here + line.size) lines

def ReachFrom (position : L → ℤ) : ℕ → List (Line L) → Prop
  | _, [] => True
  | here, line :: lines =>
    line.Reaches position here ∧ ReachFrom position (here + line.size) lines

instance (position : L → ℤ) (here : ℕ) (line : Line L) : Decidable (line.Reaches position here) :=
  match line with
  | .insn _ | .callr _ => inferInstanceAs (Decidable True)
  | .goto _ | .jnzrel _ _ | .jzrel _ _ | .call _ => inferInstanceAs (Decidable (_ ∧ _))

instance decidableReachFrom (position : L → ℤ) :
    (here : ℕ) → (lines : List (Line L)) → Decidable (ReachFrom position here lines)
  | _, [] => inferInstanceAs (Decidable True)
  | here, line :: lines =>
    have := decidableReachFrom position (here + line.size) lines
    inferInstanceAs (Decidable (_ ∧ _))

def Code.allLines (code : Code L) : List (Line L) := code.labels.flatMap code.lines

variable [DecidableEq L]

/-- How many words stand before a label. -/
def offsetIn (lines : L → List (Line L)) (l : L) : List L → Option ℕ
  | [] => none
  | l' :: labels =>
    if l' = l then some 0 else (offsetIn lines l labels).map (linesSize (lines l') + ·)

def Code.offset (code : Code L) (l : L) : Option ℕ := offsetIn code.lines l code.labels

/-- Labels of other code are at `far`. -/
def Code.position (code : Code L) (far : L → ℤ) (l : L) : ℤ := ((code.offset l).map (↑)).getD (far l)

/-- The code is at `base`, and what it refers to is not too far away. -/
structure Placed (S : Setting) (code : Code L) (far : L → ℤ) (base : Word) : Prop where
  holds : S.HoldsAt base (insnsFrom (code.position far) 0 code.allLines)
  reach : ReachFrom (code.position far) 0 code.allLines

def Code.addr (code : Code L) (far : L → ℤ) (base : Word) (l : L) : Word :=
  base + BitVec.ofInt 32 (code.position far l)

/-- Where the lines under a label end. -/
def Code.endAddr (code : Code L) (far : L → ℤ) (base : Word) (l : L) : Word :=
  base + BitVec.ofInt 32 (code.position far l + linesSize (code.lines l))

end

/-! ## Preconditions -/

/-- The return address is pushed, and a routine starts. -/
def Cpu.called (cpu : Cpu) (start : Word) : Cpu :=
  { cpu with mem := Function.update cpu.mem cpu.o (cpu.p + 3#32), o := cpu.o - 1#32, p := start }

/-- The instruction assigns `P`. -/
@[simp]
def Insn.jumps : Insn → Bool
  | assign z _ | load z _ => z = .p
  | store _ _ | storeTo _ _ => false

/-- What has to hold where some lines start for a run to reach `Q`; after the last one it goes on at
`next`. -/
def Wp {L : Type} (S : Setting) (addr : L → Word) (next : Word) (Q : Cpu → Prop) :
    List (Line L) → Cpu → Prop
  | [], cpu => S.Leads Q { cpu with p := next }
  | .insn i :: lines, cpu => S.Allows i cpu ∧
      if i.jumps then S.Leads Q (i.exec S.undef cpu)
      else Wp S addr next Q lines (i.exec S.undef cpu)
  | .goto l :: _, cpu => S.Leads Q { cpu with p := addr l }
  | .jnzrel cond l :: lines, cpu =>
      if Cpu.get { cpu with p := cpu.p + 1#32 } cond = -1#32 then S.Leads Q { cpu with p := addr l }
      else Cpu.get { cpu with p := cpu.p + 1#32 } cond = 0#32 ∧
        Wp S addr next Q lines { cpu with p := cpu.p + 1#32 }
  | .jzrel cond l :: lines, cpu =>
      if Cpu.get { cpu with p := cpu.p + 1#32 } cond = 0#32 then S.Leads Q { cpu with p := addr l }
      else Cpu.get { cpu with p := cpu.p + 1#32 } cond = -1#32 ∧
        Wp S addr next Q lines { cpu with p := cpu.p + 1#32 }
  | .call l :: lines, cpu => cpu.o ∈ S.writable ∧
      S.Leads (fun back ↦ back.p = cpu.p + 3#32 ∧ Wp S addr next Q lines back)
        (cpu.called (addr l))
  | .callr r :: lines, cpu => cpu.o ∈ S.writable ∧
      S.Leads (fun back ↦ back.p = cpu.p + 3#32 ∧ Wp S addr next Q lines back)
        (cpu.called (Cpu.get (cpu.called (cpu.p + 3#32)) r))

section

variable {L : Type} {S : Setting} {addr : L → Word} {next : Word} {Q : Cpu → Prop} {cpu : Cpu}
  {lines : List (Line L)} {z : Reg} {rhs : Rhs} {l : L} {cond : Reg}

@[simp]
theorem wp_nil : Wp S addr next Q [] cpu ↔ S.Leads Q { cpu with p := next } := .rfl

@[simp]
theorem wp_goto : Wp S addr next Q (.goto l :: lines) cpu ↔ S.Leads Q { cpu with p := addr l } := .rfl

@[simp]
theorem wp_assign (hz : z ≠ .p) : Wp S addr next Q (.insn (.assign z rhs) :: lines) cpu ↔
    Wp S addr next Q lines (Insn.exec S.undef (.assign z rhs) cpu) := by
  have hstraight : ¬ Insn.jumps (.assign z rhs) = true := by simpa using hz
  rw [Wp, if_neg hstraight]
  exact and_iff_right fun a ha ↦ nomatch ha

@[simp]
theorem wp_load (hz : z ≠ .p) : Wp S addr next Q (.insn (.load z rhs) :: lines) cpu ↔
    Wp S addr next Q lines (Insn.exec S.undef (.load z rhs) cpu) := by
  have hstraight : ¬ Insn.jumps (.load z rhs) = true := by simpa using hz
  rw [Wp, if_neg hstraight]
  exact and_iff_right fun a ha ↦ nomatch ha

@[simp]
theorem wp_load_p : Wp S addr next Q (.insn (.load .p rhs) :: lines) cpu ↔
    S.Leads Q (Insn.exec S.undef (.load .p rhs) cpu) := by
  have hjumps : Insn.jumps (.load .p rhs) = true := by simp
  rw [Wp, if_pos hjumps]
  exact and_iff_right fun a ha ↦ nomatch ha

/-- A jump on a truth value. -/
theorem wp_jnzrel {b : Bool} (hcond : Cpu.get { cpu with p := cpu.p + 1#32 } cond = negBool b) :
    Wp S addr next Q (.jnzrel cond l :: lines) cpu ↔
      if b then S.Leads Q { cpu with p := addr l }
      else Wp S addr next Q lines { cpu with p := cpu.p + 1#32 } := by
  rw [Wp, hcond]
  cases b with
  | true => exact .rfl
  | false => exact and_iff_right rfl

theorem wp_jzrel {b : Bool} (hcond : Cpu.get { cpu with p := cpu.p + 1#32 } cond = negBool b) :
    Wp S addr next Q (.jzrel cond l :: lines) cpu ↔
      if b then Wp S addr next Q lines { cpu with p := cpu.p + 1#32 }
      else S.Leads Q { cpu with p := addr l } := by
  rw [Wp, hcond]
  cases b with
  | true => exact and_iff_right rfl
  | false => exact .rfl

end

/-! ## Where instructions are -/

section

variable {S : Setting} {Q : Cpu → Prop} {cpu : Cpu} {a base : Word} {xs ys : List Insn} {insn : Insn}

theorem Setting.holdsAt_append : S.HoldsAt a (xs ++ ys) ↔
    S.HoldsAt a xs ∧ S.HoldsAt (a + BitVec.ofNat 32 xs.length) ys := by
  constructor
  · intro h
    constructor
    · intro k insn hk
      apply h k insn
      rw [List.getElem?_append_left (List.getElem?_eq_some_iff.mp hk).1, hk]
    · intro k insn hk
      rw [BitVec.add_assoc, ← BitVec.ofNat_add]
      apply h (xs.length + k) insn
      rw [List.getElem?_append_right (Nat.le_add_right _ _), Nat.add_sub_cancel_left, hk]
  · rintro ⟨hxs, hys⟩ k insn hk
    rcases Nat.lt_or_ge k xs.length with hlt | hge
    · rw [List.getElem?_append_left hlt] at hk
      exact hxs k insn hk
    · rw [List.getElem?_append_right hge] at hk
      have hat := hys _ insn hk
      rwa [BitVec.add_assoc, ← BitVec.ofNat_add, Nat.add_sub_cancel' hge] at hat

theorem Setting.holdsAt_cons : S.HoldsAt a (insn :: ys) ↔
    S.insnAt a = some insn ∧ S.HoldsAt (a + 1#32) ys := by
  rw [← List.singleton_append, holdsAt_append]
  apply and_congr_left'
  constructor
  · intro h
    have hzero := h 0 insn rfl
    rwa [BitVec.add_zero] at hzero
  · intro h k insn' hk
    cases k with
    | zero =>
      obtain rfl := Option.some.inj hk
      rwa [BitVec.add_zero]
    | succ k => cases hk

theorem signExtend_ofInt {i : ℤ} (h : -2048 ≤ i) (h' : i < 2048) :
    (BitVec.ofInt 12 i).signExtend 32 = BitVec.ofInt 32 i := by
  apply BitVec.eq_of_toInt_eq
  rw [BitVec.toInt_signExtend_of_le (by decide), BitVec.toInt_ofInt, BitVec.toInt_ofInt,
    Int.bmod_eq_of_le (by omega) (by omega), Int.bmod_eq_of_le (by omega) (by omega)]

/-- A jump gets to its label. -/
theorem distance_add (base : Word) {target : ℤ} {here : ℕ} (h : -2048 ≤ target - (here + 1))
    (h' : target - (here + 1) < 2048) :
    (distance target here).signExtend 32 + (base + BitVec.ofNat 32 here + 1#32) =
      base + BitVec.ofInt 32 target := by
  have hextend : (distance target here).signExtend 32 = BitVec.ofInt 32 (target - (here + 1)) :=
    signExtend_ofInt h h'
  have htarget : BitVec.ofInt 32 target =
      BitVec.ofInt 32 (target - (here + 1)) + (BitVec.ofNat 32 here + 1#32) := by
    have hsum : BitVec.ofInt 32 ((here : ℤ) + 1) = BitVec.ofNat 32 here + 1#32 := by
      rw [BitVec.ofInt_add, BitVec.ofInt_natCast]
      rfl
    rw [← hsum, ← BitVec.ofInt_add, Int.sub_add_cancel]
  rw [hextend, htarget, BitVec.add_assoc, add_left_comm]

/-! ## What lines lead to -/

theorem Insn.exec_p (undef : UndefinedShifts) (cpu : Cpu) {insn : Insn} (h : insn.jumps = false) :
    (insn.exec undef cpu).p = cpu.p + 1#32 := by
  have hset : ∀ (cpu : Cpu) {z : Reg} (value : Word), z ≠ .p → (cpu.set z value).p = cpu.p := by
    intro cpu z value hz
    cases z <;> first | rfl | exact absurd rfl hz
  cases insn with
  | assign z rhs | load z rhs => exact hset _ _ (by simpa [Insn.jumps] using h)
  | store z rhs | storeTo z rhs => rfl

theorem Insn.exec_relative (undef : UndefinedShifts) (cpu : Cpu) {imm : BitVec 12} {op : Op} {x : Reg}
    (hop : op ≠ .shiftLeft) : Insn.exec undef (.assign .p (.type2 imm op x .p)) cpu =
      { cpu with p := opValue undef op (imm.signExtend 32) (Cpu.get { cpu with p := cpu.p + 1#32 } x) +
          (cpu.p + 1#32) } := by
  simp only [exec, Rhs.value, combine, dropsAddend, hop, false_and, if_false]
  rfl

theorem Setting.Leads.assign {z : Reg} {rhs : Rhs} (hat : S.insnAt cpu.p = some (.assign z rhs))
    (h : S.Leads Q (Insn.exec S.undef (.assign z rhs) cpu)) : S.Leads Q cpu := by
  apply insn hat _ h
  rintro a ⟨⟩

/-- The two instructions of `push(p + 2)`, before a jump. -/
theorem Setting.Leads.pushReturn (hat : S.HoldsAt cpu.p pushReturn) (ho : cpu.o ∈ S.writable)
    (h : S.Leads Q (cpu.called (cpu.p + 2#32))) : S.Leads Q cpu := by
  obtain ⟨hfirst, hrest⟩ := holdsAt_cons.mp hat
  obtain ⟨hsecond, -⟩ := holdsAt_cons.mp hrest
  apply insn hfirst
  · intro a ha
    obtain rfl : cpu.o = a := Option.some.inj ha
    exact ho
  · apply assign hsecond
    have hreturn : cpu.p + 1#32 + 2#32 = cpu.p + 3#32 := BitVec.add_assoc _ _ _
    have hnext : cpu.p + 1#32 + 1#32 = cpu.p + 2#32 := BitVec.add_assoc _ _ _
    have hexec : Insn.exec S.undef (.assign .o (.type1 .o .add (-1#12) .a))
        (Insn.exec S.undef (.storeTo .o (.type1 .p .add 2#12 .a)) cpu) =
        cpu.called (cpu.p + 2#32) := by
      simp [Insn.exec, Rhs.value, combine, dropsAddend, opValue, Cpu.get, Cpu.set, Cpu.called,
        BitVec.sub_eq_add_neg, hreturn, hnext]
    rw [hexec]
    exact h

variable {L : Type} {position : L → ℤ} {here : ℕ} {lines : List (Line L)} {next : Word}

theorem Setting.Leads.goto {l : L} (hat : S.insnAt cpu.p = some (insnGoto (position l) here))
    (hreach : (Line.goto l).Reaches position here) (hp : cpu.p = base + BitVec.ofNat 32 here)
    (h : S.Leads Q { cpu with p := base + BitVec.ofInt 32 (position l) }) : S.Leads Q cpu := by
  apply assign hat
  have hjump := distance_add base hreach.1 hreach.2
  rw [← hp] at hjump
  have hexec : Insn.exec S.undef (insnGoto (position l) here) cpu =
      { cpu with p := base + BitVec.ofInt 32 (position l) } := by
    simp [insnGoto, Insn.exec, Rhs.value, combine, dropsAddend, opValue, Cpu.get, Cpu.set, hjump]
  exact hexec ▸ h

/-- A jump that is taken when the condition is true. -/
theorem Setting.Leads.jnzrel {cond : Reg} {l : L}
    (hat : S.insnAt cpu.p = some (.assign .p (.type2 (distance (position l) here) .bitwiseAnd cond .p)))
    (hreach : (Line.jnzrel cond l).Reaches position here) (hp : cpu.p = base + BitVec.ofNat 32 here)
    (htaken : Cpu.get { cpu with p := cpu.p + 1#32 } cond = -1#32 →
      S.Leads Q { cpu with p := base + BitVec.ofInt 32 (position l) })
    (hnext : Cpu.get { cpu with p := cpu.p + 1#32 } cond ≠ -1#32 →
      Cpu.get { cpu with p := cpu.p + 1#32 } cond = 0#32 ∧ S.Leads Q { cpu with p := cpu.p + 1#32 }) :
    S.Leads Q cpu := by
  have hones : ∀ x : Word, x &&& -1#32 = x := fun _ ↦ BitVec.and_allOnes
  have hjump := distance_add base hreach.1 hreach.2
  rw [← hp] at hjump
  apply assign hat
  rw [Insn.exec_relative S.undef cpu (by decide)]
  by_cases htrue : Cpu.get { cpu with p := cpu.p + 1#32 } cond = -1#32
  · rw [htrue, opValue, hones, hjump]
    exact htaken htrue
  · obtain ⟨hfalse, h⟩ := hnext htrue
    rw [hfalse, opValue, BitVec.and_zero, BitVec.zero_add]
    exact h

/-- A jump that is taken when the condition is false. -/
theorem Setting.Leads.jzrel {cond : Reg} {l : L}
    (hat : S.insnAt cpu.p = some (.assign .p (.type2 (distance (position l) here) .bitwiseAndn cond .p)))
    (hreach : (Line.jzrel cond l).Reaches position here) (hp : cpu.p = base + BitVec.ofNat 32 here)
    (htaken : Cpu.get { cpu with p := cpu.p + 1#32 } cond = 0#32 →
      S.Leads Q { cpu with p := base + BitVec.ofInt 32 (position l) })
    (hnext : Cpu.get { cpu with p := cpu.p + 1#32 } cond ≠ 0#32 →
      Cpu.get { cpu with p := cpu.p + 1#32 } cond = -1#32 ∧ S.Leads Q { cpu with p := cpu.p + 1#32 }) :
    S.Leads Q cpu := by
  have hnone : ∀ x : Word, x &&& ~~~(-1#32) = 0#32 := fun _ ↦ BitVec.and_zero
  have hjump := distance_add base hreach.1 hreach.2
  rw [← hp] at hjump
  apply assign hat
  rw [Insn.exec_relative S.undef cpu (by decide)]
  by_cases hfalse : Cpu.get { cpu with p := cpu.p + 1#32 } cond = 0#32
  · rw [hfalse, opValue, BitVec.not_zero, BitVec.and_allOnes, hjump]
    exact htaken hfalse
  · obtain ⟨htrue, h⟩ := hnext hfalse
    rw [htrue, opValue, hnone, BitVec.zero_add]
    exact h

/-- A call of a label. -/
theorem Setting.Leads.call {l : L} (hat : S.HoldsAt cpu.p ((Line.call l).insns position here))
    (hreach : (Line.call l).Reaches position here) (hp : cpu.p = base + BitVec.ofNat 32 here)
    (ho : cpu.o ∈ S.writable) (h : S.Leads Q (cpu.called (base + BitVec.ofInt 32 (position l)))) :
    S.Leads Q cpu := by
  obtain ⟨hpush, hgoto⟩ := Setting.holdsAt_append.mp hat
  have hstart : cpu.p + 2#32 = base + BitVec.ofNat 32 (here + 2) := by
    rw [hp, BitVec.add_assoc, BitVec.ofNat_add]
  have hreached : (Line.goto l).Reaches position (here + 2) := by
    have hfit : -2048 ≤ position l - (here + 3) ∧ position l - (here + 3) < 2048 := hreach
    change -2048 ≤ position l - ((here + 2 : ℕ) + 1) ∧ position l - ((here + 2 : ℕ) + 1) < 2048
    omega
  apply pushReturn hpush ho
  exact goto (Setting.holdsAt_cons.mp hgoto).1 hreached hstart h

/-- A call through a register. -/
theorem Setting.Leads.callr {r : Reg} (hat : S.HoldsAt cpu.p ((Line.callr r : Line L).insns position here))
    (ho : cpu.o ∈ S.writable)
    (h : S.Leads Q (cpu.called (Cpu.get (cpu.called (cpu.p + 3#32)) r))) : S.Leads Q cpu := by
  obtain ⟨hpush, hjump⟩ := Setting.holdsAt_append.mp hat
  have hexec : Insn.exec S.undef (.assign .p (.type0 r .bitwiseOr .a 0#12))
      (cpu.called (cpu.p + 2#32)) = cpu.called (Cpu.get (cpu.called (cpu.p + 3#32)) r) := by
    have hthree : cpu.p + 2#32 + 1#32 = cpu.p + 3#32 := BitVec.add_assoc _ _ _
    simp [combine, dropsAddend, opValue, Cpu.called, hthree]
  apply pushReturn hpush ho
  apply assign (Setting.holdsAt_cons.mp hjump).1
  rw [hexec]
  exact h

/-- Lines that stand at an address lead where their precondition says. -/
theorem leads_of_wpFrom
    (hholds : S.HoldsAt (base + BitVec.ofNat 32 here) (insnsFrom position here lines))
    (hreach : ReachFrom position here lines) (hp : cpu.p = base + BitVec.ofNat 32 here)
    (hnext : next = base + BitVec.ofNat 32 (here + linesSize lines))
    (h : Wp S (fun l ↦ base + BitVec.ofInt 32 (position l)) next Q lines cpu) : S.Leads Q cpu := by
  induction lines generalizing here cpu Q with
  | nil =>
    obtain rfl : next = cpu.p := hnext.trans hp.symm
    exact h
  | cons line lines ih =>
    have hsize : here + linesSize (line :: lines) = here + line.size + linesSize lines := by
      rw [linesSize, List.map_cons, List.sum_cons, Nat.add_assoc]
      rfl
    have hplus : ∀ k, cpu.p + BitVec.ofNat 32 k = base + BitVec.ofNat 32 (here + k) := by
      intro k
      rw [hp, BitVec.add_assoc, BitVec.ofNat_add]
    rw [insnsFrom, Setting.holdsAt_append, ← hp] at hholds
    obtain ⟨hline, hrest⟩ := hholds
    rw [hsize] at hnext
    rw [hplus] at hrest
    cases line with
    | insn i =>
      refine .insn (Setting.holdsAt_cons.mp hline).1 h.1 ?_
      have hrun := h.2
      split at hrun
      · exact hrun
      · rename_i hstraight
        apply ih hrest hreach.2 _ hnext hrun
        rw [Insn.exec_p S.undef cpu (by simpa using hstraight)]
        exact hplus 1
    | goto l => exact .goto (Setting.holdsAt_cons.mp hline).1 hreach.1 hp h
    | jnzrel cond l =>
      apply Setting.Leads.jnzrel (Setting.holdsAt_cons.mp hline).1 hreach.1 hp
      · intro htrue
        rwa [Wp, if_pos htrue] at h
      · intro hne
        rw [Wp, if_neg hne] at h
        exact ⟨h.1, ih hrest hreach.2 (hplus 1) hnext h.2⟩
    | jzrel cond l =>
      apply Setting.Leads.jzrel (Setting.holdsAt_cons.mp hline).1 hreach.1 hp
      · intro hfalse
        rwa [Wp, if_pos hfalse] at h
      · intro hne
        rw [Wp, if_neg hne] at h
        exact ⟨h.1, ih hrest hreach.2 (hplus 1) hnext h.2⟩
    | call l =>
      apply Setting.Leads.call hline hreach.1 hp h.1
      apply h.2.bind
      rintro back - ⟨hback, hwp⟩
      exact ih hrest hreach.2 (hback.trans (hplus 3)) hnext hwp
    | callr r =>
      apply Setting.Leads.callr hline h.1
      apply h.2.bind
      rintro back - ⟨hback, hwp⟩
      exact ih hrest hreach.2 (hback.trans (hplus 3)) hnext hwp

/-! ## Blocks -/

theorem Line.length_insns (line : Line L) : (line.insns position here).length = line.size := by
  cases line <;> rfl

theorem linesSize_cons (line : Line L) : linesSize (line :: lines) = line.size + linesSize lines := by
  rw [linesSize, List.map_cons, List.sum_cons]
  rfl

theorem length_insnsFrom : (insnsFrom position here lines).length = linesSize lines := by
  induction lines generalizing here with
  | nil => rfl
  | cons line lines ih =>
    rw [insnsFrom, List.length_append, ih, Line.length_insns, linesSize_cons]

variable {lines' : List (Line L)}

theorem insnsFrom_append : insnsFrom position here (lines ++ lines') =
    insnsFrom position here lines ++ insnsFrom position (here + linesSize lines) lines' := by
  induction lines generalizing here with
  | nil => rfl
  | cons line lines ih =>
    rw [List.cons_append, insnsFrom, insnsFrom, ih, linesSize_cons, Nat.add_assoc, List.append_assoc]

theorem reachFrom_append : ReachFrom position here (lines ++ lines') ↔
    ReachFrom position here lines ∧ ReachFrom position (here + linesSize lines) lines' := by
  induction lines generalizing here with
  | nil => exact (iff_of_eq (true_and _)).symm
  | cons line lines ih =>
    rw [List.cons_append, ReachFrom, ReachFrom, ih, linesSize_cons, Nat.add_assoc, and_assoc]

variable [DecidableEq L] {code : Code L} {linesOf : L → List (Line L)} {labels : List L} {l : L} {n : ℕ}

/-- The lines under a label are where the label is. -/
theorem holdsAt_lines (hholds : S.HoldsAt (base + BitVec.ofNat 32 here)
      (insnsFrom position here (labels.flatMap linesOf)))
    (hreach : ReachFrom position here (labels.flatMap linesOf))
    (hoffset : offsetIn linesOf l labels = some n) :
    S.HoldsAt (base + BitVec.ofNat 32 (here + n)) (insnsFrom position (here + n) (linesOf l)) ∧
      ReachFrom position (here + n) (linesOf l) := by
  induction labels generalizing here n with
  | nil => cases hoffset
  | cons l' labels ih =>
    rw [List.flatMap_cons, insnsFrom_append, Setting.holdsAt_append, length_insnsFrom,
      BitVec.add_assoc, ← BitVec.ofNat_add] at hholds
    rw [List.flatMap_cons, reachFrom_append] at hreach
    rw [offsetIn] at hoffset
    split at hoffset
    · rename_i heq
      obtain rfl := Option.some.inj hoffset
      exact heq ▸ ⟨hholds.1, hreach.1⟩
    · obtain ⟨m, hm, rfl⟩ := Option.map_eq_some_iff.mp hoffset
      rw [← Nat.add_assoc]
      exact ih hholds.2 hreach.2 hm

section

variable {far : L → ℤ} (h : Placed S code far base) (hoffset : code.offset l = some n)

include h hoffset

theorem Placed.block : code.position far l = n ∧
    S.HoldsAt (base + BitVec.ofNat 32 n) (insnsFrom (code.position far) n (code.lines l)) ∧
      ReachFrom (code.position far) n (code.lines l) := by
  have hzero : base + BitVec.ofNat 32 0 = base := BitVec.add_zero _
  obtain ⟨hholds, hreach⟩ := holdsAt_lines (hzero.symm ▸ h.holds) h.reach hoffset
  rw [Nat.zero_add] at hholds hreach
  refine ⟨?_, hholds, hreach⟩
  rw [Code.position, hoffset, Option.map_some, Option.getD_some]

/-- A run from a label. -/
theorem Placed.leads (hp : cpu.p = code.addr far base l)
    (hwp : Wp S (code.addr far base) (code.endAddr far base l) Q (code.lines l) cpu) :
    S.Leads Q cpu := by
  obtain ⟨hposition, hholds, hreach⟩ := h.block hoffset
  refine leads_of_wpFrom hholds hreach ?_ ?_ hwp
  · rw [hp, Code.addr, hposition, BitVec.ofInt_natCast]
  · rw [Code.endAddr, hposition, ← Int.natCast_add, BitVec.ofInt_natCast]

/-- The first step of a run from a label, and the rest of the run. -/
theorem Placed.step {i : Insn} (hlines : code.lines l = .insn i :: lines) (hjumps : i.jumps = false)
    (hp : cpu.p = code.addr far base l)
    (hwp : Wp S (code.addr far base) (code.endAddr far base l) Q (code.lines l) cpu)
    (hloaded : S.Loaded cpu.mem) :
    ∃ next, cpu.step S.undef = some next ∧ S.Loaded next.mem ∧ S.Leads Q next := by
  obtain ⟨hposition, hholds, hreach⟩ := h.block hoffset
  have hp' : cpu.p = base + BitVec.ofNat 32 n := by
    rw [hp, Code.addr, hposition, BitVec.ofInt_natCast]
  have hend : code.endAddr far base l =
      base + BitVec.ofNat 32 (n + 1 + linesSize lines) := by
    rw [Code.endAddr, hposition, ← Int.natCast_add, BitVec.ofInt_natCast, hlines, linesSize_cons,
      Nat.add_assoc]
    rfl
  rw [hlines] at hholds hreach hwp
  obtain ⟨hfirst, hrest⟩ := Setting.holdsAt_cons.mp hholds
  obtain ⟨hallows, hwp⟩ := hwp
  rw [if_neg (by rw [hjumps]; decide)] at hwp
  obtain ⟨hstep, hkept⟩ := S.step_insn (hp'.symm ▸ hfirst) hallows hloaded
  refine ⟨_, hstep, hkept.loaded hloaded, ?_⟩
  apply leads_of_wpFrom _ hreach.2 _ hend hwp
  · rw [BitVec.ofNat_add, ← BitVec.add_assoc]
    exact hrest
  · rw [Insn.exec_p S.undef cpu hjumps, hp', BitVec.ofNat_add, ← BitVec.add_assoc]
    rfl

end

end

end Tenyr.Stdlib
