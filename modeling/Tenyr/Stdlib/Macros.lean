import Tenyr.Stdlib.Run

/-!
# The macros of the library

`common.th` and `push.th`: the stack grows downward, and the registers that are pushed together stand in
their order, the first one highest.
-/

namespace Tenyr.Stdlib

open Isa Sim

/-! ## Right-hand sides -/

namespace Rhs

@[simp]
def reg (x : Reg) : Rhs := type0 x .bitwiseOr .a 0#12

@[simp]
def imm (imm : BitVec 12) : Rhs := type0 .a .bitwiseOr .a imm

@[simp]
def regReg (x : Reg) (op : Op) (y : Reg) : Rhs := type0 x op y 0#12

@[simp]
def regImm (x : Reg) (op : Op) (imm : BitVec 12) : Rhs := type1 x op imm .a

@[simp]
def regImmReg (x : Reg) (op : Op) (imm : BitVec 12) (y : Reg) : Rhs := type1 x op imm y

@[simp]
def immReg (imm : BitVec 12) (op : Op) (x : Reg) : Rhs := type2 imm op x .a

end Rhs

/-! ## The stack -/

section

variable {L : Type}

/-- `writeall_(o, ...)` -/
def writeall : ℕ → List Reg → List (Line L)
  | _, [] => []
  | off, r :: rs =>
    writeall (off - 1) rs ++ [.insn (.store r (.regImm .o .add (BitVec.ofNat 12 off)))]

/-- `loadall_(o, ...)` -/
def loadall : ℕ → List Reg → List (Line L)
  | _, [] => []
  | off, r :: rs => loadall (off + 1) rs ++ [.insn (.load r (.regImm .o .add (-BitVec.ofNat 12 off)))]

def pushall (rs : List Reg) : List (Line L) :=
  .insn (.assign .o (.regImm .o .add (-BitVec.ofNat 12 rs.length))) :: writeall rs.length rs

def popall (rs : List Reg) : List (Line L) :=
  .insn (.assign .o (.regImm .o .add (BitVec.ofNat 12 rs.length))) :: loadall 0 rs

def pop (r : Reg) : List (Line L) :=
  [.insn (.assign .o (.regImm .o .add 1#12)), .insn (.load r (.reg .o))]

def push (rhs : Rhs) : List (Line L) :=
  [.insn (.storeTo .o rhs), .insn (.assign .o (.regImm .o .add (-1#12)))]

def ret : List (Line L) := pop .p

end

/-- Memory with values from `top` downward. -/
def saved (mem : Word → Word) (top : Word) (values : List Word) : Word → Word :=
  fun a ↦ (values[(top - a).toNat]?).getD (mem a)

/-- Stack cells from `top` downward. -/
def stack (top : Word) (size : ℕ) : Set Word := {a | (top - a).toNat < size}

section

variable {mem : Word → Word} {top a : Word} {values : List Word}

@[simp]
theorem saved_add (x : Word) :
    saved mem top values (top + x) = (values[(-x).toNat]?).getD (mem (top + x)) := by
  have hback : top - (top + x) = -x := sub_add_cancel_left top x
  rw [saved, hback]

@[simp]
theorem saved_top : saved mem top values top = (values[0]?).getD (mem top) := by
  rw [saved, BitVec.sub_self]
  rfl

theorem saved_of_notMem (h : a ∉ stack top values.length) : saved mem top values a = mem a := by
  rw [saved, List.getElem?_eq_none (Nat.le_of_not_lt h), Option.getD_none]

theorem eqOn_saved : Set.EqOn (saved mem top values) mem (stack top values.length)ᶜ :=
  fun _ ha ↦ saved_of_notMem ha

theorem saved_cons (value : Word) :
    saved mem (top + 1#32) (value :: values) =
      Function.update (saved mem top values) (top + 1#32) value := by
  funext a
  by_cases ha : a = top + 1#32
  · rw [ha, saved_top, Function.update_self]
    rfl
  · rw [Function.update_of_ne ha, saved, saved]
    have hback : (top + 1#32 - a).toNat = (top - a).toNat + 1 := by
      bv_omega
    rw [hback, List.getElem?_cons_succ]

end

section

variable {S : Setting} {L : Type} {addr : L → Word} {next : Word} {Q : Cpu → Prop} {cpu : Cpu}
  {lines : List (Line L)} {rs : List Reg}

theorem Cpu.get_of_ne (cpu : Cpu) (mem : Word → Word) (p : Word) {r : Reg} (hr : r ≠ .p) :
    Cpu.get { cpu with mem, p } r = cpu.get r := by
  cases r <;> first | rfl | exact absurd rfl hr

theorem signExtend_ofNat {n : ℕ} (hn : n < 2048) :
    (BitVec.ofNat 12 n).signExtend 32 = BitVec.ofNat 32 n := by
  rw [← BitVec.ofInt_natCast, ← BitVec.ofInt_natCast]
  exact signExtend_ofInt (by omega) (by omega)

theorem signExtend_neg_ofNat {n : ℕ} (hn : n < 2048) :
    (-BitVec.ofNat 12 n).signExtend 32 = -BitVec.ofNat 32 n := by
  rw [← BitVec.ofInt_natCast, ← BitVec.ofInt_natCast, ← BitVec.ofInt_neg, ← BitVec.ofInt_neg]
  exact signExtend_ofInt (by omega) (by omega)

theorem stack_subset_succ {top : Word} (size : ℕ) : stack top size ⊆ stack (top + 1#32) (size + 1) := by
  intro a ha
  change (top + 1#32 - a).toNat < size + 1
  have hsize : (top - a).toNat < size := ha
  by_cases htop : a = top + 1#32
  · rw [htop, BitVec.sub_self]
    exact Nat.succ_pos size
  · bv_omega

theorem stack_subset {top : Word} {size size' : ℕ} (h : size ≤ size') : stack top size ⊆ stack top size' :=
  fun _ ha ↦ Nat.lt_of_lt_of_le ha h

theorem stack_sub_subset {top x : Word} {size size' : ℕ} (h : x.toNat + size ≤ size') :
    stack (top - x) size ⊆ stack top size' := by
  intro a ha
  have hdistance : (top - x - a).toNat < size := ha
  change (top - a).toNat < size'
  bv_omega

theorem notMem_stack {top x y : Word} {size : ℕ} (h : size ≤ (-(y + x)).toNat) :
    top + x ∉ stack (top - y) size := by
  have hdistance : top - y - (top + x) = -(y + x) := by
    rw [sub_sub, ← add_assoc, add_comm y, add_assoc, sub_add_cancel_left]
  change ¬ (top - y - (top + x)).toNat < size
  rw [hdistance]
  exact Nat.not_lt.mpr h

theorem top_mem_stack (top : Word) {size : ℕ} (hsize : 0 < size) : top ∈ stack top size := by
  change (top - top).toNat < size
  rw [BitVec.sub_self]
  exact hsize

theorem sub_mem_stack {top x : Word} {size : ℕ} (h : x.toNat < size) : top - x ∈ stack top size :=
  stack_sub_subset (Nat.succ_le_of_lt h) (top_mem_stack (top - x) Nat.one_pos)

section

variable {mem mem' : Word → Word} {top : Word} {values : List Word}

theorem saved_concat (value : Word) (hlength : values.length < 2 ^ 32) :
    saved mem top (values ++ [value]) =
      Function.update (saved mem top values) (top - BitVec.ofNat 32 values.length) value := by
  funext a
  by_cases ha : a = top - BitVec.ofNat 32 values.length
  · have hback : top - (top - BitVec.ofNat 32 values.length) = BitVec.ofNat 32 values.length :=
      sub_sub_cancel top _
    rw [ha, Function.update_self, saved, hback, BitVec.toNat_ofNat, Nat.mod_eq_of_lt hlength,
      List.getElem?_concat_length, Option.getD_some]
  · have hother : (top - a).toNat ≠ values.length := by
      intro heq
      rw [← heq, BitVec.ofNat_toNat, BitVec.setWidth_eq] at ha
      exact ha (sub_sub_cancel top a).symm
    rw [Function.update_of_ne ha, saved, saved]
    rcases Nat.lt_or_gt_of_ne hother with hlt | hgt
    · rw [List.getElem?_append_left hlt]
    · have hlonger : (values ++ [value]).length ≤ (top - a).toNat := by
        rw [List.length_append]
        exact hgt
      rw [List.getElem?_eq_none hlonger, List.getElem?_eq_none hgt.le]

/-- One more value below those that were pushed. -/
theorem eqOn_update_saved {x : Word} {need : ℕ} (value : Word) (hx : x.toNat < need)
    (hlength : values.length ≤ need) :
    Set.EqOn (Function.update (saved mem top values) (top - x) value) mem (stack top need)ᶜ := by
  intro a ha
  rw [Function.update_of_ne, saved_of_notMem fun hin ↦ ha (stack_subset hlength hin)]
  rintro rfl
  exact ha (sub_mem_stack hx)

/-- What was pushed before a call, and the stack of the callee, do not reach below. -/
theorem eqOn_union_of_saved {cells : Set Word} {x : Word} {size need : ℕ}
    (h : Set.EqOn mem' (saved mem top values) (cells ∪ stack (top - x) size)ᶜ)
    (hsize : x.toNat + size ≤ need) (hlength : values.length ≤ need) :
    Set.EqOn mem' mem (cells ∪ stack top need)ᶜ := by
  intro a ha
  rw [h fun hin ↦ ha (Set.union_subset_union_right cells (stack_sub_subset hsize) hin)]
  exact saved_of_notMem fun hin ↦ ha (.inr (stack_subset hlength hin))

theorem eqOn_of_saved {x : Word} {size need : ℕ}
    (h : Set.EqOn mem' (saved mem top values) (stack (top - x) size)ᶜ) (hsize : x.toNat + size ≤ need)
    (hlength : values.length ≤ need) : Set.EqOn mem' mem (stack top need)ᶜ := by
  rw [← Set.empty_union (stack (top - x) size)] at h
  rw [← Set.empty_union (stack top need)]
  exact eqOn_union_of_saved h hsize hlength

end

/-- Storing registers from an address downward. -/
theorem wp_writeall (hlength : rs.length < 2048) (hrs : .p ∉ rs)
    (hwritable : stack (cpu.o + BitVec.ofNat 32 rs.length) rs.length ⊆ S.writable)
    (h : Wp S addr next Q lines { cpu with
      mem := saved cpu.mem (cpu.o + BitVec.ofNat 32 rs.length) (rs.map cpu.get)
      p := cpu.p + BitVec.ofNat 32 rs.length }) :
    Wp S addr next Q (writeall rs.length rs ++ lines) cpu := by
  induction rs generalizing lines with
  | nil =>
    have hsame : ({ cpu with
        mem := saved cpu.mem (cpu.o + BitVec.ofNat 32 ([] : List Reg).length) (([] : List Reg).map cpu.get)
        p := cpu.p + BitVec.ofNat 32 ([] : List Reg).length } : Cpu) = cpu := by
      have hp : cpu.p + 0#32 = cpu.p := BitVec.add_zero _
      exact Cpu.ext rfl rfl rfl rfl rfl rfl rfl rfl rfl rfl rfl rfl rfl rfl hp rfl
    exact hsame ▸ h
  | cons r rs ih =>
    rw [List.length_cons] at hlength hwritable h
    rw [List.mem_cons, not_or] at hrs
    have hsucc : cpu.o + BitVec.ofNat 32 (rs.length + 1) =
        cpu.o + BitVec.ofNat 32 rs.length + 1#32 := by
      rw [BitVec.ofNat_add, ← BitVec.add_assoc]
    have hsuccP : cpu.p + BitVec.ofNat 32 (rs.length + 1) =
        cpu.p + BitVec.ofNat 32 rs.length + 1#32 := by
      rw [BitVec.ofNat_add, ← BitVec.add_assoc]
    rw [List.length_cons, writeall, List.append_assoc, Nat.add_sub_cancel]
    rw [hsucc] at hwritable
    apply ih (by omega) hrs.2 ((stack_subset_succ rs.length).trans hwritable)
    have haddress : combine S.undef .add cpu.o ((BitVec.ofNat 12 (rs.length + 1)).signExtend 32) 0#32 =
        cpu.o + BitVec.ofNat 32 rs.length + 1#32 := by
      rw [signExtend_ofNat hlength, ← hsucc]
      exact BitVec.add_zero _
    refine ⟨?_, ?_⟩
    · intro a ha
      obtain rfl := (Option.some.inj ha).symm.trans haddress
      exact hwritable (top_mem_stack _ (Nat.succ_pos _))
    · rw [hsucc, hsuccP, List.map_cons, saved_cons] at h
      have hstored : Cpu.get { cpu with
          mem := saved cpu.mem (cpu.o + BitVec.ofNat 32 rs.length) (rs.map cpu.get)
          p := cpu.p + BitVec.ofNat 32 rs.length + 1#32 } r = cpu.get r :=
        cpu.get_of_ne _ _ fun heq ↦ hrs.1 heq.symm
      rw [← hstored, ← haddress] at h
      exact h

theorem wp_pushall (hlength : rs.length < 2048) (hrs : .p ∉ rs) (hrs' : .o ∉ rs)
    (hwritable : stack cpu.o rs.length ⊆ S.writable)
    (h : Wp S addr next Q lines { cpu with
      mem := saved cpu.mem cpu.o (rs.map cpu.get)
      o := cpu.o - BitVec.ofNat 32 rs.length
      p := cpu.p + 1#32 + BitVec.ofNat 32 rs.length }) :
    Wp S addr next Q (pushall rs ++ lines) cpu := by
  have hback : cpu.o - BitVec.ofNat 32 rs.length + BitVec.ofNat 32 rs.length = cpu.o :=
    sub_add_cancel _ _
  have hget : rs.map (Cpu.get { cpu with o := cpu.o - BitVec.ofNat 32 rs.length, p := cpu.p + 1#32 }) =
      rs.map cpu.get := by
    apply List.map_congr_left
    intro r hr
    have hp : r ≠ .p := fun heq ↦ hrs (heq ▸ hr)
    have ho : r ≠ .o := fun heq ↦ hrs' (heq ▸ hr)
    cases r <;> first | rfl | exact absurd rfl hp | exact absurd rfl ho
  have hexec : Insn.exec S.undef (.assign .o (.regImm .o .add (-BitVec.ofNat 12 rs.length))) cpu =
      { cpu with o := cpu.o - BitVec.ofNat 32 rs.length, p := cpu.p + 1#32 } := by
    simp [Insn.exec, Rhs.regImm, Rhs.value, combine, dropsAddend, opValue, Cpu.get, Cpu.set,
      signExtend_neg_ofNat hlength, BitVec.sub_eq_add_neg]
  refine ⟨?_, ?_⟩
  · rintro a ⟨⟩
  · change Wp S addr next Q (writeall rs.length rs ++ lines) (Insn.exec S.undef _ cpu)
    rw [hexec]
    apply wp_writeall hlength hrs
    · rw [hback]
      exact hwritable
    · rw [hback, hget]
      exact h

/-- `push(Expr)` -/
theorem wp_push {rhs : Rhs} (hwritable : cpu.o ∈ S.writable)
    (h : Wp S addr next Q lines { cpu with
      mem := Function.update cpu.mem cpu.o (rhs.value S.undef { cpu with p := cpu.p + 1#32 })
      o := cpu.o - 1#32, p := cpu.p + 2#32 }) :
    Wp S addr next Q (push rhs ++ lines) cpu := by
  refine ⟨?_, ?_⟩
  · intro a ha
    obtain rfl : cpu.o = a := Option.some.inj ha
    exact hwritable
  · have hnext : cpu.p + 1#32 + 1#32 = cpu.p + 2#32 := BitVec.add_assoc _ _ _
    simpa [combine, dropsAddend, opValue, BitVec.sub_eq_add_neg, hnext] using h

/-- A stack that is not over code leaves room in memory. -/
theorem Setting.stack_lt {a top : Word} {size : ℕ} {insn : Insn} (hat : S.insnAt a = some insn)
    (hstack : stack top size ⊆ S.writable) : size < 2 ^ 32 := by
  have hcode : a ∉ stack top size := by
    intro ha
    rw [S.apart a (hstack ha)] at hat
    cases hat
  exact Nat.lt_of_le_of_lt (Nat.not_lt.mp hcode) (top - a).isLt

end

/-! ## Calls -/

/-- A routine ends: its return address is taken from the stack. -/
structure Returns (cpu next : Cpu) : Prop where
  p : next.p = cpu.mem (cpu.o + 1#32)
  o : next.o = cpu.o + 1#32

/-- It also leaves everything but `B`, `C` and `D` as it was, and memory but for its own stack. -/
structure Keeps (size : ℕ) (cpu next : Cpu) : Prop extends Returns cpu next where
  e : next.e = cpu.e
  f : next.f = cpu.f
  g : next.g = cpu.g
  h : next.h = cpu.h
  i : next.i = cpu.i
  j : next.j = cpu.j
  k : next.k = cpu.k
  l : next.l = cpu.l
  m : next.m = cpu.m
  n : next.n = cpu.n
  mem : Set.EqOn next.mem cpu.mem (stack cpu.o size)ᶜ

/-- What a call leaves as it was, when the callee leaves it so. -/
theorem Cpu.eqOn_called {cpu : Cpu} {start : Word} {mem : Word → Word} {size : ℕ}
    (h : Set.EqOn mem (cpu.called start).mem (stack (cpu.o - 1#32) size)ᶜ) :
    Set.EqOn mem cpu.mem (stack cpu.o (size + 1))ᶜ := by
  intro a ha
  have hsub : stack (cpu.o - 1#32) size ⊆ stack cpu.o (size + 1) :=
    stack_sub_subset (Nat.le_of_eq (Nat.add_comm 1 size))
  rw [h fun hmem ↦ ha (hsub hmem)]
  apply Function.update_of_ne
  intro heq
  exact ha (heq ▸ top_mem_stack cpu.o (Nat.succ_pos size))

theorem Keeps.eq {cpu next : Cpu} {start : Word} {size : ℕ} (h : Keeps size (cpu.called start) next) :
    next = { cpu with b := next.b, c := next.c, d := next.d, mem := next.mem, p := cpu.p + 3#32 } := by
  have ho : next.o = cpu.o := h.o.trans (sub_add_cancel cpu.o 1#32)
  have hp : next.p = cpu.p + 3#32 := by
    rw [h.p, Cpu.called, sub_add_cancel]
    exact Function.update_self cpu.o _ cpu.mem
  exact Cpu.ext rfl rfl rfl h.e h.f h.g h.h h.i h.j h.k h.l h.m h.n ho hp rfl

/-- A call through a register of a routine that keeps the other registers. -/
theorem wp_callr {L : Type} {S : Setting} {addr : L → Word} {next : Word} {Q : Cpu → Prop} {cpu : Cpu}
    {lines : List (Line L)} {r : Reg} {start : Word} {size : ℕ} {Answers : Word → Prop}
    (hr : Cpu.get (cpu.called (cpu.p + 3#32)) r = start) (ho : cpu.o ∈ S.writable)
    (hcall : S.Leads (fun back ↦ Keeps size (cpu.called start) back ∧ Answers back.b)
      (cpu.called start))
    (h : ∀ b c d mem, Answers b → Set.EqOn mem cpu.mem (stack cpu.o (size + 1))ᶜ →
      Wp S addr next Q lines { cpu with b, c, d, mem, p := cpu.p + 3#32 }) :
    Wp S addr next Q (.callr r :: lines) cpu := by
  refine ⟨ho, ?_⟩
  rw [hr]
  apply hcall.mono
  rintro back - ⟨hkeeps, hanswer⟩
  have hback := hkeeps.eq
  refine ⟨congrArg Cpu.p hback, ?_⟩
  rw [hback]
  exact h _ _ _ _ hanswer (Cpu.eqOn_called hkeeps.mem)

/-- Code alone in memory, at the lowest addresses. -/
def Setting.alone (undef : UndefinedShifts) (insns : List Insn) (hlength : insns.length < 2 ^ 31) :
    Setting where
  undef
  insnAt a := insns[a.toNat]?
  writable := {a | insns.length ≤ a.toNat}
  fetched := List.getElem?_eq_none (Nat.le_trans (Nat.le_of_lt hlength) (by decide))
  apart _ ha := List.getElem?_eq_none ha

/-- Memory with that code and some words behind it, and with an address on the stack where the simulator
ends. -/
def aloneMem (insns : List Insn) (data : List Word) (top : Word) : Word → Word := fun a ↦
  if a = top + 1#32 then 0xffffffff#32 else ((insns.map Insn.word ++ data)[a.toNat]?).getD 0#32

/-- Such a machine where it starts, with two arguments. -/
def aloneCpu (insns : List Insn) (data : List Word) (top c d : Word) : Cpu where
  b := 0#32
  c
  d
  e := 0#32
  f := 0#32
  g := 0#32
  h := 0#32
  i := 0#32
  j := 0#32
  k := 0#32
  l := 0#32
  m := 0#32
  n := 0#32
  o := top
  p := 0#32
  mem := aloneMem insns data top

section

variable {undef : UndefinedShifts} {insns : List Insn} {hlength : insns.length < 2 ^ 31} {top : Word}
  {data : List Word}

theorem Setting.alone_loaded (htop : insns.length ≤ (top + 1#32).toNat) :
    (Setting.alone undef insns hlength).Loaded (aloneMem insns data top) := by
  intro a insn ha
  have hat : insns[a.toNat]? = some insn := ha
  rw [aloneMem, if_neg]
  · have hlt := (List.getElem?_eq_some_iff.mp hat).1
    rw [List.getElem?_append_left (by rwa [List.length_map]), List.getElem?_map, hat]
    rfl
  · rintro rfl
    rw [List.getElem?_eq_none htop] at hat
    cases hat

theorem aloneMem_data {k : ℕ} (hbelow : insns.length + k < (top + 1#32).toNat) :
    aloneMem insns data top (BitVec.ofNat 32 insns.length + BitVec.ofNat 32 k) =
      (data[k]?).getD 0#32 := by
  have htop := (top + 1#32).isLt
  have hnat : (BitVec.ofNat 32 insns.length + BitVec.ofNat 32 k).toNat = insns.length + k := by
    rw [← BitVec.ofNat_add, BitVec.toNat_ofNat]
    exact Nat.mod_eq_of_lt (by omega)
  rw [aloneMem, if_neg, hnat, List.getElem?_append_right (by rw [List.length_map]; omega),
    List.length_map, Nat.add_sub_cancel_left]
  intro heq
  rw [← heq, hnat] at hbelow
  exact Nat.lt_irrefl _ hbelow

theorem Returns.alone {c d : Word} {next : Cpu} (h : Returns (aloneCpu insns data top c d) next) :
    next.p = 0xffffffff#32 :=
  h.p.trans (if_pos rfl)

theorem Setting.alone_stack {size : ℕ} (hsize : insns.length + size ≤ top.toNat) :
    stack top size ⊆ (Setting.alone undef insns hlength).writable := by
  intro a ha
  have hdistance : (top - a).toNat < size := ha
  change insns.length ≤ a.toNat
  bv_omega

theorem Setting.alone_placed_append {L : Type} [DecidableEq L] {code : Code L} {far : L → ℤ}
    {before after : List Insn}
    (hinsns : insns = before ++ insnsFrom (code.position far) 0 code.allLines ++ after)
    (hreach : ReachFrom (code.position far) 0 code.allLines) :
    Placed (Setting.alone undef insns hlength) code far (BitVec.ofNat 32 before.length) where
  holds := by
    intro k insn hk
    have hlt := (List.getElem?_eq_some_iff.mp hk).1
    have hat : insns[before.length + k]? = some insn := by
      rw [hinsns, List.append_assoc, List.getElem?_append_right (Nat.le_add_right _ _),
        Nat.add_sub_cancel_left, List.getElem?_append_left hlt, hk]
    have hbound := (List.getElem?_eq_some_iff.mp hat).1
    have hnat : (BitVec.ofNat 32 before.length + BitVec.ofNat 32 k).toNat = before.length + k := by
      rw [← BitVec.ofNat_add, BitVec.toNat_ofNat]
      exact Nat.mod_eq_of_lt (by omega)
    change insns[(BitVec.ofNat 32 before.length + BitVec.ofNat 32 k).toNat]? = _
    rw [hnat, hat]
  reach := hreach

theorem Setting.alone_placed {L : Type} [DecidableEq L] {code : Code L} {far : L → ℤ}
    {hlength : (insnsFrom (code.position far) 0 code.allLines).length < 2 ^ 31}
    (hreach : ReachFrom (code.position far) 0 code.allLines) :
    Placed (Setting.alone undef (insnsFrom (code.position far) 0 code.allLines) hlength) code far 0#32 :=
  @Setting.alone_placed_append undef _ hlength L _ code far [] [] (List.append_nil _).symm hreach

end

end Tenyr.Stdlib
