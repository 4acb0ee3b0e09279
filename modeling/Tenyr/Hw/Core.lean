import Tenyr.Isa.Instruction

/-!
# The Verilog core

Modules `Reg`, `Decode`, `Shuf`, `Exec` and `Core`. Combinational outputs are functions of the
registers; `tick` is one rising clock edge, on which all non-blocking assignments read the old
values.
-/

namespace Tenyr.Hw

open Isa

/-! ## Decode and Shuf -/

section Decode

variable (insn : Word)

def idxZ : RegIndex := insn.extractLsb' 24 4
def idxX : RegIndex := insn.extractLsb' 20 4
def tI : BitVec 20 := insn.extractLsb' 0 20
def kind : BitVec 2 := insn.extractLsb' 30 2
def dd : BitVec 2 := insn.extractLsb' 28 2

def idxY : RegIndex :=
  if kind insn = 3#2 then 0#4 else (tI insn).extractLsb' 16 4

def op : BitVec 4 :=
  if kind insn = 3#2 then 0#4 else (tI insn).extractLsb' 12 4

def valI : Word :=
  if kind insn = 3#2 then (tI insn).signExtend 32
  else ((tI insn).extractLsb' 0 12).signExtend 32

def storing : Bool := (dd insn).getLsbD 1 ^^ (dd insn).getLsbD 0
def loading : Bool := (dd insn).getLsbD 1 && (dd insn).getLsbD 0
def derefRhs : Bool := (dd insn).getLsbD 0
def branching : Bool := idxZ insn == 15#4 && !storing insn

end Decode

/-- Values presented to the execution pipeline. -/
structure Shuffled where
  valA : Word
  valB : Word
  valC : Word

def shuf (kind : BitVec 2) (valX valY valI : Word) : Shuffled :=
  match kind with
  | 0#2 => { valA := valX, valB := valY, valC := valI }
  | 1#2 => { valA := valX, valB := valI, valC := valY }
  | 2#2 => { valA := valI, valB := valX, valC := valY }
  | _ => { valA := 0#32, valB := valX, valC := valI }

/-! ## Exec -/

structure Exec where
  rop : BitVec 4
  valZ : Word
  rY : Word
  rZ : Word
  rA : Word
  rB : Word
  rC : Word
  done : Bool
  add : Bool
  act : Bool
  staged : Bool

/-- The `case (rop)` of `Exec`; operands are signed except for the logical shift. -/
def execY (rop : BitVec 4) (rA rB : Word) : Word :=
  match rop with
  | 0x0#4 => rA ||| rB
  | 0x8#4 => rA ||| ~~~rB
  | 0x1#4 => rA &&& rB
  | 0x9#4 => rA &&& ~~~rB
  | 0x2#4 => rA ^^^ rB
  | 0xa#4 => ((rA.extractLsb' 0 20 ++ rB.extractLsb' 0 12 : BitVec (20 + 12)))
  | 0x3#4 => rA.sshiftRight' rB
  | 0xb#4 => rA >>> rB
  | 0x4#4 => rA + rB
  | 0xc#4 => rA - rB
  | 0x5#4 => rA * rB
  | 0xd#4 => rA <<< rB
  | 0x6#4 => negBool (rA == rB)
  | 0xe#4 => negBool (!(!(rA &&& (1#32 <<< rB) != 0#32)))
  | 0x7#4 => negBool (rA.slt rB)
  | _ => negBool (rB.sle rA)

def Exec.tick (e : Exec) (en : Bool) (op : BitVec 4) (val : Shuffled) : Exec where
  rop := op
  valZ := e.rZ
  rA := val.valA
  rB := val.valB
  rC := val.valC
  done := e.add
  add := e.act
  act := e.staged
  staged := en
  rY := if e.staged then execY e.rop e.rA e.rB else e.rY
  rZ := if e.act then e.rY + e.rC else e.rZ

/-! ## Reg and Core -/

inductive CoreFsm where
  | s0 | s1 | s2 | s3 | s4 | s5 | s6
  deriving DecidableEq, Repr

structure Core where
  state : CoreFsm
  adrO : Word
  insn : Word
  data : Word
  irhs : Word
  nextP : Word
  exec : Exec
  /-- `store[0:14]` of `Reg`. -/
  store : RegIndex → Word

/-- Inputs sampled at a clock edge; `haltIn` is what others drive onto the `halt` wire. -/
structure Input where
  reset : Bool
  datI : Word
  ackI : Bool
  errI : Bool
  rtyI : Bool
  haltIn : Bool

def resetVector : Word := 0x1000#32

namespace Core

variable (c : Core)

/-- A read port of `Reg`. -/
def read (idx : RegIndex) : Word :=
  if idx = 15#4 then c.nextP else c.store idx

def valX : Word := c.read (idxX c.insn)
def valY : Word := c.read (idxY c.insn)
def valZ : Word := c.read (idxZ c.insn)

def shuffled : Shuffled :=
  shuf (kind c.insn) c.valX c.valY (valI c.insn)

def nextZ : Word := if derefRhs c.insn then c.data else c.irhs
def nextI : Word := if branching c.insn then c.nextZ else c.nextP
def adrD : Word := if derefRhs c.insn then c.irhs else c.valZ

def memory : Bool := loading c.insn || storing c.insn
def iStrb : Bool := c.state == .s5
def dStrb : Bool := c.state == .s3 && c.memory
def upZ : Bool := c.state == .s4 && !storing c.insn
def stbO : Bool := c.dStrb || c.iStrb
def wenO : Bool := c.dStrb && storing c.insn
def datO : Word := if derefRhs c.insn then c.valZ else c.irhs

/-- The register file after a clock edge. -/
def nextStore : RegIndex → Word :=
  if c.upZ && idxZ c.insn != 0#4 && idxZ c.insn != 15#4 then
    Function.update c.store (idxZ c.insn) c.nextZ
  else c.store

/-- `wor halt`. -/
def halt (i : Input) : Bool := i.haltIn || (i.errI || i.rtyI)

def tick (i : Input) : Core :=
  let next : Core :=
    { c with
      exec := c.exec.tick (c.state == .s0) (op c.insn) c.shuffled
      store := c.nextStore }
  if i.reset then { next with state := .s5, adrO := resetVector }
  else
    match c.state with
    | .s0 => { next with state := if halt i then .s0 else .s1 }
    | .s1 => { next with state := if c.exec.done then .s2 else .s1, irhs := c.exec.valZ }
    | .s2 => { next with state := if c.memory then .s3 else .s4, adrO := c.adrD }
    | .s3 => { next with state := if i.ackI then .s4 else .s3, data := i.datI }
    | .s4 => { next with state := .s5, adrO := c.nextI }
    | .s5 => { next with state := if i.ackI then .s6 else .s5, nextP := c.adrO + 1#32 }
    | .s6 => { next with state := .s0, insn := i.datI }

end Core

end Tenyr.Hw
