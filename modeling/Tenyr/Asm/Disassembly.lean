import Tenyr.Asm.Parser
import Tenyr.Asm.Program
import Tenyr.Fmt.Loader

/-!
# Disassembly and assembly of text

`print_disassembly` leaves out the operands that the type of an instruction can be inferred without,
and `do_assembly` reads a text. Buffers are as long as what is printed into them.
-/

namespace Tenyr.Asm

open Isa Obj Lib.Scan

/-! ## Printing numbers and names -/

/-- `%*s` to the left of what is printed. -/
def padLeft (width : ℕ) (text : List Char) : List Char :=
  List.replicate (width - text.length) ' ' ++ text

/-- `%-*s` -/
def padRight (width : ℕ) (text : List Char) : List Char :=
  text ++ List.replicate (width - text.length) ' '

/-- `%d` -/
def printInt (i : Word) : List Char :=
  if i.toInt < 0 then '-' :: Nat.toDigits 10 i.toInt.natAbs else Nat.toDigits 10 i.toInt.natAbs

/-- `0x%08x` -/
def printHexWord (w : Word) : List Char := '0' :: 'x' :: printHex8 w

/-- `regs` -/
def regName (x : RegIndex) : Char := Char.ofNat ('A'.toNat + x.toNat)

/-- `op_names` -/
def opName : Op → List Char
  | .add => ['+']
  | .subtract => ['-']
  | .multiply => ['*']
  | .pack => ['^', '^']
  | .testBit => ['@']
  | .compareLt => ['<']
  | .compareEq => ['=', '=']
  | .compareGe => ['>', '=']
  | .bitwiseOr => ['|']
  | .bitwiseOrn => ['|', '~']
  | .bitwiseAnd => ['&']
  | .bitwiseAndn => ['&', '~']
  | .bitwiseXor => ['^']
  | .shiftLeft => ['<', '<']
  | .shiftRightArith => ['>', '>']
  | .shiftRightLogic => ['>', '>', '>']

/-- `arrows` -/
def arrowName (dd : BitVec 2) : List Char := if dd = 1#2 then ['-', '>'] else ['<', '-']

/-! ## Printing words -/

/-- `is_printable`: what is printed for a character, if it is printable. -/
def isPrintable (ch : Word) : Option (List Char) :=
  match ch with
  | 0x20#32 => some [' ']
  | 0x5c#32 => some ['\\', '\\']
  | 0#32 => some ['\\', '0']
  | 8#32 => some ['\\', 'b']
  | 12#32 => some ['\\', 'f']
  | 10#32 => some ['\\', 'n']
  | 13#32 => some ['\\', 'r']
  | 9#32 => some ['\\', 't']
  | 11#32 => some ['\\', 'v']
  | ch => if 0x20 ≤ ch.toNat ∧ ch.toNat < 0x7f then some [Char.ofNat ch.toNat] else none

/-- `print_disassembly` with `ASM_AS_DATA`. -/
def printData (w : Word) : List Char := ['.', 'w', 'o', 'r', 'd', ' '] ++ printHexWord w

/-- `print_disassembly` with `ASM_AS_CHAR`. -/
def printChar (w : Word) : List Char :=
  match isPrintable w with
  | some buf => ['.', 'w', 'o', 'r', 'd', ' ', '\''] ++ buf ++ ['\''] ++ List.replicate (2 - buf.length) ' '
  | none => List.replicate 10 ' '

/-! ## Printing instructions -/

/-- Which operands are shown. -/
structure Shows where
  show1 : Bool
  show2 : Bool
  show3 : Bool
  deriving DecidableEq, Repr

def Shows.all : Shows := ⟨true, true, true⟩

def Shows.count (s : Shows) : ℕ := s.show1.toNat + s.show2.toNat + s.show3.toNat

/-- `sA`, `s6`, `sB` and `sC`, and which of them are shown. -/
structure Operands where
  sA : List Char
  s6 : List Char
  sB : List Char
  sC : List Char
  shows : Shows
  deriving DecidableEq, Repr

/-- `imm`, extended to the width of `i8`. -/
def printedImm (w : Word) : Word :=
  if fieldP w = 3#2 then (fieldImm20 w).signExtend 32 else (fieldImm12 w).signExtend 32

/-- The operands that are not zero or tell the type. -/
def firstShows (verbose : Bool) (w : Word) : Shows :=
  let p := fieldP w
  let x := fieldX w
  let y := fieldY w
  let imm := printedImm w
  let op := if p = 3#2 then .bitwiseOr else fieldOp w
  let mid := if p = 0#2 then y else if p = 2#2 then x else 0#4
  if verbose then .all
  else
    { show1 := (if 1#2 < p then imm ≠ 0#32 else x ≠ 0#4) ∨ op ≠ .bitwiseOr
      show2 := (if p = 1#2 then imm ≠ 0#32 else mid ≠ 0#4) ∨ op ≠ .bitwiseOr
      show3 := if p = 0#2 then imm ≠ 0#32 else y ≠ 0#4 }

/-- `s8` -/
def printImm (hex : Bool) (i : Word) : List Char := if hex then printHexWord i else printInt i

/-- The operands in the order of the type. -/
def orderOperands (verbose : Bool) (w : Word) : Operands :=
  let s5 := [regName (fieldX w)]
  let s6 := opName (fieldOp w)
  let s7 := [regName (fieldY w)]
  let s8 := printImm (verbose || fieldP w == 3#2) (printedImm w)
  let shows := firstShows verbose w
  match fieldP w with
  | 0#2 => ⟨s5, s6, s7, s8, shows⟩
  | 1#2 => ⟨s5, s6, s8, s7, shows⟩
  | 2#2 => ⟨s8, s6, s5, s7, shows⟩
  | _ => ⟨[], s6, s5, s8, ⟨false, shows.show2 || fieldX w != 0#4, true⟩⟩

/-- The edge cases where the type cannot be inferred from the operands that are shown. -/
def edgeOperands (w : Word) (o : Operands) : Operands :=
  let op := fieldOp w
  let x := fieldX w
  let y := fieldY w
  let imm := printedImm w
  if op = .subtract ∧ fieldP w = 1#2 then { o with shows := .all }
  else
    match fieldP w with
    | 0#2 =>
      if op = .subtract ∧ x = 0#4 then { o with sA := [' '], shows := { o.shows with show3 := true } }
      else if op = .bitwiseOrn ∧ x = 0#4 then
        { o with s6 := ['~'], sA := [' '], shows := { o.shows with show3 := true } }
      else if op = .bitwiseOr ∧ (if x ≠ 0#4 then y = 0#4 ∧ imm ≠ 0#32 else y ≠ 0#4) then
        { o with shows := .all }
      else o
    | 1#2 =>
      if op ≠ .bitwiseOr ∧ op ≠ .add ∧ y = 0#4 then
        { o with shows := { o.shows with show1 := true, show2 := true } }
      else if x = 0#4 ∨ y ≠ 0#4 ∨ op = .bitwiseOr then { o with shows := .all }
      else o
    | 2#2 =>
      if op = .subtract ∧ imm = 0#32 then { o with sA := [' '] }
      else if op = .bitwiseOrn ∧ imm = 0#32 then { o with s6 := ['~'], sA := [' '] }
      else if op ≠ .bitwiseOr ∧ y = 0#4 then
        { o with shows := { o.shows with show1 := true, show2 := true } }
      else if imm = 0#32 ∨ (op = .bitwiseOr ∧ x = 0#4) then { o with shows := .all }
      else o
    | _ => o

/-- The operands that are printed. -/
def printedOperands (verbose : Bool) (w : Word) : Operands :=
  let o := orderOperands verbose w
  let o := if o.shows.count < 3 then edgeOperands w o else o
  if fieldP w ≠ 3#2 ∧ o.shows.count = 0 then
    let all := fieldP w != 0#2
    { o with shows := ⟨all, all, all⟩ }
  else o

/-- `%3s` of an operator that is as wide as two characters. -/
def printOp (s6 : List Char) : List Char := padLeft 3 (padRight 2 s6)

/-- What the formats print between `c4` and `c9`; the other combinations are fatal. -/
def Operands.print (o : Operands) : Option (List Char) :=
  match o.shows with
  | ⟨false, false, false⟩ => some ['0']
  | ⟨false, false, true⟩ => some o.sC
  | ⟨false, true, true⟩ => some (o.sB ++ ' ' :: padLeft 3 [' ', '+', ' '] ++ ' ' :: o.sC)
  | ⟨true, false, false⟩ => some o.sA
  | ⟨true, true, false⟩ => some (o.sA ++ ' ' :: printOp o.s6 ++ ' ' :: o.sB)
  | ⟨true, true, true⟩ => some (o.sA ++ ' ' :: printOp o.s6 ++ ' ' :: o.sB ++ [' ', '+', ' '] ++ o.sC)
  | _ => none

/-- `brackets`, around a side that is dereferenced. -/
def brackets (deref : Bool) : Char × Char := if deref then ('[', ']') else (' ', ' ')

/-- `print_disassembly` with `ASM_AS_INSN`, which is fatal if there is no format for the operands. -/
def printInsn (verbose : Bool) (w : Word) : Option (List Char) :=
  (printedOperands verbose w).print.map fun operands ↦
    let left := brackets (fieldDd w == 2#2)
    let right := brackets ((fieldDd w).getLsbD 0)
    [left.1, regName (fieldZ w), left.2, ' '] ++ arrowName (fieldDd w) ++
      [' ', right.1] ++ operands ++ [right.2]

/-- One round of `do_disassembly`. A negative width pads on the other side. -/
def printLine (verbose quiet : Bool) (i : Fmt.Element) : Option (List Char) :=
  (printInsn verbose i.word).map fun insn ↦
    if quiet then insn ++ ['\n']
    else
      insn ++ List.replicate (30 - insn.length : ℤ).natAbs ' ' ++ ['#', ' '] ++ printData i.word ++
        [' ', ';', ' '] ++ printChar i.word ++ [' ', ';', ' ', '.', 'a', 'd', 'd', 'r', ' '] ++
        printHexWord i.reladdr ++ ['\n']

/-! ## Assembling text -/

/-- The scanner at the start of a text, and where no start condition is pushed. -/
def scan (text : List Char) : Scanner := { conds := [], saved := [], errors := 0, text }

/-- `do_assembly` up to the output; `none` when errors were reported. Those of the lexer count, too. -/
def doAssembly (undef : UndefinedShifts) (fuel : ℕ) (text : List Char) :
    Except Stop (Option Assembled) :=
  match parseTop (scan text) with
  | none => .ok none
  | some (source, s) => do
    let pd ← parse undef fuel source
    if pd.errors.isEmpty && s.errors == 0 then (assemblyInner undef fuel pd).map some else .ok none

end Tenyr.Asm
