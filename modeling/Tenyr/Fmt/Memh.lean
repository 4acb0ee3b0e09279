import Tenyr.Asm.Output
import Tenyr.Fmt.Input

/-!
# Writing memh files and reading them back

`memh_out` prints a line for an element, with an address mark where the line is not expected to follow
the one before it. `memh_in` takes one word for each line, so both have to keep the same count.
-/

namespace Tenyr.Fmt

open Isa Asm Lib.Pulling Lib.Scan

/-! ## The writer -/

/-- `struct memh_state` without what only reading uses. The offset and `emit_zeros` do not change. -/
structure MemhWriter where
  written : Word
  firstDone : Bool
  deriving DecidableEq, Repr

/-- A line, with its address mark if it has one. -/
abbrev Line := Option Word × Word

def Line.text (line : Line) : List Char :=
  line.1.elim [] (fun addr ↦ '@' :: printHex addr ++ [' ']) ++ printHex8 line.2 ++ ['\n']

section Writer

variable (offset : Word) (emitZeros : Bool)

/-- `memh_out`: the line that is printed, if there is one. -/
def memhOut (s : MemhWriter) (i : Insn) : Option Line × MemhWriter :=
  let addr := i.reladdr + offset
  let diff := addr - s.written
  if i.word = 0#32 ∧ emitZeros = false then (none, s)
  else
    (some (if (1#32).slt diff ∨ s.firstDone = false then some addr else none, i.word),
      { written := addr, firstDone := true })

/-- The lines printed for a list of elements. -/
def memhOutFrom (s : MemhWriter) : List Insn → List Line
  | [] => []
  | i :: insns =>
    let (line, s) := memhOut offset emitZeros s i
    line.toList ++ memhOutFrom s insns

/-- What `memh_out` prints for a program. -/
def memhText (insns : List Insn) : List Char :=
  (memhOutFrom offset emitZeros { written := offset, firstDone := false } insns).flatMap Line.text

end Writer

/-! ## Reading lines -/

/-- The words that `memh_in` makes of lines from an address on. -/
def lineWords (written : Word) : List Line → List Word
  | [] => []
  | (none, word) :: lines => word :: lineWords (written + 1#32) lines
  | (some marked, word) :: lines =>
    if written.toInt ≤ marked.toInt then
      List.replicate (marked.toInt - written.toInt).toNat 0#32 ++
        word :: lineWords (marked + 1#32) lines
    else []

/-- The elements with certain words from an address on. -/
def elementsAt (reladdr : Word) : List Word → List Element
  | [] => []
  | word :: words => { reladdr, word } :: elementsAt (reladdr + 1#32) words

@[simp]
theorem length_elementsAt (reladdr : Word) (words : List Word) :
    (elementsAt reladdr words).length = words.length := by
  induction words generalizing reladdr with
  | nil => rfl
  | cons word words ih => exact congrArg Nat.succ (ih _)

theorem elementsAt_getElem? (reladdr : Word) (words : List Word) (k : ℕ) :
    (elementsAt reladdr words)[k]? =
      words[k]?.map fun word ↦ { reladdr := reladdr + BitVec.ofNat 32 k, word } := by
  induction words generalizing reladdr k with
  | nil => rfl
  | cons word words ih =>
    cases k with
    | zero => simp [elementsAt]
    | succ k =>
      have haddr : reladdr + 1#32 + BitVec.ofNat 32 k = reladdr + BitVec.ofNat 32 (k + 1) := by
        rw [BitVec.add_assoc, ← BitVec.ofNat_add, Nat.add_comm 1]
      rw [elementsAt, List.getElem?_cons_succ, List.getElem?_cons_succ, ih, haddr]

theorem elementsAt_append (reladdr : Word) (words words' : List Word) :
    elementsAt reladdr (words ++ words') =
      elementsAt reladdr words ++ elementsAt (reladdr + BitVec.ofNat 32 words.length) words' := by
  induction words generalizing reladdr with
  | nil => simp [elementsAt]
  | cons word words ih =>
    have haddr : reladdr + 1#32 + BitVec.ofNat 32 words.length =
        reladdr + BitVec.ofNat 32 (words.length + 1) := by
      rw [BitVec.add_assoc, ← BitVec.ofNat_add, Nat.add_comm 1]
    rw [List.cons_append, elementsAt, ih, elementsAt, List.cons_append, List.length_cons, haddr]

section Scanning

variable {spaces : List Char} (hspaces : AllSpace spaces) (word : Word) (rest : List Char)
include hspaces

/-- An address mark is found in front of its word. -/
theorem scanMark_marked (addr : Word) :
    scanMark (spaces ++ (Line.text (some addr, word) ++ rest)) =
      (some addr, [' '] ++ (printHex8 word ++ '\n' :: rest)) := by
  have hskip : skipSpace (spaces ++ (Line.text (some addr, word) ++ rest)) =
      '@' :: (printHex addr ++ ' ' :: (printHex8 word ++ '\n' :: rest)) := by
    rw [skipSpace_append hspaces]
    simp [Line.text, skipSpace, isSpace]
  rw [scanMark, hskip]
  exact scanHex_printHex addr rfl _

/-- There is no address mark in front of a word. -/
theorem scanMark_word :
    scanMark (spaces ++ (printHex8 word ++ '\n' :: rest)) =
      (none, printHex8 word ++ '\n' :: rest) := by
  have hne : printHex8 word ≠ [] := List.append_ne_nil_of_right_ne_nil _ Nat.toDigits_ne_nil
  have hskip : skipSpace (spaces ++ (printHex8 word ++ '\n' :: rest)) =
      printHex8 word ++ '\n' :: rest := by
    rw [skipSpace_append hspaces]
    exact (skip_allHex (allHex_printHex8 word) hne rfl rest).1
  have hhex := allHex_printHex8 word
  rw [scanMark, hskip]
  obtain ⟨c, digits, hdigits⟩ := List.exists_cons_of_ne_nil hne
  have hc : c ≠ '@' := by
    rintro rfl
    have hsome := hhex '@' (by simp [hdigits])
    cases hsome
  rw [hdigits, List.cons_append, scanLiteral, if_neg hc]

theorem memhIn_printed (written : Word) :
    memhIn { written, marked := written, chars := spaces ++ (printHex8 word ++ '\n' :: rest) } =
      (.item { reladdr := written, word },
        { written := written + 1#32, marked := written + 1#32, chars := '\n' :: rest }) :=
  memhIn_word rfl (scanMark_word hspaces word rest) (scanHex_printHex8 word rfl rest)

end Scanning

/-- An address mark that is ahead is reached by as many words. -/
theorem add_toInt_sub {a b : Word} (h : a.toInt ≤ b.toInt) :
    a + BitVec.ofNat 32 (b.toInt - a.toInt).toNat = b := by
  have hdiff : (((b.toInt - a.toInt).toNat : ℕ) : ℤ) = b.toInt - a.toInt := by omega
  apply BitVec.eq_of_toInt_eq
  calc
    (a + BitVec.ofNat 32 (b.toInt - a.toInt).toNat).toInt =
        (a.toInt + (b.toInt - a.toInt)).bmod (2 ^ 32) := by
      rw [BitVec.toInt_add, ← BitVec.ofInt_natCast, hdiff, BitVec.toInt_ofInt, Int.add_bmod_bmod]
    _ = b.toInt.bmod (2 ^ 32) := by rw [add_sub_cancel]
    _ = b.toInt := b.toInt_bmod_cancel

section Pulls

variable {s s' : MemhState} {answers : List (Option Element)}

theorem pulls_item {e : Element} (hin : memhIn s = (.item e, s'))
    (h : Pulls input (.memh s') answers) : Pulls input (.memh s) (some e :: answers) := by
  have hinput : input (.memh s) = (.item e, .memh s') := congrArg (Prod.map id FileState.memh) hin
  apply Pulls.more
  · rw [hinput]
    rfl
  · rwa [hinput]

theorem pulls_nothing (hin : memhIn s = (.nothing, s')) (h : Pulls input (.memh s') answers) :
    Pulls input (.memh s) (none :: answers) := by
  have hinput : input (.memh s) = (.nothing, .memh s') := congrArg (Prod.map id FileState.memh) hin
  apply Pulls.more
  · rw [hinput]
    rfl
  · rwa [hinput]

theorem pulls_done (hin : memhIn s = (.done, s')) : Pulls input (.memh s) [] := by
  have hinput : input (.memh s) = (.done, .memh s') := congrArg (Prod.map id FileState.memh) hin
  apply Pulls.done
  rw [hinput]
  rfl

end Pulls

/-- Up to an address mark there are zeros. -/
theorem pulls_fill {marked : Word} {chars : List Char} {answers : List (Option Element)}
    (h : Pulls input (.memh { written := marked, marked, chars }) answers) (count : ℕ)
    (written : Word) (hcount : marked.toInt - written.toInt = count) :
    Pulls input (.memh { written, marked, chars })
      ((elementsAt written (List.replicate count 0#32)).map some ++ answers) := by
  induction count generalizing written with
  | zero =>
    obtain rfl : marked = written := BitVec.eq_of_toInt_eq (by omega)
    exact h
  | succ count ih =>
    have hslt : written.slt marked = true := by
      simp only [BitVec.slt, decide_eq_true_eq]
      omega
    apply pulls_item (memhIn_fill hslt)
    apply ih
    rw [toInt_add_one hslt]
    omega

/-- The state from which lines are read, where the end of the line before is in front of them. -/
def linesFrom (written : Word) (spaces : List Char) (lines : List Line) : FileState :=
  .memh { written, marked := written, chars := spaces ++ lines.flatMap Line.text }

/-- A state in front of lines answers with certain elements. -/
def Yields (state : FileState) (elements : List Element) : Prop :=
  ∃ answers, Pulls input state answers ∧ items answers = elements

section Lines

variable {spaces : List Char} (hspaces : AllSpace spaces) (written : Word) (word : Word)
  {lines : List Line}
include hspaces

theorem yields_nil : Yields (linesFrom written spaces []) [] := by
  have hmark : scanMark (spaces ++ []) = (none, []) := by
    rw [List.append_nil, scanMark, skipSpace_of_allSpace hspaces]
    rfl
  exact ⟨[], pulls_done (memhIn_end rfl hmark rfl), rfl⟩

theorem pulls_unmarked {answers : List (Option Element)}
    (h : Pulls input (linesFrom (written + 1#32) ['\n'] lines) answers) :
    Pulls input (linesFrom written spaces ((none, word) :: lines))
      (some { reladdr := written, word } :: answers) := by
  have htext : Line.text (none, word) ++ lines.flatMap Line.text =
      printHex8 word ++ '\n' :: lines.flatMap Line.text := by
    simp [Line.text]
  rw [linesFrom, List.flatMap_cons, htext]
  exact pulls_item (memhIn_printed hspaces word _ written) h

theorem yields_unmarked {words : List Word}
    (h : Yields (linesFrom (written + 1#32) ['\n'] lines) (elementsAt (written + 1#32) words)) :
    Yields (linesFrom written spaces ((none, word) :: lines)) (elementsAt written (word :: words)) := by
  obtain ⟨answers, hpulls, hitems⟩ := h
  refine ⟨_, pulls_unmarked hspaces written word hpulls, ?_⟩
  rw [items_cons_some, hitems, elementsAt]

/-- The address mark of a line, and the word after it. -/
theorem pulls_marked {marked : Word} {answers : List (Option Element)}
    (h : Pulls input (linesFrom (marked + 1#32) ['\n'] lines) answers) (count : ℕ)
    (hcount : marked.toInt - written.toInt = count) :
    Pulls input (linesFrom written spaces ((some marked, word) :: lines))
      (none :: ((elementsAt written (List.replicate count 0#32)).map some ++
        some { reladdr := marked, word } :: answers)) := by
  have hspace : AllSpace [' '] := by
    intro c hc
    rw [List.mem_singleton.mp hc]
    rfl
  rw [linesFrom, List.flatMap_cons]
  apply pulls_nothing (memhIn_mark rfl (scanMark_marked hspaces word _ marked))
  apply pulls_fill _ count written hcount
  exact pulls_item (memhIn_printed hspace word _ marked) h

theorem yields_marked {marked : Word} {words : List Word}
    (h : Yields (linesFrom (marked + 1#32) ['\n'] lines) (elementsAt (marked + 1#32) words))
    (hle : written.toInt ≤ marked.toInt) :
    Yields (linesFrom written spaces ((some marked, word) :: lines))
      (elementsAt written
        (List.replicate (marked.toInt - written.toInt).toNat 0#32 ++ word :: words)) := by
  obtain ⟨answers, hpulls, hitems⟩ := h
  have hcount : marked.toInt - written.toInt = (marked.toInt - written.toInt).toNat := by omega
  refine ⟨_, pulls_marked hspaces written word hpulls _ hcount, ?_⟩
  rw [items_cons_none, items_append, items_map_some, items_cons_some, hitems, elementsAt_append,
    List.length_replicate, add_toInt_sub hle, elementsAt]

/-- An address mark that is behind what is written ends the file. -/
theorem yields_backward {marked : Word} (hlt : marked.toInt < written.toInt) :
    Yields (linesFrom written spaces ((some marked, word) :: lines)) [] := by
  have hslt : marked.slt written = true := by
    simp only [BitVec.slt, decide_eq_true_eq]
    exact hlt
  refine ⟨[none], ?_, rfl⟩
  rw [linesFrom, List.flatMap_cons]
  apply pulls_nothing (memhIn_mark rfl (scanMark_marked hspaces word _ marked))
  exact pulls_done (memhIn_backward hslt)

end Lines

/-- Reading lines gives the words that the lines stand for, at consecutive addresses. -/
theorem yields_lines (lines : List Line) (written : Word) {spaces : List Char}
    (hspaces : AllSpace spaces) :
    Yields (linesFrom written spaces lines) (elementsAt written (lineWords written lines)) := by
  have hnewline : AllSpace ['\n'] := by
    intro c hc
    rw [List.mem_singleton.mp hc]
    rfl
  induction lines generalizing written spaces with
  | nil => exact yields_nil hspaces written
  | cons line lines ih =>
    obtain ⟨marked, word⟩ := line
    cases marked with
    | none => exact yields_unmarked hspaces written word (ih _ hnewline)
    | some marked =>
      rw [lineWords]
      by_cases hle : written.toInt ≤ marked.toInt
      · rw [if_pos hle]
        exact yields_marked hspaces written word (ih _ hnewline) hle
      · rw [if_neg hle]
        exact yields_backward hspaces written word (not_le.mp hle)

end Tenyr.Fmt
