import Tenyr.Asm.Reassembly
import Tenyr.Fmt.Output

/-!
# Cycles through files

What the assembler writes for a program is read as that program again, by the loader and by the
disassembler, whatever the format. Assembling what the disassembler prints writes the same file.
-/

namespace Tenyr.Fmt

open Isa Obj Asm Lib.Pulling

/-! ## Accepted programs -/

section

variable {undef : UndefinedShifts} {fuel : ℕ} {a : Assembled}

theorem laid_assemble {source : Source} (h : assemble undef fuel source = .ok (some a))
    (hsizes : ∀ e ∈ a.elems, 0 ≤ e.size.toInt) : Laid 0 a.insns := by
  obtain ⟨pd, hpd, -⟩ := bind_eq_ok.mp h
  obtain ⟨-, hinner⟩ := assemble_eq_some hpd h
  obtain ⟨p⟩ := assemblyInner_eq_ok hinner
  rw [p.elems_eq] at hsizes
  exact laid_insns hpd p hsizes

theorem assemble_of_doAssembly {text : List Char} (h : doAssembly undef fuel text = .ok (some a)) :
    ∃ source, assemble undef fuel source = .ok (some a) := by
  unfold doAssembly at h
  split at h
  · cases h
  · rename_i source s _
    refine ⟨source, ?_⟩
    obtain ⟨pd, hpd, h⟩ := bind_eq_ok.mp h
    split at h
    · rename_i hnone
      rw [assemble, hpd]
      exact (if_pos (Bool.and_eq_true_iff.mp hnone).1).trans h
    · cases h

end

/-! ## Files and the loader -/

theorem pulls_record_words (addr : Word) (words : List Word) :
    Pulls input (.obj [{ addr, data := words }] 0) ((elementsAt addr words).map some) := by
  have hpulls := pulls_obj [{ addr, data := words }]
  rwa [objWords, List.flatMap_singleton, recWords_eq] at hpulls

theorem loadsExactly_elementsAt {state : FileState} {offset : Word} {words : List Word}
    (h : Pulls input state ((elementsAt offset words).map some)) :
    LoadsExactly state (elementsAt offset words) := by
  have hall : none ∉ (elementsAt offset words).map some := by simp
  intro σ bus loadAddress i devices
  have hloads := loadsExactly_of_all_items h hall bus loadAddress i devices
  rwa [items_map_some] at hloads

/-- The programs that the loader reads as they are, where an object file has a size or is a pipe. -/
def Holds (heap : Heap) (a : Assembled) (filesize : Option ℕ) (bytes : List Byte) : Format → Prop
  | .obj => FitsObject heap a ∧ ∀ size, filesize = some size → size < 2 ^ 32 ∧ bytes.length ≤ size
  | .raw | .text => True
  | .memh _ => False

/-- Whether a program is written as an object, as bytes or as text, loading the file writes its words and
nothing else, each at its address. -/
theorem loadsExactly_outFile {undef : UndefinedShifts} {fuel : ℕ} {source : Source} {a : Assembled}
    (hassemble : assemble undef fuel source = .ok (some a)) (hsizes : ∀ e ∈ a.elems, 0 ≤ e.size.toInt)
    {heap : Heap} {emitZeros : Bool} {format : Format} {bytes : List Byte} {filesize : Option ℕ}
    (hout : outFile heap emitZeros a format = .ok bytes) (hholds : Holds heap a filesize bytes format) :
    ∃ state, openFile filesize bytes format = some state ∧
      LoadsExactly state (elementsAt 0#32 (textOut a.insns)) := by
  have hlaid := laid_assemble hassemble hsizes
  cases format with
  | obj =>
    obtain ⟨hfits, hfile⟩ := hholds
    obtain ⟨u, hwords, hemit⟩ := hfits.objEmit_eq
    obtain rfl := Except.ok.inj (hemit.symm.trans hout)
    exact ⟨_, hfits.openFile hwords hfile, loadsExactly_elementsAt (pulls_record_words _ _)⟩
  | raw =>
    obtain rfl := Except.ok.inj hout
    have hraw : (rawOutFrom 0#32 a.insns).1 = textOut a.insns := rawOutFrom_laid hlaid
    rw [hraw]
    exact ⟨_, rfl, loadsExactly_elementsAt (pulls_raw _ _)⟩
  | text =>
    obtain rfl := Except.ok.inj hout
    refine ⟨_, rfl, ?_⟩
    rw [fileText_textBytes (singleByte_flatMap singleByte_textLine _)]
    exact loadsExactly_elementsAt (pulls_text _ _)
  | memh offset => exact hholds.elim

/-- `.global foo`, `.word 7, @foo`, `.zero 3` and `foo: .word 9`. -/
def tableSource : Source :=
  [.global ['f', 'o', 'o'], .element (.word [.imm 7#32 false, .ref true ['f', 'o', 'o']]),
    .element (.zero (.imm 3#32 false)), .element (.labelled ['f', 'o', 'o'] (.word [.imm 9#32 false]))]

def tableProgram : Assembled where
  elems :=
    [{ word := 0#32, size := 1#32, fixup := some ⟨.imm 7#32 false, 1#32, 32, false⟩ },
      { word := 0#32, size := 1#32, fixup := some ⟨.ref true (.unbound ['f', 'o', 'o']), 1#32, 32, false⟩ },
      { word := 0#32, size := 3#32, fixup := none },
      { word := 0#32, size := 1#32, fixup := some ⟨.imm 9#32 false, 1#32, 32, false⟩ }]
  reladdrs := [0#32, 1#32, 2#32, 5#32]
  words := [7#32, 5#32, 0#32, 9#32]
  symbols := [{ makeSymbol ['f', 'o', 'o'] none 3 with reladdr := 5#32, resolved := true, global := true }]
  relocs := [⟨[], some 1, 32, false⟩]

theorem fitsObject_tableProgram (heap : Heap) : FitsObject heap tableProgram where
  cleared := zerosCleared_of_emitted_le (by decide)
  words := by decide
  symbols := by decide
  relocs := (List.length_filterMap_le _ _).trans (by decide)
  resolved := by decide

/-- The object of a program with an area of zeros, a symbol and a relocation. -/
theorem loadsExactly_outFile_table : ∃ bytes state,
    outFile (Heap.const 0#32 0#8) false tableProgram .obj = .ok bytes ∧
      openFile none bytes .obj = some state ∧
      LoadsExactly state
        [⟨0#32, 7#32⟩, ⟨1#32, 5#32⟩, ⟨2#32, 0#32⟩, ⟨3#32, 0#32⟩, ⟨4#32, 0#32⟩, ⟨5#32, 9#32⟩] := by
  have hassemble : assemble .masked 0 tableSource = .ok (some tableProgram) := rfl
  have hsizes : ∀ e ∈ tableProgram.elems, 0 ≤ e.size.toInt := by decide
  have hfits := fitsObject_tableProgram (Heap.const 0#32 0#8)
  obtain ⟨bytes, hout⟩ : ∃ bytes, outFile (Heap.const 0#32 0#8) false tableProgram .obj = .ok bytes := by
    obtain ⟨u, -, hemit⟩ := hfits.objEmit_eq
    exact ⟨_, hemit⟩
  have hholds : Holds (Heap.const 0#32 0#8) tableProgram none bytes .obj :=
    ⟨hfits, fun size hsize ↦ by cases hsize⟩
  obtain ⟨state, hopen, hloads⟩ := loadsExactly_outFile hassemble hsizes hout hholds
  exact ⟨bytes, state, hout, hopen, hloads⟩

/-! ## Files and the disassembler -/

theorem map_word_elementsAt (offset : Word) (words : List Word) :
    (elementsAt offset words).map Element.word = words := by
  induction words generalizing offset with
  | nil => rfl
  | cons word words ih => exact congrArg (word :: ·) (ih _)

/-- What is assembled for printed words is a program of these words. -/
theorem insns_fixesTo {elems : List Elem} {words : List Word} (h : List.Forall₂ Elem.FixesTo elems words)
    (p : ℕ) :
    List.zipWith (fun reladdr (word, elem) ↦ { reladdr, word, size := Elem.size elem : Insn })
      (addrsFrom (BitVec.ofNat 32 p) elems) (words.zip elems) = unitsAt p words := by
  induction h generalizing p with
  | nil => rfl
  | @cons e w elems words he _ ih =>
    have hnext : BitVec.ofNat 32 p + e.size = BitVec.ofNat 32 (p + 1) := by
      rw [he.size, BitVec.ofNat_add]
    have hrest := ih (p + 1)
    rw [← hnext] at hrest
    rw [addrsFrom, List.zip_cons_cons, List.zipWith_cons_cons, hrest]
    simp only [unitsAt, he.size]

/-- A program of words alone. -/
structure OfWords (a : Assembled) (words : List Word) : Prop where
  insns : a.insns = unitsAt 0 words
  symbols : a.symbols = []
  relocs : a.relocs = []

/-- A file is read as words, and these are written to the same file, whatever the memory is then. -/
def Recycles (heap : Heap) (a : Assembled) (format : Format) : Prop :=
  ∃ bytes state answers offset words, outFile heap false a format = .ok bytes ∧
    openFile none bytes format = some state ∧ Pulls input state answers ∧
    items answers = elementsAt offset words ∧
    ∀ a' : Assembled, OfWords a' words → ∀ heap', outFile heap' false a' format = .ok bytes

/-- The programs that come back through a format: those without symbols and relocations as objects, and
those of which `memh_in` keeps count. -/
def ComesBack (heap : Heap) (a : Assembled) : Format → Prop
  | .obj => FitsObject heap a ∧ a.exports = [] ∧ ∀ reloc ∈ a.relocs, reloc.insn = none
  | .raw | .text => True
  | .memh offset => KeepsCount offset 0 none (wordsAt false 0 a.insns)

section

variable {heap : Heap} {a : Assembled}

theorem recycles_raw (h : Laid 0 a.insns) : Recycles heap a .raw := by
  have hwrites : ∀ insns, Laid 0 insns → (rawOutFrom 0#32 insns).1 = textOut insns := fun _ h ↦
    rawOutFrom_laid h
  refine ⟨(textOut a.insns).flatMap putWord, _, _, 0#32, textOut a.insns, ?_, rfl, pulls_raw _ _,
    items_map_some _, ?_⟩
  · rw [outFile, hwrites _ h]
  · intro a' ha' _
    rw [outFile, hwrites _ (by rw [ha'.insns]; exact laid_unitsAt 0 _), ha'.insns, textOut_unitsAt]

theorem recycles_text : Recycles heap a .text := by
  have hchars := fileText_textBytes (singleByte_flatMap singleByte_textLine (textOut a.insns))
  refine ⟨_, .text 0#32 ((textOut a.insns).flatMap textLine), _, 0#32, textOut a.insns, rfl, ?_, pulls_text _ _,
    items_map_some _, ?_⟩
  · rw [openFile, hchars]
  · intro a' ha' _
    rw [outFile, ha'.insns, textOut_unitsAt]

theorem recycles_memh (h : Laid 0 a.insns) {offset : Word}
    (hkeeps : KeepsCount offset 0 none (wordsAt false 0 a.insns)) : Recycles heap a (.memh offset) := by
  have hspaces : Lib.Scan.AllSpace [] := fun c hc ↦ (List.not_mem_nil hc).elim
  have hchars := fileText_textBytes (singleByte_flatMap singleByte_line
    (memhOutFrom offset false { written := offset, firstDone := false } a.insns))
  have hzero : BitVec.ofNat 32 0 + offset = offset := BitVec.zero_add offset
  obtain ⟨answers, hpulls, hitems⟩ := yields_lines (linesFor offset none (wordsAt false 0 a.insns)) offset hspaces
  rw [← memhText_eq h] at hpulls
  refine ⟨_, .memh (memhInit offset (memhText offset false a.insns)), answers, offset,
    readWords offset 0 none (wordsAt false 0 a.insns), rfl, ?_, hpulls, ?_, ?_⟩
  · rw [openFile]
    exact congrArg (fun chars ↦ some (FileState.memh (memhInit offset chars))) hchars
  · rw [hitems, readWords, hzero]
  · intro a' ha' _
    have hlaid' : Laid 0 a'.insns := by
      rw [ha'.insns]
      exact laid_unitsAt 0 _
    have hwords : wordsAt false 0 a'.insns = wordsAt false 0 a.insns := by
      rw [ha'.insns]
      exact wordsAt_readWords hkeeps ne_zero_of_mem_wordsAt
    have hlines : memhOutFrom offset false (writerAt offset none) a'.insns =
        linesFor offset none (wordsAt false 0 a'.insns) := memhOutFrom_eq offset hlaid' none
    rw [hwords, ← memhOutFrom_eq offset h none] at hlines
    exact congrArg (fun lines ↦ Except.ok (textBytes (lines.flatMap Line.text))) hlines

theorem recycles_obj (hfits : FitsObject heap a) (hexports : a.exports = [])
    (hrelocs : ∀ reloc ∈ a.relocs, reloc.insn = none) : Recycles heap a .obj := by
  obtain ⟨u, hwords, hemit⟩ := hfits.objEmit_eq
  have hnone : (a.relocs.filterMap fun reloc ↦ reloc.insn.map (objRlcEntry heap a.env reloc)) = [] := by
    rw [List.filterMap_eq_nil_iff]
    intro reloc hreloc
    rw [hrelocs reloc hreloc]
    rfl
  refine ⟨_, _, _, 0#32, textOut a.insns, hemit, hfits.openFile hwords (fun size hsize ↦ by cases hsize),
    pulls_record_words _ _, items_map_some _, ?_⟩
  intro a' ha' heap'
  have hexports' : a'.exports = [] := by
    rw [Assembled.exports, ha'.symbols]
    rfl
  have htext : textOut a'.insns = textOut a.insns := by
    rw [ha'.insns, textOut_unitsAt]
  have hfits' : FitsObject heap' a' :=
    { cleared := by
        rw [ha'.insns]
        exact zerosCleared_unitsAt 0 0 _
      words := by
        rw [htext]
        exact hfits.words
      symbols := by
        rw [hexports']
        exact Nat.zero_le _
      relocs := by
        rw [ha'.relocs]
        exact Nat.zero_le _
      resolved := by
        rw [hexports']
        exact List.forall_mem_nil _ }
  obtain ⟨u', hwords', hemit'⟩ := hfits'.objEmit_eq
  rw [outFile, hemit']
  congr 2
  simp only [Assembled.objFileOf, hwords, hwords', htext, hexports, hexports', hnone, ha'.relocs, List.filterMap_nil,
    List.map_nil]

theorem recycles (h : Laid 0 a.insns) {format : Format} (hback : ComesBack heap a format) :
    Recycles heap a format := by
  cases format with
  | obj => exact recycles_obj hback.1 hback.2.1 hback.2.2
  | raw => exact recycles_raw h
  | text => exact recycles_text
  | memh offset => exact recycles_memh h hback

end

/-- A file is written for a program, is disassembled, and what is printed is assembled to the same file,
from a memory of its own. -/
def Cycles (undef : UndefinedShifts) (fuel : ℕ) (heap : Heap) (a : Assembled) (format : Format)
    (verbose quiet : Bool) : Prop :=
  ∃ bytes state print answers, outFile heap false a format = .ok bytes ∧
    openFile none bytes format = some state ∧ (∀ i, printLine verbose quiet i = some (print i)) ∧
    Pulls input state answers ∧
    ∀ rounds > answers.length, ∃ text a', doDisassembly print rounds state = some (.ok text) ∧
      doAssembly undef fuel text = .ok (some a') ∧ ∀ heap', outFile heap' false a' format = .ok bytes

/-- A text that is assembled to a file of any format, disassembled from it in any of the styles and
assembled again ends up in the same file. -/
theorem outFile_cycles {undef : UndefinedShifts} {fuel : ℕ} {source : List Char} {a : Assembled}
    (hassembly : doAssembly undef fuel source = .ok (some a)) (hsizes : ∀ e ∈ a.elems, 0 ≤ e.size.toInt)
    {heap : Heap} {format : Format} (hback : ComesBack heap a format) (verbose quiet : Bool) :
    Cycles undef fuel heap a format verbose quiet := by
  obtain ⟨_, hassemble⟩ := assemble_of_doAssembly hassembly
  obtain ⟨bytes, state, answers, offset, words, hout, hopen, hpulls, hitems, hsame⟩ :=
    recycles (laid_assemble hassemble hsizes) hback
  obtain ⟨print, hprint⟩ := exists_printLine verbose quiet
  refine ⟨bytes, state, print, answers, hout, hopen, hprint, hpulls, fun rounds hrounds ↦ ?_⟩
  obtain ⟨elems, helems, hagain⟩ := doAssembly_lines undef fuel hprint (items answers)
  refine ⟨_, _, doDisassembly_eq print hpulls hrounds, hagain, hsame _ ?_⟩
  rw [hitems, map_word_elementsAt] at helems ⊢
  exact { insns := insns_fixesTo helems 0, symbols := rfl, relocs := rfl }

/-- `.word 7, 9`, `.zero 3` and `.word 5`, a line each. -/
def areaText : List Char :=
  ['.', 'w', 'o', 'r', 'd', ' ', '7', ',', ' ', '9', '\n', '.', 'z', 'e', 'r', 'o', ' ', '3', '\n',
    '.', 'w', 'o', 'r', 'd', ' ', '5', '\n']

def areaProgram : Assembled where
  elems :=
    [{ word := 0#32, size := 1#32, fixup := some ⟨.imm 7#32 false, 1#32, 32, false⟩ },
      { word := 0#32, size := 1#32, fixup := some ⟨.imm 9#32 false, 1#32, 32, false⟩ },
      { word := 0#32, size := 3#32, fixup := none },
      { word := 0#32, size := 1#32, fixup := some ⟨.imm 5#32 false, 1#32, 32, false⟩ }]
  reladdrs := [0#32, 1#32, 2#32, 5#32]
  words := [7#32, 9#32, 0#32, 5#32]
  symbols := []
  relocs := []

/-- The scanner behind a directive. -/
def ignoring (text : List Char) : Scanner := (scan text).push .ignoreNl

theorem derives_integer {text rest : List Char} {i : Word}
    (h : Reads (ignoring text) (.integer i) (ignoring rest)) :
    Derives (.expr 0) (ignoring text) (.imm i false) (ignoring rest) := .atom 0 (.immediate h rfl)

theorem derivesLine_ignoring {text after rest : List Char} {stmt : Statement}
    (hstmt : DerivesStatement (scan text) stmt true (ignoring after))
    (hterm : Reads (ignoring after) (.char '\n') (ignoring rest)) :
    DerivesLine (scan text) stmt (scan rest) := .mk hstmt (.inl hterm) ⟨[], .nil _⟩

theorem doAssembly_areaText : doAssembly .masked 0 areaText = .ok (some areaProgram) := by
  have hseven : Reads (ignoring (areaText.drop 6)) (.integer 7#32) (ignoring (areaText.drop 7)) :=
    yylex_of_token rfl
  have hcomma : Reads (ignoring (areaText.drop 7)) (.char ',') (ignoring (areaText.drop 8)) :=
    yylex_of_token rfl
  have hnine : Reads (ignoring (areaText.drop 8)) (.integer 9#32) (ignoring (areaText.drop 10)) :=
    (yylex_of_skip rfl).trans (yylex_of_token rfl)
  have hthree : Reads (ignoring (areaText.drop 17)) (.integer 3#32) (ignoring (areaText.drop 18)) :=
    yylex_of_token rfl
  have hfive : Reads (ignoring (areaText.drop 25)) (.integer 5#32) (ignoring (areaText.drop 26)) :=
    yylex_of_token rfl
  have hwords : DerivesLine (scan areaText) (.element (.word [.imm 7#32 false, .imm 9#32 false]))
      (scan (areaText.drop 11)) := by
    have hword : Reads (scan areaText) .word (ignoring (areaText.drop 6)) := yylex_of_token rfl
    exact derivesLine_ignoring (.element (.word hword ⟨[], .nil _⟩ (.cons (derives_integer hseven) hcomma ⟨[], .nil _⟩
      (.one (derives_integer hnine))))) (yylex_of_token rfl)
  have hzero : DerivesLine (scan (areaText.drop 11)) (.element (.zero (.imm 3#32 false)))
      (scan (areaText.drop 19)) := by
    have hzero : Reads (scan (areaText.drop 11)) .zero (ignoring (areaText.drop 17)) := yylex_of_token rfl
    exact derivesLine_ignoring (.element (.zero hzero ⟨[], .nil _⟩ (derives_integer hthree))) (yylex_of_token rfl)
  have hlast : DerivesLine (scan (areaText.drop 19)) (.element (.word [.imm 5#32 false])) (scan []) := by
    have hword : Reads (scan (areaText.drop 19)) .word (ignoring (areaText.drop 25)) := yylex_of_token rfl
    exact derivesLine_ignoring (.element (.word hword ⟨[], .nil _⟩ (.one (derives_integer hfive))))
      (yylex_of_token rfl)
  have htop : DerivesTop (scan areaText) _ (scan []) :=
    .mk ⟨[], .nil _⟩ (.cons hwords (.cons hzero (.cons hlast (.nil _)))) (yylex_nil rfl)
  rw [doAssembly, htop.parse_eq]
  rfl

theorem fitsObject_areaProgram (heap : Heap) : FitsObject heap areaProgram where
  cleared := zerosCleared_of_emitted_le (by decide)
  words := by decide
  symbols := by decide
  relocs := Nat.zero_le _
  resolved := by decide

/-- The text is assembled to an object, or to a memh file for address 4, disassembled and assembled again. -/
theorem outFile_cycles_area : ∃ a, doAssembly .masked 0 areaText = .ok (some a) ∧
    ∀ verbose quiet, Cycles .masked 0 (Heap.const 0#32 0#8) a .obj verbose quiet ∧
      Cycles .masked 0 (Heap.const 0#32 0#8) a (.memh 4#32) verbose quiet := by
  have hsizes : ∀ e ∈ areaProgram.elems, 0 ≤ e.size.toInt := by decide
  have hmemh : ComesBack (Heap.const 0#32 0#8) areaProgram (.memh 4#32) :=
    ⟨fun _ ↦ rfl, fun _ ↦ rfl, fun _ ↦ rfl, trivial⟩
  have hobj : ComesBack (Heap.const 0#32 0#8) areaProgram .obj :=
    ⟨fitsObject_areaProgram _, rfl, List.forall_mem_nil _⟩
  refine ⟨areaProgram, doAssembly_areaText, fun verbose quiet ↦ ⟨?_, ?_⟩⟩
  · exact outFile_cycles doAssembly_areaText hsizes hobj verbose quiet
  · exact outFile_cycles doAssembly_areaText hsizes hmemh verbose quiet

end Tenyr.Fmt
