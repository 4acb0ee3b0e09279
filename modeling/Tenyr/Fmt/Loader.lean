import Tenyr.Fmt.Input
import Tenyr.Sim.Machine

/-!
# Loading and disassembling programs

`load_sim` and `do_disassembly` consume the same source of elements. The disassembler passes over the
answers without an element. The loader does not, and writes the element that it wrote before once more,
or whatever its local element held at first; this happens just for the address marks of memh files.
-/

namespace Tenyr.Fmt

open Isa Obj Sim Lib.Pulling Lib.Scan

variable {σ : Type}

/-! ## The loader -/

/-- One round of the loop of `load_sim`, which keeps the devices and its local element. -/
def loadStep (bus : Bus σ) (loadAddress : Word) (t : σ × Element) (answer : Option Element) :
    Except (σ × Element) (σ × Element) :=
  -- an answer without an element leaves the local element as it was
  let i := answer.getD t.2
  match bus.dispatchOp t.1 .write (loadAddress + i.reladdr) i.word with
  | some (word, devices) => .ok (devices, { i with word })
  | none => .error (t.1, i)

/-- Whether the devices accepted every write, and what they are after the writes they accepted. -/
def loadResult : Except (σ × Element) (σ × Element) → Bool × σ
  | .ok t => (true, t.1)
  | .error t => (false, t.1)

/-- `load_sim`, where the local element starts as `i`. -/
def loadSim (bus : Bus σ) (loadAddress : Word) (i : Element) (devices : σ) (fuel : ℕ)
    (state : FileState) : Option (Bool × σ) :=
  (drain input (loadStep bus loadAddress) fuel (devices, i) state).map loadResult

/-- The words of a list of elements, written in order until a write is refused. -/
def writeAll (bus : Bus σ) (loadAddress : Word) : List Element → σ → Bool × σ
  | [], devices => (true, devices)
  | e :: elements, devices =>
    match bus.dispatchOp devices .write (loadAddress + e.reladdr) e.word with
    | some (_, devices) => writeAll bus loadAddress elements devices
    | none => (false, devices)

/-- A file is loaded by writing certain elements and nothing else, for all devices. -/
def LoadsExactly (state : FileState) (elements : List Element) : Prop :=
  ∀ {σ : Type} (bus : Bus σ) (loadAddress : Word) (i : Element) (devices : σ),
    ∃ fuel, loadSim bus loadAddress i devices fuel state =
      some (writeAll bus loadAddress elements devices)

theorem loadSim_eq {bus : Bus σ} {loadAddress : Word} {i : Element} {devices : σ} {fuel : ℕ}
    {state : FileState} {answers : List (Option Element)} (h : Pulls input state answers)
    (hfuel : answers.length < fuel) :
    loadSim bus loadAddress i devices fuel state =
      some (loadResult (answers.foldlM (loadStep bus loadAddress) (devices, i))) := by
  rw [loadSim, drain_eq_foldlM _ h _ hfuel]
  rfl

/-- The loop over elements alone. -/
theorem foldlM_loadStep (bus : Bus σ) (loadAddress : Word) (elements : List Element) (devices : σ)
    (i : Element) :
    loadResult ((elements.map some).foldlM (loadStep bus loadAddress) (devices, i)) =
      writeAll bus loadAddress elements devices := by
  induction elements generalizing devices i with
  | nil => rfl
  | cons e elements ih =>
    rw [List.map_cons, List.foldlM_cons, writeAll, loadStep]
    simp only [Option.getD_some]
    cases bus.dispatchOp devices .write (loadAddress + e.reladdr) e.word with
    | none => rfl
    | some result => exact ih result.2 _

theorem loadsExactly_of_all_items {state : FileState} {answers : List (Option Element)}
    (h : Pulls input state answers) (hall : none ∉ answers) :
    LoadsExactly state (items answers) := by
  intro σ bus loadAddress i devices
  refine ⟨answers.length + 1, ?_⟩
  rw [loadSim_eq h (Nat.lt_succ_self _)]
  congr 1
  calc
    _ = loadResult (((items answers).map some).foldlM (loadStep bus loadAddress) (devices, i)) := by
      rw [map_some_items hall]
    _ = writeAll bus loadAddress (items answers) devices := foldlM_loadStep ..

/-! ## A log of the writes -/

/-- A bus that counts the writes and accepts them all. -/
def countingBus : Bus ℕ where
  dispatchOp count op _ data := some (data, if op = .write then count + 1 else count)

theorem foldlM_loadStep_countingBus (loadAddress : Word) (answers : List (Option Element))
    (count : ℕ) (i : Element) :
    loadResult (answers.foldlM (loadStep countingBus loadAddress) (count, i)) =
      (true, count + answers.length) := by
  induction answers generalizing count i with
  | nil => rfl
  | cons answer answers ih =>
    rw [List.foldlM_cons]
    calc
      _ = (true, count + 1 + answers.length) := ih (count + 1) (answer.getD i)
      _ = (true, count + (answers.length + 1)) := by rw [Nat.add_assoc, Nat.add_comm 1]

theorem writeAll_countingBus (loadAddress : Word) (elements : List Element) (count : ℕ) :
    writeAll countingBus loadAddress elements count = (true, count + elements.length) := by
  induction elements generalizing count with
  | nil => rfl
  | cons e elements ih =>
    calc
      _ = (true, count + 1 + elements.length) := ih (count + 1)
      _ = (true, count + (elements.length + 1)) := by rw [Nat.add_assoc, Nat.add_comm 1]

/-- The loader writes something for every answer. -/
theorem not_loadsExactly_of_nothing {state : FileState} {answers : List (Option Element)}
    (h : Pulls input state answers) (hnothing : none ∈ answers) :
    ¬ LoadsExactly state (items answers) := by
  intro hexact
  obtain ⟨fuel, hfuel⟩ := hexact countingBus 0#32 ⟨0#32, 0#32⟩ 0
  obtain ⟨result, hdrain, hresult⟩ := Option.map_eq_some_iff.mp hfuel
  rw [eq_foldlM_of_drain _ h hdrain, foldlM_loadStep_countingBus, writeAll_countingBus] at hresult
  have hcount : 0 + answers.length = 0 + (items answers).length := congrArg Prod.snd hresult
  have hlt := length_items_lt hnothing
  omega

theorem loadsExactly_iff {state : FileState} {answers : List (Option Element)}
    (h : Pulls input state answers) : LoadsExactly state (items answers) ↔ none ∉ answers := by
  constructor
  · intro hexact hnothing
    exact not_loadsExactly_of_nothing h hnothing hexact
  · exact loadsExactly_of_all_items h

/-! ## The disassembler -/

/-- One round of the loop of `do_disassembly`, where `print` is what is printed for an element. -/
def disassemblyStep (print : Element → List Char) (out : List Char) :
    Option Element → Except (List Char) (List Char)
  | none => .ok out
  | some i => .ok (out ++ print i)

/-- `do_disassembly` -/
def doDisassembly (print : Element → List Char) (fuel : ℕ) (state : FileState) :
    Option (Except (List Char) (List Char)) :=
  drain input (disassemblyStep print) fuel [] state

theorem foldlM_disassemblyStep (print : Element → List Char) (answers : List (Option Element))
    (out : List Char) :
    answers.foldlM (disassemblyStep print) out = .ok (out ++ (items answers).flatMap print) := by
  induction answers generalizing out with
  | nil =>
    rw [items_nil, List.flatMap_nil, List.append_nil]
    rfl
  | cons answer answers ih =>
    rw [List.foldlM_cons]
    cases answer with
    | none => exact ih out
    | some i =>
      rw [items_cons_some, List.flatMap_cons, ← List.append_assoc]
      exact ih (out ++ print i)

/-- The disassembler prints each element once. -/
theorem doDisassembly_eq (print : Element → List Char) {state : FileState}
    {answers : List (Option Element)} (h : Pulls input state answers) {fuel : ℕ}
    (hfuel : answers.length < fuel) :
    doDisassembly print fuel state = some (.ok ((items answers).flatMap print)) := by
  rw [doDisassembly, drain_eq_foldlM _ h _ hfuel, foldlM_disassemblyStep, List.nil_append]

/-! ## The words of an object -/

/-- The words of a record, each at its place. -/
def recWords (rec : ObjRec) : List Element :=
  rec.data.mapIdx fun k word ↦ { reladdr := rec.addr + BitVec.ofNat 32 k, word }

/-- The words of all records. -/
def objWords (records : List ObjRec) : List Element := records.flatMap recWords

/-- Reading goes through the rest of the record it is in, and then through the other records. -/
theorem pulls_record {rec : ObjRec} {records : List ObjRec} {answers : List (Option Element)}
    (hrest : Pulls input (.obj records 0) answers) (pos : ℕ) (hpos : pos ≤ rec.data.length) :
    Pulls input (.obj (rec :: records) pos) (((recWords rec).drop pos).map some ++ answers) := by
  have hlength : (recWords rec).length = rec.data.length := List.length_mapIdx
  induction hn : rec.data.length - pos generalizing pos with
  | zero =>
    have hdone : ¬ pos < rec.data.length := by omega
    have hinput : input (.obj records 0) = input (.obj (rec :: records) pos) := by
      change objIn records 0 = objIn (rec :: records) pos
      rw [objIn, dif_neg hdone]
    rw [List.drop_of_length_le (by omega)]
    exact hrest.congr hinput
  | succ n ih =>
    have hlt : pos < rec.data.length := by omega
    have hbound : pos < (recWords rec).length := by omega
    have hinput : input (.obj (rec :: records) pos) =
        (.item (recWords rec)[pos], .obj (rec :: records) (pos + 1)) := by
      change objIn (rec :: records) pos = _
      rw [objIn, dif_pos hlt]
      simp [recWords]
    rw [List.drop_eq_getElem_cons (by omega)]
    apply Pulls.more
    · rw [hinput]
      rfl
    · rw [hinput]
      exact ih (pos + 1) hlt (by omega)

/-- An object is read word by word, over empty records and from record to record. -/
theorem pulls_obj (records : List ObjRec) :
    Pulls input (.obj records 0) ((objWords records).map some) := by
  induction records with
  | nil => exact .done rfl
  | cons rec records ih =>
    have hrec : Pulls input (.obj (rec :: records) 0)
        (((recWords rec).drop 0).map some ++ (objWords records).map some) :=
      pulls_record ih 0 (Nat.zero_le _)
    rwa [List.drop_zero, ← List.map_append] at hrec

/-! ## Address marks -/

/-- An address mark comes after some number of words. -/
inductive MarkAhead : List Char → Prop where
  | here {chars : List Char} {marked : Word} : (scanMark chars).1 = some marked → MarkAhead chars
  | later {chars rest rest' : List Char} {word : Word} : scanMark chars = (none, rest) →
      scanHex rest = (some word, rest') → MarkAhead rest' → MarkAhead chars

/-- The answers to a memh file begin with nothing, or an element, or not at all. -/
theorem pulls_memh_cases {s : MemhState} {answers : List (Option Element)}
    (h : Pulls input (.memh s) answers) (hs : s.marked = s.written) :
    (∃ marked rest answers', scanMark s.chars = (some marked, rest) ∧ answers = none :: answers') ∨
      (∃ rest word rest' answers', scanMark s.chars = (none, rest) ∧
        scanHex rest = (some word, rest') ∧
        answers = some { reladdr := s.written, word } :: answers' ∧
        Pulls input (.memh { written := s.written + 1#32, marked := s.written + 1#32
                             chars := rest' }) answers') ∨
      ((∃ rest rest', scanMark s.chars = (none, rest) ∧ scanHex rest = (none, rest')) ∧
        answers = []) := by
  rcases hmark : scanMark s.chars with ⟨_ | marked, rest⟩
  · rcases hword : scanHex rest with ⟨_ | word, rest'⟩
    · have hmemh := memhIn_end hs hmark (by rw [hword])
      cases h with
      | done _ => exact .inr (.inr ⟨⟨rest, rest', rfl, hword⟩, rfl⟩)
      | more hmore _ => simp [input, hmemh, Answer.payload] at hmore
    · have hmemh := memhIn_word hs hmark hword
      cases h with
      | done hdone => simp [input, hmemh, Answer.payload] at hdone
      | more hmore hrest =>
        simp only [input, hmemh] at hmore hrest
        cases hmore
        exact .inr (.inl ⟨rest, word, rest', _, rfl, hword, rfl, hrest⟩)
  · have hmemh := memhIn_mark hs hmark
    cases h with
    | done hdone => simp [input, hmemh, Answer.payload] at hdone
    | more hmore _ =>
      simp only [input, hmemh] at hmore
      cases hmore
      exact .inl ⟨marked, rest, _, rfl, rfl⟩

theorem markAhead_word_iff {chars rest rest' : List Char} {word : Word}
    (hmark : scanMark chars = (none, rest)) (hword : scanHex rest = (some word, rest')) :
    MarkAhead chars ↔ MarkAhead rest' := by
  constructor
  · intro h
    cases h with
    | here hhere => simp [hmark] at hhere
    | later hmark' hword' hlater =>
      rw [hmark] at hmark'
      cases hmark'
      rw [hword] at hword'
      cases hword'
      exact hlater
  · exact .later hmark hword

theorem not_markAhead_end {chars rest rest' : List Char} (hmark : scanMark chars = (none, rest))
    (hword : scanHex rest = (none, rest')) : ¬ MarkAhead chars := by
  intro h
  cases h with
  | here hhere => simp [hmark] at hhere
  | later hmark' hword' _ =>
    rw [hmark] at hmark'
    cases hmark'
    simp [hword] at hword'

/-- A memh file answers with nothing just where it has an address mark. -/
theorem none_mem_memh_iff {s : MemhState} {answers : List (Option Element)}
    (h : Pulls input (.memh s) answers) (hs : s.marked = s.written) :
    none ∈ answers ↔ MarkAhead s.chars := by
  induction answers generalizing s with
  | nil =>
    rcases pulls_memh_cases h hs with ⟨_, _, _, _, hcons⟩ | ⟨_, _, _, _, _, _, hcons, _⟩ |
      ⟨⟨rest, rest', hmark, hword⟩, _⟩
    · cases hcons
    · cases hcons
    · simpa using not_markAhead_end hmark hword
  | cons answer answers ih =>
    rcases pulls_memh_cases h hs with ⟨marked, rest, _, hmark, hcons⟩ |
      ⟨rest, word, rest', _, hmark, hword, hcons, hrest⟩ | ⟨_, hcons⟩
    · have hhere : MarkAhead s.chars := .here (by rw [hmark])
      cases hcons
      simpa using hhere
    · cases hcons
      calc
        none ∈ some _ :: answers ↔ none ∈ answers := by simp
        _ ↔ MarkAhead rest' := ih hrest rfl
        _ ↔ MarkAhead s.chars := (markAhead_word_iff hmark hword).symm
    · cases hcons

theorem objIn_fst_ne_nothing (records : List ObjRec) (pos : ℕ) :
    (objIn records pos).1 ≠ .nothing ∧ ∀ s, (objIn records pos).2 ≠ .memh s := by
  induction records generalizing pos with
  | nil => exact ⟨by simp [objIn], by simp [objIn]⟩
  | cons rec records ih =>
    rw [objIn]
    split
    · exact ⟨by simp, by simp⟩
    · exact ih 0

/-- Nothing but memh files answers with nothing. -/
theorem none_not_mem_of_ne_memh {state : FileState} {answers : List (Option Element)}
    (h : Pulls input state answers) (hstate : ∀ s, state ≠ .memh s) : none ∉ answers := by
  refine Pulls.none_not_mem (?_ : ∀ state, (∀ s, state ≠ FileState.memh s) → _) h hstate
  intro state hne
  cases state with
  | obj records pos => exact objIn_fst_ne_nothing records pos
  | raw offset bytes =>
    change (rawIn offset bytes).1 ≠ .nothing ∧ ∀ s, (rawIn offset bytes).2 ≠ .memh s
    rw [rawIn]
    split <;> exact ⟨by simp, by simp⟩
  | text offset chars =>
    change (textIn offset chars).1 ≠ .nothing ∧ ∀ s, (textIn offset chars).2 ≠ .memh s
    rw [textIn]
    dsimp only
    repeat' split
    all_goals exact ⟨by simp, by simp⟩
  | memh s => exact absurd rfl (hne s)

/-! ## Faithful loading -/

/-- A file of words and address marks in which an address mark is reached. -/
def ReadsMark (bytes : List Byte) : Format → Prop
  | .memh _ => MarkAhead (fileText bytes)
  | _ => False

/-- What loading a file comes to: the reader arrives at the end, what it reported as elements is
written and nothing else, and for an object these are the words of its records. -/
structure LoadsFaithfully (filesize : Option ℕ) (bytes : List Byte) (fmt : Format)
    (state : FileState) : Prop where
  ends : ∃ answers, Pulls input state answers
  exact : ∀ answers, Pulls input state answers → LoadsExactly state (items answers)
  words : fmt = .obj → ∀ o s answers, objRead filesize { pos := 0, rest := bytes } = .ok (o, s) →
    Pulls input state answers → items answers = objWords o.records

/-- The words of an object are reported whatever becomes of them. -/
theorem openFile_obj_words {filesize : Option ℕ} {bytes : List Byte} {state : FileState}
    (h : openFile filesize bytes .obj = some state) {o : ObjFile} {s : Lib.Codec.Stream Byte}
    {answers : List (Option Element)}
    (hread : objRead filesize { pos := 0, rest := bytes } = .ok (o, s))
    (hpulls : Pulls input state answers) : items answers = objWords o.records := by
  simp only [openFile, hread, Option.some.injEq] at h
  subst h
  rw [hpulls.unique (pulls_obj o.records), items_map_some]

theorem openFile_nothing_iff {filesize : Option ℕ} {bytes : List Byte} {fmt : Format}
    {state : FileState} (h : openFile filesize bytes fmt = some state)
    {answers : List (Option Element)} (hpulls : Pulls input state answers) :
    none ∈ answers ↔ ReadsMark bytes fmt := by
  cases fmt with
  | memh offset =>
    cases h
    exact none_mem_memh_iff hpulls rfl
  | obj =>
    rw [openFile] at h
    split at h
    · cases h
      simpa [ReadsMark] using none_not_mem_of_ne_memh hpulls (by simp)
    · cases h
  | raw =>
    cases h
    simpa [ReadsMark] using none_not_mem_of_ne_memh hpulls (by simp)
  | text =>
    cases h
    simpa [ReadsMark] using none_not_mem_of_ne_memh hpulls (by simp)

/-- A file that could be opened is loaded faithfully unless an address mark is read from it. -/
theorem loadsFaithfully_iff {filesize : Option ℕ} {bytes : List Byte} {fmt : Format}
    {state : FileState} (h : openFile filesize bytes fmt = some state) :
    LoadsFaithfully filesize bytes fmt state ↔ ¬ ReadsMark bytes fmt := by
  obtain ⟨answers, hpulls⟩ := exists_pulls_input state
  have hnothing := openFile_nothing_iff h hpulls
  constructor
  · intro hfaithful hmark
    exact (loadsExactly_iff hpulls).mp (hfaithful.exact answers hpulls) (hnothing.mpr hmark)
  · intro hmark
    refine ⟨⟨answers, hpulls⟩, ?_, ?_⟩
    · intro answers' hpulls'
      obtain rfl := hpulls.unique hpulls'
      exact (loadsExactly_iff hpulls).mpr fun hmem ↦ hmark (hnothing.mp hmem)
    · rintro rfl o s answers' hread hpulls'
      exact openFile_obj_words h hread hpulls'

/-- An object with a gap between its records, and words in a memh file. -/
theorem loadsFaithfully_sampleFile :
    (∃ bytes state, objWrite sampleFile = .ok bytes ∧ openFile none bytes .obj = some state ∧
      LoadsFaithfully none bytes .obj state ∧
      LoadsExactly state [⟨0#32, 5#32⟩, ⟨1#32, 6#32⟩, ⟨0x100#32, 7#32⟩]) ∧
      LoadsFaithfully none [0x35#8, 0x20#8, 0x31#8, 0x46#8, 0x0a#8, 0x37#8] (.memh 4#32)
        (.memh (memhInit 4#32 ['5', ' ', '1', 'F', '\n', '7'])) := by
  constructor
  · have hreadable : sampleFile.Readable none 4 :=
      ⟨⟨rfl, rfl, rfl⟩, withinLimits_sampleFile, ⟨by decide, by decide⟩, ⟨by decide, by decide⟩, trivial⟩
    obtain ⟨s, hread⟩ : ∃ s, objRead none { pos := 0, rest := objV0Write sampleFile } = .ok (sampleFile, s) := by
      have hgood : sampleFile.version = 0#8 ∧ sampleFile.Readable none (0 + 4) := ⟨rfl, hreadable⟩
      have hread := (objRead_inverts none).complete hgood []
      rw [List.append_nil] at hread
      exact ⟨_, hread⟩
    have hopen : openFile none (objV0Write sampleFile) .obj = some (.obj sampleFile.records 0) := by
      rw [openFile, hread]
    have hfaithful : LoadsFaithfully none (objV0Write sampleFile) .obj (.obj sampleFile.records 0) :=
      (loadsFaithfully_iff hopen).mpr not_false
    refine ⟨_, _, if_pos rfl, hopen, hfaithful, fun bus loadAddress i devices ↦ ?_⟩
    obtain ⟨fuel, hloads⟩ := hfaithful.exact _ (pulls_obj sampleFile.records) bus loadAddress i devices
    rw [items_map_some] at hloads
    exact ⟨fuel, hloads⟩
  · have hopen : openFile none [0x35#8, 0x20#8, 0x31#8, 0x46#8, 0x0a#8, 0x37#8] (.memh 4#32) =
        some (.memh (memhInit 4#32 ['5', ' ', '1', 'F', '\n', '7'])) := rfl
    have hfive : MarkAhead ['5', ' ', '1', 'F', '\n', '7'] ↔ MarkAhead [' ', '1', 'F', '\n', '7'] :=
      markAhead_word_iff (rfl : _ = (none, _)) (rfl : _ = (some 5#32, _))
    have hnext : MarkAhead [' ', '1', 'F', '\n', '7'] ↔ MarkAhead ['\n', '7'] :=
      markAhead_word_iff (rfl : _ = (none, _)) (rfl : _ = (some 0x1f#32, _))
    have hlast : MarkAhead ['\n', '7'] ↔ MarkAhead [] :=
      markAhead_word_iff (rfl : _ = (none, _)) (rfl : _ = (some 7#32, _))
    have hend : ¬ MarkAhead [] := not_markAhead_end rfl rfl
    apply (loadsFaithfully_iff hopen).mpr
    exact fun hmark ↦ hend (hlast.mp (hnext.mp (hfive.mp hmark)))

/-- Loading `@1 5` writes three times, though the two elements of the file are 0 at 0 and 5 at 1. -/
theorem not_loadsFaithfully_mark :
    ∃ state, openFile none [0x40#8, 0x31#8, 0x20#8, 0x35#8] (.memh 0#32) = some state ∧
      ¬ LoadsFaithfully none [0x40#8, 0x31#8, 0x20#8, 0x35#8] (.memh 0#32) state := by
  refine ⟨.memh (memhInit 0#32 ['@', '1', ' ', '5']), rfl, ?_⟩
  intro hfaithful
  have hpulls : Pulls input (.memh (memhInit 0#32 ['@', '1', ' ', '5']))
      [none, some ⟨0#32, 0#32⟩, some ⟨1#32, 5#32⟩] :=
    .more rfl (.more rfl (.more rfl (.done rfl)))
  exact not_loadsExactly_of_nothing hpulls List.mem_cons_self (hfaithful.exact _ hpulls)

end Tenyr.Fmt
