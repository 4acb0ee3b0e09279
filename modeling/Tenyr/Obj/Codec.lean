import Tenyr.Obj.Object
import Tenyr.Lib.Codec

/-!
# Object files

The bytes of version 0 objects, as `obj_write` emits and `obj_read` takes them.
-/

namespace Tenyr.Obj

open Isa Lib.Codec

abbrev Byte := BitVec 8

/-- A name field with all its bytes, whether or not one of them terminates the name. -/
abbrev NameField := List.Vector Byte symbolLen

/-- `struct objsym` as it is stored. -/
structure SymEntry where
  flags : Word
  name : NameField
  value : Word
  size : Word
  deriving DecidableEq

/-- `struct objrlc` as it is stored. -/
structure RlcEntry where
  flags : Word
  name : NameField
  addr : Word
  width : Word
  deriving DecidableEq

/-- `struct obj`, with the counts that it keeps next to its lists. -/
structure ObjFile where
  version : Byte
  flags : Word
  recCount : Word
  records : List ObjRec
  symCount : Word
  symbols : List SymEntry
  rlcCount : Word
  relocs : List RlcEntry
  deriving DecidableEq

/-! ## Names -/

/-- The characters before the terminator. -/
def NameField.chars (name : NameField) : Name :=
  (name.toList.takeWhile (· ≠ 0#8)).map fun b ↦ Char.ofNat b.toNat

def SymEntry.objSym (sym : SymEntry) : ObjSym :=
  { flags := sym.flags, name := sym.name.chars, value := sym.value, size := sym.size }

def RlcEntry.objRlc (rlc : RlcEntry) : ObjRlc :=
  { flags := rlc.flags, name := rlc.name.chars, addr := rlc.addr, width := rlc.width }

/-- The object that an object file holds. -/
def ObjFile.object (o : ObjFile) : Object :=
  { records := o.records
    symbols := o.symbols.map SymEntry.objSym
    relocs := o.relocs.map RlcEntry.objRlc }

/-! ## Writing -/

/-- Why an object is not read or written: a reported error, or a refusal with `EFBIG`. -/
inductive ObjStop where
  | fatal | tooBig
  deriving DecidableEq, Repr

/-- `MAGIC_BYTES` -/
def magicBytes : List Byte := [0x54#8, 0x4f#8, 0x56#8]

/-- Words are stored with their low byte first. -/
def wordBytes : List.Vector Byte 4 ≃ Word where
  toFun v := v.get 3 ++ v.get 2 ++ v.get 1 ++ v.get 0
  invFun w := ⟨[w.extractLsb' 0 8, w.extractLsb' 8 8, w.extractLsb' 16 8, w.extractLsb' 24 8], rfl⟩
  left_inv v := by
    obtain ⟨bytes, hlength⟩ := v
    match bytes, hlength with
    | [a, b, c, d], _ =>
      apply Subtype.ext
      change [(d ++ c ++ b ++ a).extractLsb' 0 8, (d ++ c ++ b ++ a).extractLsb' 8 8,
        (d ++ c ++ b ++ a).extractLsb' 16 8, (d ++ c ++ b ++ a).extractLsb' 24 8] = [a, b, c, d]
      have hb : (d ++ c ++ b ++ a).extractLsb' 8 8 = b := by
        rw [BitVec.extractLsb'_append_eq_of_le (by decide)]
        exact BitVec.extractLsb'_append_eq_right
      have hc : (d ++ c ++ b ++ a).extractLsb' 16 8 = c := by
        rw [BitVec.extractLsb'_append_eq_of_le (by decide),
          BitVec.extractLsb'_append_eq_of_le (by decide)]
        exact BitVec.extractLsb'_append_eq_right
      have hd : (d ++ c ++ b ++ a).extractLsb' 24 8 = d := by
        rw [BitVec.extractLsb'_append_eq_of_le (by decide),
          BitVec.extractLsb'_append_eq_of_le (by decide)]
        exact BitVec.extractLsb'_append_eq_left
      rw [BitVec.extractLsb'_append_eq_right, hb, hc, hd]
  right_inv w := by
    change w.extractLsb' 24 8 ++ w.extractLsb' 16 8 ++ w.extractLsb' 8 8 ++ w.extractLsb' 0 8 = w
    rw [BitVec.extractLsb'_append_extractLsb'_eq_extractLsb' (show 24 = 16 + 8 from rfl),
      BitVec.extractLsb'_append_extractLsb'_eq_extractLsb' (show 16 = 8 + 8 from rfl),
      BitVec.extractLsb'_append_extractLsb'_eq_extractLsb' (show 8 = 0 + 8 from rfl)]
    exact BitVec.extractLsb'_eq_self

/-- The bytes of a word. -/
def putWord (w : Word) : List Byte := (wordBytes.symm w).toList

def putRec (rec : ObjRec) : List Byte :=
  putWord rec.addr ++ putWord rec.size ++ rec.data.flatMap putWord

def putSym (sym : SymEntry) : List Byte :=
  putWord sym.flags ++ sym.name.toList ++ putWord sym.value ++ putWord sym.size

def putRlc (rlc : RlcEntry) : List Byte :=
  putWord rlc.flags ++ rlc.name.toList ++ putWord rlc.addr ++ putWord rlc.width

/-- `for_counted_put`: all of the list, unless the count is zero. -/
def countedPut {α : Type} (put : α → List Byte) (count : Word) (list : List α) : List Byte :=
  if count = 0#32 then [] else list.flatMap put

/-- `obj_v0_write` -/
def objV0Write (o : ObjFile) : List Byte :=
  magicBytes ++ [o.version] ++ putWord o.flags ++
    putWord o.recCount ++ countedPut putRec o.recCount o.records ++
    putWord o.symCount ++ countedPut putSym o.symCount o.symbols ++
    putWord o.rlcCount ++ countedPut putRlc o.rlcCount o.relocs

/-- `obj_write` -/
def objWrite (o : ObjFile) : Except ObjStop (List Byte) :=
  if o.version = 0#8 then .ok (objV0Write o) else .error .fatal

/-! ## Reading -/

/-- `OBJ_MAX_REC_CNT`, `OBJ_MAX_SYMBOLS` and `OBJ_MAX_RELOCS` -/
def objMaxCount : ℕ := 2 ^ 16 - 1

/-- `OBJ_MAX_REC_SIZE` -/
def objMaxRecSize : ℕ := 2 ^ 31 - 1

abbrev ObjReader := Reader Byte ObjStop

def getWord : ObjReader Word := wordBytes <$> block 4 .fatal

/-- `ftell`, given the size of the file if the stream is seekable. -/
def ftell (filesize : Option ℕ) (pos : ℕ) : ℤ := if filesize.isSome then pos else -1

/-- The size of the file as it is compared: `LONG_MAX` where it is not known, and then cut to an
unsigned integer. -/
def unsignedFilesize (filesize : Option ℕ) : ℕ := filesize.getD (2 ^ 63 - 1) % 2 ^ 32

section Read

variable (filesize : Option ℕ)

/-- One record. The second limit compares words plus bytes with bytes. -/
def getRec : ObjReader ObjRec := do
  let addr ← getWord
  let size ← getWord
  check (fun _ ↦ size.toNat ≤ objMaxRecSize) .tooBig
  check (fun pos ↦ size.toNat + ftell filesize pos ≤ unsignedFilesize filesize) .tooBig
  let data ← many getWord size.toNat
  pure { addr, data }

def getSym : ObjReader SymEntry := do
  let flags ← getWord
  let name ← block symbolLen .fatal
  let value ← getWord
  let size ← getWord
  pure { flags, name, value, size }

def getRlc : ObjReader RlcEntry := do
  let flags ← getWord
  let name ← block symbolLen .fatal
  let addr ← getWord
  let width ← getWord
  pure { flags, name, addr, width }

/-- A count within its limit, and as many entries. -/
def getCounted {α : Type} (get : ObjReader α) : ObjReader (Word × List α) := do
  let count ← getWord
  check (fun _ ↦ count.toNat ≤ objMaxCount) .tooBig
  let list ← many get count.toNat
  pure (count, list)

/-- `obj_v0_read` -/
def objV0Read (version : Byte) : ObjReader ObjFile := do
  let flags ← getWord
  let records ← getCounted (getRec filesize)
  let symbols ← getCounted getSym
  let relocs ← getCounted getRlc
  pure
    { version, flags, recCount := records.1, records := records.2, symCount := symbols.1
      symbols := symbols.2, rlcCount := relocs.1, relocs := relocs.2 }

/-- `obj_read` -/
def objRead : ObjReader ObjFile := do
  let magic ← block 3 .fatal
  check (fun _ ↦ magic.toList = magicBytes) .fatal
  let version ← block 1 .fatal
  check (fun _ ↦ version.head = 0#8) .fatal
  objV0Read filesize version.head

end Read

/-! ## Fields -/

theorem getWord_inverts : Inverts getWord putWord fun _ _ ↦ True :=
  (Inverts.block 4 ObjStop.fatal).map wordBytes

@[simp]
theorem length_putWord (w : Word) : (putWord w).length = 4 := (wordBytes.symm w).toList_length

/-- What `obj_v0_read` demands of a record at a position. -/
def RecFits (filesize : Option ℕ) (pos : ℕ) (rec : ObjRec) : Prop :=
  rec.data.length ≤ objMaxRecSize ∧
    rec.data.length + ftell filesize (pos + 8) ≤ unsignedFilesize filesize

theorem getRec_inverts (filesize : Option ℕ) :
    Inverts (getRec filesize) putRec (RecFits filesize) := by
  unfold getRec
  refine Inverts.congr (Inverts.bind ObjRec.addr getWord_inverts
    (fun addr ↦ Inverts.bind ObjRec.size getWord_inverts
      (fun size ↦ Inverts.bind (fun _ ↦ ()) Inverts.check
        (fun _ ↦ Inverts.bind (fun _ ↦ ()) Inverts.check
          (fun _ ↦ Inverts.bind ObjRec.data (getWord_inverts.many size.toNat)
            (fun _ ↦ Inverts.pure _) ?_) ?_) ?_) ?_) ?_) ?_ ?_
  · rintro data pos rec rfl
    rfl
  · intros
    rfl
  · intros
    rfl
  · rintro size pos rec ⟨_, _, ⟨hlength, _⟩, _⟩
    rw [ObjRec.size, hlength, BitVec.ofNat_toNat, BitVec.setWidth_eq]
  · rintro addr pos rec ⟨_, _, _, _, hrec⟩
    exact congrArg ObjRec.addr hrec
  · intro pos rec
    simp only [goodFrom_iff, length_putWord, List.length_nil, Nat.add_zero, Nat.add_assoc,
      true_and]
    constructor
    · rintro ⟨hmax, hfits, ⟨hlength, _⟩, _⟩
      rw [← hlength] at hmax hfits
      exact ⟨hmax, hfits⟩
    · rintro ⟨hmax, hfits⟩
      have hsize : rec.size.toNat = rec.data.length := by
        rw [ObjRec.size, BitVec.toNat_ofNat]
        apply Nat.mod_eq_of_lt
        rw [objMaxRecSize] at hmax
        omega
      rw [hsize]
      exact ⟨hmax, hfits, ⟨rfl, fun _ _ ↦ trivial⟩, trivial⟩
  · intro pos rec _
    simp [putRec]

theorem getSym_inverts : Inverts getSym putSym fun _ _ ↦ True := by
  unfold getSym
  refine Inverts.congr (Inverts.bind SymEntry.flags getWord_inverts
    (fun flags ↦ Inverts.bind SymEntry.name (Inverts.block _ _)
      (fun name ↦ Inverts.bind SymEntry.value getWord_inverts
        (fun value ↦ Inverts.bind SymEntry.size getWord_inverts
          (fun _ ↦ Inverts.pure _) ?_) ?_) ?_) ?_) ?_ ?_
  · rintro size pos sym rfl
    rfl
  · rintro value pos sym ⟨_, hsym⟩
    exact congrArg SymEntry.value hsym
  · rintro name pos sym ⟨_, _, hsym⟩
    exact congrArg SymEntry.name hsym
  · rintro flags pos sym ⟨_, _, _, hsym⟩
    exact congrArg SymEntry.flags hsym
  · intros
    simp
  · intros
    simp [putSym]

theorem getRlc_inverts : Inverts getRlc putRlc fun _ _ ↦ True := by
  unfold getRlc
  refine Inverts.congr (Inverts.bind RlcEntry.flags getWord_inverts
    (fun flags ↦ Inverts.bind RlcEntry.name (Inverts.block _ _)
      (fun name ↦ Inverts.bind RlcEntry.addr getWord_inverts
        (fun addr ↦ Inverts.bind RlcEntry.width getWord_inverts
          (fun _ ↦ Inverts.pure _) ?_) ?_) ?_) ?_) ?_ ?_
  · rintro width pos rlc rfl
    rfl
  · rintro addr pos rlc ⟨_, hrlc⟩
    exact congrArg RlcEntry.addr hrlc
  · rintro name pos rlc ⟨_, _, hrlc⟩
    exact congrArg RlcEntry.name hrlc
  · rintro flags pos rlc ⟨_, _, _, hrlc⟩
    exact congrArg RlcEntry.flags hrlc
  · intros
    simp
  · intros
    simp [putRlc]

/-! ## Objects -/

/-- The counts that an object keeps are the lengths of its lists. -/
structure ObjFile.Counted (o : ObjFile) : Prop where
  records : o.records.length = o.recCount.toNat
  symbols : o.symbols.length = o.symCount.toNat
  relocs : o.relocs.length = o.rlcCount.toNat

/-- The limits of `obj_v0_read`. -/
structure ObjFile.WithinLimits (o : ObjFile) : Prop where
  recCount : o.recCount.toNat ≤ objMaxCount
  symCount : o.symCount.toNat ≤ objMaxCount
  rlcCount : o.rlcCount.toNat ≤ objMaxCount
  recSize : ∀ rec ∈ o.records, rec.data.length ≤ objMaxRecSize

theorem countedPut_of_length {α : Type} {put : α → List Byte} {count : Word} {list : List α}
    (h : list.length = count.toNat) : countedPut put count list = list.flatMap put := by
  unfold countedPut
  split
  · rename_i hzero
    rw [hzero] at h
    rw [List.length_eq_zero_iff.mp h]
    rfl
  · rfl

theorem getCounted_inverts {α : Type} {get : ObjReader α} {put : α → List Byte}
    {good : ℕ → α → Prop} (h : Inverts get put good) :
    Inverts (getCounted get) (fun counted ↦ putWord counted.1 ++ countedPut put counted.1 counted.2)
      fun pos counted ↦ counted.2.length = counted.1.toNat ∧ counted.1.toNat ≤ objMaxCount ∧
        GoodFrom put good (pos + 4) counted.2 := by
  unfold getCounted
  refine Inverts.congr (Inverts.bind Prod.fst getWord_inverts
    (fun count ↦ Inverts.bind (fun _ ↦ ()) Inverts.check
      (fun _ ↦ Inverts.bind Prod.snd (h.many _) (fun _ ↦ Inverts.pure _) ?_) ?_) ?_) ?_ ?_
  · rintro list pos counted rfl
    rfl
  · intros
    rfl
  · rintro count pos counted ⟨_, _, hcounted⟩
    exact congrArg Prod.fst hcounted
  · rintro pos ⟨count, list⟩
    simp only [length_putWord, List.length_nil, Nat.add_zero, true_and, and_true]
    constructor
    · rintro ⟨hmax, hlength, hgood⟩
      exact ⟨hlength, hmax, hgood⟩
    · rintro ⟨hlength, hmax, hgood⟩
      exact ⟨hmax, hlength, hgood⟩
  · rintro pos ⟨count, list⟩ ⟨hlength, _⟩
    rw [countedPut_of_length hlength]
    simp

/-- What `obj_v0_read` accepts. -/
structure ObjFile.Readable (filesize : Option ℕ) (pos : ℕ) (o : ObjFile) : Prop where
  counted : o.Counted
  limits : o.WithinLimits
  fits : GoodFrom putRec (RecFits filesize) (pos + 8) o.records

theorem WithinLimits.of_fits {filesize : Option ℕ} {pos : ℕ} {records : List ObjRec}
    (h : GoodFrom putRec (RecFits filesize) pos records) :
    ∀ rec ∈ records, rec.data.length ≤ objMaxRecSize := by
  induction records generalizing pos with
  | nil => simp
  | cons rec rest ih =>
    obtain ⟨hrec, hrest⟩ := h
    intro rec' hmem
    rcases List.mem_cons.mp hmem with rfl | hmem
    · exact hrec.1
    · exact ih hrest rec' hmem

theorem objV0Read_inverts (filesize : Option ℕ) (version : Byte) :
    Inverts (objV0Read filesize version) (fun o ↦ (objV0Write o).drop 4) fun pos o ↦
      o.version = version ∧ o.Readable filesize pos := by
  unfold objV0Read
  refine Inverts.congr (Inverts.bind ObjFile.flags getWord_inverts
    (fun flags ↦ Inverts.bind (fun o ↦ (o.recCount, o.records))
      (getCounted_inverts (getRec_inverts filesize))
      (fun _ ↦ Inverts.bind (fun o ↦ (o.symCount, o.symbols)) (getCounted_inverts getSym_inverts)
        (fun _ ↦ Inverts.bind (fun o ↦ (o.rlcCount, o.relocs)) (getCounted_inverts getRlc_inverts)
          (fun _ ↦ Inverts.pure _) ?_) ?_) ?_) ?_) ?_ ?_
  · rintro relocs pos o rfl
    rfl
  · rintro symbols pos o ⟨_, ho⟩
    exact congrArg (fun o ↦ (o.symCount, o.symbols)) ho
  · rintro records pos o ⟨_, _, ho⟩
    exact congrArg (fun o ↦ (o.recCount, o.records)) ho
  · rintro flags pos o ⟨_, _, _, ho⟩
    exact congrArg ObjFile.flags ho
  · intro pos o
    simp only [length_putWord, goodFrom_iff, true_and, Nat.add_assoc]
    constructor
    · rintro ⟨⟨hrecs, hrecMax, hfits⟩, ⟨hsyms, hsymMax, _⟩, ⟨hrlcs, hrlcMax, _⟩, ho⟩
      exact ⟨congrArg ObjFile.version ho,
        { counted := ⟨hrecs, hsyms, hrlcs⟩
          limits := ⟨hrecMax, hsymMax, hrlcMax, WithinLimits.of_fits hfits⟩
          fits := hfits }⟩
    · rintro ⟨rfl, ⟨hrecs, hsyms, hrlcs⟩, ⟨hrecMax, hsymMax, hrlcMax, _⟩, hfits⟩
      exact ⟨⟨hrecs, hrecMax, hfits⟩, ⟨hsyms, hsymMax, fun _ _ ↦ trivial⟩,
        ⟨hrlcs, hrlcMax, fun _ _ ↦ trivial⟩, rfl⟩
  · intro pos o _
    simp [objV0Write, magicBytes]

/-- Reading inverts writing; only the file size restricts which objects are read. -/
theorem objRead_inverts (filesize : Option ℕ) :
    Inverts (objRead filesize) objV0Write fun pos o ↦
      o.version = 0#8 ∧ o.Readable filesize (pos + 4) := by
  unfold objRead
  refine Inverts.congr (Inverts.bind (fun _ ↦ ⟨magicBytes, rfl⟩) (Inverts.block _ _)
    (fun magic ↦ Inverts.bind (fun _ ↦ ()) Inverts.check
      (fun _ ↦ Inverts.bind (fun o ↦ o.version ::ᵥ .nil) (Inverts.block _ _)
        (fun version ↦ Inverts.bind (fun _ ↦ ()) Inverts.check
          (fun _ ↦ objV0Read_inverts filesize version.head) ?_) ?_) ?_) ?_) ?_ ?_
  · intros
    rfl
  · rintro version pos o ⟨_, hversion, _⟩
    rw [hversion]
    have htail : List.Vector.nil = version.tail := (List.Vector.eq_nil _).symm
    rw [htail]
    exact List.Vector.cons_head_tail version
  · intros
    rfl
  · rintro magic pos o ⟨hmagic, _⟩
    exact Subtype.ext hmagic.symm
  · intro pos o
    change True ∧ _ ∧ True ∧ o.version = 0#8 ∧ o.version = o.version ∧
      o.Readable filesize (pos + 4) ↔ _
    constructor
    · rintro ⟨_, _, _, hversion, _, hreadable⟩
      exact ⟨hversion, hreadable⟩
    · rintro ⟨hversion, hreadable⟩
      exact ⟨trivial, rfl, trivial, hversion, rfl, hreadable⟩
  · intro pos o _
    simp [objV0Write, magicBytes]

@[simp]
theorem length_putRec (rec : ObjRec) : (putRec rec).length = 8 + 4 * rec.data.length := by
  have hdata : ∀ data : List Word, (data.flatMap putWord).length = 4 * data.length := by
    intro data
    induction data with
    | nil => rfl
    | cons w rest ih =>
      rw [List.flatMap_cons, List.length_append, ih, length_putWord, List.length_cons]
      omega
  rw [putRec, List.length_append, List.length_append, length_putWord, length_putWord, hdata]

/-- Records that are in a file of less than 4 GiB never fail the test of its size, though that test
compares different units. -/
theorem goodFrom_recFits {filesize : Option ℕ} {pos : ℕ} {records : List ObjRec}
    (hmax : ∀ rec ∈ records, rec.data.length ≤ objMaxRecSize)
    (hsize : ∀ size, filesize = some size →
      size < 2 ^ 32 ∧ pos + (records.flatMap putRec).length ≤ size) :
    GoodFrom putRec (RecFits filesize) pos records := by
  induction records generalizing pos with
  | nil => trivial
  | cons rec rest ih =>
    have hrec := hmax rec List.mem_cons_self
    refine ⟨⟨hrec, ?_⟩, ?_⟩
    · cases filesize with
      | none =>
        have hlimit : unsignedFilesize none = 2 ^ 32 - 1 := rfl
        have hhere : ftell none (pos + 8) = -1 := rfl
        rw [hlimit, hhere]
        rw [objMaxRecSize] at hrec
        omega
      | some size =>
        obtain ⟨hlt, hle⟩ := hsize size rfl
        have hlimit : unsignedFilesize (some size) = size := Nat.mod_eq_of_lt hlt
        have hhere : ftell (some size) (pos + 8) = (pos + 8 : ℕ) := rfl
        rw [List.flatMap_cons, List.length_append, length_putRec] at hle
        rw [hlimit, hhere]
        omega
    · apply ih fun rec' hmem ↦ hmax rec' (List.mem_cons_of_mem _ hmem)
      intro size hfile
      obtain ⟨hlt, hle⟩ := hsize size hfile
      rw [List.flatMap_cons, List.length_append] at hle
      exact ⟨hlt, by omega⟩

/-- What is written for an object is read back as that object, from seekable files and from other
streams, and nothing behind it is consumed. What is read is what would be written for the object that
was read. -/
theorem obj_codec :
    (∀ o : ObjFile, o.version = 0#8 → o.Counted → o.WithinLimits →
      ∃ bytes, objWrite o = .ok bytes ∧
        ∀ pos trailing, pos + bytes.length + trailing.length < 2 ^ 32 →
          ∀ filesize ∈ [some (pos + bytes.length + trailing.length), none],
            objRead filesize { pos, rest := bytes ++ trailing } =
              .ok (o, { pos := pos + bytes.length, rest := trailing })) ∧
      ∀ filesize s o s', objRead filesize s = .ok (o, s') →
        o.Counted ∧ ∃ bytes, objWrite o = .ok bytes ∧ s.rest = bytes ++ s'.rest ∧
          s'.pos = s.pos + bytes.length := by
  refine ⟨?_, ?_⟩
  · intro o hversion hcounted hlimits
    refine ⟨objV0Write o, if_pos hversion, ?_⟩
    intro pos trailing hlt filesize hfile
    apply (objRead_inverts filesize).complete
    refine ⟨hversion, hcounted, hlimits, ?_⟩
    apply goodFrom_recFits hlimits.recSize
    rintro size rfl
    obtain rfl : size = pos + (objV0Write o).length + trailing.length := by simpa using hfile
    refine ⟨hlt, ?_⟩
    have hlength : 12 + (o.records.flatMap putRec).length ≤ (objV0Write o).length := by
      rw [← countedPut_of_length hcounted.records]
      simp only [objV0Write, magicBytes, List.length_append, List.length_cons, List.length_nil,
        length_putWord]
      omega
    omega
  · intro filesize s o s' hread
    obtain ⟨⟨hversion, hreadable⟩, hrest, hpos⟩ := (objRead_inverts filesize).sound hread
    exact ⟨hreadable.counted, objV0Write o, if_pos hversion, hrest, hpos⟩

/-- The field of the name `x`. -/
def fieldOfX : NameField := ⟨120#8 :: List.replicate 31 0#8, rfl⟩

/-- An object with two records, a name for a word of the first one, and a relocation by it. -/
def sampleFile : ObjFile where
  version := 0#8
  flags := 0#32
  recCount := 2#32
  records := [{ addr := 0#32, data := [5#32, 6#32] }, { addr := 0x100#32, data := [7#32] }]
  symCount := 1#32
  symbols := [{ flags := 0#32, name := fieldOfX, value := 1#32, size := 0#32 }]
  rlcCount := 1#32
  relocs := [{ flags := 0#32, name := fieldOfX, addr := 0x100#32, width := 12#32 }]

theorem withinLimits_sampleFile : sampleFile.WithinLimits := ⟨by decide, by decide, by decide, by decide⟩

theorem obj_codec_sampleFile :
    ∃ bytes, objWrite sampleFile = .ok bytes ∧
      ∀ pos trailing, pos + bytes.length + trailing.length < 2 ^ 32 →
        ∀ filesize ∈ [some (pos + bytes.length + trailing.length), none],
          objRead filesize { pos, rest := bytes ++ trailing } =
            .ok (sampleFile, { pos := pos + bytes.length, rest := trailing }) :=
  obj_codec.1 sampleFile rfl ⟨rfl, rfl, rfl⟩ withinLimits_sampleFile

end Tenyr.Obj
