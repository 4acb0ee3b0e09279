import Tenyr.Asm.Lookup
import Tenyr.Asm.ObjectFile
import Tenyr.Obj.Codec

/-!
# Object files of a program

The bytes that `obj_emit` writes, with the memory that the assembler copies from without having written
it: what follows the name of a symbol, and what `realloc` adds to a record. Object files do not depend on
it when every exported name fills its field and no `.zero` reaches beyond the first 1024 words.
-/

namespace Tenyr.Asm

open Isa Obj

/-! ## Memory -/

/-- Memory that the assembler reads but does not write. -/
structure Heap where
  fresh : ℕ → Word
  /-- The byte at an index from the beginning of the name of a symbol, if it is behind the name. -/
  behindName : ℕ → ℕ → Byte

/-- The bytes at a name that `coalesce_string` has allocated. -/
def stringAt (name : Name) (behind : ℕ → Byte) (k : ℕ) : Byte :=
  match name[k]? with
  | some c => BitVec.ofNat 8 c.toNat
  | none => if k = name.length then 0#8 else behind k

/-- `strcopy` to a field: all of it is copied, and then terminated. -/
def strcopyField (src : ℕ → Byte) : NameField :=
  List.Vector.ofFn fun k ↦ if k.val = symbolLen - 1 then 0#8 else src k

/-! ## Entries -/

/-- `obj_sym` for a global symbol with its index. -/
def objSymEntry (heap : Heap) (s : Symbol × ℕ) : Except Stop SymEntry :=
  (objSym s.1).map fun sym ↦
    { flags := sym.flags
      name := strcopyField (stringAt s.1.name (heap.behindName s.2))
      value := sym.value
      size := sym.size }

/-- The name in a relocation node. A name without a symbol is the zeroed `symbolname` of a reference;
a name that a symbol has may be the symbol's own. -/
def relocName (heap : Heap) (env : Env) (name : Name) : ℕ → Byte :=
  if name = [] then fun _ ↦ 0#8
  else
    match env.symbolFind name with
    | some id => stringAt name (heap.behindName id)
    | none => stringAt name fun _ ↦ 0#8

/-- `obj_reloc`, which copies the field of the node once more. -/
def objRlcEntry (heap : Heap) (env : Env) (reloc : RelocNode) (k : ℕ) : RlcEntry :=
  let rlc := objReloc reloc (env.reladdr k)
  { flags := rlc.flags
    name := strcopyField (relocName heap env reloc.name)
    addr := rlc.addr
    width := rlc.width }

/-- The symbols that are exported with their indices, the latest first. -/
def Assembled.exports (a : Assembled) : List (Symbol × ℕ) :=
  a.symbols.zipIdx.reverse.filter fun s ↦ s.1.global

def Assembled.env (a : Assembled) : Env where
  symbols := a.symbols
  reladdrs := a.reladdrs
  phantom := true

/-- `struct obj` as `obj_emit` finds it. -/
def Assembled.objFile (heap : Heap) (a : Assembled) : Except Stop ObjFile := do
  let u ← objOut heap.fresh a.insns
  let symbols ← a.exports.mapM (objSymEntry heap)
  let relocs := a.relocs.filterMap fun reloc ↦ reloc.insn.map (objRlcEntry heap a.env reloc)
  .ok
    { version := 0#8
      flags := 0#32
      recCount := 1#32
      records := [{ addr := 0#32, data := (List.range u.pos.toNat).map u.data }]
      symCount := BitVec.ofNat 32 symbols.length
      symbols
      rlcCount := BitVec.ofNat 32 relocs.length
      relocs }

/-- `obj_emit` -/
def objEmit (heap : Heap) (a : Assembled) : Except Stop (List Byte) :=
  (a.objFile heap).map objV0Write

/-- The bytes that are written do not depend on the memory. -/
def Reproducible (a : Assembled) : Prop := ∀ heap heap' : Heap, objEmit heap a = objEmit heap' a

/-! ## Names -/

/-- A name of 30 characters or more fills its field. -/
theorem strcopyField_stringAt {name : Name} (h : 30 ≤ name.length) (behind behind' : ℕ → Byte) :
    strcopyField (stringAt name behind) = strcopyField (stringAt name behind') := by
  apply congrArg List.Vector.ofFn
  funext k
  by_cases hlast : k.val = symbolLen - 1
  · rw [if_pos hlast, if_pos hlast]
  · rw [if_neg hlast, if_neg hlast, stringAt, stringAt]
    have hk := k.isLt
    have hlen : symbolLen = 32 := rfl
    cases hget : name[k.val]? with
    | some c => rfl
    | none =>
      have hend : k.val = name.length := by
        have := List.getElem?_eq_none_iff.mp hget
        omega
      dsimp only
      rw [if_pos hend, if_pos hend]

/-- The byte before the last of a shorter name is whatever follows the name. -/
theorem strcopyField_get {name : Name} (h : name.length < 30) (behind : ℕ → Byte) :
    (strcopyField (stringAt name behind)).get ⟨30, by decide⟩ = behind 30 := by
  rw [strcopyField, List.Vector.get_ofFn, if_neg (by decide)]
  change stringAt name behind 30 = behind 30
  rw [stringAt, List.getElem?_eq_none (by omega)]
  exact if_neg (by omega)

theorem length_strcopy_of_le {name : Name} (h : symbolLen ≤ name.length) :
    30 ≤ (strcopy name).length := by
  rw [symbolLen] at h
  rw [strcopy, List.length_take, symbolLen]
  omega

/-- A relocation whose name does not depend on the memory. -/
def Settled (find : Name → Option ℕ) (reloc : RelocNode) : Prop :=
  reloc.name = [] ∨ 30 ≤ reloc.name.length ∨ find reloc.name = none

theorem Settled.relocName_eq {env : Env} {reloc : RelocNode} (h : Settled env.symbolFind reloc)
    (heap heap' : Heap) : strcopyField (relocName heap env reloc.name) =
      strcopyField (relocName heap' env reloc.name) := by
  unfold relocName
  split
  · rfl
  · rename_i hne
    split
    · rename_i id hid
      rcases h with h | h | h
      · exact absurd h hne
      · exact strcopyField_stringAt h _ _
      · rw [h] at hid
        cases hid
    · rfl

/-! ## Named relocations are for undefined names -/

section

variable (undef : UndefinedShifts) {env : Env}

/-- A name without a value is undefined, or too long. -/
theorem settled_of_symbolLookup {sub : Evaluator} {name : Name}
    (h : symbolLookup env sub name = .ok none) :
    30 ≤ (strcopy name).length ∨ env.symbolFind (strcopy name) = none := by
  by_cases hlong : symbolLen ≤ name.length
  · exact .inl (length_strcopy_of_le hlong)
  · right
    rw [strcopy_of_length_lt (by omega)]
    unfold symbolLookup at h
    cases hid : env.symbolFind name with
    | none => rfl
    | some id =>
      exfalso
      have hmem := List.mem_of_find?_eq_some hid
      rw [List.mem_reverse, List.mem_range] at hmem
      have hsame := List.find?_some hid
      simp only [List.getElem?_eq_getElem hmem, Option.any_some] at hsame
      simp only [hid, Option.bind_some, List.getElem?_eq_getElem hmem] at h
      cases hce : (env.symbols[id]).ce with
      | none =>
        rw [hce] at h
        cases h
      | some ce =>
        simp only [hce] at h
        have hname : (env.symbols[id]).name = name := by
          rw [sameSymbol, beq_iff_eq, List.take_of_length_le (l := name) (by omega)] at hsame
          have hlength := congrArg List.length hsame
          rw [List.length_take] at hlength
          rwa [List.take_of_length_le (by omega)] at hsame
        rw [if_pos hname] at h
        cases h

variable {find : Name → Option ℕ}

/-- An evaluator that leaves only settled relocations. -/
def Settles (find : Name → Option ℕ) (eval : Evaluator) : Prop :=
  ∀ context flags width e value relocs, eval context flags width e = .ok (value, relocs) →
    ∀ r ∈ relocs, Settled find r

section

variable {undef} {sub : Evaluator} {context : Option ℕ} {flags : EvalFlags} {width : ℕ} {isExternal : Bool}
  {r : Ref} {value : Option Word} {relocs : List RelocNode}

/-- A bound reference leaves what the definition leaves, and perhaps a relocation without a name. -/
theorem settled_bound (hsub : Settles find sub) {bound : Symbol × ConstExpr Ref}
    (hset : env.boundSet r = some bound)
    (h : ceEvalWith undef env sub context flags width (.ref isExternal r) = .ok (value, relocs)) :
    ∀ reloc ∈ relocs, Settled find reloc := by
  obtain ⟨s, ce⟩ := bound
  rw [ceEvalWith] at h
  simp only [hset] at h
  cases hcontext : env.contextAt s.place with
  | none =>
    rw [hcontext] at h
    obtain ⟨-, rfl⟩ := Prod.mk.inj (Except.ok.inj h)
    simp
  | some dc =>
    simp only [hcontext, bind_eq_ok] at h
    obtain ⟨⟨value', relocs'⟩, heval, h⟩ := h
    have hsettled := hsub _ _ _ _ _ _ heval
    cases value' with
    | some value' =>
      obtain ⟨-, rfl⟩ := Prod.mk.inj (Except.ok.inj h)
      exact hsettled
    | none =>
      dsimp only at h
      split at h
      · obtain ⟨-, rfl⟩ := Prod.mk.inj (Except.ok.inj h)
        intro reloc hreloc
        rcases List.mem_append.mp hreloc with hreloc | hreloc
        · exact hsettled reloc hreloc
        · obtain rfl := List.mem_singleton.mp hreloc
          exact .inl rfl
      · obtain ⟨-, rfl⟩ := Prod.mk.inj (Except.ok.inj h)
        exact hsettled

/-- A reference that is looked up is named in a relocation only when there is no value. -/
theorem settled_plain (henv : env.symbolFind = find) (hset : env.boundSet r = none)
    (h : ceEvalWith undef env sub context flags width (.ref isExternal r) = .ok (value, relocs)) :
    ∀ reloc ∈ relocs, Settled find reloc := by
  rw [ceEvalWith] at h
  simp only [hset, bind_eq_ok] at h
  obtain ⟨found, hlookup, h⟩ := h
  split at h
  · obtain ⟨-, rfl⟩ := Prod.mk.inj (Except.ok.inj h)
    intro reloc hreloc
    obtain rfl := List.mem_singleton.mp hreloc
    cases found with
    | some value' => exact .inl rfl
    | none =>
      right
      rw [← henv]
      exact settled_of_symbolLookup hlookup
  · obtain ⟨-, rfl⟩ := Prod.mk.inj (Except.ok.inj h)
    simp

/-- An operation leaves what its operands leave. -/
theorem settled_op2 {op : BinaryOp} {left right : ConstExpr Ref}
    (hleft : ∀ flags value relocs, ceEvalWith undef env sub context flags width left = .ok (value, relocs) →
      ∀ r ∈ relocs, Settled find r)
    (hright : ∀ flags value relocs, ceEvalWith undef env sub context flags width right = .ok (value, relocs) →
      ∀ r ∈ relocs, Settled find r)
    (h : ceEvalWith undef env sub context flags width (.op2 op left right) = .ok (value, relocs)) :
    ∀ r ∈ relocs, Settled find r := by
  rw [ceEvalWith, bind_eq_ok] at h
  obtain ⟨⟨leftValue, leftRelocs⟩, hevalLeft, h⟩ := h
  have hleftSettled := hleft _ leftValue _ hevalLeft
  cases leftValue with
  | none =>
    obtain ⟨-, rfl⟩ := Prod.mk.inj (Except.ok.inj h)
    exact hleftSettled
  | some leftValue =>
    dsimp only at h
    rw [bind_eq_ok] at h
    obtain ⟨⟨rightValue, rightRelocs⟩, hevalRight, h⟩ := h
    have hboth : ∀ r ∈ leftRelocs ++ rightRelocs, Settled find r := by
      intro r hr
      rcases List.mem_append.mp hr with hr | hr
      · exact hleftSettled r hr
      · exact hright _ rightValue _ hevalRight r hr
    cases rightValue with
    | none =>
      obtain ⟨-, rfl⟩ := Prod.mk.inj (Except.ok.inj h)
      exact hboth
    | some rightValue =>
      dsimp only at h
      rw [bind_eq_ok] at h
      obtain ⟨value', -, h⟩ := h
      obtain ⟨-, rfl⟩ := Prod.mk.inj (Except.ok.inj h)
      exact hboth

end

theorem settles_ceEvalWith (henv : env.symbolFind = find) {sub : Evaluator} (hsub : Settles find sub) :
    Settles find (ceEvalWith undef env sub) := by
  intro context flags width e
  induction e generalizing flags with
  | ref isExternal r =>
    intro value relocs h
    cases hset : env.boundSet r with
    | some bound => exact settled_bound hsub hset h
    | none => exact settled_plain henv hset h
  | ici =>
    intro value relocs h
    rw [ceEvalWith] at h
    split at h
    · obtain ⟨-, rfl⟩ := Prod.mk.inj (Except.ok.inj h)
      intro r hr
      obtain rfl := List.mem_singleton.mp hr
      exact .inl rfl
    · obtain ⟨-, rfl⟩ := Prod.mk.inj (Except.ok.inj h)
      simp
  | imm i isBits =>
    intro value relocs h
    obtain ⟨-, rfl⟩ := Prod.mk.inj (Except.ok.inj h)
    simp
  | paren e ih => exact ih flags
  | op1 op left ih =>
    intro value relocs h
    rw [ceEvalWith, bind_eq_ok] at h
    obtain ⟨⟨leftValue, leftRelocs⟩, hleft, h⟩ := h
    obtain ⟨-, rfl⟩ := Prod.mk.inj (Except.ok.inj h)
    exact ih flags leftValue _ hleft
  | op2 op left right ihLeft ihRight => exact fun value relocs h ↦ settled_op2 ihLeft ihRight h

theorem settles_ceEval (henv : env.symbolFind = find) (fuel : ℕ) :
    Settles find (ceEval undef env fuel) := by
  induction fuel with
  | zero =>
    apply settles_ceEvalWith undef henv
    rintro _ _ _ _ _ _ ⟨⟩
  | succ fuel ih => exact settles_ceEvalWith undef henv ih

variable (fuel : ℕ)

theorem settled_resolveSets (henv : env.symbolFind = find) {symbols symbols' : List Symbol}
    {relocs : List RelocNode} (h : resolveSets undef fuel env symbols = .ok (symbols', relocs)) :
    ∀ r ∈ relocs, Settled find r := by
  induction symbols generalizing symbols' relocs with
  | nil =>
    obtain ⟨-, rfl⟩ := Prod.mk.inj (Except.ok.inj h)
    simp
  | cons s rest ih =>
    rw [resolveSets, bind_eq_ok] at h
    obtain ⟨⟨rest', relocs'⟩, hrest, h⟩ := h
    dsimp only at h
    split at h
    · obtain ⟨-, rfl⟩ := Prod.mk.inj (Except.ok.inj h)
      exact ih hrest
    · rw [bind_eq_ok] at h
      obtain ⟨⟨value, added⟩, heval, h⟩ := h
      obtain ⟨-, rfl⟩ := Prod.mk.inj (Except.ok.inj h)
      intro r hr
      rcases List.mem_append.mp hr with hr | hr
      · exact settles_ceEval undef henv fuel _ _ _ _ _ _ heval r (List.mem_reverse.mp hr)
      · exact ih hrest r hr

theorem settled_fixupFrom {reladdrs : List Word} {k : ℕ} {elems : List Elem} {st st' : FixupState}
    (hfind : ∀ symbols, Freed st.symbols symbols →
      ({ symbols, reladdrs, phantom := true } : Env).symbolFind = find)
    (hst : ∀ r ∈ st.relocs, Settled find r)
    (h : fixupFrom undef fuel reladdrs k elems st = .ok st') : ∀ r ∈ st'.relocs, Settled find r := by
  induction elems generalizing k st' with
  | nil =>
    obtain rfl := Except.ok.inj h
    exact hst
  | cons e rest ih =>
    rw [fixupFrom, bind_eq_ok] at h
    obtain ⟨st₁, hrest, h⟩ := h
    have hfreed := (fixupFrom_spec undef fuel hrest).2
    unfold fixupElem at h
    split at h
    · obtain rfl := Except.ok.inj h
      exact fun r hr ↦ ih hrest r hr
    · rw [bind_eq_ok] at h
      obtain ⟨⟨value, added⟩, heval, h⟩ := h
      cases value with
      | none => cases h
      | some value =>
        obtain rfl := Except.ok.inj h
        intro r hr
        rcases List.mem_append.mp hr with hr | hr
        · exact settles_ceEval undef (hfind _ hfreed) fuel _ _ _ _ _ _ heval r
            (List.mem_reverse.mp hr)
        · exact ih hrest r hr

end

/-- Names of relocations do not depend on the memory in any program. -/
theorem Passes.settled {undef : UndefinedShifts} {fuel : ℕ} {pd : ParseData} {a : Assembled}
    (p : Passes undef fuel pd a) : ∀ r ∈ a.relocs, Settled a.env.symbolFind r := by
  have hreached : ∀ symbols, Freed p.marked symbols →
      (pd.envWith symbols).symbolFind = pd.finalEnv.symbolFind := by
    intro symbols hfreed
    funext name
    exact (p.reached_marked.freed hfreed).symbolFind_eq name
  have hfinal : a.env.symbolFind = pd.finalEnv.symbolFind := by
    have hfreed := hreached a.symbols p.freed
    rw [← hfreed, Assembled.env, p.reladdrs_eq]
    rfl
  have hrelocs : a.relocs = p.st.relocs := congrArg Assembled.relocs p.result
  rw [hrelocs, hfinal]
  exact settled_fixupFrom undef fuel hreached (settled_resolveSets undef fuel rfl p.resolve) p.fixup

/-! ## Words that are not cleared -/

/-- Every element of more than one word ends within the words that are cleared from the start. -/
def ZerosFit (sizes : List Word) : Prop :=
  ∀ (k : ℕ) size, sizes[k]? = some size → 2 ≤ emittedSize size →
    emitted (sizes.take (k + 1)) ≤ 1024

/-- Two records that agree except for memory that was never written. -/
structure SameRecord (u v : ObjFdata) : Prop where
  size : u.size = v.size
  pos : u.pos = v.pos
  cleared : ∀ index < 1024, u.data index = v.data index
  written : ∀ index < u.pos.toNat, u.data index = v.data index

theorem clearBytes_congr {data data' : ℕ → Word} {index : ℕ} (h : data index = data' index)
    (start count : ℕ) : clearBytes data start count index = clearBytes data' start count index := by
  unfold clearBytes
  rw [h]

/-- The two records after one more element. -/
theorem SameRecord.step {u v u' v' : ObjFdata} (h : SameRecord u v) {count : ℕ}
    (hu : ObjInvariant u count) {i : Insn} (hu' : ObjInvariant u' (count + emittedSize i.size))
    (hfit : 2 ≤ emittedSize i.size → count + emittedSize i.size ≤ 1024)
    (hstep : objOutInsn u i = .ok u') (hstep' : objOutInsn v i = .ok v') : SameRecord u' v' := by
  unfold objOutInsn at hstep hstep'
  split at hstep
  · rename_i hle
    rw [if_pos hle] at hstep'
    obtain rfl := Except.ok.inj hstep
    obtain rfl := Except.ok.inj hstep'
    exact h
  · rename_i hgt
    rw [if_neg hgt, ← h.size, ← h.pos] at hstep'
    split at hstep
    · cases hstep
    · rename_i size hgrow
      rw [hgrow] at hstep'
      obtain rfl := Except.ok.inj hstep
      obtain rfl := Except.ok.inj hstep'
      have hbelow : ∀ index, index < 1024 ∨ index < u.pos.toNat →
          u.data index = v.data index := by
        rintro index (hindex | hindex)
        · exact h.cleared index hindex
        · exact h.written index hindex
      have hagree : ∀ index, index < 1024 ∨ index ≤ u.pos.toNat →
          (if index = u.pos.toNat then i.word
            else clearBytes u.data u.pos.toNat i.size.toNat index) =
          if index = u.pos.toNat then i.word
            else clearBytes v.data u.pos.toNat i.size.toNat index := by
        intro index hindex
        split
        · rfl
        · exact clearBytes_congr (hbelow index (by omega)) _ _
      refine ⟨rfl, rfl, fun index hindex ↦ hagree index (.inl hindex), ?_⟩
      intro index hindex
      apply hagree
      have hpos := hu.pos
      have hpos' := hu'.pos
      dsimp only at hpos' hindex
      by_cases htwo : 2 ≤ emittedSize i.size
      · have := hfit htwo
        omega
      · omega

theorem sameRecord_foldlM {u v u' v' : ObjFdata} {count : ℕ} (h : SameRecord u v)
    (hu : ObjInvariant u count) (hv : ObjInvariant v count) {insns : List Insn}
    (hfit : ∀ (k : ℕ) i, insns[k]? = some i → 2 ≤ emittedSize i.size →
      count + emitted ((insns.take (k + 1)).map Insn.size) ≤ 1024)
    (hfold : insns.foldlM objOutInsn u = .ok u') (hfold' : insns.foldlM objOutInsn v = .ok v') :
    SameRecord u' v' := by
  induction insns generalizing u v count with
  | nil =>
    obtain rfl := Except.ok.inj hfold
    obtain rfl := Except.ok.inj hfold'
    exact h
  | cons i rest ih =>
    rw [List.foldlM_cons, bind_eq_ok] at hfold hfold'
    obtain ⟨u₁, hstep, hfold⟩ := hfold
    obtain ⟨v₁, hstep', hfold'⟩ := hfold'
    have hnext : ∀ {w w₁ : ObjFdata}, ObjInvariant w count → objOutInsn w i = .ok w₁ →
        ObjInvariant w₁ (count + emittedSize i.size) := by
      intro w w₁ hw hw₁
      rcases objOutInsn_cases hw i with ⟨-, w', hw', hinv⟩ | ⟨-, hhang⟩
      · obtain rfl := Except.ok.inj (hw₁.symm.trans hw')
        exact hinv
      · rw [hhang] at hw₁
        cases hw₁
    have hu₁ := hnext hu hstep
    have hfirst : 2 ≤ emittedSize i.size → count + emittedSize i.size ≤ 1024 := by
      intro htwo
      have := hfit 0 i rfl htwo
      simpa [emitted] using this
    refine ih (h.step hu hu₁ hfirst hstep hstep') hu₁ (hnext hv hstep') ?_ hfold hfold'
    intro k i' hi' htwo
    have := hfit (k + 1) i' hi' htwo
    rw [List.take_succ_cons, List.map_cons, emitted_cons] at this
    omega

theorem foldlM_objOutInsn_keeps {u u' : ObjFdata} {count index : ℕ} (hu : ObjInvariant u count)
    {insns : List Insn} (h : insns.foldlM objOutInsn u = .ok u')
    (hindex : count + emitted (insns.map Insn.size) ≤ index) :
    u'.data index = u.data index ∧ ObjInvariant u' (count + emitted (insns.map Insn.size)) := by
  induction insns generalizing u count with
  | nil =>
    obtain rfl := Except.ok.inj h
    exact ⟨rfl, hu⟩
  | cons i rest ih =>
    rw [List.foldlM_cons] at h
    rw [List.map_cons, emitted_cons, ← Nat.add_assoc] at hindex ⊢
    rcases objOutInsn_cases hu i with ⟨-, u₁, hstep, hu₁⟩ | ⟨-, hhang⟩
    · rw [hstep] at h
      obtain ⟨hkeep, hinv⟩ := ih hu₁ h hindex
      refine ⟨?_, hinv⟩
      rw [hkeep, objOutInsn_keeps hu hstep (by omega) (by omega)]
    · rw [hhang] at h
      cases h

/-- The last word of an element that ends beyond the cleared words is left as it was allocated. -/
theorem objOut_uncleared {fresh : ℕ → Word} {insns : List Insn} {u : ObjFdata}
    (h : objOut fresh insns = .ok u) {k : ℕ} {i : Insn} (hi : insns[k]? = some i)
    (htwo : 2 ≤ emittedSize i.size)
    (hlarge : 1024 < emitted ((insns.take (k + 1)).map Insn.size)) :
    u.data (emitted ((insns.take (k + 1)).map Insn.size) - 1) =
      fresh (emitted ((insns.take (k + 1)).map Insn.size) - 1) := by
  have hsplit : insns = insns.take k ++ i :: insns.drop (k + 1) := by
    obtain ⟨hk, rfl⟩ := List.getElem?_eq_some_iff.mp hi
    rw [List.cons_getElem_drop_succ, List.take_append_drop]
  have hend : emitted ((insns.take (k + 1)).map Insn.size) =
      emitted ((insns.take k).map Insn.size) + emittedSize i.size := by
    rw [List.take_add_one, hi, List.map_append, emitted_append]
    simp
  rw [hend] at hlarge ⊢
  set start := emitted ((insns.take k).map Insn.size) with hstart
  rw [objOut, hsplit, List.foldlM_append, bind_eq_ok] at h
  obtain ⟨u₀, hbefore, h⟩ := h
  rw [List.foldlM_cons] at h
  have hinit := objInvariant_init fresh
  obtain ⟨hkeep, hu₀⟩ : u₀.data (start + emittedSize i.size - 1) = _ ∧ ObjInvariant u₀ _ :=
    foldlM_objOutInsn_keeps hinit hbefore (by omega)
  rw [Nat.zero_add, ← hstart] at hu₀
  rcases objOutInsn_cases hu₀ i with ⟨-, u₁, hstep, hu₁⟩ | ⟨-, hhang⟩
  · rw [hstep] at h
    rw [(foldlM_objOutInsn_data hu₁ h).1 _ (by omega),
      objOutInsn_keeps hu₀ hstep (by omega) (by omega), hkeep]
    exact if_neg (by omega)
  · rw [hhang] at h
    cases h

/-! ## Bytes determine what is written -/

theorem flatMap_injective {α : Type} {put : α → List Byte} {n : ℕ} (hlength : ∀ x, (put x).length = n)
    (hput : Function.Injective put) {xs ys : List α} (hsame : xs.length = ys.length)
    (h : xs.flatMap put = ys.flatMap put) : xs = ys := by
  induction xs generalizing ys with
  | nil => exact (List.length_eq_zero_iff.mp hsame.symm).symm
  | cons x xs ih =>
    cases ys with
    | nil => cases hsame
    | cons y ys =>
      rw [List.flatMap_cons, List.flatMap_cons] at h
      obtain ⟨hhead, htail⟩ := List.append_inj h (by rw [hlength, hlength])
      rw [hput hhead, ih (Nat.succ.inj hsame) htail]

theorem putWord_injective : Function.Injective putWord := by
  intro w w' h
  exact wordBytes.symm.injective (Subtype.ext h)

theorem length_putSym (sym : SymEntry) : (putSym sym).length = 44 := by
  have hname : sym.name.toList.length = 32 := sym.name.toList_length
  simp only [putSym, List.length_append, length_putWord, hname]

theorem putSym_injective : Function.Injective putSym := by
  rintro ⟨flags, name, value, size⟩ ⟨flags', name', value', size'⟩ h
  simp only [putSym, List.append_assoc] at h
  obtain ⟨hflags, h⟩ := List.append_inj h (by rw [length_putWord, length_putWord])
  obtain ⟨hname, h⟩ := List.append_inj h
    (by rw [List.Vector.toList_length, List.Vector.toList_length])
  obtain ⟨hvalue, hsize⟩ := List.append_inj h (by rw [length_putWord, length_putWord])
  rw [putWord_injective hflags, List.Vector.toList_injective hname, putWord_injective hvalue,
    putWord_injective hsize]

/-- The record and the symbols of an object file with one record are determined by its bytes. -/
theorem objV0Write_injective {o o' : ObjFile} {rec rec' : ObjRec} (hcount : o.recCount = 1#32)
    (hcount' : o'.recCount = 1#32) (hrec : o.records = [rec]) (hrec' : o'.records = [rec'])
    (hdata : rec.data.length = rec'.data.length) (hsymbols : o.symbols.length = o'.symbols.length)
    (hsym : o.symCount = o'.symCount) (h : objV0Write o = objV0Write o') :
    rec.data = rec'.data ∧ (o.symCount ≠ 0#32 → o.symbols = o'.symbols) := by
  have hword : ∀ w w' : Word, (putWord w).length = (putWord w').length := by
    intro w w'
    rw [length_putWord, length_putWord]
  have hrecLength : (putRec rec).length = (putRec rec').length := by
    rw [length_putRec, length_putRec, hdata]
  have hsymLength : ∀ symbols : List SymEntry, (symbols.flatMap putSym).length = 44 * symbols.length := by
    intro symbols
    induction symbols with
    | nil => rfl
    | cons sym rest ih =>
      rw [List.flatMap_cons, List.length_append, ih, length_putSym, List.length_cons]
      omega
  have hone : ∀ rec : ObjRec, countedPut putRec 1#32 [rec] = putRec rec := by
    intro rec
    rw [countedPut, if_neg (by decide), List.flatMap_cons, List.flatMap_nil, List.append_nil]
  simp only [objV0Write, hcount, hcount', hrec, hrec', hone, List.append_assoc] at h
  obtain ⟨-, h⟩ := List.append_inj h rfl
  obtain ⟨-, h⟩ := List.append_inj h rfl
  obtain ⟨-, h⟩ := List.append_inj h (hword _ _)
  obtain ⟨-, h⟩ := List.append_inj h (hword _ _)
  obtain ⟨hrecords, h⟩ := List.append_inj h hrecLength
  obtain ⟨-, h⟩ := List.append_inj h (hword _ _)
  refine ⟨?_, ?_⟩
  · simp only [putRec, List.append_assoc] at hrecords
    obtain ⟨-, hrecords⟩ := List.append_inj hrecords (hword _ _)
    obtain ⟨-, hrecords⟩ := List.append_inj hrecords (hword _ _)
    exact flatMap_injective length_putWord putWord_injective hdata hrecords
  · intro hnonzero
    have hput : ∀ list, countedPut putSym o.symCount list = list.flatMap putSym :=
      fun list ↦ if_neg hnonzero
    rw [← hsym, hput, hput] at h
    obtain ⟨hsyms, -⟩ := List.append_inj h (by rw [hsymLength, hsymLength, hsymbols])
    exact flatMap_injective length_putSym putSym_injective hsymbols hsyms

/-! ## What is written -/

/-- The entry of an exported symbol. -/
def symEntry (heap : Heap) (s : Symbol × ℕ) : SymEntry where
  flags := if s.1.ce.any fun ce ↦ !ce.flags.isDeferred then rlcAbsolute else 0#32
  name := strcopyField (stringAt s.1.name (heap.behindName s.2))
  value := s.1.reladdr
  size := 0#32

theorem objSymEntry_eq (heap : Heap) (s : Symbol × ℕ) : objSymEntry heap s =
    if s.1.resolved then .ok (symEntry heap s) else .error .assertFailed := by
  unfold objSymEntry objSym
  split
  · rfl
  · rfl

/-- Whether all symbols are resolved does not depend on the memory. -/
theorem mapM_objSymEntry (heap : Heap) (exports : List (Symbol × ℕ)) :
    exports.mapM (objSymEntry heap) =
      if ∀ s ∈ exports, s.1.resolved = true then .ok (exports.map (symEntry heap))
      else .error .assertFailed := by
  induction exports with
  | nil => rfl
  | cons s rest ih =>
    rw [List.mapM_cons, objSymEntry_eq, ih]
    simp only [List.forall_mem_cons]
    by_cases hs : s.1.resolved = true
    · by_cases hrest : ∀ t ∈ rest, t.1.resolved = true
      · rw [if_pos hs, if_pos hrest, if_pos ⟨hs, hrest⟩]
        rfl
      · have hboth : ¬(s.1.resolved = true ∧ ∀ t ∈ rest, t.1.resolved = true) :=
          fun h ↦ hrest h.2
        rw [if_pos hs, if_neg hrest, if_neg hboth]
        rfl
    · have hboth : ¬(s.1.resolved = true ∧ ∀ t ∈ rest, t.1.resolved = true) := fun h ↦ hs h.1
      rw [if_neg hs, if_neg hboth]
      rfl

/-- The object file of a record. -/
def Assembled.objFileOf (a : Assembled) (heap : Heap) (u : ObjFdata) : ObjFile where
  version := 0#8
  flags := 0#32
  recCount := 1#32
  records := [{ addr := 0#32, data := (List.range u.pos.toNat).map u.data }]
  symCount := BitVec.ofNat 32 a.exports.length
  symbols := a.exports.map (symEntry heap)
  rlcCount := BitVec.ofNat 32
    (a.relocs.filterMap fun reloc ↦ reloc.insn.map (objRlcEntry heap a.env reloc)).length
  relocs := a.relocs.filterMap fun reloc ↦ reloc.insn.map (objRlcEntry heap a.env reloc)

theorem objEmit_eq {heap : Heap} {a : Assembled} {u : ObjFdata}
    (hout : objOut heap.fresh a.insns = .ok u) (hresolved : ∀ s ∈ a.exports, s.1.resolved = true) :
    objEmit heap a = .ok (objV0Write (a.objFileOf heap u)) := by
  rw [objEmit, Assembled.objFile, hout, mapM_objSymEntry, if_pos hresolved]
  simp only [bind, Except.bind, Except.map, List.length_map]
  rfl

/-- A program whose object file is written has one with all memory. -/
theorem objEmit_eq_ok {heap : Heap} {a : Assembled} {bytes : List Byte}
    (h : objEmit heap a = .ok bytes) :
    (∀ s ∈ a.exports, s.1.resolved = true) ∧ emitted (a.insns.map Insn.size) ≤ 2 ^ 31 := by
  rw [objEmit, map_eq_ok] at h
  obtain ⟨o, h, -⟩ := h
  rw [Assembled.objFile, bind_eq_ok] at h
  obtain ⟨u, hout, h⟩ := h
  rw [bind_eq_ok] at h
  obtain ⟨symbols, hsymbols, -⟩ := h
  refine ⟨?_, ?_⟩
  · rw [mapM_objSymEntry] at hsymbols
    split at hsymbols
    · assumption
    · cases hsymbols
  · rcases objOut_cases heap.fresh a.insns with ⟨hle, -⟩ | ⟨-, hhang⟩
    · exact hle
    · rw [hhang] at hout
      cases hout

/-! ## Reproducibility -/

/-- Every exported name fills its field. Where the number of exported symbols does not fit 32 bits and
is counted as zero, none is written. -/
def ExportsFill (names : List Name) : Prop :=
  BitVec.ofNat 32 names.length = 0#32 ∨ ∀ name ∈ names, 30 ≤ name.length

/-- Memory with the same contents everywhere. -/
def Heap.const (w : Word) (b : Byte) : Heap where
  fresh _ := w
  behindName _ _ := b

theorem reproducible_of {a : Assembled} {heap : Heap} {bytes : List Byte}
    (haccept : objEmit heap a = .ok bytes) (hrelocs : ∀ r ∈ a.relocs, Settled a.env.symbolFind r)
    (hnames : ExportsFill (a.exports.map fun s ↦ s.1.name))
    (hzeros : ZerosFit (a.insns.map Insn.size)) : Reproducible a := by
  obtain ⟨hresolved, hemitted⟩ := objEmit_eq_ok haccept
  intro heap₁ heap₂
  have hout : ∀ fresh, ∃ u, objOut fresh a.insns = .ok u := by
    intro fresh
    rcases objOut_cases fresh a.insns with ⟨-, u, hu, -⟩ | ⟨hlarge, -⟩
    · exact ⟨u, hu⟩
    · omega
  obtain ⟨u₁, hu₁⟩ := hout heap₁.fresh
  obtain ⟨u₂, hu₂⟩ := hout heap₂.fresh
  rw [objEmit_eq hu₁ hresolved, objEmit_eq hu₂ hresolved]
  have hsame : SameRecord u₁ u₂ := by
    have hstart : SameRecord (objInit heap₁.fresh) (objInit heap₂.fresh) := by
      refine ⟨rfl, rfl, ?_, ?_⟩
      · intro index hindex
        unfold objInit
        dsimp only
        rw [if_pos hindex, if_pos hindex]
      · intro index hindex
        cases hindex
    refine sameRecord_foldlM hstart (objInvariant_init heap₁.fresh)
      (objInvariant_init heap₂.fresh) ?_ hu₁ hu₂
    · intro k i hi htwo
      rw [Nat.zero_add, List.map_take]
      exact hzeros k i.size (by rw [List.getElem?_map, hi]; rfl) htwo
  have hdata : (List.range u₁.pos.toNat).map u₁.data = (List.range u₂.pos.toNat).map u₂.data := by
    rw [← hsame.pos]
    apply List.map_congr_left
    intro index hindex
    exact hsame.written index (List.mem_range.mp hindex)
  have hentries : (a.relocs.filterMap fun reloc ↦
      reloc.insn.map (objRlcEntry heap₁ a.env reloc)) =
        a.relocs.filterMap fun reloc ↦ reloc.insn.map (objRlcEntry heap₂ a.env reloc) := by
    apply List.filterMap_congr
    intro reloc hreloc
    have hname := (hrelocs reloc hreloc).relocName_eq heap₁ heap₂
    congr 1
    funext k
    rw [objRlcEntry, objRlcEntry, hname]
  have hsymbols : countedPut putSym (BitVec.ofNat 32 a.exports.length)
      (a.exports.map (symEntry heap₁)) =
        countedPut putSym (BitVec.ofNat 32 a.exports.length) (a.exports.map (symEntry heap₂)) := by
    rcases hnames with hzero | hfill
    · rw [List.length_map] at hzero
      rw [hzero]
      rfl
    · congr 1
      apply List.map_congr_left
      intro s hs
      have hname := strcopyField_stringAt (hfill s.1.name (List.mem_map_of_mem hs))
        (heap₁.behindName s.2) (heap₂.behindName s.2)
      rw [symEntry, symEntry, hname]
  apply congrArg Except.ok
  simp only [objV0Write, Assembled.objFileOf, hdata, hentries, hsymbols]

theorem of_reproducible {a : Assembled} {heap : Heap} {bytes : List Byte}
    (haccept : objEmit heap a = .ok bytes) (h : Reproducible a) :
    ExportsFill (a.exports.map fun s ↦ s.1.name) ∧ ZerosFit (a.insns.map Insn.size) := by
  obtain ⟨hresolved, hemitted⟩ := objEmit_eq_ok haccept
  have hout : ∀ fresh, ∃ u, objOut fresh a.insns = .ok u ∧
      u.pos.toNat = emitted (a.insns.map Insn.size) := by
    intro fresh
    rcases objOut_cases fresh a.insns with ⟨-, u, hu, hpos⟩ | ⟨hlarge, -⟩
    · exact ⟨u, hu, hpos⟩
    · omega
  -- the object files with two memories that have nothing in common
  have hboth := h (Heap.const 0#32 0#8) (Heap.const 1#32 1#8)
  obtain ⟨u₁, hu₁, hpos₁⟩ := hout (Heap.const 0#32 0#8).fresh
  obtain ⟨u₂, hu₂, hpos₂⟩ := hout (Heap.const 1#32 1#8).fresh
  rw [objEmit_eq hu₁ hresolved, objEmit_eq hu₂ hresolved] at hboth
  have hbytes : objV0Write (a.objFileOf (Heap.const 0#32 0#8) u₁) =
      objV0Write (a.objFileOf (Heap.const 1#32 1#8) u₂) := Except.ok.inj hboth
  obtain ⟨hdata, hsymbols⟩ :=
    @objV0Write_injective (a.objFileOf (Heap.const 0#32 0#8) u₁) (a.objFileOf (Heap.const 1#32 1#8) u₂)
      _ _ rfl rfl rfl rfl
      (by simp only [List.length_map, List.length_range, hpos₁, hpos₂])
      (by simp only [Assembled.objFileOf, List.length_map]) rfl hbytes
  refine ⟨?_, ?_⟩
  · by_cases hzero : BitVec.ofNat 32 (a.exports.map fun s ↦ s.1.name).length = 0#32
    · exact .inl hzero
    · right
      rw [List.length_map] at hzero
      intro name hname
      obtain ⟨s, hs, rfl⟩ := List.mem_map.mp hname
      by_contra hshort
      have hentry := (List.map_inj_left.mp (hsymbols hzero)) s hs
      have hfield := congrArg (fun e : SymEntry ↦ e.name.get ⟨30, by decide⟩) hentry
      simp only [symEntry] at hfield
      rw [strcopyField_get (by omega), strcopyField_get (by omega)] at hfield
      exact absurd hfield (by simp [Heap.const])
  · intro k size hsize htwo
    rw [List.getElem?_map, Option.map_eq_some_iff] at hsize
    obtain ⟨i, hi, rfl⟩ := hsize
    by_contra hlarge
    rw [← List.map_take] at hlarge
    have hfirst := objOut_uncleared hu₁ hi htwo (by omega)
    have hsecond := objOut_uncleared hu₂ hi htwo (by omega)
    have hle : emitted ((a.insns.take (k + 1)).map Insn.size) ≤ emitted (a.insns.map Insn.size) := by
      rw [List.map_take]
      exact emitted_take_le _ _
    have hword := congrArg
      (fun data : List Word ↦ data[emitted ((a.insns.take (k + 1)).map Insn.size) - 1]?) hdata
    simp only [List.getElem?_map] at hword
    rw [List.getElem?_range (by omega), List.getElem?_range (by omega), Option.map_some,
      Option.map_some, hfirst, hsecond] at hword
    exact absurd hword (by simp [Heap.const])

/-! ## Programs -/

/-- The names that a program exports: those of the symbols that its `.global` directives find. -/
def ParseData.exportNames (pd : ParseData) : List Name :=
  ((pd.symbols.mapIdx fun id s ↦
      (s.name, pd.globals.any fun g ↦ pd.finalEnv.symbolFind g == some id)).filter Prod.snd).map Prod.fst

/-- Assembling a program keeps the names of its symbols and which of them are exported. -/
theorem Passes.map_exports {undef : UndefinedShifts} {fuel : ℕ} {pd : ParseData} {a : Assembled}
    (p : Passes undef fuel pd a) : a.symbols.map (fun s ↦ (s.name, s.global)) =
      pd.symbols.mapIdx fun id s ↦
        (s.name, pd.globals.any fun g ↦ pd.finalEnv.symbolFind g == some id) := by
  have hmarkedAt : ∀ id : ℕ, p.marked[id]? = p.symbols[id]?.map fun s ↦ { s with
      global := pd.globals.any fun g ↦ (pd.envWith p.symbols).symbolFind g == some id } := by
    intro id
    rw [Passes.marked, markGlobals, List.getElem?_mapIdx]
    rfl
  have hsame : p.symbols.map Symbol.name = pd.symbols.map Symbol.name := by
    rw [← p.reached_marked.names]
    apply List.ext_getElem?
    intro id
    rw [List.getElem?_map, List.getElem?_map, hmarkedAt, Option.map_map]
    rfl
  have hfind : ∀ name, (pd.envWith p.symbols).symbolFind name = pd.finalEnv.symbolFind name :=
    fun name ↦ symbolFind_congr (hsame.trans (names_labels pd).symm) name
  apply List.ext_getElem?
  intro id
  have hid := congrArg (fun names : List Name ↦ names[id]?) hsame
  simp only [List.getElem?_map] at hid
  have hfreed : a.symbols[id]?.map (fun s ↦ (s.name, s.global)) =
      p.marked[id]?.map fun s ↦ (s.name, s.global) := by
    rcases p.freed id with hkeep | hfree
    · rw [hkeep]
      rfl
    · rw [hfree, Option.map_map]
      rfl
  rw [List.getElem?_map, List.getElem?_mapIdx, hfreed, hmarkedAt, Option.map_map]
  simp only [hfind]
  cases hs : p.symbols[id]? with
  | none =>
    rw [hs, Option.map_none] at hid
    rw [Option.map_eq_none_iff.mp hid.symm]
    rfl
  | some s =>
    rw [hs, Option.map_some] at hid
    obtain ⟨s', hs', hname⟩ := Option.map_eq_some_iff.mp hid.symm
    rw [hs', Option.map_some, Option.map_some, hname]
    rfl

theorem Passes.exportNames_eq {undef : UndefinedShifts} {fuel : ℕ} {pd : ParseData} {a : Assembled}
    (p : Passes undef fuel pd a) : a.exports.map (fun s ↦ s.1.name) = pd.exportNames.reverse := by
  have hexports : a.exports.map Prod.fst = (a.symbols.filter Symbol.global).reverse := by
    rw [Assembled.exports, List.filter_reverse, List.map_reverse]
    congr 1
    conv_rhs => rw [← List.zipIdx_map_fst 0 a.symbols, List.filter_map]
    rfl
  have hnames : (a.symbols.filter Symbol.global).map Symbol.name = pd.exportNames := by
    rw [ParseData.exportNames, ← p.map_exports, List.filter_map, List.map_map]
    rfl
  calc a.exports.map (fun s ↦ s.1.name) = (a.exports.map Prod.fst).map Symbol.name := by
        rw [List.map_map]
        rfl
    _ = pd.exportNames.reverse := by rw [hexports, List.map_reverse, hnames]

/-- **Which object files are reproducible.** The bytes that are written for an accepted program depend
on nothing but the program exactly when every name it exports has at least 30 characters and every
`.zero` of more than one word ends within the first 1024 words. -/
theorem objEmit_reproducible_iff {undef : UndefinedShifts} {fuel : ℕ} {source : Source}
    {pd : ParseData} {a : Assembled} (hparse : parse undef fuel source = .ok pd)
    (hassemble : assemble undef fuel source = .ok (some a)) {heap : Heap} {bytes : List Byte}
    (hemit : objEmit heap a = .ok bytes) :
    Reproducible a ↔ ExportsFill pd.exportNames ∧ ZerosFit (pd.elems.map Elem.size) := by
  obtain ⟨p⟩ := assemblyInner_eq_ok (assemble_eq_some hparse hassemble).2
  have hfill : ExportsFill (a.exports.map fun s ↦ s.1.name) ↔ ExportsFill pd.exportNames := by
    rw [p.exportNames_eq, ExportsFill, ExportsFill, List.length_reverse]
    simp only [List.mem_reverse]
  rw [← hfill, ← p.insns_size]
  constructor
  · exact of_reproducible hemit
  · rintro ⟨hnames, hzeros⟩
    exact reproducible_of hemit p.settled hnames hzeros

/-- A program of one word with a label that is exported. -/
def exportOne (name : Name) : Source := [.element (.labelled name .illegal), .global name]

def exportOneParsed (name : Name) : ParseData where
  elems := [{ word := 0xffffffff#32, size := 1#32, fixup := none }]
  symbols := [makeSymbol name none 0]
  globals := [name]
  errors := []

def exportOneAssembled (name : Name) : Assembled where
  elems := (exportOneParsed name).elems
  reladdrs := [0#32]
  words := [0xffffffff#32]
  symbols := [{ makeSymbol name none 0 with resolved := true, global := true }]
  relocs := []

/-- A name of 30 characters fills its field. -/
theorem objEmit_reproducible_exportOne :
    ∃ a, assemble .masked 0 (exportOne (List.replicate 30 'Z')) = .ok (some a) ∧ Reproducible a := by
  have hassemble : assemble .masked 0 (exportOne (List.replicate 30 'Z')) =
      .ok (some (exportOneAssembled (List.replicate 30 'Z'))) := rfl
  refine ⟨_, hassemble, ?_⟩
  have hemit : objEmit (Heap.const 0#32 0#8) (exportOneAssembled (List.replicate 30 'Z')) = .ok _ :=
    objEmit_eq rfl (by decide)
  have hparse : parse .masked 0 (exportOne (List.replicate 30 'Z')) =
      .ok (exportOneParsed (List.replicate 30 'Z')) := rfl
  apply (objEmit_reproducible_iff hparse hassemble hemit).mpr
  refine ⟨.inr (by decide), ?_⟩
  intro k size hsize htwo
  cases k with
  | zero =>
    obtain rfl := Option.some.inj hsize
    exact absurd htwo (by decide)
  | succ k => cases hsize

/-- Behind a name of one character the field holds whatever was in memory. -/
theorem not_objEmit_reproducible :
    ¬∀ (undef : UndefinedShifts) (fuel : ℕ) (source : Source) (a : Assembled),
      assemble undef fuel source = .ok (some a) → ∀ heap bytes, objEmit heap a = .ok bytes →
        Reproducible a := by
  intro h
  have hemit : objEmit (Heap.const 0#32 0#8) (exportOneAssembled ['Z']) = .ok _ :=
    objEmit_eq rfl (by decide)
  have hreproducible := h .masked 0 (exportOne ['Z']) (exportOneAssembled ['Z']) rfl _ _ hemit
  rcases (of_reproducible hemit hreproducible).1 with hzero | hlong
  · exact absurd hzero (by decide)
  · exact absurd (hlong ['Z'] (List.mem_singleton.mpr rfl)) (by decide)

end Tenyr.Asm
