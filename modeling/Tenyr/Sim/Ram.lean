import Tenyr.Lib.SearchTree
import Tenyr.Sim.Machine

/-!
# Flat and sparse memory devices

`ram` keeps all its words in one array. `sparseram` keeps pages in a search tree and adds one with the
first access to it. Both are stores in which words that were never written have a value of the device.
-/

namespace Tenyr.Sim

open Isa Lib.Searching Lib.SearchTree

def ramBase : Word := 4096#32
def ramEnd : Word := 16383#32

/-! ## Flat memory -/

/-- `memsize`, from 0 to `RAM_END` although addresses begin with `RAM_BASE`. -/
def ramMemsize : ℕ := 16384

/-- `struct ram_state` -/
structure RamState where
  base : Word
  mem : Vector Word ramMemsize

/-- The word in cells that were never written: `P <- A | P - 1`. -/
def ramFill : Word := 0x0f0f0fff#32

def ramInit : RamState where
  base := ramBase
  mem := Vector.replicate ramMemsize ramFill

/-- `ram_op`: the return code and the datum; nothing when the access is outside of the array. -/
def ramOp (ram : RamState) (op : MemoryOp) (addr data : Word) : Option (ℤ × Word × RamState) :=
  let index := (addr - ram.base).toNat
  if h : index < ramMemsize then
    match op with
    | .write => some (0, data, { ram with mem := ram.mem.set index data h })
    | .insnRead | .dataRead => some (0, ram.mem[index], ram)
  else none

/-! ## Sparse memory -/

/-- `PAGESIZE`, which is the number of words a page is allocated with. -/
def pageSize : ℕ := 4096

/-- `WORDMASK` -/
def wordMask : Word := 1023#32

/-- `struct ram_element` -/
structure RamElement where
  base : BitVec 24
  space : Vector Word pageSize

/-- What the tree has pointers to: the element on the stack that is searched for, or an allocated one. -/
inductive ElementPointer where
  | key
  | node (index : ℕ)
  deriving DecidableEq, Repr

/-- The word that pages are filled with, which is illegal. -/
def sparseramFill : Word := 0xffffffff#32

/-- The field `base`, 24 bits of the address without the index in the page. -/
def pageBase (addr : Word) : BitVec 24 := (addr &&& ~~~wordMask).setWidth 24

theorem toNat_and_wordMask (addr : Word) : (addr &&& wordMask).toNat = addr.toNat % 1024 := by
  rw [BitVec.toNat_and]
  exact Nat.and_two_pow_sub_one_eq_mod addr.toNat 10

/-- The index in the page. -/
def pageIndex (addr : Word) : Fin pageSize where
  val := (addr &&& wordMask).toNat
  isLt := by
    rw [toNat_and_wordMask, pageSize]
    omega

section Sparse

variable (lib : TreeSearch ElementPointer)

/-- `struct sparseram_state`, with the elements that have been allocated. -/
structure SparseramState where
  mem : lib.Tree
  nodes : List RamElement

def sparseramInit : SparseramState lib where
  mem := lib.null
  nodes := []

variable {lib}

/-- The base of the element that is pointed to. -/
def baseAt (key : BitVec 24) (nodes : List RamElement) : ElementPointer → BitVec 24
  | .key => key
  | .node index => (nodes[index]?.map RamElement.base).getD 0#24

/-- `tree_compare` -/
def treeCompare (key : BitVec 24) (nodes : List RamElement) (a b : ElementPointer) : ℤ :=
  (baseAt key nodes b).toInt - (baseAt key nodes a).toInt

/-- The page of an address, which is allocated if it is not there. -/
def findPage (s : SparseramState lib) (addr : Word) : ℕ × SparseramState lib :=
  let compare := treeCompare (pageBase addr) s.nodes
  match lib.tsearch compare .key s.mem with
  | (.key, mem) =>
    let node := s.nodes.length
    (node,
      { mem := lib.assign compare .key (.node node) mem
        nodes := s.nodes ++
          [{ base := pageBase addr, space := Vector.replicate pageSize sparseramFill }] })
  | (.node index, mem) => (index, { s with mem })

/-- `sparseram_op`: the return code and the datum; nothing when the tree leads to no element. -/
def sparseramOp (s : SparseramState lib) (op : MemoryOp) (addr data : Word) :
    Option (ℤ × Word × SparseramState lib) :=
  let (page, s) := findPage s addr
  match s.nodes[page]? with
  | none => none
  | some element =>
    match op with
    | .write =>
      let written := { element with space := element.space.set (pageIndex addr) data }
      some (0, data, { s with nodes := s.nodes.set page written })
    | .insnRead | .dataRead => some (0, element.space[pageIndex addr], s)

end Sparse

/-! ## Stores -/

/-- An operation of a device. -/
structure Access where
  op : MemoryOp
  addr : Word
  data : Word

/-- The return codes and the data of a sequence of operations. -/
def runAccesses {σ : Type} (op : σ → MemoryOp → Word → Word → Option (ℤ × Word × σ)) :
    σ → List Access → Option (List (ℤ × Word))
  | _, [] => some []
  | s, x :: rest =>
    match op s x.op x.addr x.data with
    | none => none
    | some (rc, data, s) => (runAccesses op s rest).map fun results ↦ (rc, data) :: results

/-- What has been written to each address. -/
abbrev Store := Word → Option Word

def Store.access (store : Store) (x : Access) : Store :=
  if x.op = .write then Function.update store x.addr (some x.data) else store

/-- The last value that was written to an address. -/
def lastWritten (accesses : List Access) : Store := accesses.foldl Store.access fun _ ↦ none

def InRam (addr : Word) : Prop := ramBase ≤ addr ∧ addr ≤ ramEnd

instance : DecidablePred InRam := fun _ ↦ inferInstanceAs (Decidable (_ ∧ _))

/-- A device behaves as a store whose other words have a certain value. -/
def StoreDevice {σ : Type} (op : σ → MemoryOp → Word → Word → Option (ℤ × Word × σ)) (fill : Word)
    (R : σ → Store → Prop) : Prop :=
  ∀ s store x, R s store → InRam x.addr →
    ∃ s', op s x.op x.addr x.data =
        some (0, if x.op = .write then x.data else (store x.addr).getD fill, s') ∧
      R s' (store.access x)

/-- What a device that behaves as a store answers with. -/
def answers (fill : Word) : Store → List Access → List (ℤ × Word)
  | _, [] => []
  | store, x :: rest =>
      (0, if x.op = .write then x.data else (store x.addr).getD fill) ::
        answers fill (store.access x) rest

theorem runAccesses_eq {σ : Type} {op : σ → MemoryOp → Word → Word → Option (ℤ × Word × σ)}
    {fill : Word} {R : σ → Store → Prop} (h : StoreDevice op fill R) {s : σ} {store : Store}
    (hs : R s store) {accesses : List Access} (hrange : ∀ x ∈ accesses, InRam x.addr) :
    runAccesses op s accesses = some (answers fill store accesses) := by
  induction accesses generalizing s store with
  | nil => rfl
  | cons x rest ih =>
    obtain ⟨s', hop, hs'⟩ := h s store x hs (hrange x List.mem_cons_self)
    rw [runAccesses, hop]
    dsimp only
    rw [ih hs' fun y hy ↦ hrange y (List.mem_cons_of_mem _ hy)]
    rfl

theorem map_fst_answers (fill : Word) (store : Store) (accesses : List Access) :
    (answers fill store accesses).map Prod.fst = List.replicate accesses.length 0 := by
  induction accesses generalizing store with
  | nil => rfl
  | cons x rest ih =>
    rw [answers, List.map_cons, ih, List.length_cons, List.replicate_succ]

theorem answers_getElem? (fill : Word) (store : Store) {accesses : List Access} {i : ℕ} {x : Access}
    (hx : accesses[i]? = some x) (hop : x.op ≠ .write) :
    (answers fill store accesses)[i]?.map Prod.snd =
      some (((accesses.take i).foldl Store.access store x.addr).getD fill) := by
  induction accesses generalizing store i with
  | nil => cases hx
  | cons y rest ih =>
    cases i with
    | zero =>
      obtain rfl := Option.some.inj hx
      rw [answers, List.getElem?_cons_zero, if_neg hop]
      rfl
    | succ i =>
      rw [answers, List.getElem?_cons_succ, ih (store.access y) hx]
      rfl

/-! ## Flat memory is a store -/

theorem InRam.toNat_sub {addr : Word} (h : InRam addr) :
    (addr - ramBase).toNat = addr.toNat - 4096 ∧ 4096 ≤ addr.toNat ∧ addr.toNat < ramMemsize := by
  obtain ⟨hbase, hend⟩ := h
  rw [BitVec.le_def] at hbase hend
  have hb : ramBase.toNat = 4096 := rfl
  have he : ramEnd.toNat = 16383 := rfl
  have haddr := addr.isLt
  rw [BitVec.toNat_sub, ramMemsize]
  omega

/-- The array has the words of a store. -/
def FlatHolds (ram : RamState) (store : Store) : Prop :=
  ram.base = ramBase ∧
    ∀ addr, InRam addr → ram.mem[(addr - ramBase).toNat]? = some ((store addr).getD ramFill)

theorem flatHolds_ramInit : FlatHolds ramInit fun _ ↦ none := by
  refine ⟨rfl, ?_⟩
  intro addr haddr
  have hindex : (addr - ramBase).toNat < ramMemsize := by
    have := haddr.toNat_sub
    omega
  rw [ramInit, Vector.getElem?_replicate, if_pos hindex]
  rfl

theorem ramOp_store : StoreDevice ramOp ramFill FlatHolds := by
  intro ram store x hram hx
  obtain ⟨hbase, hmem⟩ := hram
  have hindex : (x.addr - ramBase).toNat < ramMemsize := by
    have := hx.toNat_sub
    omega
  have hread := hmem x.addr hx
  rw [Vector.getElem?_eq_getElem hindex] at hread
  have hdata := Option.some.inj hread
  unfold ramOp
  dsimp only
  rw [hbase, dif_pos hindex]
  cases hop : x.op with
  | write =>
    refine ⟨_, rfl, rfl, ?_⟩
    intro addr haddr
    rw [Store.access, if_pos hop]
    dsimp only
    by_cases heq : addr = x.addr
    · rw [heq, Function.update_self, Vector.getElem?_set_self]
      rfl
    · have hne : (x.addr - ramBase).toNat ≠ (addr - ramBase).toNat := by
        intro hsame
        apply heq
        apply BitVec.eq_of_toNat_eq
        have := hx.toNat_sub
        have := haddr.toNat_sub
        omega
      rw [Function.update_of_ne heq, Vector.getElem?_set_ne _ hne]
      exact hmem addr haddr
  | insnRead | dataRead =>
    refine ⟨ram, ?_, hbase, ?_⟩
    · rw [if_neg (by simp), ← hdata]
    · rw [Store.access, if_neg (by simp [hop])]
      exact hmem

/-! ## Sparse memory is a store -/

theorem getLsbD_wordMask (i : ℕ) : wordMask.getLsbD i = decide (i < 10) := by
  have hmask : wordMask.toNat = 2 ^ 10 - 1 := rfl
  rw [← BitVec.testBit_toNat, hmask, Nat.testBit_two_pow_sub_one]

/-- An address is found in one place of one page. -/
theorem eq_of_pageBase_of_pageIndex {a b : Word} (ha : InRam a) (hb : InRam b)
    (hbase : pageBase a = pageBase b) (hindex : pageIndex a = pageIndex b) : a = b := by
  have hval := congrArg Fin.val hindex
  have hlow : a &&& wordMask = b &&& wordMask := BitVec.eq_of_toNat_eq hval
  have hsmall : ∀ {addr : Word} {i : ℕ}, InRam addr → 24 ≤ i → addr.getLsbD i = false := by
    intro addr i haddr hi
    rw [← BitVec.testBit_toNat]
    apply Nat.testBit_lt_two_pow
    obtain ⟨-, -, hlt⟩ := haddr.toNat_sub
    calc addr.toNat < 2 ^ 24 := lt_of_lt_of_le hlt (by decide)
      _ ≤ 2 ^ i := Nat.pow_le_pow_right (by omega) hi
  apply BitVec.eq_of_getLsbD_eq
  intro i hi
  by_cases hten : i < 10
  · have hbit := congrArg (fun w : Word ↦ w.getLsbD i) hlow
    simpa only [BitVec.getLsbD_and, getLsbD_wordMask, hten, decide_true, Bool.and_true] using hbit
  · by_cases hpage : i < 24
    · have hbit := congrArg (fun w : BitVec 24 ↦ w.getLsbD i) hbase
      simpa only [pageBase, BitVec.getLsbD_setWidth, BitVec.getLsbD_and, BitVec.getLsbD_not,
        getLsbD_wordMask, hten, hpage, hi, decide_true, decide_false, Bool.not_false, Bool.true_and,
        Bool.and_true] using hbit
    · rw [hsmall ha (by omega), hsmall hb (by omega)]

section Sparse

variable {lib : TreeSearch ElementPointer}

theorem consistent_treeCompare (key : BitVec 24) (nodes : List RamElement)
    (l : List ElementPointer) : Consistent (treeCompare key nodes) l where
  antisymm a _ b _ := by
    unfold treeCompare
    omega
  trans a _ b _ c _ := by
    unfold treeCompare
    omega

/-- The bases of the pages get smaller from left to right. -/
theorem ascending_treeCompare_iff (key : BitVec 24) (nodes : List RamElement)
    (l : List ElementPointer) : Ascending (treeCompare key nodes) l ↔
      (l.map (baseAt key nodes)).Pairwise fun a b ↦ b.toInt < a.toInt := by
  rw [Ascending, List.pairwise_map]
  apply List.Pairwise.iff
  intro a b
  unfold treeCompare
  omega

/-- A page in the tree that an address belongs to. -/
def Paged (s : SparseramState lib) (addr : Word) (i : ℕ) (e : RamElement) : Prop :=
  .node i ∈ lib.contents s.mem ∧ s.nodes[i]? = some e ∧ e.base = pageBase addr

/-- The pages have the words of a store, and each is in the tree once. -/
structure SparseHolds (s : SparseramState lib) (store : Store) : Prop where
  allocated : ∀ p ∈ lib.contents s.mem, ∃ i, p = .node i ∧ i < s.nodes.length
  ascending : ∀ key,
    ((lib.contents s.mem).map (baseAt key s.nodes)).Pairwise fun a b ↦ b.toInt < a.toInt
  held : ∀ {addr i e}, InRam addr → Paged s addr i e →
    e.space[pageIndex addr] = (store addr).getD sparseramFill
  fresh : ∀ {addr}, InRam addr → (∀ i e, ¬Paged s addr i e) → store addr = none

theorem sparseHolds_sparseramInit (hlib : lib.OrderedMap) :
    SparseHolds (sparseramInit lib) fun _ ↦ none where
  allocated p hp := by
    rw [sparseramInit, hlib.null] at hp
    cases hp
  ascending key := by
    rw [sparseramInit, hlib.null]
    exact .nil
  held _ hpage := by
    obtain ⟨hmem, -, -⟩ := hpage
    rw [sparseramInit, hlib.null] at hmem
    cases hmem
  fresh _ _ := rfl

/-- An address with a page in the tree has one page, which the search answers with. -/
theorem findPage_of_paged (hlib : lib.OrderedMap) {s : SparseramState lib} {store : Store}
    (hs : SparseHolds s store) {addr : Word} {i : ℕ} {e : RamElement} (h : Paged s addr i e) :
    findPage s addr = (i, s) := by
  obtain ⟨hmem, hnode, hbase⟩ := h
  have hequal : treeCompare (pageBase addr) s.nodes .key (.node i) = 0 := by
    rw [treeCompare, baseAt, baseAt, hnode, Option.map_some, Option.getD_some, hbase, sub_self]
  have hfound := hlib.found _ .key (.node i) s.mem (consistent_treeCompare (pageBase addr) s.nodes _)
    ((ascending_treeCompare_iff _ _ _).mpr (hs.ascending _)) hmem hequal
  unfold findPage
  dsimp only
  rw [hfound]

theorem baseAt_append {nodes : List RamElement} {i : ℕ} (hi : i < nodes.length) (key : BitVec 24)
    (new : RamElement) : baseAt key (nodes ++ [new]) (.node i) = baseAt key nodes (.node i) := by
  rw [baseAt, baseAt, List.getElem?_append_left hi]

/-- What the search does for an address without a page. -/
theorem findPage_of_not_paged (hlib : lib.OrderedMap) {s : SparseramState lib} {store : Store}
    (hs : SparseHolds s store) {addr : Word} (h : ∀ i e, ¬Paged s addr i e) :
    ∃ mem before after, findPage s addr =
        (s.nodes.length, { mem, nodes := s.nodes ++
          [{ base := pageBase addr, space := Vector.replicate pageSize sparseramFill }] }) ∧
      lib.contents mem = before ++ .node s.nodes.length :: after ∧
      (before ++ after).Perm (lib.contents s.mem) ∧
      ((before ++ .key :: after).map (baseAt (pageBase addr) s.nodes)).Pairwise
        fun a b ↦ b.toInt < a.toInt := by
  set compare := treeCompare (pageBase addr) s.nodes with hcompare
  have hconsistent : ∀ l, Consistent compare l := consistent_treeCompare _ _
  have hascending : Ascending compare (lib.contents s.mem) :=
    (ascending_treeCompare_iff _ _ _).mpr (hs.ascending _)
  have hdiffers : ∀ p ∈ lib.contents s.mem, compare .key p ≠ 0 := by
    intro p hp hzero
    obtain ⟨i, rfl, hi⟩ := hs.allocated p hp
    apply h i s.nodes[i]
    refine ⟨hp, List.getElem?_eq_getElem hi, ?_⟩
    rw [hcompare, treeCompare, baseAt, baseAt, List.getElem?_eq_getElem hi, Option.map_some,
      Option.getD_some] at hzero
    exact BitVec.eq_of_toInt_eq (by omega)
  obtain ⟨hkey, hsorted, hperm⟩ := hlib.inserted compare .key s.mem (hconsistent _) hascending hdiffers
  have hin : .key ∈ lib.contents (lib.tsearch compare .key s.mem).2 :=
    hperm.mem_iff.mpr List.mem_cons_self
  have hzero : compare .key .key = 0 := by
    rw [hcompare, treeCompare, sub_self]
  obtain ⟨before, after, hcontents, hassigned⟩ := hlib.assigned compare .key .key
    (.node s.nodes.length) _ (hconsistent _) hsorted hin hzero
  refine ⟨_, before, after, ?_, hassigned, ?_, ?_⟩
  · unfold findPage
    dsimp only
    rw [← hcompare, show lib.tsearch compare .key s.mem =
      (.key, (lib.tsearch compare .key s.mem).2) from Prod.ext hkey rfl]
  · rw [hcontents] at hperm
    exact (List.perm_middle.symm.trans hperm).cons_inv
  · rw [hcontents] at hsorted
    exact (ascending_treeCompare_iff _ _ _).mp hsorted

/-- Every address has its page after the search, and the words are as before. -/
theorem findPage_spec (hlib : lib.OrderedMap) {s : SparseramState lib} {store : Store}
    (hs : SparseHolds s store) (addr : Word) :
    ∃ i s' e, findPage s addr = (i, s') ∧ Paged s' addr i e ∧ SparseHolds s' store := by
  by_cases h : ∃ i e, Paged s addr i e
  · obtain ⟨i, e, hpage⟩ := h
    exact ⟨i, s, e, findPage_of_paged hlib hs hpage, hpage, hs⟩
  · push Not at h
    obtain ⟨mem, before, after, hfind, hcontents, hperm, hsorted⟩ := findPage_of_not_paged hlib hs h
    set new : RamElement :=
      { base := pageBase addr, space := Vector.replicate pageSize sparseramFill } with hnew
    have hlast : (s.nodes ++ [new])[s.nodes.length]? = some new := List.getElem?_concat_length
    have hold : ∀ p ∈ before ++ after, ∃ i, p = .node i ∧ i < s.nodes.length :=
      fun p hp ↦ hs.allocated p (hperm.mem_iff.mp hp)
    have hitems : ∀ {p}, p ∈ before ++ .node s.nodes.length :: after ↔
        p = .node s.nodes.length ∨ p ∈ lib.contents s.mem := by
      intro p
      rw [List.perm_middle.mem_iff, List.mem_cons, hperm.mem_iff]
    -- a page of the new state is the one that was allocated or a page of the old state
    have hpages : ∀ {a i e}, Paged { mem, nodes := s.nodes ++ [new] } a i e →
        pageBase a = pageBase addr ∧ e = new ∨ Paged s a i e := by
      rintro a i e ⟨hmem, hnode, hbase⟩
      dsimp only at hmem hnode
      rw [hcontents, hitems] at hmem
      rcases hmem with heq | hmem
      · obtain rfl := ElementPointer.node.inj heq
        rw [hlast] at hnode
        obtain rfl := Option.some.inj hnode
        exact .inl ⟨hbase.symm, rfl⟩
      · obtain ⟨j, heq, hj⟩ := hs.allocated _ hmem
        obtain rfl := ElementPointer.node.inj heq
        rw [List.getElem?_append_left hj] at hnode
        exact .inr ⟨hmem, hnode, hbase⟩
    have hkeeps : ∀ {a i e}, Paged s a i e → Paged { mem, nodes := s.nodes ++ [new] } a i e := by
      rintro a i e ⟨hmem, hnode, hbase⟩
      have hi : i < s.nodes.length := (List.getElem?_eq_some_iff.mp hnode).1
      refine ⟨?_, ?_, hbase⟩
      · dsimp only
        rw [hcontents]
        exact hitems.mpr (.inr hmem)
      · dsimp only
        rw [List.getElem?_append_left hi]
        exact hnode
    have hallocated : Paged { mem, nodes := s.nodes ++ [new] } addr s.nodes.length new := by
      refine ⟨?_, hlast, rfl⟩
      dsimp only
      rw [hcontents]
      exact hitems.mpr (.inl rfl)
    refine ⟨s.nodes.length, _, new, hfind, hallocated, ?_, ?_, ?_, ?_⟩
    · intro p hp
      dsimp only at hp ⊢
      rw [List.length_append]
      rw [hcontents] at hp
      rcases hitems.mp hp with rfl | hp
      · exact ⟨_, rfl, by simp⟩
      · obtain ⟨i, rfl, hi⟩ := hs.allocated p hp
        exact ⟨i, rfl, by omega⟩
    · intro key
      dsimp only
      rw [hcontents]
      convert hsorted using 1
      have hsame : ∀ p ∈ before ++ after,
          baseAt key (s.nodes ++ [new]) p = baseAt (pageBase addr) s.nodes p := by
        intro p hp
        obtain ⟨i, rfl, hi⟩ := hold p hp
        rw [baseAt_append hi]
        rfl
      rw [List.map_append, List.map_append, List.map_cons, List.map_cons,
        List.map_congr_left fun p hp ↦ hsame p (List.mem_append_left _ hp),
        List.map_congr_left fun p hp ↦ hsame p (List.mem_append_right _ hp), baseAt, baseAt, hlast]
      rfl
    · intro a i e ha hpage
      rcases hpages hpage with ⟨hbase, rfl⟩ | hpage
      · have hnone : store a = none := by
          apply hs.fresh ha
          rintro j f ⟨hmem, hnode, heq⟩
          exact h j f ⟨hmem, hnode, heq.trans hbase⟩
        rw [hnone, hnew]
        exact Vector.getElem_replicate _
      · exact hs.held ha hpage
    · intro a ha hnone
      exact hs.fresh ha fun i e hpage ↦ hnone i e (hkeeps hpage)

/-- Two pages in the tree with one base are one page. -/
theorem SparseHolds.paged_unique {s : SparseramState lib} {store : Store} (hs : SparseHolds s store)
    {addr : Word} {i j : ℕ} {e f : RamElement} (hi : Paged s addr i e) (hj : Paged s addr j f) :
    i = j := by
  obtain ⟨himem, hinode, hibase⟩ := hi
  obtain ⟨hjmem, hjnode, hjbase⟩ := hj
  have hbaseAt : baseAt 0#24 s.nodes (.node i) = baseAt 0#24 s.nodes (.node j) := by
    rw [baseAt, baseAt, hinode, hjnode, Option.map_some, Option.map_some, hibase, hjbase]
  by_contra hne
  have hsorted := List.pairwise_map.mp (hs.ascending 0#24)
  have hnodes : ElementPointer.node i ≠ .node j := fun heq ↦ hne (ElementPointer.node.inj heq)
  rcases rel_or_rel hsorted himem hjmem hnodes with hlt | hlt
  · rw [hbaseAt] at hlt
    exact lt_irrefl _ hlt
  · rw [hbaseAt] at hlt
    exact lt_irrefl _ hlt

/-- Writing to the page of an address changes no other word. -/
theorem SparseHolds.write {s : SparseramState lib} {store : Store} (hs : SparseHolds s store)
    {addr data : Word} {page : ℕ} {element : RamElement} (haddr : InRam addr)
    (hpage : Paged s addr page element) :
    let written := { element with space := element.space.set (pageIndex addr) data }
    SparseHolds { s with nodes := s.nodes.set page written }
      (Function.update store addr (some data)) := by
  intro written
  have hlt : page < s.nodes.length := (List.getElem?_eq_some_iff.mp hpage.2.1).1
  have hself : (s.nodes.set page written)[page]? = some written := by
    rw [List.getElem?_set_self hlt]
  -- a page of the new state is the one that was written to or a page of the old state
  have hpages : ∀ {a i e}, Paged { s with nodes := s.nodes.set page written } a i e →
      i = page ∧ e = written ∧ Paged s a page element ∨ i ≠ page ∧ Paged s a i e := by
    rintro a i e ⟨hmem, hnode, hbase⟩
    dsimp only at hmem hnode
    by_cases heq : i = page
    · subst heq
      rw [hself] at hnode
      obtain rfl := Option.some.inj hnode
      exact .inl ⟨rfl, rfl, hmem, hpage.2.1, hbase⟩
    · rw [List.getElem?_set_ne (Ne.symm heq)] at hnode
      exact .inr ⟨heq, hmem, hnode, hbase⟩
  refine ⟨?_, ?_, ?_, ?_⟩
  · intro p hp
    obtain ⟨i, rfl, hi⟩ := hs.allocated p hp
    refine ⟨i, rfl, ?_⟩
    dsimp only
    rwa [List.length_set]
  · intro key
    dsimp only
    have hbases : baseAt key (s.nodes.set page written) = baseAt key s.nodes := by
      funext p
      cases p with
      | key => rfl
      | node i =>
        rw [baseAt, baseAt]
        by_cases heq : i = page
        · rw [heq, hself, hpage.2.1]
          rfl
        · rw [List.getElem?_set_ne (Ne.symm heq)]
    rw [hbases]
    exact hs.ascending key
  · intro a i e ha hnew
    by_cases heq : a = addr
    · rw [heq, Function.update_self, Option.getD_some]
      rcases hpages hnew with ⟨-, rfl, -⟩ | ⟨hne, hold⟩
      · exact Vector.getElem_set_self _
      · rw [heq] at hold
        exact absurd (hs.paged_unique hold hpage) hne
    · rw [Function.update_of_ne heq]
      rcases hpages hnew with ⟨-, rfl, hold⟩ | ⟨-, hold⟩
      · have hindex : (pageIndex addr : ℕ) ≠ pageIndex a := by
          intro hsame
          apply heq
          apply eq_of_pageBase_of_pageIndex ha haddr
          · exact hold.2.2.symm.trans hpage.2.2
          · exact Fin.ext hsame.symm
        rw [← hs.held ha hold]
        exact Vector.getElem_set_ne (pageIndex addr).isLt (pageIndex a).isLt hindex
      · exact hs.held ha hold
  · intro a ha hnone
    have hne : a ≠ addr := by
      rintro rfl
      exact hnone page written ⟨hpage.1, hself, hpage.2.2⟩
    rw [Function.update_of_ne hne]
    apply hs.fresh ha
    rintro i e ⟨hmem, hnode, hbase⟩
    by_cases heq : i = page
    · subst heq
      rw [hpage.2.1] at hnode
      obtain rfl := Option.some.inj hnode
      exact hnone i written ⟨hmem, hself, hbase⟩
    · refine hnone i e ⟨hmem, ?_, hbase⟩
      dsimp only
      rw [List.getElem?_set_ne (Ne.symm heq)]
      exact hnode

theorem sparseramOp_store (hlib : lib.OrderedMap) :
    StoreDevice (@sparseramOp lib) sparseramFill SparseHolds := by
  intro s store x hs hx
  obtain ⟨page, s', element, hfind, hpage, hs'⟩ := findPage_spec hlib hs x.addr
  unfold sparseramOp
  rw [hfind]
  dsimp only
  rw [hpage.2.1]
  dsimp only
  cases hop : x.op with
  | write =>
    refine ⟨_, rfl, ?_⟩
    rw [Store.access, if_pos hop]
    exact hs'.write hx hpage
  | insnRead | dataRead =>
    refine ⟨s', ?_, ?_⟩
    · rw [if_neg (by simp), hs'.held hx hpage]
    · rw [Store.access, if_neg (by simp [hop])]
      exact hs'

end Sparse

/-! ## Agreement -/

/-- Both memories take every sequence of operations on their addresses and answer with the same return
codes. Words that have been written are read with the last value that was written to them, and others
with the value that each memory has for them. -/
theorem sparseram_agrees_with_ram {lib : TreeSearch ElementPointer} (hlib : lib.OrderedMap)
    (accesses : List Access) (hrange : ∀ x ∈ accesses, InRam x.addr) :
    ∃ sparse flat, runAccesses sparseramOp (sparseramInit lib) accesses = some sparse ∧
      runAccesses ramOp ramInit accesses = some flat ∧
      sparse.map Prod.fst = flat.map Prod.fst ∧
      ∀ (i : ℕ) (x : Access), accesses[i]? = some x → x.op ≠ .write →
        match lastWritten (accesses.take i) x.addr with
        | some data =>
          sparse[i]?.map Prod.snd = some data ∧ flat[i]?.map Prod.snd = some data
        | none =>
          sparse[i]?.map Prod.snd = some sparseramFill ∧ flat[i]?.map Prod.snd = some ramFill := by
  have hsparse :=
    runAccesses_eq (sparseramOp_store hlib) (sparseHolds_sparseramInit hlib) hrange
  have hflat := runAccesses_eq ramOp_store flatHolds_ramInit hrange
  refine ⟨_, _, hsparse, hflat, ?_, ?_⟩
  · rw [map_fst_answers, map_fst_answers]
  · intro i x hx hop
    rw [answers_getElem? _ _ hx hop, answers_getElem? _ _ hx hop]
    change match (accesses.take i).foldl Store.access (fun _ ↦ none) x.addr with
      | some data => _
      | none => _
    cases (accesses.take i).foldl Store.access (fun _ ↦ none) x.addr with
    | some data => exact ⟨rfl, rfl⟩
    | none => exact ⟨rfl, rfl⟩

/-- Two pages, the second of which is first touched by a read. -/
theorem sparseram_agrees_with_ram_twoPages :
    let accesses : List Access :=
      [⟨.write, 5000#32, 7#32⟩, ⟨.dataRead, 9000#32, 0#32⟩, ⟨.insnRead, 5000#32, 0#32⟩]
    ∃ sparse flat,
      runAccesses sparseramOp (sparseramInit (binaryTreeSearch ElementPointer)) accesses =
        some sparse ∧
      runAccesses ramOp ramInit accesses = some flat ∧ sparse.map Prod.fst = flat.map Prod.fst ∧
      sparse[1]?.map Prod.snd = some sparseramFill ∧ flat[1]?.map Prod.snd = some ramFill ∧
      sparse[2]?.map Prod.snd = some 7#32 ∧ flat[2]?.map Prod.snd = some 7#32 := by
  intro accesses
  have hrange : ∀ x ∈ accesses, InRam x.addr := by decide
  obtain ⟨sparse, flat, hsparse, hflat, hcodes, hreads⟩ :=
    sparseram_agrees_with_ram (binaryTreeSearch_orderedMap ElementPointer) accesses hrange
  obtain ⟨hsparseFill, hflatFill⟩ := hreads 1 _ rfl (by decide)
  obtain ⟨hsparseLast, hflatLast⟩ := hreads 2 _ rfl (by decide)
  exact ⟨sparse, flat, hsparse, hflat, hcodes, hsparseFill, hflatFill, hsparseLast, hflatLast⟩

end Tenyr.Sim
