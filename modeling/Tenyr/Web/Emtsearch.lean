import Tenyr.Lib.SearchTree

/-!
# Search trees of the web build

`tsearch`, `tfind` and `tdelete` for a system that has none. They follow pointers to links, so that a tree
can be changed where a link to it is stored.
-/

namespace Tenyr.Web

open Lib.Searching Lib.SearchTree

variable {α : Type}

/-- `struct tree` -/
structure TreeNode (α : Type) where
  datum : α
  left : Option ℕ
  right : Option ℕ

/-- Where a link is stored: the root, a field of a node, or `null_tree_p`. -/
inductive Link where
  | root | left (n : ℕ) | right (n : ℕ) | nullTree
  deriving DecidableEq, Repr

/-- The nodes that are allocated, and the links that are not in one of them. -/
structure Memory (α : Type) where
  count : ℕ
  node : ℕ → Option (TreeNode α)
  root : Option ℕ
  nullTree : Option ℕ

namespace Memory

def empty : Memory α where
  count := 0
  node _ := none
  root := none
  nullTree := none

def setNode (M : Memory α) (n : ℕ) (node : Option (TreeNode α)) : Memory α :=
  { M with node := Function.update M.node n node }

/-- What a link leads to; nothing when the link is in a node that is not there. -/
def read (M : Memory α) : Link → Option (Option ℕ)
  | .root => some M.root
  | .left n => (M.node n).map TreeNode.left
  | .right n => (M.node n).map TreeNode.right
  | .nullTree => some M.nullTree

def write (M : Memory α) (p : Option ℕ) : Link → Option (Memory α)
  | .root => some { M with root := p }
  | .left n => (M.node n).map fun node ↦ M.setNode n (some { node with left := p })
  | .right n => (M.node n).map fun node ↦ M.setNode n (some { node with right := p })
  | .nullTree => some { M with nullTree := p }

/-- `malloc` of a node -/
def malloc (M : Memory α) (node : TreeNode α) : ℕ × Memory α :=
  (M.count, { M with count := M.count + 1, node := Function.update M.node M.count (some node) })

def free (M : Memory α) (n : ℕ) : Memory α := M.setNode n none

end Memory

/-! ## Searching -/

/-- `traverse`: where the link to the node of a key is stored, and the last node that was looked at.
Nothing when memory is used that is not there, or when there is no end. -/
def traverse (compar : α → α → ℤ) (key : α) (create : Bool) :
    ℕ → Link → Option ℕ → Memory α → Option (Link × Option ℕ × Memory α)
  | 0, _, _, _ => none
  | fuel + 1, rootp, parent, M => do
    match ← M.read rootp with
    | none =>
      if create then
        let (q, M) := M.malloc { datum := key, left := none, right := none }
        let M ← M.write (some q) rootp
        some (rootp, parent, M)
      else some (.nullTree, parent, M)
    | some p => do
      let node ← M.node p
      let result := compar key node.datum
      if result = 0 then some (rootp, some p, M)
      else if result < 0 then traverse compar key create fuel (.left p) (some p) M
      else traverse compar key create fuel (.right p) (some p) M

/-- No path through a tree looks at more links. -/
def Memory.fuel (M : Memory α) : ℕ := M.count + 1

/-- `tfind` -/
def tfind (compar : α → α → ℤ) (key : α) (M : Memory α) : Option (Option ℕ) := do
  let (q, _, M) ← traverse compar key false M.fuel .root none M
  M.read q

/-- `tsearch` -/
def tsearch (compar : α → α → ℤ) (key : α) (M : Memory α) : Option (Option ℕ × Memory α) := do
  let (q, _, M) ← traverse compar key true M.fuel .root none M
  let p ← M.read q
  some (p, M)

/-! ## Deleting -/

/-- The loop `while ((*s)->left)`: where it ends. -/
def descend (M : Memory α) : ℕ → Link → Link → Option (Link × Link)
  | 0, _, _ => none
  | fuel + 1, r, s => do
    let n ← (← M.read s)
    let node ← M.node n
    if node.left.isSome then descend M fuel s (.left n) else some (r, s)

/-- The body of `tdelete`, for the link that leads to the node `t`. -/
def unlink (q : Link) (t : ℕ) (M : Memory α) : Option (Memory α) := do
  let node ← M.node t
  match node.right with
  | none => M.write node.left q
  | some r => do
    let next ← M.node r
    match next.left with
    | none => do
      let M ← M.write node.left (.left r)
      M.write (some r) q
    | some _ => do
      let (r, s) ← descend M M.fuel (.right t) (.left r)
      let M ← M.write (← M.node t).left (.left (← (← M.read s)))
      let M ← M.write (← M.node (← (← M.read s))).right (.left (← (← M.read r)))
      -- the link at `s` is in the node that `r` leads to, and has just been written
      let M ← M.write (← M.node t).right (.right (← (← M.read s)))
      M.write (← M.read s) q

/-- `tdelete` -/
def tdelete [DecidableEq α] (null : α) (compar : α → α → ℤ) (key : α) (M : Memory α) :
    Option (Option ℕ × Memory α) := do
  let (q, parent, M) ← traverse compar key false M.fuel .root none M
  let t ← (← M.read q)
  if (← M.node t).datum = null then some (none, M)
  else do
    let M ← unlink q t M
    some (parent, M.free t)

/-! ## Trees in memory -/

/-- A link leads to a tree, whose items are nodes with their keys. -/
def Represents (M : Memory α) : Option ℕ → BinaryTree (ℕ × α) → Prop
  | p, .nil => p = none
  | p, .node (n, key) left right => p = some n ∧ ∃ node, M.node n = some node ∧ node.datum = key ∧
      Represents M node.left left ∧ Represents M node.right right

/-- The nodes of a tree. -/
def nodesOf (t : BinaryTree (ℕ × α)) : List ℕ := (items t).map Prod.fst

theorem nodesOf_node (a : ℕ × α) (left right : BinaryTree (ℕ × α)) :
    nodesOf (.node a left right) = nodesOf left ++ a.1 :: nodesOf right := by
  rw [nodesOf, items, List.map_append, List.map_cons]
  rfl

/-- Only some nodes change. -/
structure Framed (M M' : Memory α) (owned : List ℕ) : Prop where
  node : ∀ n ∉ owned, M'.node n = M.node n
  root : M'.root = M.root
  nullTree : M'.nullTree = M.nullTree
  count : M.count ≤ M'.count

/-- A link is not stored in any of the nodes. -/
def Link.Outside (nodes : List ℕ) : Link → Prop
  | .root => True
  | .left n | .right n => n ∉ nodes
  | .nullTree => False

/-- Only some nodes change, and one link outside of them, which leads to `p` then. -/
structure Changed (M M' : Memory α) (owned : List ℕ) (p : Option ℕ) (link : Link) : Prop where
  node : ∀ n ∉ owned, link ≠ .left n → link ≠ .right n → M'.node n = M.node n
  left : ∀ n, link = .left n → M'.node n = (M.node n).map fun node ↦ { node with left := p }
  right : ∀ n, link = .right n → M'.node n = (M.node n).map fun node ↦ { node with right := p }
  root : M'.root = if link = .root then p else M.root
  nullTree : M'.nullTree = M.nullTree
  count : M.count ≤ M'.count

section

variable {M M' M'' : Memory α} {owned owned' : List ℕ} {p : Option ℕ} {link : Link}
  {t left right : BinaryTree (ℕ × α)}

theorem Framed.refl (M : Memory α) (owned : List ℕ) : Framed M M owned :=
  ⟨fun _ _ ↦ rfl, rfl, rfl, Nat.le_refl _⟩

theorem Framed.setNode (h : Framed M M' owned) {n : ℕ} (hn : n ∈ owned)
    (node : Option (TreeNode α)) : Framed M (M'.setNode n node) owned where
  node m hm := by
    rw [Memory.setNode]
    dsimp only
    rw [Function.update_of_ne (ne_of_mem_of_not_mem hn hm).symm, h.node m hm]
  root := h.root
  nullTree := h.nullTree
  count := h.count

theorem Represents.congr (h : Represents M p t) (hsame : ∀ n ∈ nodesOf t, M'.node n = M.node n) :
    Represents M' p t := by
  induction t generalizing p with
  | nil => exact h
  | node a left right ihLeft ihRight =>
    obtain ⟨n, key⟩ := a
    obtain ⟨hp, node, hnode, hkey, hleft, hright⟩ := h
    rw [nodesOf_node] at hsame
    refine ⟨hp, node, ?_, hkey, ?_, ?_⟩
    · rw [hsame n (List.mem_append_right _ List.mem_cons_self), hnode]
    · exact ihLeft hleft fun m hm ↦ hsame m (List.mem_append_left _ hm)
    · exact ihRight hright fun m hm ↦ hsame m (List.mem_append_right _ (List.mem_cons_of_mem _ hm))

/-- Writing a link after other nodes have changed. -/
theorem Framed.write (h : Framed M M' owned) (hlink : link.Outside owned) {p₀ : Option ℕ}
    (hread : M.read link = some p₀) (p : Option ℕ) :
    ∃ M'', M'.write p link = some M'' ∧ Changed M M'' owned p link ∧
      ∀ n ∈ owned, M''.node n = M'.node n := by
  cases link with
  | nullTree => exact hlink.elim
  | root =>
    refine ⟨_, rfl, ⟨fun n hn _ _ ↦ h.node n hn, ?_, ?_, ?_, h.nullTree, h.count⟩, fun _ _ ↦ rfl⟩
    · rintro n ⟨⟩
    · rintro n ⟨⟩
    · rw [if_pos rfl]
  | left m =>
    obtain ⟨node, hnode, -⟩ := Option.map_eq_some_iff.mp hread
    have hnode' : M'.node m = some node := (h.node m hlink).trans hnode
    refine ⟨M'.setNode m (some { node with left := p }), ?_, ⟨?_, ?_, ?_, ?_, h.nullTree, h.count⟩, ?_⟩
    · rw [Memory.write, hnode', Option.map_some]
    · intro n hn hne _
      have hnm : n ≠ m := by
        rintro rfl
        exact hne rfl
      rw [Memory.setNode]
      dsimp only
      rw [Function.update_of_ne hnm, h.node n hn]
    · rintro n heq
      obtain rfl := Link.left.inj heq
      rw [Memory.setNode, hnode]
      exact Function.update_self _ _ _
    · rintro n ⟨⟩
    · rw [if_neg (by simp)]
      exact h.root
    · intro n hn
      exact Function.update_of_ne (ne_of_mem_of_not_mem hn hlink) _ _
  | right m =>
    obtain ⟨node, hnode, -⟩ := Option.map_eq_some_iff.mp hread
    have hnode' : M'.node m = some node := (h.node m hlink).trans hnode
    refine ⟨M'.setNode m (some { node with right := p }), ?_, ⟨?_, ?_, ?_, ?_, h.nullTree, h.count⟩, ?_⟩
    · rw [Memory.write, hnode', Option.map_some]
    · intro n hn _ hne
      have hnm : n ≠ m := by
        rintro rfl
        exact hne rfl
      rw [Memory.setNode]
      dsimp only
      rw [Function.update_of_ne hnm, h.node n hn]
    · rintro n ⟨⟩
    · rintro n heq
      obtain rfl := Link.right.inj heq
      rw [Memory.setNode, hnode]
      exact Function.update_self _ _ _
    · rw [if_neg (by simp)]
      exact h.root
    · intro n hn
      exact Function.update_of_ne (ne_of_mem_of_not_mem hn hlink) _ _

theorem Changed.framed (h : Changed M M' owned p link) (hlink : link.Outside owned)
    (h' : Framed M' M'' owned) : Changed M M'' owned p link where
  node n hn hleft hright := (h'.node n hn).trans (h.node n hn hleft hright)
  left n heq := by
    subst heq
    exact (h'.node n hlink).trans (h.left n rfl)
  right n heq := by
    subst heq
    exact (h'.node n hlink).trans (h.right n rfl)
  root := h'.root.trans h.root
  nullTree := h'.nullTree.trans h.nullTree
  count := Nat.le_trans h.count h'.count

theorem Changed.mono (h : Changed M M' owned p link) (hsubset : owned ⊆ owned') :
    Changed M M' owned' p link where
  node n hn := h.node n fun hmem ↦ hn (hsubset hmem)
  left := h.left
  right := h.right
  root := h.root
  nullTree := h.nullTree
  count := h.count

theorem Link.outside_root (nodes : List ℕ) : Link.root.Outside nodes := trivial

theorem Link.Outside.mono (h : link.Outside owned') (hsubset : owned ⊆ owned') :
    link.Outside owned := by
  cases link with
  | root => trivial
  | left n => exact fun hmem ↦ h (hsubset hmem)
  | right n => exact fun hmem ↦ h (hsubset hmem)
  | nullTree => exact h

theorem Memory.read_root (M : Memory α) : M.read .root = some M.root := rfl

theorem write_count (h : M.write p link = some M') : M'.count = M.count := by
  cases link with
  | root | nullTree =>
    obtain rfl := Option.some.inj h
    rfl
  | left n | right n =>
    obtain ⟨node, -, rfl⟩ := Option.map_eq_some_iff.mp h
    rfl

/-- What the link leads to afterwards. -/
theorem Changed.read (h : Changed M M' owned p link) (hlink : link.Outside owned) {p₀ : Option ℕ}
    (hread : M.read link = some p₀) : M'.read link = some p := by
  cases link with
  | nullTree => exact hlink.elim
  | root =>
    rw [Memory.read, h.root]
    exact congrArg some (if_pos rfl)
  | left m =>
    obtain ⟨node, hnode, -⟩ := Option.map_eq_some_iff.mp hread
    rw [Memory.read, h.left m rfl, hnode]
    rfl
  | right m =>
    obtain ⟨node, hnode, -⟩ := Option.map_eq_some_iff.mp hread
    rw [Memory.read, h.right m rfl, hnode]
    rfl

/-- A change below the left link of a node is a change of the tree with that node. -/
theorem Changed.lift_left {n : ℕ} {key : α} {node : TreeNode α}
    (h : Changed M M' owned p (.left n)) (hnode : M.node n = some node) (hkey : node.datum = key)
    (hleft : Represents M' p left) (hright : Represents M node.right right)
    (hdisjoint : ∀ m ∈ nodesOf right, m ∉ owned ∧ m ≠ n) (hread : M.read link = some (some n))
    (hlink : link.Outside (n :: owned)) :
    Changed M M' (n :: owned) (some n) link ∧ Represents M' (some n) (.node (n, key) left right) := by
  have hnode' : M'.node n = some { node with left := p } := by
    rw [h.left n rfl, hnode, Option.map_some]
  have hsame : ∀ m, m ∉ owned → m ≠ n → M'.node m = M.node m := by
    intro m hm hmn
    refine h.node m hm ?_ (by simp)
    exact fun heq ↦ hmn (Link.left.inj heq).symm
  refine ⟨⟨?_, ?_, ?_, ?_, h.nullTree, h.count⟩, rfl, _, hnode', hkey, hleft, ?_⟩
  · intro m hm _ _
    rw [List.mem_cons, not_or] at hm
    exact hsame m hm.2 hm.1
  · rintro m rfl
    have hm : m ∉ n :: owned := hlink
    rw [List.mem_cons, not_or] at hm
    obtain ⟨node', hm', heq⟩ := Option.map_eq_some_iff.mp hread
    rw [hsame m hm.2 hm.1, hm', Option.map_some, ← heq]
  · rintro m rfl
    have hm : m ∉ n :: owned := hlink
    rw [List.mem_cons, not_or] at hm
    obtain ⟨node', hm', heq⟩ := Option.map_eq_some_iff.mp hread
    rw [hsame m hm.2 hm.1, hm', Option.map_some, ← heq]
  · rw [h.root, if_neg (by simp)]
    split
    · rename_i heq
      subst heq
      exact Option.some.inj hread
    · rfl
  · exact hright.congr fun m hm ↦ hsame m (hdisjoint m hm).1 (hdisjoint m hm).2

theorem Changed.lift_right {n : ℕ} {key : α} {node : TreeNode α}
    (h : Changed M M' owned p (.right n)) (hnode : M.node n = some node) (hkey : node.datum = key)
    (hright : Represents M' p right) (hleft : Represents M node.left left)
    (hdisjoint : ∀ m ∈ nodesOf left, m ∉ owned ∧ m ≠ n) (hread : M.read link = some (some n))
    (hlink : link.Outside (n :: owned)) :
    Changed M M' (n :: owned) (some n) link ∧ Represents M' (some n) (.node (n, key) left right) := by
  have hnode' : M'.node n = some { node with right := p } := by
    rw [h.right n rfl, hnode, Option.map_some]
  have hsame : ∀ m, m ∉ owned → m ≠ n → M'.node m = M.node m := by
    intro m hm hmn
    refine h.node m hm (by simp) ?_
    exact fun heq ↦ hmn (Link.right.inj heq).symm
  refine ⟨⟨?_, ?_, ?_, ?_, h.nullTree, h.count⟩, rfl, _, hnode', hkey, ?_, hright⟩
  · intro m hm _ _
    rw [List.mem_cons, not_or] at hm
    exact hsame m hm.2 hm.1
  · rintro m rfl
    have hm : m ∉ n :: owned := hlink
    rw [List.mem_cons, not_or] at hm
    obtain ⟨node', hm', heq⟩ := Option.map_eq_some_iff.mp hread
    rw [hsame m hm.2 hm.1, hm', Option.map_some, ← heq]
  · rintro m rfl
    have hm : m ∉ n :: owned := hlink
    rw [List.mem_cons, not_or] at hm
    obtain ⟨node', hm', heq⟩ := Option.map_eq_some_iff.mp hread
    rw [hsame m hm.2 hm.1, hm', Option.map_some, ← heq]
  · rw [h.root, if_neg (by simp)]
    split
    · rename_i heq
      subst heq
      exact Option.some.inj hread
    · rfl
  · exact hleft.congr fun m hm ↦ hsame m (hdisjoint m hm).1 (hdisjoint m hm).2

end

/-! ## What searching does -/

/-- Items are compared by their keys. -/
def itemCompare (compar : α → α → ℤ) (a b : ℕ × α) : ℤ := compar a.2 b.2

section

variable {compar : α → α → ℤ} {M : Memory α} {p : Option ℕ} {link : Link}
  {t : BinaryTree (ℕ × α)} {item a : ℕ × α} {fuel : ℕ} (create : Bool) (parent : Option ℕ)

theorem traverse_node {n : ℕ} {node : TreeNode α} (hread : M.read link = some (some n))
    (hnode : M.node n = some node) (key : α) :
    traverse compar key create (fuel + 1) link parent M =
      if compar key node.datum = 0 then some (link, some n, M)
      else if compar key node.datum < 0 then traverse compar key create fuel (.left n) (some n) M
      else traverse compar key create fuel (.right n) (some n) M := by
  rw [traverse, hread]
  simp only [Option.bind_eq_bind, Option.bind_some, hnode]

/-- A key that is found is found where a link to its node is stored. -/
theorem traverse_of_find (ht : Represents M p t) (hread : M.read link = some p)
    (hfuel : (items t).length < fuel) (hfind : find (itemCompare compar) item t = some a) :
    ∃ q, traverse compar item.2 create fuel link parent M = some (q, some a.1, M) ∧
      M.read q = some (some a.1) := by
  induction t generalizing p link fuel parent with
  | nil => cases hfind
  | node b left right ihLeft ihRight =>
    obtain ⟨n, key⟩ := b
    obtain ⟨rfl, node, hnode, rfl, hleft, hright⟩ := ht
    rw [items, List.length_append, List.length_cons] at hfuel
    obtain ⟨fuel, rfl⟩ := Nat.exists_eq_succ_of_ne_zero (Nat.ne_of_gt (Nat.zero_lt_of_lt hfuel))
    rw [Nat.succ_eq_add_one, traverse_node create parent hread hnode]
    rw [find] at hfind
    change (if compar item.2 node.datum = 0 then _ else _) = _ at hfind
    split at hfind
    · rename_i hzero
      obtain rfl := Option.some.inj hfind
      rw [if_pos hzero]
      exact ⟨link, rfl, hread⟩
    · rename_i hne
      rw [if_neg hne]
      change (if compar item.2 node.datum < 0 then _ else _) = _ at hfind
      split at hfind
      · rename_i hlt
        rw [if_pos hlt]
        exact ihLeft (some n) hleft (by rw [Memory.read, hnode]; rfl) (by omega) hfind
      · rename_i hge
        rw [if_neg hge]
        exact ihRight (some n) hright (by rw [Memory.read, hnode]; rfl) (by omega) hfind

/-- A key that is not there is not found. -/
theorem traverse_of_find_none (ht : Represents M p t) (hread : M.read link = some p)
    (hfuel : (items t).length < fuel) (hfind : find (itemCompare compar) item t = none) :
    ∃ parent', traverse compar item.2 false fuel link parent M = some (.nullTree, parent', M) := by
  induction t generalizing p link fuel parent with
  | nil =>
    obtain rfl := ht
    obtain ⟨fuel, rfl⟩ := Nat.exists_eq_succ_of_ne_zero (Nat.ne_of_gt hfuel)
    refine ⟨parent, ?_⟩
    rw [traverse, hread]
    rfl
  | node b left right ihLeft ihRight =>
    obtain ⟨n, key⟩ := b
    obtain ⟨rfl, node, hnode, rfl, hleft, hright⟩ := ht
    rw [items, List.length_append, List.length_cons] at hfuel
    obtain ⟨fuel, rfl⟩ := Nat.exists_eq_succ_of_ne_zero (Nat.ne_of_gt (Nat.zero_lt_of_lt hfuel))
    rw [Nat.succ_eq_add_one, traverse_node false parent hread hnode]
    rw [find] at hfind
    change (if compar item.2 node.datum = 0 then _ else _) = _ at hfind
    split at hfind
    · cases hfind
    · rename_i hne
      rw [if_neg hne]
      change (if compar item.2 node.datum < 0 then _ else _) = _ at hfind
      split at hfind
      · rename_i hlt
        rw [if_pos hlt]
        exact ihLeft (some n) hleft (by rw [Memory.read, hnode]; rfl) (by omega) hfind
      · rename_i hge
        rw [if_neg hge]
        exact ihRight (some n) hright (by rw [Memory.read, hnode]; rfl) (by omega) hfind

/-- A key that is not there is inserted where the search for it ends. -/
theorem traverse_insert (ht : Represents M p t) (hread : M.read link = some p)
    (hfuel : (items t).length < fuel) (hnodup : (nodesOf t).Nodup)
    (hcount : ∀ n ∈ nodesOf t, n < M.count) (hlink : link.Outside (M.count :: nodesOf t))
    (hitem : item.1 = M.count) (hfind : find (itemCompare compar) item t = none) :
    ∃ q parent' M' p', traverse compar item.2 true fuel link parent M = some (q, parent', M') ∧
      M'.read q = some (some M.count) ∧ M'.count = M.count + 1 ∧
      Changed M M' (M.count :: nodesOf t) p' link ∧
      Represents M' p' (insert (itemCompare compar) item t) := by
  induction t generalizing p link fuel parent with
  | nil =>
    obtain rfl := ht
    obtain ⟨fuel, rfl⟩ := Nat.exists_eq_succ_of_ne_zero (Nat.ne_of_gt hfuel)
    obtain ⟨number, key⟩ := item
    obtain rfl : number = M.count := hitem
    let created : TreeNode α := { datum := key, left := none, right := none }
    have hframed : Framed M (M.malloc created).2 [M.count] := by
      refine ⟨?_, rfl, rfl, Nat.le_succ _⟩
      intro n hn
      exact Function.update_of_ne (List.ne_of_not_mem_cons hn) _ _
    obtain ⟨M', hwrite, hchanged, howned⟩ := hframed.write hlink hread (some M.count)
    refine ⟨link, parent, M', some M.count, ?_, hchanged.read hlink hread, ?_, hchanged, rfl,
      created, ?_, rfl, rfl, rfl⟩
    · rw [traverse, hread]
      change ((M.malloc created).2.write (some M.count) link >>= fun M ↦ some (link, parent, M)) = _
      rw [hwrite]
      rfl
    · rw [write_count hwrite]
      rfl
    · rw [howned M.count List.mem_cons_self]
      exact Function.update_self _ _ _
  | node b left right ihLeft ihRight =>
    obtain ⟨n, key⟩ := b
    obtain ⟨rfl, node, hnode, rfl, hleft, hright⟩ := ht
    rw [items, List.length_append, List.length_cons] at hfuel
    obtain ⟨fuel, rfl⟩ := Nat.exists_eq_succ_of_ne_zero (Nat.ne_of_gt (Nat.zero_lt_of_lt hfuel))
    rw [Nat.succ_eq_add_one, traverse_node true parent hread hnode]
    rw [nodesOf_node] at hnodup hcount hlink ⊢
    rw [List.nodup_append, List.nodup_cons] at hnodup
    obtain ⟨hnodupLeft, ⟨hnRight, hnodupRight⟩, hdisjoint⟩ := hnodup
    have hfuelLeft : (items left).length < fuel := by omega
    have hfuelRight : (items right).length < fuel := by omega
    have hnCount : n < M.count := hcount n (List.mem_append_right _ List.mem_cons_self)
    have hcountLeft : ∀ m ∈ nodesOf left, m < M.count :=
      fun m hm ↦ hcount m (List.mem_append_left _ hm)
    have hcountRight : ∀ m ∈ nodesOf right, m < M.count :=
      fun m hm ↦ hcount m (List.mem_append_right _ (List.mem_cons_of_mem _ hm))
    have hnLeft : n ∉ nodesOf left := fun hmem ↦ hdisjoint n hmem n List.mem_cons_self rfl
    rw [find] at hfind
    rw [Lib.SearchTree.insert]
    change (if compar item.2 node.datum = 0 then _ else _) = _ at hfind
    change ∃ q parent' M' p', _ ∧ _ ∧ _ ∧ _ ∧ Represents M' p'
      (if compar item.2 node.datum = 0 then _ else if compar item.2 node.datum < 0 then _ else _)
    split at hfind
    · cases hfind
    · rename_i hne
      rw [if_neg hne, if_neg hne]
      change (if compar item.2 node.datum < 0 then _ else _) = _ at hfind
      split at hfind
      · rename_i hlt
        have houtside : (Link.left n).Outside (M.count :: nodesOf left) :=
          List.not_mem_cons_of_ne_of_not_mem (Nat.ne_of_lt hnCount) hnLeft
        obtain ⟨q, parent', M', p', htraverse, hq, hcount', hchanged, hrep⟩ :=
          ihLeft (some n) hleft (by rw [Memory.read, hnode]; rfl) hfuelLeft hnodupLeft hcountLeft
            houtside hfind
        have hsubset : n :: M.count :: nodesOf left ⊆
            M.count :: (nodesOf left ++ n :: nodesOf right) := by
          intro m hm
          simp only [List.mem_cons, List.mem_append] at hm ⊢
          tauto
        obtain ⟨hlifted, hrep'⟩ := hchanged.lift_left hnode rfl hrep hright
          (fun m hm ↦ ⟨List.not_mem_cons_of_ne_of_not_mem (Nat.ne_of_lt (hcountRight m hm))
            fun hmem ↦ hdisjoint m hmem m (List.mem_cons_of_mem _ hm) rfl,
            fun heq ↦ hnRight (heq ▸ hm)⟩) hread (hlink.mono hsubset)
        rw [if_pos hlt, if_pos hlt]
        exact ⟨q, parent', M', some n, htraverse, hq, hcount', hlifted.mono hsubset, hrep'⟩
      · rename_i hge
        have houtside : (Link.right n).Outside (M.count :: nodesOf right) :=
          List.not_mem_cons_of_ne_of_not_mem (Nat.ne_of_lt hnCount) hnRight
        obtain ⟨q, parent', M', p', htraverse, hq, hcount', hchanged, hrep⟩ :=
          ihRight (some n) hright (by rw [Memory.read, hnode]; rfl) hfuelRight hnodupRight
            hcountRight houtside hfind
        have hsubset : n :: M.count :: nodesOf right ⊆
            M.count :: (nodesOf left ++ n :: nodesOf right) := by
          intro m hm
          simp only [List.mem_cons, List.mem_append] at hm ⊢
          tauto
        obtain ⟨hlifted, hrep'⟩ := hchanged.lift_right hnode rfl hrep hleft
          (fun m hm ↦ ⟨List.not_mem_cons_of_ne_of_not_mem (Nat.ne_of_lt (hcountLeft m hm))
            fun hmem ↦ hdisjoint m hm m (List.mem_cons_of_mem _ hmem) rfl,
            fun heq ↦ hnLeft (heq ▸ hm)⟩) hread (hlink.mono hsubset)
        rw [if_neg hge, if_neg hge]
        exact ⟨q, parent', M', some n, htraverse, hq, hcount', hlifted.mono hsubset, hrep'⟩

end

/-! ## What deleting does -/

section

variable {compar : α → α → ℤ} {M : Memory α} {p : Option ℕ} {link : Link}
  {t : BinaryTree (ℕ × α)} {item a : ℕ × α} {fuel : ℕ}

/-- The node at a link is replaced by the trees below it, when the right one can be joined. -/
theorem unlink_spec {n : ℕ} {node : TreeNode α} {left right : BinaryTree (ℕ × α)}
    (hnode : M.node n = some node) (hleft : Represents M node.left left)
    (hright : Represents M node.right right)
    (hnodup : (nodesOf (.node (n, node.datum) left right)).Nodup)
    (hread : M.read link = some (some n))
    (hlink : link.Outside (nodesOf (.node (n, node.datum) left right))) (hjoin : Joinable right) :
    ∃ M' p', unlink link n M = some M' ∧
      Changed M (M'.free n) (nodesOf (.node (n, node.datum) left right)) p' link ∧
      Represents (M'.free n) p' (join left right) := by
  obtain ⟨owned, hnodes⟩ : ∃ owned, owned = nodesOf (.node (n, node.datum) left right) := ⟨_, rfl⟩
  rw [← hnodes] at hlink ⊢
  have howned := hnodes.trans (nodesOf_node (n, node.datum) left right)
  rw [nodesOf_node, List.nodup_append, List.nodup_cons] at hnodup
  obtain ⟨-, ⟨hnRight, hnodupRight⟩, hdisjoint⟩ := hnodup
  have hn : n ∈ owned := howned ▸ List.mem_append_right _ List.mem_cons_self
  have hnLeft : ∀ m ∈ nodesOf left, m ≠ n :=
    fun m hm ↦ hdisjoint m hm n List.mem_cons_self
  have hfree : ∀ (M' : Memory α) (m : ℕ), m ≠ n → (M'.free n).node m = M'.node m :=
    fun M' m hm ↦ Function.update_of_ne hm _ _
  have hfreed : ∀ M' : Memory α, Framed M' (M'.free n) owned :=
    fun M' ↦ (Framed.refl M' owned).setNode hn none
  cases right with
  | nil =>
    have hnone : node.right = none := hright
    obtain ⟨M', hwrite, hchanged, hkept⟩ := (Framed.refl M owned).write hlink hread node.left
    refine ⟨M', node.left, ?_, hchanged.framed hlink (hfreed M'), hleft.congr ?_⟩
    · rw [unlink, hnode]
      simp only [Option.bind_eq_bind, Option.bind_some, hnone]
      exact hwrite
    · intro m hm
      rw [hfree M' m (hnLeft m hm), hkept m (howned ▸ List.mem_append_left _ hm)]
  | node b before after =>
    obtain ⟨r, key⟩ := b
    obtain rfl : before = .nil := hjoin
    obtain ⟨hr, next, hnext, rfl, hbefore, hafter⟩ := hright
    have hnone : next.left = none := hbefore
    rw [nodesOf_node] at hnRight hnodupRight howned hdisjoint
    have hrn : r ≠ n := by
      rintro rfl
      exact hnRight (by simp [nodesOf, items])
    have hrOwned : r ∈ owned := by
      rw [howned]
      simp [nodesOf, items]
    -- the left tree goes where nothing was left of the right one
    set M₁ := M.setNode r (some { next with left := node.left }) with hM₁
    have hwrite₁ : M.write node.left (.left r) = some M₁ := by
      rw [Memory.write, hnext, Option.map_some]
    have hframed : Framed M M₁ owned := (Framed.refl M owned).setNode hrOwned _
    obtain ⟨M', hwrite, hchanged, hkept⟩ := hframed.write hlink hread (some r)
    have hself : (M'.free n).node r = some { next with left := node.left } := by
      rw [hfree M' r hrn, hkept r hrOwned]
      exact Function.update_self _ _ _
    have hother : ∀ m ∈ owned, m ≠ n → m ≠ r → (M'.free n).node m = M.node m := by
      intro m hm hmn hmr
      rw [hfree M' m hmn, hkept m hm]
      exact Function.update_of_ne hmr _ _
    have hrAfter : r ∉ nodesOf after := by
      intro hmem
      rw [List.nodup_append, List.nodup_cons] at hnodupRight
      exact hnodupRight.2.1.1 hmem
    refine ⟨M', some r, ?_, hchanged.framed hlink (hfreed M'), rfl, _, hself, rfl, hleft.congr ?_,
      hafter.congr ?_⟩
    · rw [unlink, hnode]
      simp only [Option.bind_eq_bind, Option.bind_some, hr, hnext, hnone, hwrite₁]
      exact hwrite
    · intro m hm
      have hmr : m ≠ r := by
        rintro rfl
        exact hdisjoint m hm m (by simp [nodesOf, items]) rfl
      exact hother m (howned ▸ List.mem_append_left _ hm) (hnLeft m hm) hmr
    · intro m hm
      have hmem : m ∈ owned := by
        rw [howned]
        simp only [List.mem_append, List.mem_cons]
        exact .inr (.inr (.inr (.inr hm)))
      have hmn : m ≠ n := by
        rintro rfl
        apply hnRight
        simp only [List.mem_append, List.mem_cons]
        exact .inr (.inr hm)
      exact hother m hmem hmn (ne_of_mem_of_not_mem hm hrAfter)

/-- A key whose node can be unlinked is deleted where the link to its node is stored. -/
theorem traverse_delete (parent : Option ℕ) (ht : Represents M p t) (hread : M.read link = some p)
    (hfuel : (items t).length < fuel) (hnodup : (nodesOf t).Nodup)
    (hlink : link.Outside (nodesOf t)) (hdelete : Deletable (itemCompare compar) item t) :
    ∃ q n M' p', traverse compar item.2 false fuel link parent M = some (q, some n, M) ∧
      M.read q = some (some n) ∧ unlink q n M = some M' ∧
      Changed M (M'.free n) (nodesOf t) p' link ∧
      Represents (M'.free n) p' (delete (itemCompare compar) item t) := by
  induction t generalizing p link fuel parent with
  | nil => exact hdelete.elim
  | node b left right ihLeft ihRight =>
    obtain ⟨n, key⟩ := b
    obtain ⟨rfl, node, hnode, rfl, hleft, hright⟩ := ht
    rw [items, List.length_append, List.length_cons] at hfuel
    obtain ⟨fuel, rfl⟩ := Nat.exists_eq_succ_of_ne_zero (Nat.ne_of_gt (Nat.zero_lt_of_lt hfuel))
    rw [Nat.succ_eq_add_one, traverse_node false parent hread hnode]
    have hcompare : itemCompare compar item (n, node.datum) = compar item.2 node.datum := rfl
    rw [Deletable, hcompare] at hdelete
    rw [delete, hcompare]
    split at hdelete
    · rename_i hzero
      obtain ⟨M', p', hunlink, hchanged, hrep⟩ :=
        unlink_spec hnode hleft hright hnodup hread hlink hdelete
      rw [if_pos hzero, if_pos hzero]
      exact ⟨link, n, M', p', rfl, hread, hunlink, hchanged, hrep⟩
    · rename_i hne
      rw [nodesOf_node] at hnodup hlink ⊢
      rw [List.nodup_append, List.nodup_cons] at hnodup
      obtain ⟨hnodupLeft, ⟨hnRight, hnodupRight⟩, hdisjoint⟩ := hnodup
      have hfuelLeft : (items left).length < fuel := by omega
      have hfuelRight : (items right).length < fuel := by omega
      have hnLeft : n ∉ nodesOf left := fun hmem ↦ hdisjoint n hmem n List.mem_cons_self rfl
      rw [if_neg hne, if_neg hne]
      split at hdelete
      · rename_i hlt
        have houtside : (Link.left n).Outside (nodesOf left) := hnLeft
        have hsubset : n :: nodesOf left ⊆ nodesOf left ++ n :: nodesOf right := by
          intro m hm
          simp only [List.mem_cons, List.mem_append] at hm ⊢
          tauto
        obtain ⟨q, n', M', p', htraverse, hq, hunlink, hchanged, hrep⟩ :=
          ihLeft (some n) hleft (by rw [Memory.read, hnode]; rfl) hfuelLeft hnodupLeft houtside
            hdelete
        obtain ⟨hlifted, hrep'⟩ := hchanged.lift_left hnode rfl hrep hright
          (fun m hm ↦ ⟨fun hmem ↦ hdisjoint m hmem m (List.mem_cons_of_mem _ hm) rfl,
            fun heq ↦ hnRight (heq ▸ hm)⟩) hread (hlink.mono hsubset)
        rw [if_pos hlt, if_pos hlt]
        exact ⟨q, n', M', some n, htraverse, hq, hunlink, hlifted.mono hsubset, hrep'⟩
      · rename_i hge
        have houtside : (Link.right n).Outside (nodesOf right) := hnRight
        have hsubset : n :: nodesOf right ⊆ nodesOf left ++ n :: nodesOf right :=
          List.subset_append_right _ _
        obtain ⟨q, n', M', p', htraverse, hq, hunlink, hchanged, hrep⟩ :=
          ihRight (some n) hright (by rw [Memory.read, hnode]; rfl) hfuelRight hnodupRight houtside
            hdelete
        obtain ⟨hlifted, hrep'⟩ := hchanged.lift_right hnode rfl hrep hleft
          (fun m hm ↦ ⟨fun hmem ↦ hdisjoint m hm m (List.mem_cons_of_mem _ hmem) rfl,
            fun heq ↦ hnLeft (heq ▸ hm)⟩) hread (hlink.mono hsubset)
        rw [if_neg hge, if_neg hge]
        exact ⟨q, n', M', some n, htraverse, hq, hunlink, hlifted.mono hsubset, hrep'⟩

/-- A node that is found can be unlinked, when nothing is left of the node right of it. -/
theorem deletable_of_find {n : ℕ} {key : α} {node : TreeNode α} (ht : Represents M p t)
    (hnode : M.node n = some node)
    (hright : ∀ r, node.right = some r → ∃ next, M.node r = some next ∧ next.left = none)
    (hfind : find (itemCompare compar) item t = some (n, key)) :
    Deletable (itemCompare compar) item t := by
  induction t generalizing p with
  | nil => cases hfind
  | node b left right ihLeft ihRight =>
    obtain ⟨m, key'⟩ := b
    obtain ⟨rfl, node', hnode', rfl, hleft', hright'⟩ := ht
    rw [find] at hfind
    rw [Deletable]
    split at hfind
    · rename_i hzero
      obtain ⟨rfl, rfl⟩ := Prod.mk.inj (Option.some.inj hfind)
      obtain rfl := Option.some.inj (hnode.symm.trans hnode')
      rw [if_pos hzero]
      cases right with
      | nil => trivial
      | node c before after =>
        obtain ⟨hr, next, hnext, -, hbefore, -⟩ := hright'
        obtain ⟨next', hnext', hnone⟩ := hright _ hr
        obtain rfl := Option.some.inj (hnext.symm.trans hnext')
        rw [hnone] at hbefore
        cases before with
        | nil => rfl
        | node d _ _ => cases hbefore.1
    · rename_i hne
      rw [if_neg hne]
      split at hfind
      · rename_i hlt
        rw [if_pos hlt]
        exact ihLeft hleft' hfind
      · rename_i hge
        rw [if_neg hge]
        exact ihRight hright' hfind

end

/-! ## Runs -/

/-- The keys of a tree. -/
def keysOf (t : BinaryTree (ℕ × α)) : Set α := {key | ∃ n, (n, key) ∈ items t}

section

variable (compar : α → α → ℤ)

/-- The root leads to a search tree. -/
structure IsTree (M : Memory α) (t : BinaryTree (ℕ × α)) : Prop where
  represents : Represents M M.root t
  nodup : (nodesOf t).Nodup
  allocated : ∀ n ∈ nodesOf t, n < M.count
  ascending : Ascending (itemCompare compar) (items t)
  nullTree : M.nullTree = none

/-- An equal key is there. -/
def Present (key : α) (keys : Set α) : Prop := ∃ other ∈ keys, compar key other = 0

inductive TreeOp (α : Type) where
  | tsearch (key : α)
  | tfind (key : α)
  | tdelete (key : α)

namespace TreeOp

/-- A call, and what it returns. -/
def call [DecidableEq α] (null : α) : TreeOp α → Memory α → Option (Option ℕ × Memory α)
  | tsearch key, M => Web.tsearch compar key M
  | tfind key, M => (Web.tfind compar key M).map fun p ↦ (p, M)
  | tdelete key, M => Web.tdelete null compar key M

/-- The keys after a call. -/
def after : TreeOp α → Set α → Set α
  | tsearch key, keys => {other | other ∈ keys ∨ other = key ∧ ¬ Present compar key keys}
  | tfind _, keys => keys
  | tdelete key, keys => {other | other ∈ keys ∧ compar key other ≠ 0}

/-- What a call returns, when the tree `t` becomes `t'`. -/
def Answers : TreeOp α → Memory α → BinaryTree (ℕ × α) → Option ℕ → Memory α →
    BinaryTree (ℕ × α) → Prop
  | tsearch key, M, t, p, M', t' =>
    (∀ n other, (n, other) ∈ items t → compar key other = 0 → p = some n ∧ M' = M) ∧
      (¬ Present compar key (keysOf t) → ∃ n, p = some n ∧ (n, key) ∈ items t')
  | tfind key, _, t, p, _, _ =>
    (p = none ↔ ¬ Present compar key (keysOf t)) ∧
      ∀ n, p = some n → ∃ other, (n, other) ∈ items t ∧ compar key other = 0
  | tdelete key, M, t, p, M', _ => ¬ Present compar key (keysOf t) → p = none ∧ M' = M

/-- What is deleted is there and not NULL, and its node has nothing on the right or there a node with
nothing on the left. -/
def Supported (null : α) : TreeOp α → Memory α → Prop
  | tdelete key, M => ∃ n node, Web.tfind compar key M = some (some n) ∧ M.node n = some node ∧
      node.datum ≠ null ∧ ∀ r, node.right = some r → ∃ next, M.node r = some next ∧ next.left = none
  | _, _ => True

variable [DecidableEq α] (null : α)

/-- Every call of a run ends and answers as a map does, and there always is a search tree over the keys
of that map. -/
def Maps : List (TreeOp α) → Memory α → BinaryTree (ℕ × α) → Prop
  | [], M, t => IsTree compar M t
  | op :: ops, M, t => IsTree compar M t ∧ ∃ p M' t', op.call compar null M = some (p, M') ∧
      keysOf t' = op.after compar (keysOf t) ∧ op.Answers compar M t p M' t' ∧ Maps ops M' t'

/-- Every call of a run is supported where it is made. -/
def AllSupported : List (TreeOp α) → Memory α → Prop
  | [], _ => True
  | op :: ops, M => op.Supported compar null M ∧
      ∀ p M', op.call compar null M = some (p, M') → AllSupported ops M'

end TreeOp

end

section

variable {compar : α → α → ℤ} {M : Memory α} {t : BinaryTree (ℕ × α)} {key : α}

theorem itemCompare_consistent (hcmp : ∀ l, Consistent compar l) (l : List (ℕ × α)) :
    Consistent (itemCompare compar) l where
  antisymm a ha b hb := (hcmp (l.map Prod.snd)).antisymm a.2 (List.mem_map_of_mem ha) b.2
    (List.mem_map_of_mem hb)
  trans a ha b hb c hc := (hcmp (l.map Prod.snd)).trans a.2 (List.mem_map_of_mem ha) b.2
    (List.mem_map_of_mem hb) c.2 (List.mem_map_of_mem hc)

theorem IsTree.length_lt_fuel (h : IsTree compar M t) : (items t).length < M.fuel := by
  have hsub : nodesOf t ⊆ List.range M.count := fun n hn ↦ List.mem_range.mpr (h.allocated n hn)
  have hle := (List.subperm_of_subset h.nodup hsub).length_le
  rw [nodesOf, List.length_map, List.length_range] at hle
  exact Nat.lt_succ_of_le hle

theorem isTree_empty : IsTree compar Memory.empty .nil where
  represents := rfl
  nodup := .nil
  allocated _ hn := (List.not_mem_nil hn).elim
  ascending := .nil
  nullTree := rfl

/-- A number does not matter to the search for a key. -/
theorem find_eq_none_iff (hcmp : ∀ l, Consistent compar l) (h : IsTree compar M t) (n : ℕ) :
    find (itemCompare compar) (n, key) t = none ↔ ¬ Present compar key (keysOf t) := by
  have hsome := find_isSome_iff (itemCompare_consistent hcmp ((n, key) :: items t)) h.ascending
  rw [← Option.not_isSome_iff_eq_none, hsome, not_iff_not]
  constructor
  · rintro ⟨⟨m, other⟩, hmem, hzero⟩
    exact ⟨other, ⟨m, hmem⟩, hzero⟩
  · rintro ⟨other, ⟨m, hmem⟩, hzero⟩
    exact ⟨(m, other), hmem, hzero⟩

theorem keysOf_insert {n : ℕ} (hfind : find (itemCompare compar) (n, key) t = none) (other : α) :
    other ∈ keysOf (Lib.SearchTree.insert (itemCompare compar) (n, key) t) ↔
      other ∈ keysOf t ∨ other = key := by
  have hperm := perm_items_insert hfind
  constructor
  · rintro ⟨m, hmem⟩
    rcases List.mem_cons.mp (hperm.mem_iff.mp hmem) with heq | hmem
    · exact .inr (Prod.mk.inj heq).2
    · exact .inl ⟨m, hmem⟩
  · rintro (⟨m, hmem⟩ | rfl)
    · exact ⟨m, hperm.mem_iff.mpr (List.mem_cons_of_mem _ hmem)⟩
    · exact ⟨n, hperm.mem_iff.mpr List.mem_cons_self⟩

/-- A tree is changed where the root leads to. -/
theorem IsTree.changed {M' : Memory α} {t' : BinaryTree (ℕ × α)} {p : Option ℕ} {owned : List ℕ}
    (h : IsTree compar M t) (hchanged : Changed M M' owned p .root) (hrep : Represents M' p t')
    (hnodup : (nodesOf t').Nodup) (hallocated : ∀ n ∈ nodesOf t', n < M'.count)
    (hascending : Ascending (itemCompare compar) (items t')) : IsTree compar M' t' where
  represents := by
    rw [hchanged.root, if_pos rfl]
    exact hrep
  nodup := hnodup
  allocated := hallocated
  ascending := hascending
  nullTree := hchanged.nullTree.trans h.nullTree

variable (hcmp : ∀ l, Consistent compar l) (h : IsTree compar M t)

include hcmp h

theorem tfind_spec : ∃ p, tfind compar key M = some p ∧
    (p = none ↔ ¬ Present compar key (keysOf t)) ∧
      ∀ n, p = some n → ∃ other, find (itemCompare compar) (0, key) t = some (n, other) := by
  cases hfind : find (itemCompare compar) (0, key) t with
  | none =>
    obtain ⟨parent, htraverse⟩ :=
      traverse_of_find_none none h.represents M.read_root h.length_lt_fuel hfind
    refine ⟨none, ?_, iff_of_true rfl ((find_eq_none_iff hcmp h 0).mp hfind), ?_⟩
    · rw [tfind, htraverse]
      exact congrArg some h.nullTree
    · rintro n ⟨⟩
  | some a =>
    obtain ⟨q, htraverse, hq⟩ :=
      traverse_of_find false none h.represents M.read_root h.length_lt_fuel hfind
    have hpresent : Present compar key (keysOf t) := by
      by_contra habsent
      rw [(find_eq_none_iff hcmp h 0).mpr habsent] at hfind
      cases hfind
    refine ⟨some a.1, ?_, iff_of_false (Option.some_ne_none _) (not_not_intro hpresent), ?_⟩
    · rw [tfind, htraverse]
      exact hq
    · rintro n heq
      obtain rfl := Option.some.inj heq
      exact ⟨a.2, rfl⟩

theorem tsearch_spec : ∃ p M' t', tsearch compar key M = some (p, M') ∧ IsTree compar M' t' ∧
    keysOf t' = (TreeOp.tsearch key).after compar (keysOf t) ∧
      (TreeOp.tsearch key).Answers compar M t p M' t' := by
  have hconsistent := itemCompare_consistent hcmp ((M.count, key) :: items t)
  cases hfind : find (itemCompare compar) (M.count, key) t with
  | some a =>
    obtain ⟨q, htraverse, hq⟩ :=
      traverse_of_find true none h.represents M.read_root h.length_lt_fuel hfind
    have hpresent : Present compar key (keysOf t) := by
      by_contra habsent
      rw [(find_eq_none_iff hcmp h M.count).mpr habsent] at hfind
      cases hfind
    refine ⟨some a.1, M, t, ?_, h, ?_, ?_, fun habsent ↦ absurd hpresent habsent⟩
    · rw [tsearch, htraverse]
      change (M.read q >>= fun p ↦ some (p, M)) = _
      rw [hq]
      rfl
    · ext other
      exact ⟨.inl, fun hor ↦ hor.elim id fun hand ↦ absurd hpresent hand.2⟩
    · intro n other hmem hzero
      obtain rfl := eq_of_find hconsistent h.ascending hfind hmem hzero
      exact ⟨rfl, rfl⟩
  | none =>
    have habsent := (find_eq_none_iff hcmp h M.count).mp hfind
    have hnew : M.count ∉ nodesOf t := fun hmem ↦ Nat.lt_irrefl _ (h.allocated _ hmem)
    obtain ⟨q, parent, M', p, htraverse, hq, hcount, hchanged, hrep⟩ :=
      traverse_insert none h.represents M.read_root h.length_lt_fuel h.nodup h.allocated
        (Link.outside_root _) rfl hfind
    have hperm : (nodesOf (Lib.SearchTree.insert (itemCompare compar) (M.count, key) t)).Perm
        (M.count :: nodesOf t) := (perm_items_insert hfind).map Prod.fst
    have htree := h.changed hchanged hrep
      (hperm.nodup_iff.mpr (List.nodup_cons.mpr ⟨hnew, h.nodup⟩))
      (by
        intro n hn
        rw [hcount]
        rcases List.mem_cons.mp (hperm.mem_iff.mp hn) with rfl | hn
        · exact Nat.lt_succ_self _
        · exact Nat.lt_succ_of_lt (h.allocated n hn))
      (ascending_insert hconsistent h.ascending)
    refine ⟨some M.count, M', _, ?_, htree, ?_, ?_, ?_⟩
    · rw [tsearch, htraverse]
      change (M'.read q >>= fun p ↦ some (p, M')) = _
      rw [hq]
      rfl
    · ext other
      rw [keysOf_insert hfind]
      exact or_congr_right (and_iff_left habsent).symm
    · intro n other hmem hzero
      exact absurd ⟨other, ⟨n, hmem⟩, hzero⟩ habsent
    · exact fun _ ↦ ⟨M.count, rfl, (perm_items_insert hfind).mem_iff.mpr List.mem_cons_self⟩

theorem tdelete_spec [DecidableEq α] {null : α}
    (hsupported : (TreeOp.tdelete key).Supported compar null M) :
    ∃ p M' t', tdelete null compar key M = some (p, M') ∧ IsTree compar M' t' ∧
      keysOf t' = (TreeOp.tdelete key).after compar (keysOf t) ∧
        (TreeOp.tdelete key).Answers compar M t p M' t' := by
  obtain ⟨n, node, htfind, hnode, hnull, hright⟩ := hsupported
  obtain ⟨p, hp, habsent, hfound⟩ : ∃ p, tfind compar key M = some p ∧ _ := tfind_spec hcmp h
  obtain rfl := Option.some.inj (hp.symm.trans htfind)
  obtain ⟨other, hfind⟩ := hfound n rfl
  have hconsistent := itemCompare_consistent hcmp ((0, key) :: items t)
  have hdelete := deletable_of_find h.represents hnode hright hfind
  obtain ⟨q, m, M', p', htraverse, hq, hunlink, hchanged, hrep⟩ :=
    traverse_delete none h.represents M.read_root h.length_lt_fuel h.nodup (Link.outside_root _)
      hdelete
  obtain ⟨q', htraverse', -⟩ :=
    traverse_of_find false none h.represents M.read_root h.length_lt_fuel hfind
  obtain ⟨rfl, hm, -⟩ : q = q' ∧ some m = some n ∧ M = M := by
    have heq := Option.some.inj (htraverse.symm.trans htraverse')
    exact ⟨congrArg (·.1) heq, congrArg (·.2.1) heq, rfl⟩
  obtain rfl := Option.some.inj hm
  have hsub : (nodesOf (delete (itemCompare compar) (0, key) t)).Sublist (nodesOf t) := by
    obtain ⟨before, a, after, -, hitems, hdeleted⟩ := items_delete hdelete
    rw [nodesOf, nodesOf, hitems, hdeleted]
    exact ((List.sublist_cons_self a after).append_left before).map Prod.fst
  refine ⟨some m, M'.free m, _, ?_, h.changed hchanged hrep (h.nodup.sublist hsub) ?_
    (ascending_delete h.ascending hdelete), ?_, ?_⟩
  · rw [tdelete, htraverse]
    simp only [Option.bind_eq_bind, Option.bind_some, hq, hnode, if_neg hnull, hunlink]
  · intro m' hm'
    exact Nat.lt_of_lt_of_le (h.allocated m' (hsub.subset hm')) hchanged.count
  · ext other
    constructor
    · rintro ⟨m', hmem⟩
      obtain ⟨hmem, hne⟩ := (mem_items_delete hconsistent h.ascending hdelete).mp hmem
      exact ⟨⟨m', hmem⟩, hne⟩
    · rintro ⟨⟨m', hmem⟩, hne⟩
      exact ⟨m', (mem_items_delete hconsistent h.ascending hdelete).mpr ⟨hmem, hne⟩⟩
  · intro hnone
    cases habsent.mpr hnone

/-- One call of a map. -/
theorem TreeOp.call_spec [DecidableEq α] {null : α} {op : TreeOp α}
    (hsupported : op.Supported compar null M) :
    ∃ p M' t', op.call compar null M = some (p, M') ∧ IsTree compar M' t' ∧
      keysOf t' = op.after compar (keysOf t) ∧ op.Answers compar M t p M' t' := by
  cases op with
  | tsearch key => exact tsearch_spec hcmp h
  | tfind key =>
    obtain ⟨p, hp, habsent, hfound⟩ : ∃ p, Web.tfind compar key M = some p ∧ _ := tfind_spec hcmp h
    refine ⟨p, M, t, ?_, h, rfl, habsent, ?_⟩
    · rw [call, hp, Option.map_some]
    · intro n hn
      obtain ⟨other, hfind⟩ := hfound n hn
      exact ⟨other, find_eq_some hfind⟩
  | tdelete key => exact tdelete_spec hcmp h hsupported

omit h

theorem TreeOp.maps_of_allSupported [DecidableEq α] {null : α} {ops : List (TreeOp α)}
    (h : IsTree compar M t) (hsupported : AllSupported compar null ops M) :
    Maps compar null ops M t := by
  induction ops generalizing M t with
  | nil => exact h
  | cons op ops ih =>
    obtain ⟨p, M', t', hcall, htree, hkeys, hanswers⟩ := call_spec hcmp h hsupported.1
    exact ⟨h, p, M', t', hcall, hkeys, hanswers, ih htree (hsupported.2 p M' hcall)⟩

/-- From an empty root, calls that are supported make the tree a map of keys. -/
theorem searchTree_maps [DecidableEq α] (null : α) (ops : List (TreeOp α))
    (hsupported : TreeOp.AllSupported compar null ops Memory.empty) :
    TreeOp.Maps compar null ops Memory.empty .nil :=
  TreeOp.maps_of_allSupported hcmp isTree_empty hsupported

omit hcmp

theorem TreeOp.allSupported_of_call [DecidableEq α] {null : α} {op : TreeOp α} {ops : List (TreeOp α)}
    {p : Option ℕ} {M' : Memory α} (hcall : op.call compar null M = some (p, M'))
    (h : AllSupported compar null ops M') :
    ∀ p M', op.call compar null M = some (p, M') → AllSupported compar null ops M' := by
  intro q M'' heq
  obtain ⟨-, rfl⟩ := Prod.mk.inj (Option.some.inj (hcall.symm.trans heq))
  exact h

/-- What calls make of memory, one after the other. -/
def TreeOp.calls [DecidableEq α] (compar : α → α → ℤ) (null : α) :
    List (TreeOp α) → Memory α → Option (Memory α)
  | [], M => some M
  | op :: ops, M => do
    let (_, M) ← op.call compar null M
    calls compar null ops M

theorem TreeOp.Maps.calls_isSome [DecidableEq α] {null : α} {ops : List (TreeOp α)}
    (h : Maps compar null ops M t) : (calls compar null ops M).isSome := by
  induction ops generalizing M t with
  | nil => rfl
  | cons op ops ih =>
    obtain ⟨-, p, M', t', hcall, -, -, hrest⟩ := h
    rw [calls, hcall]
    exact ih hrest

end

/-! ## Differences of integers -/

theorem sub_consistent (l : List ℤ) : Consistent (fun a b ↦ a - b) l where
  antisymm a _ b _ := by omega
  trans a _ b _ c _ := by omega

theorem searchTree_maps_threeKeys : TreeOp.Maps (fun a b : ℤ ↦ a - b) 0
    [.tsearch 5, .tsearch 3, .tsearch 8, .tfind 4, .tdelete 5, .tdelete 3, .tfind 8]
    Memory.empty .nil := by
  apply searchTree_maps sub_consistent 0
  refine ⟨trivial, TreeOp.allSupported_of_call rfl ⟨trivial, TreeOp.allSupported_of_call rfl
    ⟨trivial, TreeOp.allSupported_of_call rfl ⟨trivial, TreeOp.allSupported_of_call rfl ⟨?_,
    TreeOp.allSupported_of_call rfl ⟨?_, TreeOp.allSupported_of_call rfl ⟨trivial,
    TreeOp.allSupported_of_call rfl trivial⟩⟩⟩⟩⟩⟩⟩
  · refine ⟨0, _, rfl, rfl, by decide, ?_⟩
    intro r hr
    obtain rfl : 2 = r := Option.some.inj hr
    exact ⟨_, rfl, rfl⟩
  · refine ⟨1, _, rfl, rfl, by decide, ?_⟩
    rintro r ⟨⟩

/-- Of three keys, the successor of the one that is deleted has a node above it. -/
theorem not_searchTree_maps : ¬ TreeOp.Maps (fun a b : ℤ ↦ a - b) 0
    [.tsearch 5, .tsearch 8, .tsearch 7, .tdelete 5] Memory.empty .nil := by
  intro h
  have hsome := h.calls_isSome
  revert hsome
  decide

end Tenyr.Web
