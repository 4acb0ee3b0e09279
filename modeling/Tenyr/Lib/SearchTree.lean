import Mathlib.Data.Tree.Basic
import Tenyr.Lib.Searching

/-!
# Search trees

Binary trees whose items ascend from left to right by a comparison function, and what a library that
keeps its items in trees promises for `tsearch`.
-/

namespace Tenyr.Lib.SearchTree

open Searching

variable {α : Type}

/-! ## Items in order -/

/-- The items from left to right. -/
def items : BinaryTree α → List α
  | .nil => []
  | .node a left right => items left ++ a :: items right

theorem mem_items_node {a b : α} {left right : BinaryTree α} :
    b ∈ items (.node a left right) ↔ b ∈ items left ∨ b = a ∨ b ∈ items right := by
  rw [items, List.mem_append, List.mem_cons]

section

variable (cmp : α → α → ℤ)

/-- Items ascend, and no two are equal. -/
def Ascending (l : List α) : Prop := l.Pairwise fun a b ↦ cmp a b < 0

/-- The item that is equal to a key. -/
def find (key : α) : BinaryTree α → Option α
  | .nil => none
  | .node a left right =>
    if cmp key a = 0 then some a
    else if cmp key a < 0 then find key left
    else find key right

/-- The tree with a key, unless an item is equal to it. -/
def insert (key : α) : BinaryTree α → BinaryTree α
  | .nil => .node key .nil .nil
  | .node a left right =>
    if cmp key a = 0 then .node a left right
    else if cmp key a < 0 then .node a (insert key left) right
    else .node a left (insert key right)

/-- The tree with the item that is equal to a key replaced. -/
def replace (key item : α) : BinaryTree α → BinaryTree α
  | .nil => .nil
  | .node a left right =>
    if cmp key a = 0 then .node item left right
    else if cmp key a < 0 then .node a (replace key item left) right
    else .node a left (replace key item right)

/-- Two trees as one, when the second has nothing left of its root. -/
def join : BinaryTree α → BinaryTree α → BinaryTree α
  | left, .nil => left
  | left, .node a _ right => .node a left right

def Joinable : BinaryTree α → Prop
  | .nil => True
  | .node _ left _ => left = .nil

/-- The tree without the item that is equal to a key. -/
def delete (key : α) : BinaryTree α → BinaryTree α
  | .nil => .nil
  | .node a left right =>
    if cmp key a = 0 then join left right
    else if cmp key a < 0 then .node a (delete key left) right
    else .node a left (delete key right)

/-- An item is equal to the key, and what is right of it can be joined. -/
def Deletable (key : α) : BinaryTree α → Prop
  | .nil => False
  | .node a left right =>
    if cmp key a = 0 then Joinable right
    else if cmp key a < 0 then Deletable key left
    else Deletable key right

end

section

variable {cmp : α → α → ℤ} {key a : α} {left right t : BinaryTree α}

theorem ascending_node_iff : Ascending cmp (items (.node a left right)) ↔
    Ascending cmp (items left) ∧ Ascending cmp (items right) ∧ (∀ b ∈ items left, cmp b a < 0) ∧
      (∀ c ∈ items right, cmp a c < 0) ∧ ∀ b ∈ items left, ∀ c ∈ items right, cmp b c < 0 := by
  rw [items, Ascending, List.pairwise_append, List.pairwise_cons]
  constructor
  · rintro ⟨hleft, ⟨hright, hsorted⟩, hacross⟩
    exact ⟨hleft, hsorted, fun b hb ↦ hacross b hb a List.mem_cons_self, hright,
      fun b hb c hc ↦ hacross b hb c (List.mem_cons_of_mem _ hc)⟩
  · rintro ⟨hleft, hsorted, hbelow, hright, hacross⟩
    refine ⟨hleft, ⟨hright, hsorted⟩, ?_⟩
    intro b hb c hc
    rcases List.mem_cons.mp hc with rfl | hc
    · exact hbelow b hb
    · exact hacross b hb c hc

/-- Comparisons between a key and the items of a tree. -/
theorem consistent_left (h : Consistent cmp (key :: items (.node a left right))) :
    Consistent cmp (key :: items left) := by
  apply h.of_subset
  apply List.cons_subset_cons
  exact List.subset_append_left _ _

theorem consistent_right (h : Consistent cmp (key :: items (.node a left right))) :
    Consistent cmp (key :: items right) := by
  apply h.of_subset
  apply List.cons_subset_cons
  exact fun b hb ↦ List.mem_append_right _ (List.mem_cons_of_mem _ hb)

/-! ## Finding -/

theorem find_eq_some (h : find cmp key t = some a) : a ∈ items t ∧ cmp key a = 0 := by
  induction t with
  | nil => cases h
  | node b left right ihLeft ihRight =>
    rw [find] at h
    rw [mem_items_node]
    split at h
    · rename_i hzero
      obtain rfl := Option.some.inj h
      exact ⟨.inr (.inl rfl), hzero⟩
    · split at h
      · exact ⟨.inl (ihLeft h).1, (ihLeft h).2⟩
      · exact ⟨.inr (.inr (ihRight h).1), (ihRight h).2⟩

/-- Keys that are not found are not equal to any item. -/
theorem find_eq_none (hcmp : Consistent cmp (key :: items t)) (ht : Ascending cmp (items t))
    (h : find cmp key t = none) : ∀ b ∈ items t, cmp key b ≠ 0 := by
  induction t with
  | nil => exact fun b hb ↦ (List.not_mem_nil hb).elim
  | node a left right ihLeft ihRight =>
    obtain ⟨hleft, hright, hbelow, habove, _⟩ := ascending_node_iff.mp ht
    have hkey : key ∈ key :: items (.node a left right) := List.mem_cons_self
    have hitem : ∀ {b}, b ∈ items (.node a left right) → b ∈ key :: items (.node a left right) :=
      fun hb ↦ List.mem_cons_of_mem _ hb
    have ha : a ∈ items (.node a left right) := mem_items_node.mpr (.inr (.inl rfl))
    rw [find] at h
    split at h
    · cases h
    · rename_i hne
      intro b hb
      have hbmem := hitem hb
      split at h
      · rename_i hlt
        rcases mem_items_node.mp hb with hb | rfl | hb
        · exact ihLeft (consistent_left hcmp) hleft h b hb
        · exact hne
        · have hbelow' := hcmp.lt_of_lt_of_le hkey (hitem ha) hbmem hlt
            (Int.le_of_lt (habove b hb))
          omega
      · rename_i hge
        rcases mem_items_node.mp hb with hb | rfl | hb
        · have hpos : cmp a key < 0 := (hcmp.antisymm a (hitem ha) key hkey).mpr (by omega)
          have hbelow' := hcmp.lt_of_lt_of_le hbmem (hitem ha) hkey (hbelow b hb) (Int.le_of_lt hpos)
          have habove' := (hcmp.antisymm b hbmem key hkey).mp hbelow'
          omega
        · exact hne
        · exact ihRight (consistent_right hcmp) hright h b hb

theorem find_isSome_iff (hcmp : Consistent cmp (key :: items t)) (ht : Ascending cmp (items t)) :
    (find cmp key t).isSome ↔ ∃ b ∈ items t, cmp key b = 0 := by
  constructor
  · intro h
    obtain ⟨b, hb⟩ := Option.isSome_iff_exists.mp h
    exact ⟨b, find_eq_some hb⟩
  · rintro ⟨b, hb, hzero⟩
    cases hfind : find cmp key t with
    | some c => rfl
    | none => exact absurd hzero (find_eq_none hcmp ht hfind b hb)

/-- Items of an ascending tree that are equal to a key are the same item. -/
theorem eq_of_zero {b : α} (hcmp : Consistent cmp (key :: items t)) (ht : Ascending cmp (items t))
    (hb : b ∈ items t) (ha : a ∈ items t) (hbzero : cmp key b = 0) (hzero : cmp key a = 0) :
    b = a := by
  have hkey : key ∈ key :: items t := List.mem_cons_self
  have hamem : a ∈ key :: items t := List.mem_cons_of_mem _ ha
  have hbmem : b ∈ key :: items t := List.mem_cons_of_mem _ hb
  have hle : ∀ {c}, c ∈ key :: items t → cmp key c = 0 → cmp c key ≤ 0 := by
    intro c hc hzero
    have hback := hcmp.antisymm key hkey c hc
    by_contra hpos
    have hforth := hcmp.antisymm c hc key hkey
    omega
  by_contra hne
  rcases rel_or_rel ht hb ha hne with hlt | hlt
  · have hnot := hcmp.lt_of_le_of_lt hkey hbmem hamem (Int.le_of_eq hbzero) hlt
    omega
  · have hnot := hcmp.lt_of_le_of_lt hkey hamem hbmem (Int.le_of_eq hzero) hlt
    omega

theorem nodup_of_ascending (hcmp : Consistent cmp (items t)) (ht : Ascending cmp (items t)) :
    (items t).Nodup := by
  apply List.Pairwise.imp_of_mem _ ht
  rintro a b ha hb hlt rfl
  have hback := (hcmp.antisymm a ha a hb).mp hlt
  omega

/-! ## Inserting -/

theorem insert_of_find (h : find cmp key t = some a) : insert cmp key t = t := by
  induction t with
  | nil => cases h
  | node b left right ihLeft ihRight =>
    rw [find] at h
    rw [insert]
    split at h
    · rename_i hzero
      rw [if_pos hzero]
    · rename_i hne
      rw [if_neg hne]
      split at h
      · rename_i hlt
        rw [if_pos hlt, ihLeft h]
      · rename_i hge
        rw [if_neg hge, ihRight h]

theorem perm_items_insert (h : find cmp key t = none) :
    (items (insert cmp key t)).Perm (key :: items t) := by
  induction t with
  | nil => exact .refl _
  | node a left right ihLeft ihRight =>
    rw [find] at h
    rw [insert]
    split at h
    · cases h
    · rename_i hne
      rw [if_neg hne]
      split at h
      · rename_i hlt
        rw [if_pos hlt]
        exact (ihLeft h).append_right _
      · rename_i hge
        rw [if_neg hge]
        have hright : (items left ++ a :: items (insert cmp key right)).Perm
            (items left ++ a :: key :: items right) := ((ihRight h).cons a).append_left _
        have hswap : (items left ++ a :: key :: items right).Perm
            (items left ++ key :: a :: items right) := (List.Perm.swap key a _).append_left _
        exact (hright.trans hswap).trans List.perm_middle

theorem ascending_insert (hcmp : Consistent cmp (key :: items t)) (ht : Ascending cmp (items t)) :
    Ascending cmp (items (insert cmp key t)) := by
  induction t with
  | nil => exact List.pairwise_singleton _ _
  | node a left right ihLeft ihRight =>
    obtain ⟨hleft, hright, hbelow, habove, hacross⟩ := ascending_node_iff.mp ht
    have hkey : key ∈ key :: items (.node a left right) := List.mem_cons_self
    have hitem : ∀ {b}, b ∈ items (.node a left right) → b ∈ key :: items (.node a left right) :=
      fun hb ↦ List.mem_cons_of_mem _ hb
    have ha : a ∈ items (.node a left right) := mem_items_node.mpr (.inr (.inl rfl))
    -- inserting adds no other item than the key
    have hadded : ∀ {s : BinaryTree α} {b}, b ∈ items (insert cmp key s) → b = key ∨ b ∈ items s := by
      intro s b hb
      cases hfind : find cmp key s with
      | some c =>
        rw [insert_of_find hfind] at hb
        exact .inr hb
      | none => exact List.mem_cons.mp ((perm_items_insert hfind).mem_iff.mp hb)
    rw [insert]
    split
    · exact ht
    · rename_i hne
      split
      · rename_i hlt
        apply ascending_node_iff.mpr
        refine ⟨ihLeft (consistent_left hcmp) hleft, hright, ?_, habove, ?_⟩
        · intro b hb
          rcases hadded hb with rfl | hb
          · exact hlt
          · exact hbelow b hb
        · intro b hb c hc
          rcases hadded hb with rfl | hb
          · have hcmem := hitem (mem_items_node.mpr (.inr (.inr hc)))
            exact hcmp.lt_of_lt_of_le hkey (hitem ha) hcmem hlt (Int.le_of_lt (habove c hc))
          · exact hacross b hb c hc
      · rename_i hge
        have hpos : cmp a key < 0 := (hcmp.antisymm a (hitem ha) key hkey).mpr (by omega)
        apply ascending_node_iff.mpr
        refine ⟨hleft, ihRight (consistent_right hcmp) hright, hbelow, ?_, ?_⟩
        · intro c hc
          rcases hadded hc with rfl | hc
          · exact hpos
          · exact habove c hc
        · intro b hb c hc
          rcases hadded hc with rfl | hc
          · have hbmem := hitem (mem_items_node.mpr (.inl hb))
            exact hcmp.lt_of_lt_of_le hbmem (hitem ha) hkey (hbelow b hb) (Int.le_of_lt hpos)
          · exact hacross b hb c hc

/-! ## Replacing -/

theorem items_replace {item : α} (h : find cmp key t = some a) :
    ∃ before after, items t = before ++ a :: after ∧
      items (replace cmp key item t) = before ++ item :: after := by
  induction t with
  | nil => cases h
  | node b left right ihLeft ihRight =>
    rw [find] at h
    rw [replace]
    split at h
    · rename_i hzero
      obtain rfl := Option.some.inj h
      rw [if_pos hzero]
      exact ⟨items left, items right, rfl, rfl⟩
    · rename_i hne
      rw [if_neg hne]
      split at h
      · rename_i hlt
        obtain ⟨before, after, hitems, hreplaced⟩ := ihLeft h
        rw [if_pos hlt, items, items, hitems, hreplaced]
        exact ⟨before, after ++ b :: items right, by simp, by simp⟩
      · rename_i hge
        obtain ⟨before, after, hitems, hreplaced⟩ := ihRight h
        rw [if_neg hge, items, items, hitems, hreplaced]
        exact ⟨items left ++ b :: before, after, by simp, by simp⟩

end

/-! ## Deleting -/

section

variable {cmp : α → α → ℤ} {key : α} {left right t : BinaryTree α}

theorem items_join (h : Joinable right) : items (join left right) = items left ++ items right := by
  cases right with
  | nil => exact (List.append_nil _).symm
  | node a before after =>
    obtain rfl : before = .nil := h
    rfl

theorem items_delete (h : Deletable cmp key t) :
    ∃ before a after, cmp key a = 0 ∧ items t = before ++ a :: after ∧
      items (delete cmp key t) = before ++ after := by
  induction t with
  | nil => exact h.elim
  | node b left right ihLeft ihRight =>
    rw [Deletable] at h
    rw [delete]
    split at h
    · rename_i hzero
      rw [if_pos hzero]
      exact ⟨items left, b, items right, hzero, rfl, items_join h⟩
    · rename_i hne
      rw [if_neg hne]
      split at h
      · rename_i hlt
        obtain ⟨before, a, after, hzero, hitems, hdeleted⟩ := ihLeft h
        rw [if_pos hlt, items, items, hitems, hdeleted]
        exact ⟨before, a, after ++ b :: items right, hzero, by simp, by simp⟩
      · rename_i hge
        obtain ⟨before, a, after, hzero, hitems, hdeleted⟩ := ihRight h
        rw [if_neg hge, items, items, hitems, hdeleted]
        exact ⟨items left ++ b :: before, a, after, hzero, by simp, by simp⟩

theorem mem_items_delete {b : α} (hcmp : Consistent cmp (key :: items t))
    (ht : Ascending cmp (items t)) (h : Deletable cmp key t) :
    b ∈ items (delete cmp key t) ↔ b ∈ items t ∧ cmp key b ≠ 0 := by
  obtain ⟨before, a, after, hzero, hitems, hdeleted⟩ := items_delete h
  have hnodup := nodup_of_ascending (hcmp.of_subset (List.subset_cons_self _ _)) ht
  rw [hitems, List.perm_middle.nodup_iff, List.nodup_cons] at hnodup
  have hsplit : ∀ {c}, c ∈ items t ↔ c = a ∨ c ∈ before ++ after := by
    intro c
    rw [hitems, List.mem_append, List.mem_append, List.mem_cons]
    tauto
  have ha : a ∈ items t := hsplit.mpr (.inl rfl)
  rw [hdeleted]
  constructor
  · intro hb
    have hmem : b ∈ items t := hsplit.mpr (.inr hb)
    refine ⟨hmem, ?_⟩
    intro hbzero
    obtain rfl := eq_of_zero hcmp ht hmem ha hbzero hzero
    exact hnodup.1 hb
  · rintro ⟨hb, hne⟩
    rcases hsplit.mp hb with rfl | hb
    · exact absurd hzero hne
    · exact hb

theorem ascending_delete (ht : Ascending cmp (items t)) (h : Deletable cmp key t) :
    Ascending cmp (items (delete cmp key t)) := by
  obtain ⟨before, a, after, -, hitems, hdeleted⟩ := items_delete h
  have hsub : (items (delete cmp key t)).Sublist (items t) := by
    rw [hitems, hdeleted]
    exact (List.sublist_cons_self a after).append_left before
  exact List.Pairwise.sublist hsub ht

end

/-! ## Libraries -/

/-- `tsearch` of a library on the trees that a root leads to. It answers with the item in the place that
its result points to, and `assign` writes an item to that place. -/
structure TreeSearch (α : Type) where
  Tree : Type
  null : Tree
  contents : Tree → List α
  tsearch : (α → α → ℤ) → α → Tree → α × Tree
  assign : (α → α → ℤ) → α → α → Tree → Tree

/-- For a consistent comparison function the tree is an ordered map. -/
structure TreeSearch.OrderedMap (lib : TreeSearch α) : Prop where
  null : lib.contents lib.null = []
  found : ∀ cmp key a t, Consistent cmp (key :: lib.contents t) → Ascending cmp (lib.contents t) →
    a ∈ lib.contents t → cmp key a = 0 → lib.tsearch cmp key t = (a, t)
  inserted : ∀ cmp key t, Consistent cmp (key :: lib.contents t) → Ascending cmp (lib.contents t) →
    (∀ a ∈ lib.contents t, cmp key a ≠ 0) →
      (lib.tsearch cmp key t).1 = key ∧ Ascending cmp (lib.contents (lib.tsearch cmp key t).2) ∧
        (lib.contents (lib.tsearch cmp key t).2).Perm (key :: lib.contents t)
  assigned : ∀ cmp key a item t, Consistent cmp (key :: lib.contents t) →
    Ascending cmp (lib.contents t) → a ∈ lib.contents t → cmp key a = 0 →
      ∃ before after, lib.contents t = before ++ a :: after ∧
        lib.contents (lib.assign cmp key item t) = before ++ item :: after

/-- Trees that are not balanced. -/
def binaryTreeSearch (α : Type) : TreeSearch α where
  Tree := BinaryTree α
  null := .nil
  contents := items
  tsearch cmp key t := ((find cmp key t).getD key, insert cmp key t)
  assign := replace

theorem eq_of_find {cmp : α → α → ℤ} {key a b : α} {t : BinaryTree α}
    (hcmp : Consistent cmp (key :: items t)) (ht : Ascending cmp (items t))
    (hfind : find cmp key t = some b) (ha : a ∈ items t) (hzero : cmp key a = 0) : b = a :=
  eq_of_zero hcmp ht (find_eq_some hfind).1 ha (find_eq_some hfind).2 hzero

theorem binaryTreeSearch_orderedMap (α : Type) : (binaryTreeSearch α).OrderedMap where
  null := rfl
  found cmp key a t hcmp ht ha hzero := by
    change ((find cmp key t).getD key, insert cmp key t) = (a, t)
    cases hfind : find cmp key t with
    | none => exact absurd hzero (find_eq_none hcmp ht hfind a ha)
    | some b =>
      obtain rfl := eq_of_find hcmp ht hfind ha hzero
      exact Prod.ext rfl (insert_of_find hfind)
  inserted cmp key t hcmp ht hnone := by
    have hfind : find cmp key t = none := by
      cases hfind : find cmp key t with
      | none => rfl
      | some b => exact absurd (find_eq_some hfind).2 (hnone b (find_eq_some hfind).1)
    refine ⟨?_, ascending_insert hcmp ht, perm_items_insert hfind⟩
    change (find cmp key t).getD key = key
    rw [hfind, Option.getD_none]
  assigned cmp key a item t hcmp ht ha hzero := by
    cases hfind : find cmp key t with
    | none => exact absurd hzero (find_eq_none hcmp ht hfind a ha)
    | some b =>
      obtain rfl := eq_of_find hcmp ht hfind ha hzero
      exact items_replace hfind

end Tenyr.Lib.SearchTree
