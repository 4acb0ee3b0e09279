import Mathlib.Logic.Function.Basic
import Mathlib.Data.List.Nodup
import Mathlib.Data.Nat.Notation

/-!
# Linked lists

Cells of a memory in which each has a link to the next one, if there is one.
-/

namespace Tenyr.Lib.LinkedList

variable {α : Type}

/-- The cells that a link leads through are those of a list. -/
def Linked (next : α → Option α) : Option α → List α → Prop
  | link, [] => link = none
  | link, a :: rest => link = some a ∧ Linked next (next a) rest

/-- The cells from a link on; nothing when there are more than `fuel`. -/
def walk (next : α → Option α) : ℕ → Option α → Option (List α)
  | _, none => some []
  | 0, some _ => none
  | fuel + 1, some a => (walk next fuel (next a)).map fun rest ↦ a :: rest

section

variable {next next' : α → Option α} {link : Option α} {cells : List α}

theorem Linked.walk_eq (h : Linked next link cells) {fuel : ℕ} (hfuel : cells.length ≤ fuel) :
    walk next fuel link = some cells := by
  induction cells generalizing link fuel with
  | nil =>
    obtain rfl := h
    cases fuel <;> rfl
  | cons a rest ih =>
    obtain ⟨rfl, hrest⟩ := h
    cases fuel with
    | zero => cases hfuel
    | succ fuel =>
      rw [walk, ih hrest (Nat.le_of_succ_le_succ hfuel)]
      rfl

/-- Links of other cells do not matter. -/
theorem Linked.congr (h : Linked next link cells) (hsame : ∀ a ∈ cells, next' a = next a) :
    Linked next' link cells := by
  induction cells generalizing link with
  | nil => exact h
  | cons a rest ih =>
    obtain ⟨rfl, hrest⟩ := h
    refine ⟨rfl, ?_⟩
    rw [hsame a List.mem_cons_self]
    exact ih hrest fun b hb ↦ hsame b (List.mem_cons_of_mem _ hb)

/-- Changing the link of one cell replaces what is behind it. -/
theorem Linked.relink {before after cells' : List α} {a : α} {link' : Option α}
    (h : Linked next link (before ++ a :: after)) (hsame : ∀ b ∈ before, next' b = next b)
    (hlink : next' a = link') (h' : Linked next' link' cells') :
    Linked next' link (before ++ a :: cells') := by
  induction before generalizing link with
  | nil =>
    obtain ⟨rfl, -⟩ := h
    refine ⟨rfl, ?_⟩
    rwa [hlink]
  | cons b rest ih =>
    obtain ⟨rfl, hrest⟩ := h
    refine ⟨rfl, ?_⟩
    rw [hsame b List.mem_cons_self]
    exact ih hrest fun c hc ↦ hsame c (List.mem_cons_of_mem _ hc)

end

end Tenyr.Lib.LinkedList
