import Tenyr.Asm.Meaning
import Mathlib.Tactic.Ring

/-!
# Linear expressions

Sums and differences change by the signed changes of the addresses in them.
-/

namespace Tenyr.Asm.ConstExpr

open Isa

variable {ρ : Type}

/-- Sums and differences of constants, references and `.`. -/
def Linear : ConstExpr ρ → Prop
  | ref _ _ | ici | imm _ _ => True
  | paren e => e.Linear
  | op1 _ left => left.leaves false = []
  | op2 op left right =>
      ((op = .add ∨ op = .sub) ∧ left.Linear ∧ right.Linear) ∨
        (left.leaves false = [] ∧ right.leaves false = [])

/-- Whether a leaf occurs does not depend on the sign. -/
theorem leaves_eq_nil_iff (e : ConstExpr ρ) (negate negate' : Bool) :
    e.leaves negate = [] ↔ e.leaves negate' = [] := by
  induction e generalizing negate negate' with
  | ref isExternal r => simp [leaves]
  | ici => simp [leaves]
  | imm i isBits => rfl
  | paren e ih => exact ih negate negate'
  | op1 op left ih => exact ih negate negate'
  | op2 op left right ihLeft ihRight =>
    simp only [leaves, List.append_eq_nil_iff]
    rw [ihLeft negate negate', ihRight (if op = .sub then !negate else negate)
      (if op = .sub then !negate' else negate')]

/-- A constant has one value. -/
theorem value_of_leaves_eq_nil (undef : UndefinedShifts) {e : ConstExpr ρ} {negate : Bool}
    (h : e.leaves negate = []) (here here' : Word) (f f' : ρ → Except Stop Word) :
    e.value undef here f = e.value undef here' f' := by
  induction e generalizing negate with
  | ref isExternal r => cases h
  | ici => cases h
  | imm i isBits => rfl
  | paren e ih => exact ih h
  | op1 op left ih => rw [value, value, ih h]
  | op2 op left right ihLeft ihRight =>
    obtain ⟨hleft, hright⟩ := List.append_eq_nil_iff.mp h
    rw [value, value, ihLeft hleft, ihRight hright]

/-- By how much a leaf changes the sum it is in. -/
def leafShift (delta : Word) (change : ρ → Word) (leaf : ConstExpr ρ × Bool) : Word :=
  let w := match leaf.1 with
    | .ref _ r => change r
    | .ici | .imm _ _ | .paren _ | .op1 _ _ | .op2 _ _ _ => delta
  if leaf.2 then -w else w

/-- A linear expression changes by the signed changes of its leaves. -/
theorem Linear.value_add (undef : UndefinedShifts) {e : ConstExpr ρ} (hlinear : e.Linear)
    {here here' : Word} {f f' : ρ → Word} {v : Word} (negate : Bool)
    (h : e.value undef here (fun r ↦ .ok (f r)) = .ok v) :
    ∃ w, e.value undef here' (fun r ↦ .ok (f' r)) = .ok (v + w) ∧
      ((e.leaves negate).map (leafShift (here' - here) fun r ↦ f' r - f r)).sum =
        if negate then -w else w := by
  induction e generalizing v negate with
  | ref isExternal r =>
    obtain rfl := Except.ok.inj h
    refine ⟨f' r - f r, ?_, ?_⟩
    · rw [value, BitVec.add_comm, BitVec.sub_add_cancel]
    · simp [leaves, leafShift]
  | ici =>
    obtain rfl := Except.ok.inj h
    refine ⟨here' - here, ?_, ?_⟩
    · rw [value, BitVec.add_comm, BitVec.sub_add_cancel]
    · simp [leaves, leafShift]
  | imm i isBits =>
    obtain rfl := Except.ok.inj h
    refine ⟨0#32, ?_, ?_⟩
    · rw [value, BitVec.add_zero]
    · cases negate <;> simp [leaves]
  | paren e ih => exact ih hlinear negate h
  | op1 op left ih =>
    have hnil : (op1 op left).leaves negate = [] := (leaves_eq_nil_iff _ false negate).mp hlinear
    refine ⟨0#32, ?_, ?_⟩
    · rw [value_of_leaves_eq_nil undef hnil here' here _ fun r ↦ .ok (f r), h, BitVec.add_zero]
    · rw [hnil]
      cases negate <;> simp
  | op2 op left right ihLeft ihRight =>
    rcases hlinear with ⟨hop, hleft, hright⟩ | ⟨hleft, hright⟩
    · rw [value, bind_eq_ok] at h
      obtain ⟨leftValue, hl, h⟩ := h
      rw [bind_eq_ok] at h
      obtain ⟨rightValue, hr, h⟩ := h
      rcases hop with rfl | rfl
      · obtain ⟨wl, hl', hsuml⟩ := ihLeft hleft negate hl
        obtain ⟨wr, hr', hsumr⟩ := ihRight hright negate hr
        obtain rfl := Except.ok.inj h
        refine ⟨wl + wr, ?_, ?_⟩
        · rw [value, hl', hr']
          change Except.ok _ = Except.ok _
          congr 1
          ring
        · rw [leaves, List.map_append, List.sum_append, hsuml]
          change _ + (List.map _ (right.leaves negate)).sum = _
          rw [hsumr]
          cases negate
          · rfl
          · simp only [if_true]
            ring
      · obtain ⟨wl, hl', hsuml⟩ := ihLeft hleft negate hl
        obtain ⟨wr, hr', hsumr⟩ := ihRight hright (!negate) hr
        obtain rfl := Except.ok.inj h
        refine ⟨wl - wr, ?_, ?_⟩
        · rw [value, hl', hr']
          change Except.ok _ = Except.ok _
          congr 1
          ring
        · rw [leaves, List.map_append, List.sum_append, hsuml]
          change _ + (List.map _ (right.leaves (!negate))).sum = _
          rw [hsumr]
          cases negate
          · simp only [Bool.not_false, if_true, Bool.false_eq_true, if_false]
            ring
          · simp only [if_true, Bool.not_true, Bool.false_eq_true, if_false]
            ring
    · have hnil : (op2 op left right).leaves negate = [] := by
        rw [leaves, (leaves_eq_nil_iff left false negate).mp hleft,
          (leaves_eq_nil_iff right false _).mp hright]
        rfl
      refine ⟨0#32, ?_, ?_⟩
      · rw [value_of_leaves_eq_nil undef hnil here' here _ fun r ↦ .ok (f r), h, BitVec.add_zero]
      · rw [hnil]
        cases negate <;> simp

end Tenyr.Asm.ConstExpr
