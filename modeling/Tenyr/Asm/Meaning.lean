import Tenyr.Asm.Assembled

/-!
# What expressions mean

The value of an expression under given values of its references and of `.`, and the places where these
occur, each with the sign that the subtractions around it give it. Evaluation with relocation is the
two together: the value under the values of the leaves, and the relocations of the leaves in order.
-/

namespace Tenyr.Asm

open Isa Obj

namespace ConstExpr

variable {ρ : Type}

/-- The value under values of `.` and of the references. -/
def value (undef : UndefinedShifts) (here : Word) (refs : ρ → Except Stop Word) :
    ConstExpr ρ → Except Stop Word
  | ref _ r => refs r
  | ici => .ok here
  | imm i _ => .ok i
  | paren e => e.value undef here refs
  | op1 op left => (left.value undef here refs).map op.apply
  | op2 op left right => do
    let leftValue ← left.value undef here refs
    let rightValue ← right.value undef here refs
    op.apply undef leftValue rightValue

/-- The references and `.`, and whether `RHS_NEGATE` is set where they occur. -/
def leaves (negate : Bool) : ConstExpr ρ → List (ConstExpr ρ × Bool)
  | ref isExternal r => [(.ref isExternal r, negate)]
  | ici => [(.ici, negate)]
  | imm _ _ => []
  | paren e => e.leaves negate
  | op1 _ left => left.leaves negate
  | op2 op left right =>
      left.leaves negate ++ right.leaves (if op = .sub then !negate else negate)

/-- The references. -/
def refs : ConstExpr ρ → List ρ
  | ref _ r => [r]
  | ici | imm _ _ => []
  | paren e => e.refs
  | op1 _ left => left.refs
  | op2 _ left right => left.refs ++ right.refs

/-- Only the values of references that occur matter. -/
theorem value_congr (undef : UndefinedShifts) (here : Word) {f g : ρ → Except Stop Word}
    {e : ConstExpr ρ} (h : ∀ r ∈ e.refs, f r = g r) :
    e.value undef here f = e.value undef here g := by
  induction e with
  | ref isExternal r => exact h r (List.mem_singleton_self r)
  | ici => rfl
  | imm i isBits => rfl
  | paren e ih => exact ih h
  | op1 op left ih => rw [value, value, ih h]
  | op2 op left right ihLeft ihRight =>
    rw [value, value, ihLeft fun r hr ↦ h r (List.mem_append_left _ hr),
      ihRight fun r hr ↦ h r (List.mem_append_right _ hr)]

theorem mem_refs_iff {e : ConstExpr ρ} {r : ρ} (negate : Bool) :
    r ∈ e.refs ↔ ∃ isExternal negate', (ConstExpr.ref isExternal r, negate') ∈ e.leaves negate := by
  induction e generalizing negate with
  | ref isExternal r' => simp [refs, leaves]
  | ici => simp [refs, leaves]
  | imm i isBits => simp [refs, leaves]
  | paren e ih => exact ih negate
  | op1 op left ih => exact ih negate
  | op2 op left right ihLeft ihRight =>
    rw [refs, List.mem_append, ihLeft negate, ihRight (if op = .sub then !negate else negate)]
    simp only [leaves, List.mem_append]
    constructor
    · rintro (⟨isExternal, negate', h⟩ | ⟨isExternal, negate', h⟩)
      · exact ⟨isExternal, negate', .inl h⟩
      · exact ⟨isExternal, negate', .inr h⟩
    · rintro ⟨isExternal, negate', h | h⟩
      · exact .inl ⟨isExternal, negate', h⟩
      · exact .inr ⟨isExternal, negate', h⟩

end ConstExpr

/-! ## Evaluation with relocation -/

/-- Two ways of describing an evaluation that agree on its value. -/
theorem map_fst_eq_iff {ε α β : Type} {x : Except ε (Option α × β)} {y : Except ε α} :
    x.map Prod.fst = y.map some ↔
      (∃ stop, x = .error stop ∧ y = .error stop) ∨
        ∃ v relocs, x = .ok (some v, relocs) ∧ y = .ok v := by
  constructor
  · intro h
    cases x with
    | error stop =>
      cases y with
      | error stop' =>
        obtain rfl := Except.error.inj h
        exact .inl ⟨stop, rfl, rfl⟩
      | ok v => cases h
    | ok result =>
      cases y with
      | error stop => cases h
      | ok v =>
        obtain ⟨value, relocs⟩ := result
        obtain rfl : value = some v := Except.ok.inj h
        exact .inr ⟨v, relocs, rfl, rfl⟩
  · rintro (⟨stop, rfl, rfl⟩ | ⟨v, relocs, rfl, rfl⟩)
    · rfl
    · rfl

/-- With relocation, evaluation is complete, and its value depends neither on the sign nor on the
width that go into relocations. -/
structure Evaluator.Uniform (sub : Evaluator) : Prop where
  complete : ∀ context negate width e value relocs,
    sub context { relocate := true, negate } width e = .ok (value, relocs) → value.isSome
  value_eq : ∀ context negate negate' width width' e,
    (sub context { relocate := true, negate } width e).map Prod.fst =
      (sub context { relocate := true, negate := negate' } width' e).map Prod.fst

section

variable (undef : UndefinedShifts) (env : Env) (sub : Evaluator)

/-- The value a reference is evaluated to. -/
def refValue (r : Ref) : Except Stop Word :=
  (ceEvalWith undef env sub none { relocate := true, negate := false } 0 (.ref false r)).map
    fun result ↦ result.1.getD 0#32

/-- The value of `.` -/
def hereValue (context : Option ℕ) : Word := (context.map env.reladdr).getD 0#32

/-- The relocations that evaluating a leaf adds. -/
def leafRelocs (context : Option ℕ) (width : ℕ) (leaf : ConstExpr Ref × Bool) : List RelocNode :=
  match ceEvalWith undef env sub context { relocate := true, negate := leaf.2 } width leaf.1 with
  | .ok (_, relocs) => relocs
  | .error _ => []

variable {undef env sub}

theorem contextAt_of_phantom (hphantom : env.phantom = true) (k : ℕ) :
    env.contextAt k = some (if k < env.reladdrs.length then some k else none) := by
  unfold Env.contextAt
  rw [if_pos hphantom]
  split <;> rfl

/-- The value of a reference, whatever the context, sign and width. -/
theorem ceEvalWith_ref (hphantom : env.phantom = true) (hsub : sub.Uniform)
    (context : Option ℕ) (negate : Bool) (width : ℕ) (isExternal : Bool) (r : Ref) :
    (ceEvalWith undef env sub context { relocate := true, negate } width (.ref isExternal r)).map
        Prod.fst = (refValue undef env sub r).map some := by
  unfold refValue
  simp only [ceEvalWith]
  cases env.boundSet r with
  | some set =>
    obtain ⟨s, ce⟩ := set
    simp only [contextAt_of_phantom hphantom]
    generalize (if s.place < env.reladdrs.length then some s.place else none) = dc
    have hvalue := hsub.value_eq dc negate false width 0 ce
    cases hright : sub dc { relocate := true, negate := false } 0 ce with
    | error stop =>
      rw [hright] at hvalue
      cases hleft : sub dc { relocate := true, negate } width ce with
      | error stop' =>
        rw [hleft] at hvalue
        obtain rfl := Except.error.inj hvalue
        rfl
      | ok result =>
        rw [hleft] at hvalue
        cases hvalue
    | ok result =>
      obtain ⟨value, relocs⟩ := result
      obtain ⟨word, rfl⟩ := Option.isSome_iff_exists.mp (hsub.complete _ _ _ _ _ _ hright)
      rw [hright] at hvalue
      rcases map_fst_eq_iff.mp (hvalue.trans (show _ = Except.map some (.ok word) from rfl)) with
        ⟨stop, _, hstop⟩ | ⟨v, relocs', hleft, hv⟩
      · cases hstop
      · obtain rfl := Except.ok.inj hv
        rw [hleft]
        rfl
  | none =>
    simp only [if_true]
    cases symbolLookup env sub (env.refName r) with
    | error stop => rfl
    | ok found => rfl

/-- The value of an expression is its value under the values of its references. -/
theorem ceEvalWith_value (hphantom : env.phantom = true) (hsub : sub.Uniform)
    (context : Option ℕ) (negate : Bool) (width : ℕ) (e : ConstExpr Ref) :
    (ceEvalWith undef env sub context { relocate := true, negate } width e).map Prod.fst =
      (e.value undef (hereValue env context) (refValue undef env sub)).map some := by
  induction e generalizing negate with
  | ref isExternal r => exact ceEvalWith_ref hphantom hsub context negate width isExternal r
  | ici =>
    simp only [ceEvalWith, if_true]
    rfl
  | imm i isBits => rfl
  | paren e ih => exact ih negate
  | op1 op left ih =>
    rw [ceEvalWith, ConstExpr.value]
    rcases map_fst_eq_iff.mp (ih negate) with ⟨stop, heval, hvalue⟩ | ⟨v, relocs, heval, hvalue⟩
    · rw [heval, hvalue]
      rfl
    · rw [heval, hvalue]
      rfl
  | op2 op left right ihLeft ihRight =>
    rw [ceEvalWith, ConstExpr.value]
    rcases map_fst_eq_iff.mp (ihLeft negate) with
      ⟨stop, heval, hvalue⟩ | ⟨leftValue, relocs, heval, hvalue⟩
    · rw [heval, hvalue]
      rfl
    · rw [heval, hvalue]
      simp only [bind, Except.bind]
      have hflags : (if op = .sub then { relocate := true, negate := !negate }
          else ({ relocate := true, negate } : EvalFlags)) =
          { relocate := true, negate := if op = .sub then !negate else negate } := by
        split <;> rfl
      rw [hflags]
      rcases map_fst_eq_iff.mp (ihRight (if op = .sub then !negate else negate)) with
        ⟨stop, heval', hvalue'⟩ | ⟨rightValue, relocs', heval', hvalue'⟩
      · rw [heval', hvalue']
        rfl
      · rw [heval', hvalue']
        dsimp only
        cases op.apply undef leftValue rightValue <;> rfl

/-- The relocations of an expression are those of its leaves. -/
theorem ceEvalWith_relocs (hphantom : env.phantom = true) (hsub : sub.Uniform)
    (context : Option ℕ) {negate : Bool} {width : ℕ} {e : ConstExpr Ref} {value : Option Word}
    {relocs : List RelocNode}
    (h : ceEvalWith undef env sub context { relocate := true, negate } width e =
      .ok (value, relocs)) :
    relocs = (e.leaves negate).flatMap (leafRelocs undef env sub context width) ∧
      ∀ leaf ∈ e.leaves negate, ∃ value',
        ceEvalWith undef env sub context { relocate := true, negate := leaf.2 } width leaf.1 =
          .ok (value', leafRelocs undef env sub context width leaf) := by
  induction e generalizing negate value relocs with
  | ref isExternal r => simp [ConstExpr.leaves, leafRelocs, h]
  | ici => simp [ConstExpr.leaves, leafRelocs, h]
  | imm i isBits =>
    obtain ⟨_, rfl⟩ := Prod.mk.inj (Except.ok.inj h)
    exact ⟨rfl, fun _ hleaf ↦ (List.not_mem_nil hleaf).elim⟩
  | paren e ih => exact ih h
  | op1 op left ih =>
    rw [ceEvalWith, bind_eq_ok] at h
    obtain ⟨⟨value', relocs'⟩, hleft, h⟩ := h
    obtain ⟨_, rfl⟩ := Prod.mk.inj (Except.ok.inj h)
    exact ih hleft
  | op2 op left right ihLeft ihRight =>
    rw [ceEvalWith, bind_eq_ok] at h
    obtain ⟨⟨leftValue, leftRelocs⟩, hleft, h⟩ := h
    have hcomplete := @ceEvalWith_value undef env sub hphantom hsub context negate width left
    rw [hleft] at hcomplete
    rcases map_fst_eq_iff.mp hcomplete with ⟨stop, herror, _⟩ | ⟨v, relocs₁, hok, _⟩
    · cases herror
    · obtain ⟨rfl, _⟩ := Prod.mk.inj (Except.ok.inj hok)
      have hflags : (if op = .sub then { relocate := true, negate := !negate }
          else ({ relocate := true, negate } : EvalFlags)) =
          { relocate := true, negate := if op = .sub then !negate else negate } := by
        split <;> rfl
      simp only [hflags] at h
      rw [bind_eq_ok] at h
      obtain ⟨⟨rightValue, rightRelocs⟩, hright, h⟩ := h
      obtain ⟨hleftRelocs, hleftLeaves⟩ := ihLeft hleft
      obtain ⟨hrightRelocs, hrightLeaves⟩ := ihRight hright
      refine ⟨?_, fun leaf hleaf ↦ (List.mem_append.mp hleaf).elim (hleftLeaves leaf) (hrightLeaves leaf)⟩
      rw [ConstExpr.leaves, List.flatMap_append, ← hleftRelocs, ← hrightRelocs]
      cases rightValue with
      | none =>
        obtain ⟨_, rfl⟩ := Prod.mk.inj (Except.ok.inj h)
        rfl
      | some rightValue =>
        dsimp only at h
        rw [bind_eq_ok] at h
        obtain ⟨word, _, h⟩ := h
        obtain ⟨_, rfl⟩ := Prod.mk.inj (Except.ok.inj h)
        rfl

/-- Evaluation with a uniform evaluator for symbols is uniform. -/
theorem uniform_ceEvalWith (hphantom : env.phantom = true) (hsub : sub.Uniform) :
    Evaluator.Uniform fun context flags width e ↦ ceEvalWith undef env sub context flags width e where
  complete context negate width e value relocs h := by
    have hvalue := @ceEvalWith_value undef env sub hphantom hsub context negate width e
    rw [h] at hvalue
    rcases map_fst_eq_iff.mp hvalue with ⟨stop, herror, _⟩ | ⟨v, relocs₁, hok, _⟩
    · cases herror
    · rw [(Prod.mk.inj (Except.ok.inj hok)).1]
      rfl
  value_eq context negate negate' width width' e := by
    rw [ceEvalWith_value hphantom hsub, ceEvalWith_value hphantom hsub]

variable (undef env)

/-- The evaluator that evaluation uses for the expressions of symbols. -/
def symbolEvaluator : ℕ → Evaluator
  | 0 => fun _ _ _ _ ↦ .error .stackOverflow
  | fuel + 1 => ceEval undef env fuel

theorem ceEval_eq (fuel : ℕ) :
    ceEval undef env fuel = ceEvalWith undef env (symbolEvaluator undef env fuel) := by
  cases fuel <;> rfl

variable {env}

theorem uniform_ceEval (hphantom : env.phantom = true) (fuel : ℕ) :
    (ceEval undef env fuel).Uniform := by
  induction fuel with
  | zero =>
    apply uniform_ceEvalWith hphantom
    refine ⟨?_, fun _ _ _ _ _ _ ↦ rfl⟩
    rintro context negate width e value relocs ⟨⟩
  | succ fuel ih => exact uniform_ceEvalWith hphantom ih

theorem uniform_symbolEvaluator (hphantom : env.phantom = true) (fuel : ℕ) :
    (symbolEvaluator undef env fuel).Uniform := by
  cases fuel with
  | zero =>
    refine ⟨?_, fun _ _ _ _ _ _ ↦ rfl⟩
    rintro context negate width e value relocs ⟨⟩
  | succ fuel => exact uniform_ceEval undef hphantom fuel

end

end Tenyr.Asm
