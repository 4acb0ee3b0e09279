import Tenyr.Asm.SetSymbols

/-!
# Expressions that cannot be evaluated

Evaluation crashes where it divides the least integer by -1, and where it has no room on the stack for
one more `.set` definition. Which expressions come to that depends on what evaluation finds for their
references: while its statement is parsed, for a `.set` directive, and in an element.
-/

namespace Tenyr.Asm

open Isa Obj

/-! ## Evaluation without relocations -/

/-- The crashes that evaluation can come to. -/
def Stop.IsCrash (stop : Stop) : Prop := stop = .divideTrap ∨ stop = .stackOverflow

theorem map_eq_error {ε α β : Type} {x : Except ε α} {f : α → β} {stop : ε} :
    x.map f = .error stop ↔ x = .error stop := by
  cases x with
  | error stop' =>
    constructor
    · intro h
      rw [Except.error.inj h]
    · intro h
      rw [Except.error.inj h]
      rfl
  | ok a =>
    constructor
    · rintro ⟨⟩
    · rintro ⟨⟩

/-- The value does not depend on what goes into relocations only. -/
def Evaluator.Steady (sub : Evaluator) : Prop :=
  ∀ context relocate negate negate' width width' e,
    (sub context { relocate, negate } width e).map Prod.fst =
      (sub context { relocate, negate := negate' } width' e).map Prod.fst

section

variable (undef : UndefinedShifts) (env : Env) (sub : Evaluator)

/-- What an expression is evaluated to, if it can be yet. -/
def plainEval (relocate : Bool) (context : Option ℕ) (e : ConstExpr Ref) : Except Stop (Option Word) :=
  (ceEvalWith undef env sub context { relocate, negate := false } 0 e).map Prod.fst

variable {undef env sub}

theorem ceEvalWith_op2_fst (context : Option ℕ) (relocate negate : Bool) (width : ℕ) (op : BinaryOp)
    (left right : ConstExpr Ref) :
    (ceEvalWith undef env sub context { relocate, negate } width (.op2 op left right)).map Prod.fst =
      ((ceEvalWith undef env sub context { relocate, negate } width left).map Prod.fst).bind fun
        | none => .ok none
        | some a => ((ceEvalWith undef env sub context
            { relocate, negate := if op = .sub then !negate else negate } width right).map
              Prod.fst).bind fun
          | none => .ok none
          | some b => (op.apply undef a b).map some := by
  have hflags : (if op = .sub then { relocate, negate := !negate } else ({ relocate, negate } : EvalFlags)) =
      { relocate, negate := if op = .sub then !negate else negate } := by
    split <;> rfl
  rw [ceEvalWith, hflags]
  rcases ceEvalWith undef env sub context { relocate, negate } width left with stop | ⟨_ | a, relocs⟩
  · rfl
  · rfl
  · simp only [bind, Except.bind, Except.map]
    generalize ceEvalWith undef env sub context
      { relocate, negate := if op = .sub then !negate else negate } width right = evaluated
    rcases evaluated with stop | ⟨_ | b, relocs'⟩
    · rfl
    · rfl
    · dsimp only
      cases op.apply undef a b <;> rfl

theorem ceEvalWith_fst (hsub : sub.Steady) (context : Option ℕ) (relocate negate : Bool) (width : ℕ)
    (e : ConstExpr Ref) :
    (ceEvalWith undef env sub context { relocate, negate } width e).map Prod.fst =
      plainEval undef env sub relocate context e := by
  unfold plainEval
  induction e generalizing negate width with
  | ref isExternal r =>
    simp only [ceEvalWith]
    split
    · split
      · rfl
      · rename_i s ce _ _ dc _
        have hvalue := hsub dc relocate negate false width 0 ce
        generalize sub dc { relocate, negate } width ce = x at hvalue ⊢
        generalize sub dc { relocate, negate := false } 0 ce = y at hvalue ⊢
        rcases x with stop | ⟨value, relocs⟩
        · rw [map_eq_error.mp hvalue.symm]
          rfl
        · rcases y with stop | ⟨value', relocs'⟩
          · cases hvalue
          · obtain rfl : value = value' := Except.ok.inj hvalue
            cases value with
            | some value => rfl
            | none =>
              simp only [bind, Except.bind]
              split <;> rfl
    · cases symbolLookup env sub (env.refName r) with
      | error stop => rfl
      | ok found =>
        simp only [bind, Except.bind]
        split <;> rfl
  | ici =>
    simp only [ceEvalWith]
    split <;> rfl
  | imm i isBits => rfl
  | paren e ih => exact ih negate width
  | op1 op left ih =>
    have hmap : ∀ x : Eval, (x >>= fun result ↦ (.ok (result.1.map op.apply, result.2) : Eval)).map Prod.fst =
        (x.map Prod.fst).map (Option.map op.apply) := by
      intro x
      cases x <;> rfl
    simp only [ceEvalWith]
    rw [hmap, hmap, ih negate width]
  | op2 op left right ihLeft ihRight =>
    rw [ceEvalWith_op2_fst, ceEvalWith_op2_fst, ihLeft negate width,
      ihRight (if op = .sub then !negate else negate) width, ihRight (if op = .sub then !false else false) 0]

theorem plainEval_op2 (hsub : sub.Steady) (relocate : Bool) (context : Option ℕ) (op : BinaryOp)
    (left right : ConstExpr Ref) :
    plainEval undef env sub relocate context (.op2 op left right) =
      (plainEval undef env sub relocate context left).bind fun
        | none => .ok none
        | some a => (plainEval undef env sub relocate context right).bind fun
          | none => .ok none
          | some b => (op.apply undef a b).map some := by
  rw [plainEval, ceEvalWith_op2_fst, ceEvalWith_fst hsub, ceEvalWith_fst hsub]

theorem plainEval_op1 (relocate : Bool) (context : Option ℕ) (op : UnaryOp) (left : ConstExpr Ref) :
    plainEval undef env sub relocate context (.op1 op left) =
      (plainEval undef env sub relocate context left).map (Option.map op.apply) := by
  rw [plainEval, plainEval, ceEvalWith]
  cases ceEvalWith undef env sub context { relocate, negate := false } 0 left <;> rfl

variable (undef env)

theorem steady_ceEval (fuel : ℕ) : (ceEval undef env fuel).Steady := by
  induction fuel with
  | zero =>
    intro context relocate negate negate' width width' e
    have hsub : Evaluator.Steady fun _ _ _ _ ↦ .error .stackOverflow := fun _ _ _ _ _ _ _ ↦ rfl
    rw [ceEval, ceEvalWith_fst hsub, ceEvalWith_fst hsub]
  | succ fuel ih =>
    intro context relocate negate negate' width width' e
    rw [ceEval, ceEvalWith_fst ih, ceEvalWith_fst ih]

theorem steady_symbolEvaluator (fuel : ℕ) : (symbolEvaluator undef env fuel).Steady := by
  cases fuel with
  | zero => exact fun _ _ _ _ _ _ _ ↦ rfl
  | succ fuel => exact steady_ceEval undef env fuel

end

/-! ## Where evaluation overflows -/

section

variable (undef : UndefinedShifts) (env : Env) (relocate : Bool)

/-- The value of an expression, with the addresses and definitions that there are. -/
def EvaluatesTo (fuel : ℕ) (context : Option ℕ) (e : ConstExpr Ref) (v : Word) : Prop :=
  plainEval undef env (symbolEvaluator undef env fuel) relocate context e = .ok (some v)

/-- Evaluation from left to right comes to a division of the least integer by -1, or into the definition of
a `.set` symbol for which `sub` holds. Where the left operand has no value yet, the right one is left alone. -/
def OverflowsWith (value : ConstExpr Ref → Word → Prop) (sub : Option ℕ → ConstExpr Ref → Prop) :
    ConstExpr Ref → Prop
  | .ref _ r => ∃ s ce context, env.boundSet r = some (s, ce) ∧ env.contextAt s.place = some context ∧
      sub context ce
  | .ici | .imm _ _ => False
  | .paren e => OverflowsWith value sub e
  | .op1 _ left => OverflowsWith value sub left
  | .op2 op left right => OverflowsWith value sub left ∨
      (∃ v, value left v) ∧ OverflowsWith value sub right ∨
      op = .div ∧ value left (BitVec.intMin 32) ∧ value right (-1#32)

/-- Without fuel there is no room for any definition. -/
def Overflows : ℕ → Option ℕ → ConstExpr Ref → Prop
  | 0, context => OverflowsWith env (EvaluatesTo undef env relocate 0 context) fun _ _ ↦ True
  | fuel + 1, context =>
      OverflowsWith env (EvaluatesTo undef env relocate (fuel + 1) context) (Overflows fuel)

end

/-- Names that lead to `.set` symbols are shorter than what is compared. -/
def Env.ShortSets (env : Env) : Prop := ∀ s ∈ env.symbols, s.ce.isSome → s.name.length < symbolLen

section

variable {undef : UndefinedShifts} {env : Env} {relocate : Bool}

theorem symbolLookup_not_crash (hshort : env.ShortSets) {sub : Evaluator} {name : Name} {stop : Stop}
    (h : symbolLookup env sub name = .error stop) : ¬ stop.IsCrash := by
  unfold symbolLookup at h
  split at h
  · cases h
  · rename_i s hfound
    split at h
    · cases h
    · rename_i ce hce
      obtain ⟨id, hfind, hs⟩ := Option.bind_eq_some_iff.mp hfound
      have hsame := List.find?_some hfind
      rw [hs, Option.any_some, sameSymbol_iff] at hsame
      have hlength := hshort s (List.mem_of_getElem? hs) (by rw [hce]; rfl)
      rw [if_pos ((take_symbolLen_eq_iff hlength).mp hsame.symm).symm] at h
      obtain rfl := Except.error.inj h
      rintro (h | h) <;> cases h

theorem bind_eq_error {ε α β : Type} {x : Except ε α} {f : α → Except ε β} {stop : ε} :
    x.bind f = .error stop ↔ x = .error stop ∨ ∃ a, x = .ok a ∧ f a = .error stop := by
  cases x with
  | error stop' =>
    constructor
    · intro h
      exact .inl (congrArg _ (Except.error.inj h))
    · rintro (h | ⟨a, ⟨⟩, _⟩)
      exact congrArg _ (Except.error.inj h)
  | ok a =>
    constructor
    · exact fun h ↦ .inr ⟨a, rfl, h⟩
    · rintro (⟨⟨⟩⟩ | ⟨a', ha, h⟩)
      obtain rfl := Except.ok.inj ha
      exact h

theorem apply_crash_iff {op : BinaryOp} {a b : Word} :
    (∃ stop : Stop, stop.IsCrash ∧ op.apply undef a b = .error stop) ↔
      op = .div ∧ a = BitVec.intMin 32 ∧ b = -1#32 := by
  constructor
  · rintro ⟨stop, hcrash, h⟩
    cases op with
    | div =>
      rw [BinaryOp.apply] at h
      split at h
      · obtain rfl := Except.error.inj h
        rcases hcrash with h | h <;> cases h
      · split at h
        · rename_i hleast
          exact ⟨rfl, hleast⟩
        · cases h
    | add | sub | mul | xor | and | or | lsh | rsha | rsh => cases h
  · rintro ⟨rfl, rfl, rfl⟩
    exact ⟨.divideTrap, .inl rfl, rfl⟩

/-- One level of evaluation crashes exactly where it overflows. -/
theorem plainEval_crash_iff (hshort : env.ShortSets) {sub : Evaluator} (hsteady : sub.Steady)
    {overflows : Option ℕ → ConstExpr Ref → Prop} (context : Option ℕ)
    (hsub : ∀ context ce, (∃ stop : Stop, stop.IsCrash ∧
      (sub context { relocate, negate := false } 0 ce).map Prod.fst = .error stop) ↔ overflows context ce)
    (e : ConstExpr Ref) :
    (∃ stop : Stop, stop.IsCrash ∧ plainEval undef env sub relocate context e = .error stop) ↔
      OverflowsWith env (fun e v ↦ plainEval undef env sub relocate context e = .ok (some v)) overflows e := by
  induction e with
  | ref isExternal r =>
    rw [OverflowsWith, plainEval]
    simp only [map_eq_error, ceEvalWith]
    cases hset : env.boundSet r with
    | none =>
      constructor
      · rintro ⟨stop, hcrash, h⟩
        rcases bind_eq_error.mp h with h | ⟨found, _, h⟩
        · exact absurd hcrash (symbolLookup_not_crash hshort h)
        · split at h <;> cases h
      · rintro ⟨s, ce, _, ⟨⟩, _⟩
    | some set =>
      obtain ⟨s, ce⟩ := set
      cases hcontext : env.contextAt s.place with
      | none =>
        simp only [hcontext]
        constructor
        · rintro ⟨stop, _, ⟨⟩⟩
        · rintro ⟨s', ce', context', hset', hcontext', _⟩
          obtain ⟨rfl, rfl⟩ := Prod.mk.inj (Option.some.inj hset')
          rw [hcontext] at hcontext'
          cases hcontext'
      | some dc =>
        have hdefined : (∃ s' ce' context', some (s, ce) = some (s', ce') ∧
            env.contextAt s'.place = some context' ∧ overflows context' ce') ↔ overflows dc ce := by
          constructor
          · rintro ⟨s', ce', context', hset', hcontext', h⟩
            obtain ⟨rfl, rfl⟩ := Prod.mk.inj (Option.some.inj hset')
            obtain rfl := Option.some.inj (hcontext.symm.trans hcontext')
            exact h
          · exact fun h ↦ ⟨s, ce, dc, rfl, hcontext, h⟩
        rw [hdefined, ← hsub]
        simp only [hcontext, map_eq_error]
        refine exists_congr fun stop ↦ and_congr_right fun _ ↦ ?_
        constructor
        · intro h
          rcases bind_eq_error.mp h with h | ⟨⟨value, relocs⟩, _, h⟩
          · exact h
          · dsimp only at h
            split at h
            · cases h
            · split at h <;> cases h
        · intro h
          exact bind_eq_error.mpr (.inl h)
  | ici =>
    constructor
    · rintro ⟨stop, _, h⟩
      rw [plainEval, map_eq_error, ceEvalWith] at h
      split at h <;> cases h
    · exact False.elim
  | imm i isBits =>
    constructor
    · rintro ⟨stop, _, ⟨⟩⟩
    · exact False.elim
  | paren e ih => exact ih
  | op1 op left ih =>
    simp only [plainEval_op1, map_eq_error]
    exact ih
  | op2 op left right ihLeft ihRight =>
    simp only [plainEval_op2 hsteady, bind_eq_error]
    rw [OverflowsWith, ← ihLeft, ← ihRight]
    constructor
    · rintro ⟨stop, hcrash, h | ⟨_ | a, hleft, h⟩⟩
      · exact .inl ⟨stop, hcrash, h⟩
      · cases h
      · rcases bind_eq_error.mp h with h | ⟨_ | b, hright, h⟩
        · exact .inr (.inl ⟨⟨a, hleft⟩, stop, hcrash, h⟩)
        · cases h
        · obtain ⟨hdiv, rfl, rfl⟩ := apply_crash_iff.mp ⟨stop, hcrash, map_eq_error.mp h⟩
          exact .inr (.inr ⟨hdiv, hleft, hright⟩)
    · rintro (⟨stop, hcrash, h⟩ | ⟨⟨a, hleft⟩, stop, hcrash, h⟩ | ⟨hdiv, hleft, hright⟩)
      · exact ⟨stop, hcrash, .inl h⟩
      · exact ⟨stop, hcrash, .inr ⟨some a, hleft, bind_eq_error.mpr (.inl h)⟩⟩
      · obtain ⟨stop, hcrash, h⟩ := apply_crash_iff.mpr ⟨hdiv, rfl, rfl⟩
        refine ⟨stop, hcrash, .inr ⟨_, hleft, bind_eq_error.mpr (.inr ⟨_, hright, ?_⟩)⟩⟩
        exact map_eq_error.mpr h

theorem ceEval_eq_error_iff {fuel : ℕ} {context : Option ℕ} {negate : Bool} {width : ℕ} {e : ConstExpr Ref}
    {stop : Stop} : ceEval undef env fuel context { relocate, negate } width e = .error stop ↔
      plainEval undef env (symbolEvaluator undef env fuel) relocate context e = .error stop := by
  rw [← ceEvalWith_fst (steady_symbolEvaluator undef env fuel) context relocate negate width, map_eq_error, ceEval_eq]

/-- Evaluation crashes exactly where it overflows. -/
theorem ceEval_crash_iff (hshort : env.ShortSets) (fuel : ℕ) (context : Option ℕ) (negate : Bool)
    (width : ℕ) (e : ConstExpr Ref) :
    (∃ stop : Stop, stop.IsCrash ∧ ceEval undef env fuel context { relocate, negate } width e = .error stop) ↔
      Overflows undef env relocate fuel context e := by
  induction fuel generalizing context negate width e with
  | zero =>
    simp only [ceEval_eq_error_iff]
    apply plainEval_crash_iff hshort (steady_symbolEvaluator undef env 0)
    exact fun _ _ ↦ ⟨fun _ ↦ trivial, fun _ ↦ ⟨.stackOverflow, .inr rfl, rfl⟩⟩
  | succ fuel ih =>
    simp only [ceEval_eq_error_iff]
    apply plainEval_crash_iff hshort (steady_symbolEvaluator undef env (fuel + 1))
    intro context ce
    simp only [map_eq_error]
    exact ih context false 0 ce

end

/-! ### Expressions without divisions -/

/-- There is a division in the expression. -/
def ConstExpr.divides {ρ : Type} : ConstExpr ρ → Bool
  | ref _ _ | ici | imm _ _ => false
  | paren e => e.divides
  | op1 _ left => left.divides
  | op2 op left right => op == .div || left.divides || right.divides

theorem ConstExpr.divides_map {ρ τ : Type} (f : ρ → τ) (e : ConstExpr ρ) : (e.map f).divides = e.divides := by
  induction e with
  | ref | ici | imm => rfl
  | paren e ih => exact ih
  | op1 op left ih => exact ih
  | op2 op left right ihLeft ihRight => rw [map, divides, divides, ihLeft, ihRight]

/-- Definitions have no divisions, and refer to earlier symbols only. -/
def Env.Divisionless (env : Env) : Prop :=
  ∀ id ce, definition env.symbols id = some ce → ce.divides = false ∧ ∀ id', .bound id' ∈ ce.refs → id' < id

section

variable {undef : UndefinedShifts} {env : Env} {relocate : Bool}

theorem not_overflowsWith {value : ConstExpr Ref → Word → Prop} {sub : Option ℕ → ConstExpr Ref → Prop}
    {e : ConstExpr Ref} (hdivides : e.divides = false)
    (hsub : ∀ id ce context, .bound id ∈ e.refs → definition env.symbols id = some ce → ¬ sub context ce) :
    ¬ OverflowsWith env value sub e := by
  induction e with
  | ref isExternal r =>
    rintro ⟨s, ce, context, hset, -, h⟩
    cases r with
    | unbound symbolname => cases hset
    | bound id =>
      obtain ⟨s', hs', hmap⟩ := Option.bind_eq_some_iff.mp hset
      obtain ⟨ce', hce', heq⟩ := Option.map_eq_some_iff.mp hmap
      obtain ⟨rfl, rfl⟩ := Prod.mk.inj heq
      exact hsub id ce' context (List.mem_singleton_self _) (Option.bind_eq_some_iff.mpr ⟨s', hs', hce'⟩) h
  | ici | imm => exact id
  | paren e ih => exact ih hdivides hsub
  | op1 op left ih => exact ih hdivides hsub
  | op2 op left right ihLeft ihRight =>
    simp only [ConstExpr.divides, Bool.or_eq_false_iff, beq_eq_false_iff_ne] at hdivides
    obtain ⟨⟨hop, hleft⟩, hright⟩ := hdivides
    rintro (h | ⟨-, h⟩ | ⟨hdiv, -⟩)
    · exact ihLeft hleft (fun id ce context href ↦ hsub id ce context (List.mem_append_left _ href)) h
    · exact ihRight hright (fun id ce context href ↦ hsub id ce context (List.mem_append_right _ href)) h
    · exact hop hdiv

/-- With fuel for all definitions that an expression leads to, nothing overflows without divisions. -/
theorem Env.Divisionless.not_overflows (h : env.Divisionless) {fuel : ℕ} {context : Option ℕ}
    {e : ConstExpr Ref} (hdivides : e.divides = false)
    (hfuel : ∀ id, .bound id ∈ e.refs → (definition env.symbols id).isSome → id < fuel) :
    ¬ Overflows undef env relocate fuel context e := by
  induction fuel generalizing context e with
  | zero =>
    apply not_overflowsWith hdivides
    intro id ce context href hdef
    exact absurd (hfuel id href (hdef ▸ rfl)) (Nat.not_lt_zero id)
  | succ fuel ih =>
    apply not_overflowsWith hdivides
    intro id ce context href hdef
    obtain ⟨hce, hbackward⟩ := h id ce hdef
    refine ih hce fun id' href' _ ↦ ?_
    have hid := hfuel id href (hdef ▸ rfl)
    have hid' := hbackward id' href'
    omega

end

/-! ## Evaluations while parsing -/

section

variable {ρ : Type}

/-- The expressions that reducing one evaluates. -/
def ConstExpr.reduced (asExpr : Bool) : ConstExpr ρ → List (ConstExpr ρ)
  | ref isExternal r => if asExpr then [ref isExternal r] else []
  | ici => if asExpr then [ici] else []
  | imm i isBits => if asExpr then [imm i isBits] else []
  | paren e => e.reduced true
  | op1 op left => left.reduced false ++ [op1 op left]
  | op2 op left right => left.reduced true ++ (right.reduced true ++ [op2 op left right])

/-- Nothing is reduced but parts of the expression. -/
theorem ConstExpr.of_mem_reduced {asExpr : Bool} {e part : ConstExpr ρ} (hpart : part ∈ e.reduced asExpr) :
    (e.divides = false → part.divides = false) ∧ part.refs ⊆ e.refs := by
  induction e generalizing asExpr with
  | ref | ici | imm =>
    rw [reduced] at hpart
    split at hpart
    · rw [List.mem_singleton.mp hpart]
      exact ⟨id, List.Subset.refl _⟩
    · cases hpart
  | paren e ih => exact ih hpart
  | op1 op left ih =>
    rcases List.mem_append.mp hpart with hpart | hpart
    · exact ih hpart
    · rw [List.mem_singleton.mp hpart]
      exact ⟨id, List.Subset.refl _⟩
  | op2 op left right ihLeft ihRight =>
    simp only [divides, Bool.or_eq_false_iff]
    rcases List.mem_append.mp hpart with hpart | hpart
    · obtain ⟨hdivides, hrefs⟩ := ihLeft hpart
      exact ⟨fun h ↦ hdivides h.1.2, List.subset_append_of_subset_left _ hrefs⟩
    · rcases List.mem_append.mp hpart with hpart | hpart
      · obtain ⟨hdivides, hrefs⟩ := ihRight hpart
        exact ⟨fun h ↦ hdivides h.2, List.subset_append_of_subset_right _ hrefs⟩
      · rw [List.mem_singleton.mp hpart]
        refine ⟨fun h ↦ ?_, List.Subset.refl _⟩
        simpa only [divides, Bool.or_eq_false_iff] using h

/-- A computation that evaluates some expressions, and crashes nowhere else. -/
structure Attempts (eval : ConstExpr ρ → Except Stop Unit) (exprs : List (ConstExpr ρ)) {α : Type}
    (x : Except Stop α) : Prop where
  ok : ∀ a, x = .ok a → ∀ e ∈ exprs, eval e = .ok ()
  crash : ∀ stop : Stop, stop.IsCrash → x = .error stop → ∃ e ∈ exprs, eval e = .error stop

namespace Attempts

variable {eval : ConstExpr ρ → Except Stop Unit} {exprs exprs' : List (ConstExpr ρ)} {α β : Type}

theorem nil (a : α) : Attempts eval [] (.ok a) where
  ok _ _ _ he := (List.not_mem_nil he).elim
  crash _ _ h := nomatch h

theorem single (e : ConstExpr ρ) : Attempts eval [e] (eval e) where
  ok _ h _ he' := List.mem_singleton.mp he' ▸ h
  crash _ _ h := ⟨e, List.mem_singleton_self e, h⟩

theorem bind {x : Except Stop α} {f : α → Except Stop β} (hx : Attempts eval exprs x)
    (hf : ∀ a, Attempts eval exprs' (f a)) : Attempts eval (exprs ++ exprs') (x >>= f) where
  ok b h e he := by
    obtain ⟨a, ha, hb⟩ := bind_eq_ok.mp h
    rcases List.mem_append.mp he with he | he
    · exact hx.ok a ha e he
    · exact (hf a).ok b hb e he
  crash stop hcrash h := by
    rcases bind_eq_error.mp h with h | ⟨a, -, h⟩
    · obtain ⟨e, he, hstop⟩ := hx.crash stop hcrash h
      exact ⟨e, List.mem_append_left _ he, hstop⟩
    · obtain ⟨e, he, hstop⟩ := (hf a).crash stop hcrash h
      exact ⟨e, List.mem_append_right _ he, hstop⟩

theorem andThen {x : Except Stop α} (f : α → β) (hx : Attempts eval exprs x) :
    Attempts eval exprs (x >>= fun a ↦ .ok (f a)) := by
  have h := hx.bind fun a ↦ nil (f a)
  rwa [List.append_nil] at h

end Attempts

theorem attempts_parseEvals (eval : ConstExpr ρ → Except Stop Unit) (asExpr : Bool) (e : ConstExpr ρ) :
    Attempts eval (e.reduced asExpr) (parseEvals eval asExpr e) := by
  induction e generalizing asExpr with
  | ref | ici | imm =>
    rw [ConstExpr.reduced, parseEvals]
    split
    · exact .single _
    · exact .nil ()
  | paren e ih => exact ih true
  | op1 op left ih => exact (ih false).bind fun _ ↦ .single _
  | op2 op left right ihLeft ihRight =>
    exact (ihLeft true).bind fun _ ↦ (ihRight true).bind fun _ ↦ .single _

end

/-- The expressions that the actions for an element evaluate, with the symbols in front of it. -/
def Element.reduced (env : Env) : Element → List (ConstExpr Ref)
  | word exprs => exprs.flatMap fun e ↦ (e.map (makeRef env)).reduced true
  | zero size => (size.map (makeRef env)).reduced true
  | utf32 _ | illegal => []
  | insn stmt => (stmt.rhs.expr?.map fun e ↦ (e.map (makeRef env)).reduced false).getD []
  | labelled _ inner => inner.reduced env

def Statement.reduced (env : Env) : Statement → List (ConstExpr Ref)
  | element e => e.reduced env
  | set _ e => (e.map (makeRef env)).reduced true
  | global _ | option => []

section

variable {undef : UndefinedShifts} {fuel : ℕ}

/-- The evaluations of `ce_eval_const`. -/
abbrev evalParsing (undef : UndefinedShifts) (fuel : ℕ) (env : Env) (e : ConstExpr Ref) : Except Stop Unit :=
  (ceEvalConst undef env fuel e).map fun _ ↦ ()

variable {env : Env}

theorem attempts_parseExpr (asExpr : Bool) (e : ConstExpr Ref) :
    Attempts (evalParsing undef fuel env) (e.reduced asExpr) (parseExpr undef env fuel asExpr e) :=
  (attempts_parseEvals _ asExpr e).andThen _

theorem attempts_makeData (exprs : List (ConstExpr Name)) :
    Attempts (evalParsing undef fuel env) (exprs.flatMap fun e ↦ (e.map (makeRef env)).reduced true)
      (makeData undef fuel env exprs) := by
  induction exprs with
  | nil => exact .nil _
  | cons e rest ih => exact (attempts_parseExpr true _).bind fun _ ↦ ih.andThen _

theorem attempts_parseInsn (stmt : InsnStmt Name) :
    Attempts (evalParsing undef fuel env) ((Element.insn stmt).reduced env)
      (parseInsn undef env fuel (stmt.bind env)) := by
  rw [Element.reduced, parseInsn]
  have hexpr : (stmt.bind env).rhs.expr? = stmt.rhs.expr?.map (ConstExpr.map (makeRef env)) :=
    RhsPlain.expr?_map _ _
  rw [hexpr]
  cases stmt.rhs.expr? with
  | none => exact .nil _
  | some e => exact (attempts_parseExpr false _).andThen _

theorem attempts_parseElement (e : Element) :
    Attempts (evalParsing undef fuel env) (e.reduced env) (parseElement undef fuel env e) := by
  induction e with
  | word exprs => exact (attempts_makeData exprs).andThen _
  | zero size => exact ((attempts_parseEvals _ true _).andThen _).andThen _
  | utf32 | illegal => exact .nil _
  | insn stmt => exact (attempts_parseInsn stmt).andThen _
  | labelled symbol inner ih =>
    -- whether a label is accepted is decided without evaluating
    have hlabel : ∀ result : List Elem × List Name × List Diagnostic,
        Attempts (evalParsing undef fuel env) []
          (if result.1.isEmpty then .error .nullPointer
            else .ok (result.1, result.2.1 ++ [symbol], result.2.2)) := by
      intro result
      split
      · refine ⟨fun _ hok ↦ (nomatch hok), fun stop hcrash hstop ↦ ?_⟩
        obtain rfl := Except.error.inj hstop
        rcases hcrash with h | h <;> cases h
      · exact .nil _
    have h := ih.bind hlabel
    rwa [List.append_nil] at h

theorem attempts_parseStatement (pd : ParseData) (s : Statement) :
    Attempts (evalParsing undef fuel pd.env) (s.reduced pd.env) (parseStatement undef fuel pd s) := by
  cases s with
  | element e => exact (attempts_parseElement e).andThen _
  | set symbol e => exact (attempts_parseExpr true _).andThen _
  | global | option => exact .nil _

/-- Parsing has come to a statement of the source. -/
def ParsedUpTo (undef : UndefinedShifts) (fuel : ℕ) (source : Source) (s : Statement) (pd₀ : ParseData) : Prop :=
  ∃ before after, source = before ++ s :: after ∧ parse undef fuel before = .ok pd₀

theorem ParsedUpTo.parseStatement_eq_ok {source : Source} {s : Statement} {pd pd₀ : ParseData}
    (hupto : ParsedUpTo undef fuel source s pd₀) (h : parse undef fuel source = .ok pd) :
    ∃ pd₁, parseStatement undef fuel pd₀ s = .ok pd₁ := by
  obtain ⟨before, after, rfl, h₀⟩ := hupto
  rw [parse, List.foldlM_append, bind_eq_ok] at h
  obtain ⟨pd', h', h⟩ := h
  obtain rfl := Except.ok.inj (h₀.symm.trans h')
  rw [List.foldlM_cons, bind_eq_ok] at h
  exact h.imp fun _ h ↦ h.1

/-- Parsing stops in a statement. -/
theorem parse_eq_error {source : Source} {stop : Stop} (h : parse undef fuel source = .error stop) :
    ∃ s pd₀, ParsedUpTo undef fuel source s pd₀ ∧ parseStatement undef fuel pd₀ s = .error stop := by
  induction source using List.reverseRecOn with
  | nil => cases h
  | append_singleton before s ih =>
    rw [parse, List.foldlM_append] at h
    rcases bind_eq_error.mp h with h | ⟨pd₀, h₀, h⟩
    · obtain ⟨s', pd₀, ⟨before', after, rfl, h₀⟩, hs⟩ := ih h
      exact ⟨s', pd₀, ⟨before', after ++ [s], by simp, h₀⟩, hs⟩
    · rw [List.foldlM_cons] at h
      rcases bind_eq_error.mp h with h | ⟨_, _, ⟨⟩⟩
      exact ⟨s, pd₀, ⟨before, [], rfl, h₀⟩, h⟩

end

/-! ## Evaluations with addresses -/

/-- What evaluation sees of a symbol. -/
def Symbol.seen (s : Symbol) : Symbol := { s with resolved := false, unique := false, global := false }

def Env.seen (env : Env) : Env := { env with symbols := env.symbols.map Symbol.seen }

section

variable {undef : UndefinedShifts} {env env' : Env}

theorem Env.seen_symbolFind (env : Env) (name : Name) : env.seen.symbolFind name = env.symbolFind name := by
  apply symbolFind_congr
  rw [Env.seen, List.map_map]
  rfl

theorem symbolLookup_seen (env : Env) (sub : Evaluator) (name : Name) :
    symbolLookup env.seen sub name = symbolLookup env sub name := by
  have hfound : ((env.seen.symbolFind name).bind fun id ↦ env.seen.symbols[id]?) =
      ((env.symbolFind name).bind fun id ↦ env.symbols[id]?).map Symbol.seen := by
    rw [env.seen_symbolFind]
    cases env.symbolFind name with
    | none => rfl
    | some id => exact List.getElem?_map
  rw [symbolLookup, symbolLookup, hfound]
  cases (env.symbolFind name).bind fun id ↦ env.symbols[id]? with
  | none => rfl
  | some s => rfl

theorem ceEvalWith_seen (sub : Evaluator) (context : Option ℕ) (flags : EvalFlags) (width : ℕ)
    (e : ConstExpr Ref) :
    ceEvalWith undef env.seen sub context flags width e = ceEvalWith undef env sub context flags width e := by
  induction e generalizing flags with
  | ref isExternal r =>
    have hset : env.seen.boundSet r = (env.boundSet r).map fun set ↦ (set.1.seen, set.2) := by
      cases r with
      | unbound symbolname => rfl
      | bound id =>
        change ((env.symbols.map Symbol.seen)[id]?).bind _ = _
        rw [List.getElem?_map, Env.boundSet]
        cases env.symbols[id]? with
        | none => rfl
        | some s =>
          rw [Option.map_some, Option.bind_some, Option.bind_some, Option.map_map]
          rfl
    have hname : env.seen.refName r = env.refName r := by
      cases r with
      | unbound symbolname => rfl
      | bound id =>
        change (((env.symbols.map Symbol.seen)[id]?).map Symbol.name).getD [] = _
        rw [List.getElem?_map, Option.map_map]
        rfl
    rw [ceEvalWith, ceEvalWith, hset, hname]
    cases env.boundSet r with
    | none =>
      dsimp only [Option.map_none]
      rw [symbolLookup_seen]
    | some set => rfl
  | ici | imm => rfl
  | paren e ih => exact ih flags
  | op1 op left ih => rw [ceEvalWith, ceEvalWith, ih flags]
  | op2 op left right ihLeft ihRight =>
    simp only [ceEvalWith, ihLeft, ihRight]

theorem ceEval_seen (fuel : ℕ) : ceEval undef env.seen fuel = ceEval undef env fuel := by
  induction fuel with
  | zero =>
    funext context flags width e
    exact ceEvalWith_seen _ context flags width e
  | succ fuel ih =>
    funext context flags width e
    rw [ceEval, ceEval, ih]
    exact ceEvalWith_seen _ context flags width e

theorem ceEval_congr (h : env.seen = env'.seen) (fuel : ℕ) : ceEval undef env fuel = ceEval undef env' fuel := by
  rw [← ceEval_seen, h, ceEval_seen]

end

/-- The value that a symbol is found with: that of its expression without a context, or its address. -/
def ParseData.tableWord (pd : ParseData) (undef : UndefinedShifts) (fuel : ℕ) (s : Symbol) : Word :=
  match s.ce with
  | none => s.reladdr
  | some ce =>
    match ceEval undef pd.finalEnv fuel none { relocate := true, negate := false } wordBitwidth ce with
    | .ok (some value, _) => value
    | _ => s.reladdr

open Classical in
/-- What evaluation finds at the element with index `k`: all symbols with their values, and those definitions
that no element behind leads to. -/
noncomputable def ParseData.foundEnv (pd : ParseData) (undef : UndefinedShifts) (fuel k : ℕ) : Env where
  symbols := pd.labels.mapIdx fun id s ↦
    { s with ce := if pd.StillDefined k id then s.ce else none, reladdr := pd.tableWord undef fuel s }
  reladdrs := addrsFrom 0#32 pd.elems
  phantom := true

section

variable {undef : UndefinedShifts} {fuel : ℕ} {pd : ParseData} {q : Started undef fuel pd} {k : ℕ}
  {before : FixupState}

/-- The symbols that the pass over the expressions starts with, as evaluation sees them. -/
theorem Started.marked_seen (q : Started undef fuel pd) {id : ℕ} {s : Symbol} (hs : pd.labels[id]? = some s) :
    ∃ m, q.marked[id]? = some m ∧ m.seen = { s with reladdr := pd.tableWord undef fuel s }.seen := by
  cases hce : s.ce with
  | none =>
    obtain ⟨t, ht, -, -, -, hkeep⟩ := resolveSets_getElem? undef fuel q.resolve hs
    obtain rfl := hkeep hce
    obtain ⟨isGlobal, hmarked⟩ := markGlobals_getElem? pd.globals
      { symbols := q.symbols, reladdrs := addrsFrom 0#32 pd.elems, phantom := true } ht
    refine ⟨_, hmarked, ?_⟩
    rw [ParseData.tableWord, hce]
    rfl
  | some ce =>
    obtain ⟨value, added, heval, ht⟩ := resolveSets_set undef fuel q.resolve hs hce
    obtain ⟨isGlobal, hmarked⟩ := markGlobals_getElem? pd.globals
      { symbols := q.symbols, reladdrs := addrsFrom 0#32 pd.elems, phantom := true } ht
    refine ⟨_, hmarked, ?_⟩
    rw [ParseData.tableWord, hce]
    dsimp only
    rw [heval]
    cases value with
    | none => simp [Symbol.seen, hce]
    | some value => rfl

/-- Definitions are there where the pass has come to an element exactly if no element behind leads to them. -/
theorem Started.Reaches.ce_eq (h : q.Reaches k before) {id : ℕ} {s t : Symbol}
    (hs : pd.labels[id]? = some s) (ht : before.symbols[id]? = some t) :
    (pd.StillDefined k id → t.ce = s.ce) ∧ (¬ pd.StillDefined k id → t.ce = none) := by
  have hdef : definition before.symbols id = t.ce := by
    rw [definition, ht]
    rfl
  have hce : definition pd.symbols id = s.ce := by
    rw [labels_getElem?] at hs
    obtain ⟨s', hs', rfl⟩ := Option.map_eq_some_iff.mp hs
    rw [definition, hs', resolveLabel_ce]
    rfl
  constructor
  · intro hstill
    rw [← hdef, ← hce]
    exact h.definition_eq hstill.2
  · intro hnot
    rw [← hdef, h.definition_eq_none_iff]
    by_contra hkept
    rw [not_or] at hkept
    refine hnot ⟨Option.ne_none_iff_exists'.mp hkept.1, fun j hj huses ↦ ?_⟩
    exact hkept.2 ⟨j, hj, huses⟩

theorem Started.Reaches.seen (h : q.Reaches k before) :
    (pd.envWith before.symbols).seen = (pd.foundEnv undef fuel k).seen := by
  classical
  have hsymbols : before.symbols.map Symbol.seen = (pd.foundEnv undef fuel k).symbols.map Symbol.seen := by
    apply List.ext_getElem?
    intro id
    rw [List.getElem?_map, List.getElem?_map]
    change _ = (pd.labels.mapIdx _)[id]?.map _
    rw [List.getElem?_mapIdx]
    cases hs : pd.labels[id]? with
    | none =>
      have hlength : before.symbols.length ≤ id := by
        rw [h.freed.length_eq, q.marked_length, ← List.length_map (resolveLabel (addrsFrom 0#32 pd.elems))]
        exact List.getElem?_eq_none_iff.mp hs
      rw [List.getElem?_eq_none hlength]
      rfl
    | some s =>
      obtain ⟨m, hm, hseen⟩ := q.marked_seen hs
      obtain ⟨t, ht, hfree⟩ : ∃ t, before.symbols[id]? = some t ∧ { t.seen with ce := m.ce } = m.seen := by
        rcases h.freed.getElem? hm with ht | ht
        · exact ⟨m, ht, rfl⟩
        · exact ⟨m.free, ht, rfl⟩
      obtain ⟨hstill, hnot⟩ := h.ce_eq hs ht
      have hce : t.ce = if pd.StillDefined k id then s.ce else none := by
        split
        · rename_i hdefined
          exact hstill hdefined
        · rename_i hdefined
          exact hnot hdefined
      rw [ht, Option.map_some, Option.map_some, Option.map_some, ← hce]
      congr 1
      calc
        t.seen = { ({ t.seen with ce := m.ce } : Symbol) with ce := t.ce } := rfl
        _ = { ({ s with reladdr := pd.tableWord undef fuel s } : Symbol).seen with ce := t.ce } := by
          rw [hfree, hseen]
        _ = _ := rfl
  exact congrArg (fun symbols ↦ ({ symbols, reladdrs := addrsFrom 0#32 pd.elems, phantom := true } : Env)) hsymbols

end

/-! ## Programs -/

section

variable (undef : UndefinedShifts) (fuel : ℕ)

/-- The expressions that are evaluated for a program, each with what evaluation sees, whether it relocates, and
its context: those that its statements reduce, those of its definitions, and those of its elements. -/
inductive Evaluated (source : Source) : Env → Bool → Option ℕ → ConstExpr Ref → Prop
  | parsing {s : Statement} {pd₀ : ParseData} {e : ConstExpr Ref} (hupto : ParsedUpTo undef fuel source s pd₀)
      (he : e ∈ s.reduced pd₀.env) : Evaluated source pd₀.env false none e
  | definition {pd : ParseData} {id : ℕ} {ce : ConstExpr Ref} (hparse : parse undef fuel source = .ok pd)
      (hdef : definition pd.symbols id = some ce) : Evaluated source pd.finalEnv true none ce
  | element {pd : ParseData} {k : ℕ} {e : Elem} {d : DeferredExpr Ref}
      (hparse : parse undef fuel source = .ok pd) (he : pd.elems[k]? = some e) (hd : e.fixup = some d) :
      Evaluated source (pd.foundEnv undef fuel k) true (some k) d.ce

/-- Evaluating some expression of a program overflows. -/
def ProgramOverflows (source : Source) : Prop :=
  ∃ env relocate context e, Evaluated undef fuel source env relocate context e ∧
    Overflows undef env relocate fuel context e

end

section

variable {undef : UndefinedShifts} {fuel : ℕ} {source : Source} {pd : ParseData}

theorem ParseData.Lexed.shortSets {env : Env} (hlexed : pd.Lexed)
    (henv : ∀ (id : ℕ) (s : Symbol), env.symbols[id]? = some s → s.ce.isSome →
      ∃ t : Symbol, pd.symbols[id]? = some t ∧ t.name = s.name ∧ t.ce = s.ce) : env.ShortSets := by
  intro s hs hce
  obtain ⟨id, hid⟩ := List.getElem?_of_mem hs
  obtain ⟨t, ht, hname, htce⟩ := henv id s hid hce
  rw [← hname]
  exact hlexed.length_lt (List.mem_of_getElem? ht) (htce ▸ hce)

theorem shortSets_labels (hlexed : pd.Lexed) : pd.finalEnv.ShortSets := by
  apply hlexed.shortSets
  intro id s hs _
  obtain ⟨t, ht, rfl⟩ := Option.map_eq_some_iff.mp ((labels_getElem? pd id).symm.trans hs)
  exact ⟨t, ht, (resolveLabel_name _ t).symm, (resolveLabel_ce _ t).symm⟩

theorem shortSets_foundEnv (hlexed : pd.Lexed) (k : ℕ) : (pd.foundEnv undef fuel k).ShortSets := by
  classical
  apply hlexed.shortSets
  intro id s hs hce
  change (pd.labels.mapIdx _)[id]? = _ at hs
  rw [List.getElem?_mapIdx] at hs
  obtain ⟨t, ht, rfl⟩ := Option.map_eq_some_iff.mp hs
  obtain ⟨u, hu, rfl⟩ := Option.map_eq_some_iff.mp ((labels_getElem? pd id).symm.trans ht)
  dsimp only at hce ⊢
  split at hce
  · rename_i hstill
    rw [if_pos hstill]
    exact ⟨u, hu, (resolveLabel_name _ u).symm, (resolveLabel_ce _ u).symm⟩
  · cases hce

/-- Names are short wherever an expression is evaluated. -/
theorem Evaluated.shortSets (hlexed : ∀ s ∈ source, s.Lexed) {env : Env} {relocate : Bool} {context : Option ℕ}
    {e : ConstExpr Ref} (h : Evaluated undef fuel source env relocate context e) : env.ShortSets := by
  cases h with
  | parsing hupto he =>
    obtain ⟨before, after, rfl, h₀⟩ := hupto
    have hbefore := parse_lexed h₀ fun s hs ↦ hlexed s (List.mem_append_left _ hs)
    exact hbefore.shortSets fun id s hs _ ↦ ⟨s, hs, rfl, rfl⟩
  | definition hparse hdef => exact shortSets_labels (parse_lexed hparse hlexed)
  | element hparse he hd => exact shortSets_foundEnv (parse_lexed hparse hlexed) _

theorem evalParsing_eq_error_iff {env : Env} {e : ConstExpr Ref} {stop : Stop} :
    evalParsing undef fuel env e = .error stop ↔
      ceEval undef env fuel none { relocate := false, negate := false } 0 e = .error stop := by
  rw [evalParsing, map_eq_error, ceEvalConst, map_eq_error]

/-- What ends in an evaluation that crashes overflows. -/
theorem Evaluated.programOverflows (hlexed : ∀ s ∈ source, s.Lexed) {env : Env} {relocate negate : Bool}
    {context : Option ℕ} {e : ConstExpr Ref} (h : Evaluated undef fuel source env relocate context e) {width : ℕ}
    {stop : Stop} (hcrash : stop.IsCrash)
    (hstop : ceEval undef env fuel context { relocate, negate } width e = .error stop) :
    ProgramOverflows undef fuel source :=
  ⟨env, relocate, context, e, h, (ceEval_crash_iff (h.shortSets hlexed) fuel context negate width e).mp
    ⟨stop, hcrash, hstop⟩⟩

theorem programOverflows_of_parse (hlexed : ∀ s ∈ source, s.Lexed) {stop : Stop} (hcrash : stop.IsCrash)
    (h : parse undef fuel source = .error stop) : ProgramOverflows undef fuel source := by
  obtain ⟨s, pd₀, hupto, hs⟩ := parse_eq_error h
  obtain ⟨e, he, hstop⟩ := (attempts_parseStatement pd₀ s).crash stop hcrash hs
  exact (Evaluated.parsing hupto he).programOverflows hlexed hcrash (evalParsing_eq_error_iff.mp hstop)

theorem resolveSets_eq_error {env : Env} {symbols : List Symbol} {stop : Stop}
    (h : resolveSets undef fuel env symbols = .error stop) :
    ∃ s ∈ symbols, ∃ ce, s.ce = some ce ∧
      ceEval undef env fuel none { relocate := true, negate := false } wordBitwidth ce = .error stop := by
  induction symbols with
  | nil => cases h
  | cons s rest ih =>
    rcases bind_eq_error.mp h with h | ⟨⟨rest', relocs⟩, -, h⟩
    · obtain ⟨t, ht, hce⟩ := ih h
      exact ⟨t, List.mem_cons_of_mem _ ht, hce⟩
    · dsimp only at h
      split at h
      · cases h
      · rename_i ce hce
        rcases bind_eq_error.mp h with h | ⟨_, _, ⟨⟩⟩
        exact ⟨s, List.mem_cons_self, ce, hce, h⟩

/-- The pass over the expressions stops at an element that it has reached. -/
theorem fixupFrom_eq_error {reladdrs : List Word} {k₀ : ℕ} {elems : List Elem} {st : FixupState} {stop : Stop}
    (hcrash : stop.IsCrash) (h : fixupFrom undef fuel reladdrs k₀ elems st = .error stop) :
    ∃ i e d before, elems[i]? = some e ∧ e.fixup = some d ∧
      fixupFrom undef fuel reladdrs (k₀ + i + 1) (elems.drop (i + 1)) st = .ok before ∧
      ceEval undef { symbols := before.symbols, reladdrs, phantom := true } fuel (some (k₀ + i))
        { relocate := true, negate := false } d.width d.ce = .error stop := by
  induction elems generalizing k₀ with
  | nil => cases h
  | cons e rest ih =>
    rcases bind_eq_error.mp h with h | ⟨before, hbefore, h⟩
    · obtain ⟨i, e', d, before, he', hd, hbefore, hstop⟩ := ih h
      rw [Nat.add_right_comm k₀ 1 i, Nat.add_assoc k₀ i 1] at hbefore
      rw [Nat.add_right_comm k₀ 1 i, Nat.add_assoc k₀ i 1] at hstop
      exact ⟨i + 1, e', d, before, he', hd, hbefore, hstop⟩
    · rw [fixupElem] at h
      split at h
      · cases h
      · rename_i d hd
        refine ⟨0, e, d, before, rfl, hd, hbefore, ?_⟩
        rcases bind_eq_error.mp h with h | ⟨⟨value, added⟩, -, h⟩
        · exact h
        · dsimp only at h
          split at h
          · obtain rfl := Except.error.inj h
            rcases hcrash with h | h <;> cases h
          · cases h

theorem programOverflows_of_assemblyInner (hlexed : ∀ s ∈ source, s.Lexed) (hparse : parse undef fuel source = .ok pd)
    {stop : Stop} (hcrash : stop.IsCrash) (h : assemblyInner undef fuel pd = .error stop) :
    ProgramOverflows undef fuel source := by
  rw [assemblyInner] at h
  rcases bind_eq_error.mp h with h | ⟨⟨symbols, relocs⟩, hresolve, h⟩
  · obtain ⟨s, hs, ce, hce, hstop⟩ := resolveSets_eq_error h
    obtain ⟨id, hid⟩ := List.getElem?_of_mem hs
    obtain ⟨t, ht, rfl⟩ := Option.map_eq_some_iff.mp ((labels_getElem? pd id).symm.trans hid)
    have hdef : definition pd.symbols id = some ce :=
      Option.bind_eq_some_iff.mpr ⟨t, ht, (resolveLabel_ce _ t).symm.trans hce⟩
    exact (Evaluated.definition hparse hdef).programOverflows hlexed hcrash hstop
  · dsimp only at h
    have hfatal : stop ≠ .fatal := by
      rintro rfl
      rcases hcrash with h | h <;> cases h
    split at h
    · exact absurd (Except.error.inj h).symm hfatal
    · rename_i hunique
      let q : Started undef fuel pd := ⟨symbols, relocs, hresolve, Bool.eq_false_iff.mpr hunique⟩
      rcases bind_eq_error.mp h with h | ⟨st, -, h⟩
      · obtain ⟨k, e, d, before, he, hd, hbefore, hstop⟩ := fixupFrom_eq_error hcrash h
        rw [Nat.zero_add] at hbefore hstop
        have hreach : q.Reaches k before := hbefore
        change ceEval undef (pd.envWith before.symbols) fuel _ _ _ _ = _ at hstop
        rw [ceEval_congr hreach.seen] at hstop
        exact (Evaluated.element hparse he hd).programOverflows hlexed hcrash hstop
      · split at h
        · exact absurd (Except.error.inj h).symm hfatal
        · cases h

/-- Nothing overflows in a program that is assembled. -/
theorem Passes.not_programOverflows (hlexed : ∀ s ∈ source, s.Lexed) {a : Assembled} (p : Passes undef fuel pd a)
    (hparse : parse undef fuel source = .ok pd) : ¬ ProgramOverflows undef fuel source := by
  rintro ⟨env, relocate, context, e, hevaluated, hoverflows⟩
  obtain ⟨stop, hcrash, hstop⟩ :=
    (ceEval_crash_iff (hevaluated.shortSets hlexed) fuel context false wordBitwidth e).mpr hoverflows
  cases hevaluated with
  | parsing hupto he =>
    obtain ⟨pd₁, hs⟩ := hupto.parseStatement_eq_ok hparse
    have hok := (attempts_parseStatement _ _).ok pd₁ hs e he
    obtain ⟨stop, hcrash, hstop⟩ :=
      (ceEval_crash_iff (Evaluated.shortSets hlexed (.parsing hupto he)) fuel none false 0 e).mpr hoverflows
    rw [evalParsing_eq_error_iff.mpr hstop] at hok
    cases hok
  | @definition _ id ce hparse' hdef =>
    obtain rfl := Except.ok.inj (hparse.symm.trans hparse')
    obtain ⟨t, ht, hce⟩ := Option.bind_eq_some_iff.mp hdef
    have hlabel : pd.labels[id]? = some (resolveLabel (addrsFrom 0#32 pd.elems) t) := by
      rw [labels_getElem?, ht]
      rfl
    obtain ⟨value, added, heval, -⟩ :=
      resolveSets_set undef fuel p.resolve hlabel ((resolveLabel_ce _ t).trans hce)
    rw [heval] at hstop
    cases hstop
  | element hparse' he hd =>
    obtain rfl := Except.ok.inj (hparse.symm.trans hparse')
    obtain ⟨before, value, added, hbefore, heval, -⟩ := p.fixup_at he hd
    have hreach : p.started.Reaches _ before := hbefore
    rw [ceEval_congr hreach.seen] at heval
    obtain ⟨stop, hcrash, hstop⟩ :=
      (ceEval_crash_iff (Evaluated.shortSets hlexed (.element hparse he hd)) fuel _ false _ _).mpr hoverflows
    rw [heval] at hstop
    cases hstop

/-! ### Programs without divisions -/

/-- The expressions of a statement as they stand in the source. -/
def Statement.exprs : Statement → List (ConstExpr Name)
  | element e => e.exprs
  | set _ e => [e]
  | global _ | option => []

theorem Element.of_mem_reduced {env : Env} {e : Element} {part : ConstExpr Ref} (h : part ∈ e.reduced env) :
    ∃ x ∈ e.exprs, ∃ asExpr, part ∈ (x.map (makeRef env)).reduced asExpr := by
  induction e with
  | word exprs =>
    obtain ⟨x, hx, hpart⟩ := List.mem_flatMap.mp h
    exact ⟨x, hx, true, hpart⟩
  | zero size => exact ⟨size, List.mem_singleton_self _, true, h⟩
  | utf32 | illegal => exact (List.not_mem_nil h).elim
  | insn stmt =>
    rw [reduced] at h
    rw [exprs]
    cases hexpr : stmt.rhs.expr? with
    | none =>
      rw [hexpr] at h
      exact (List.not_mem_nil h).elim
    | some x =>
      rw [hexpr] at h
      exact ⟨x, List.mem_singleton_self _, false, h⟩
  | labelled symbol inner ih => exact ih h

theorem Statement.of_mem_reduced {env : Env} {s : Statement} {part : ConstExpr Ref} (h : part ∈ s.reduced env) :
    ∃ x ∈ s.exprs, ∃ asExpr, part ∈ (x.map (makeRef env)).reduced asExpr := by
  cases s with
  | element e => exact Element.of_mem_reduced h
  | set symbol e => exact ⟨e, List.mem_singleton_self _, true, h⟩
  | global | option => exact (List.not_mem_nil h).elim

/-- Nothing that has been parsed divides. -/
structure ParseData.Divisionless (pd : ParseData) : Prop where
  elems : ∀ e ∈ pd.elems, ∀ d, e.fixup = some d → d.ce.divides = false
  symbols : ∀ s ∈ pd.symbols, ∀ ce, s.ce = some ce → ce.divides = false

theorem parseStatement_divisionless {pd pd' : ParseData} {s : Statement} (hpd : pd.Divisionless)
    (hdivides : ∀ e ∈ s.exprs, e.divides = false) (h : parseStatement undef fuel pd s = .ok pd') :
    pd'.Divisionless := by
  cases s with
  | element e =>
    rw [parseStatement, bind_eq_ok] at h
    obtain ⟨⟨elems, labels, errors⟩, helement, h⟩ := h
    obtain rfl := Except.ok.inj h
    refine ⟨fun elem helem d hd ↦ ?_, fun t ht ce hce ↦ ?_⟩
    · rcases List.mem_append.mp helem with hold | hnew
      · exact hpd.elems elem hold d hd
      · obtain ⟨x, hx, hxce⟩ := parseElement_ce helement hnew hd
        rw [hxce, ConstExpr.divides_map]
        exact hdivides x hx
    · rcases List.mem_append.mp ht with hold | hnew
      · exact hpd.symbols t hold ce hce
      · obtain ⟨name, _, rfl⟩ := List.mem_map.mp hnew
        cases hce
  | set symbol e =>
    rw [parseStatement, bind_eq_ok] at h
    obtain ⟨errors, _, h⟩ := h
    obtain rfl := Except.ok.inj h
    refine ⟨hpd.elems, fun t ht ce hce ↦ ?_⟩
    rcases List.mem_append.mp ht with hold | hnew
    · exact hpd.symbols t hold ce hce
    · obtain rfl := List.mem_singleton.mp hnew
      obtain rfl := Option.some.inj hce
      rw [ConstExpr.divides_map]
      exact hdivides e (List.mem_singleton_self e)
  | global symbol =>
    obtain rfl := Except.ok.inj h
    exact ⟨hpd.elems, hpd.symbols⟩
  | option =>
    obtain rfl := Except.ok.inj h
    exact hpd

theorem parse_divisionless (hdivides : ∀ s ∈ source, ∀ e ∈ s.exprs, e.divides = false)
    (h : parse undef fuel source = .ok pd) : pd.Divisionless := by
  induction source using List.reverseRecOn generalizing pd with
  | nil =>
    obtain rfl := Except.ok.inj h
    exact ⟨fun _ he ↦ (List.not_mem_nil he).elim, fun _ hs ↦ (List.not_mem_nil hs).elim⟩
  | append_singleton before s ih =>
    rw [parse, List.foldlM_append, bind_eq_ok] at h
    obtain ⟨pd₀, h₀, h⟩ := h
    rw [List.foldlM_cons, bind_eq_ok] at h
    obtain ⟨pd₁, hs, h⟩ := h
    obtain rfl := Except.ok.inj h
    have hpd₀ := ih (fun s hs ↦ hdivides s (List.mem_append_left _ hs)) h₀
    exact parseStatement_divisionless hpd₀ (hdivides s (List.mem_append_right _ (List.mem_singleton_self s))) hs

/-- Where symbols have their definitions from parsing, none of these divides. -/
theorem ParseData.Divisionless.env (h : pd.Divisionless) (hback : pd.Backward) {env : Env}
    (henv : ∀ id ce, Asm.definition env.symbols id = some ce → Asm.definition pd.symbols id = some ce) :
    env.Divisionless := by
  intro id ce hdef
  obtain ⟨s, hs, hce⟩ := Option.bind_eq_some_iff.mp (henv id ce hdef)
  exact ⟨h.symbols s (List.mem_of_getElem? hs) ce hce, hback id s ce hs hce⟩

theorem definition_labels (pd : ParseData) (id : ℕ) : definition pd.labels id = definition pd.symbols id := by
  rw [definition, labels_getElem?, definition]
  cases pd.symbols[id]? with
  | none => rfl
  | some s => exact resolveLabel_ce _ s

theorem definition_foundEnv {k id : ℕ} {ce : ConstExpr Ref}
    (h : definition (pd.foundEnv undef fuel k).symbols id = some ce) : definition pd.symbols id = some ce := by
  classical
  rw [← definition_labels]
  change ((pd.labels.mapIdx _)[id]?).bind _ = _ at h
  rw [List.getElem?_mapIdx] at h
  obtain ⟨t, ht, hce⟩ := Option.bind_eq_some_iff.mp h
  obtain ⟨s, hs, rfl⟩ := Option.map_eq_some_iff.mp ht
  dsimp only at hce
  split at hce
  · exact Option.bind_eq_some_iff.mpr ⟨s, hs, hce⟩
  · cases hce

theorem lt_length_of_definition {symbols : List Symbol} {id : ℕ} (h : (definition symbols id).isSome) :
    id < symbols.length := by
  obtain ⟨ce, hce⟩ := Option.isSome_iff_exists.mp h
  obtain ⟨s, hs, -⟩ := Option.bind_eq_some_iff.mp hce
  exact (List.getElem?_eq_some_iff.mp hs).1

/-- A program without divisions does not overflow a stack that has room for all of its definitions. -/
theorem not_programOverflows_of_divisionless (hparse : parse undef fuel source = .ok pd)
    (hdivides : ∀ s ∈ source, ∀ e ∈ s.exprs, e.divides = false) (hfuel : pd.symbols.length ≤ fuel) :
    ¬ ProgramOverflows undef fuel source := by
  rintro ⟨env, relocate, context, e, hevaluated, hoverflows⟩
  have hpd := parse_divisionless hdivides hparse
  have hback := parse_backward hparse
  revert hoverflows
  cases hevaluated with
  | parsing hupto he =>
    obtain ⟨before, after, rfl, h₀⟩ := hupto
    obtain ⟨x, hx, asExpr, hpart⟩ := Statement.of_mem_reduced he
    have hdivides₀ := parse_divisionless (fun s hs ↦ hdivides s (List.mem_append_left _ hs)) h₀
    apply (hdivides₀.env (parse_backward h₀) fun _ _ h ↦ h).not_overflows
    · apply (ConstExpr.of_mem_reduced hpart).1
      rw [ConstExpr.divides_map]
      exact hdivides _ (List.mem_append_right _ List.mem_cons_self) x hx
    · intro id _ hdef
      obtain ⟨symbols, hsymbols⟩ := parse_append hparse h₀
      have hlength := congrArg List.length hsymbols
      rw [List.length_append] at hlength
      refine (lt_length_of_definition hdef).trans_le (le_trans ?_ hfuel)
      rw [hlength]
      exact Nat.le_add_right _ _
  | definition hparse' hdef =>
    obtain rfl := Except.ok.inj (hparse.symm.trans hparse')
    obtain ⟨s, hs, hce⟩ := Option.bind_eq_some_iff.mp hdef
    have henv : ∀ id ce, Asm.definition pd.finalEnv.symbols id = some ce → Asm.definition pd.symbols id = some ce :=
      fun id ce h ↦ (definition_labels pd id).symm.trans h
    apply (hpd.env hback henv).not_overflows (hpd.symbols s (List.mem_of_getElem? hs) _ hce)
    intro id' _ hdef'
    obtain ⟨ce', hce'⟩ := Option.isSome_iff_exists.mp hdef'
    exact (lt_length_of_definition (henv id' ce' hce' ▸ rfl)).trans_le hfuel
  | element hparse' he hd =>
    obtain rfl := Except.ok.inj (hparse.symm.trans hparse')
    apply (hpd.env hback fun _ _ ↦ definition_foundEnv).not_overflows (hpd.elems _ (List.mem_of_getElem? he) _ hd)
    intro id' _ hdef'
    obtain ⟨ce', hce'⟩ := Option.isSome_iff_exists.mp hdef'
    exact (lt_length_of_definition (definition_foundEnv hce' ▸ rfl)).trans_le hfuel

end

end Tenyr.Asm
