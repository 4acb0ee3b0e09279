import Mathlib.Data.List.Basic
import Mathlib.Data.Vector.Basic

/-!
# Readers that invert writers

A reader takes values off the front of a stream and knows its position. It inverts a writer when it
accepts what is written for good values, and what it takes off is always what would be written. What is
good can depend on the position, so that limits on it can be checked in the middle of a format.
-/

namespace Tenyr.Lib.Codec

/-- A stream that is being read: the position, and what is left. -/
structure Stream (β : Type) where
  pos : ℕ
  rest : List β

/-- A reader of values in `α` that stops with errors in `ε`. -/
abbrev Reader (β ε α : Type) := StateT (Stream β) (Except ε) α

variable {β ε α γ : Type}

/-- Good values and nothing else are read, and just from what is written for them. -/
structure Inverts (read : Reader β ε α) (write : α → List β) (good : ℕ → α → Prop) : Prop where
  complete : ∀ {pos a}, good pos a → ∀ rest,
    read { pos, rest := write a ++ rest } = .ok (a, { pos := pos + (write a).length, rest })
  sound : ∀ {s a s'}, read s = .ok (a, s') →
    good s.pos a ∧ s.rest = write a ++ s'.rest ∧ s'.pos = s.pos + (write a).length

/-- The same codec with its writer and its good values described in other words. -/
theorem Inverts.congr {read : Reader β ε α} {write write' : α → List β} {good good' : ℕ → α → Prop}
    (h : Inverts read write good) (hgood : ∀ pos a, good pos a ↔ good' pos a)
    (hwrite : ∀ pos a, good' pos a → write a = write' a) : Inverts read write' good' where
  complete := by
    intro pos a ha rest
    rw [← hwrite pos a ha]
    exact h.complete ((hgood pos a).mpr ha) rest
  sound := by
    intro s a s' hread
    obtain ⟨ha, hrest, hpos⟩ := h.sound hread
    have ha' := (hgood s.pos a).mp ha
    rw [hwrite s.pos a ha'] at hrest hpos
    exact ⟨ha', hrest, hpos⟩

/-- Reading nothing. -/
theorem Inverts.pure (a : α) :
    Inverts (Pure.pure a : Reader β ε α) (fun _ ↦ []) (fun _ b ↦ b = a) where
  complete := by
    rintro pos b rfl rest
    rfl
  sound := by
    intro s b s' hread
    obtain ⟨rfl, rfl⟩ := Prod.mk.inj (Except.ok.inj hread)
    exact ⟨rfl, rfl, rfl⟩

/-- Stop unless the position is as it should be. -/
def check (p : ℕ → Prop) [DecidablePred p] (stop : ε) : Reader β ε Unit :=
  fun s ↦ if p s.pos then .ok ((), s) else .error stop

theorem Inverts.check {p : ℕ → Prop} {_ : DecidablePred p} {stop : ε} :
    Inverts (Codec.check p stop : Reader β ε Unit) (fun _ ↦ []) (fun pos _ ↦ p pos) where
  complete := by
    intro pos _ hp rest
    exact if_pos hp
  sound := by
    intro s _ s' hread
    rw [Codec.check] at hread
    split at hread
    · rename_i hp
      obtain ⟨_, rfl⟩ := Prod.mk.inj (Except.ok.inj hread)
      exact ⟨hp, rfl, rfl⟩
    · cases hread

/-- One codec after another. The second can depend on what the first read, which is part of what is
read in total. -/
theorem Inverts.bind {read : Reader β ε α} {next : α → Reader β ε γ} {write : α → List β}
    {write' : α → γ → List β} {good : ℕ → α → Prop} {good' : α → ℕ → γ → Prop} (fst : γ → α)
    (h : Inverts read write good) (h' : ∀ a, Inverts (next a) (write' a) (good' a))
    (hfst : ∀ a pos c, good' a pos c → fst c = a) :
    Inverts (read >>= next) (fun c ↦ write (fst c) ++ write' (fst c) c)
      (fun pos c ↦ good pos (fst c) ∧ good' (fst c) (pos + (write (fst c)).length) c) where
  complete := by
    rintro pos c ⟨hfirst, hrest⟩ rest
    change (read _ >>= fun result ↦ next result.1 result.2) = _
    rw [List.append_assoc, h.complete hfirst]
    change next _ _ = _
    rw [(h' (fst c)).complete hrest, List.length_append, Nat.add_assoc]
  sound := by
    intro s c s' hread
    change (read s >>= fun result ↦ next result.1 result.2) = _ at hread
    cases hfirst : read s with
    | error stop =>
      rw [hfirst] at hread
      cases hread
    | ok result =>
      obtain ⟨a, s₁⟩ := result
      rw [hfirst] at hread
      obtain ⟨ha, hrest, hpos⟩ := h.sound hfirst
      obtain ⟨hc, hrest', hpos'⟩ := (h' a).sound hread
      obtain rfl := hfst a s₁.pos c hc
      rw [hpos] at hc
      refine ⟨⟨ha, hc⟩, ?_, ?_⟩
      · rw [hrest, hrest', List.append_assoc]
      · rw [hpos', hpos, List.length_append, Nat.add_assoc]

/-- Reading another representation of the same values. -/
theorem Inverts.map {read : Reader β ε α} {write : α → List β} {good : ℕ → α → Prop} (e : α ≃ γ)
    (h : Inverts read write good) :
    Inverts (e <$> read) (fun c ↦ write (e.symm c)) (fun pos c ↦ good pos (e.symm c)) where
  complete := by
    intro pos c hc rest
    change (read _ >>= fun result ↦ Except.ok (e result.1, result.2)) = _
    rw [h.complete hc]
    change Except.ok (e (e.symm c), _) = _
    rw [Equiv.apply_symm_apply]
  sound := by
    intro s c s' hread
    change (read s >>= fun result ↦ Except.ok (e result.1, result.2)) = _ at hread
    cases hfirst : read s with
    | error stop =>
      rw [hfirst] at hread
      cases hread
    | ok result =>
      obtain ⟨a, s₁⟩ := result
      rw [hfirst] at hread
      obtain ⟨rfl, rfl⟩ := Prod.mk.inj (Except.ok.inj hread)
      dsimp only
      rw [Equiv.symm_apply_apply]
      exact h.sound hfirst

/-! ## Blocks and lists -/

/-- The next `n` items. -/
def block (n : ℕ) (stop : ε) : Reader β ε (List.Vector β n) :=
  fun s ↦
    if h : (s.rest.take n).length = n then
      .ok (⟨s.rest.take n, h⟩, { pos := s.pos + n, rest := s.rest.drop n })
    else .error stop

theorem Inverts.block (n : ℕ) (stop : ε) :
    Inverts (Codec.block n stop : Reader β ε (List.Vector β n)) List.Vector.toList
      (fun _ _ ↦ True) where
  complete := by
    intro pos a _ rest
    have hlength : a.toList.length = n := a.toList_length
    have htake : (a.toList ++ rest).take n = a.toList := List.take_left' hlength
    rw [Codec.block, dif_pos (by rw [htake, hlength])]
    congr 2
    · exact Subtype.ext htake
    · rw [hlength, List.drop_left' hlength]
  sound := by
    intro s a s' hread
    rw [Codec.block] at hread
    split at hread
    · rename_i hlength
      obtain ⟨rfl, rfl⟩ := Prod.mk.inj (Except.ok.inj hread)
      refine ⟨trivial, ?_, ?_⟩
      · exact (List.take_append_drop n s.rest).symm
      · exact congrArg (s.pos + ·) hlength.symm
    · cases hread

/-- `n` values, one after another. -/
def many (read : Reader β ε α) : ℕ → Reader β ε (List α)
  | 0 => Pure.pure []
  | n + 1 => do
    let a ← read
    let rest ← many read n
    Pure.pure (a :: rest)

/-- Every value is good at the position it is written to. -/
def GoodFrom (write : α → List β) (good : ℕ → α → Prop) : ℕ → List α → Prop
  | _, [] => True
  | pos, a :: rest => good pos a ∧ GoodFrom write good (pos + (write a).length) rest

theorem Inverts.many {read : Reader β ε α} {write : α → List β} {good : ℕ → α → Prop}
    (h : Inverts read write good) (n : ℕ) :
    Inverts (Codec.many read n) (fun as ↦ as.flatMap write)
      (fun pos as ↦ as.length = n ∧ GoodFrom write good pos as) := by
  induction n with
  | zero =>
    apply (Inverts.pure ([] : List α)).congr
    · intro pos as
      constructor
      · rintro rfl
        exact ⟨rfl, trivial⟩
      · rintro ⟨hlength, _⟩
        exact List.length_eq_zero_iff.mp hlength
    · rintro pos as ⟨hlength, _⟩
      rw [List.length_eq_zero_iff.mp hlength]
      rfl
  | succ n ih =>
    refine ⟨?_, ?_⟩
    · rintro pos as ⟨hlength, hgood⟩ rest
      cases as with
      | nil => cases hlength
      | cons a as =>
        obtain ⟨ha, has⟩ := hgood
        change (read _ >>= fun result ↦ Codec.many read n result.2 >>= fun results ↦
          Except.ok (result.1 :: results.1, results.2)) = _
        rw [List.flatMap_cons, List.append_assoc, h.complete ha]
        change (Codec.many read n _ >>= fun results ↦ Except.ok (a :: results.1, results.2)) = _
        rw [ih.complete ⟨Nat.succ.inj hlength, has⟩, List.length_append, ← Nat.add_assoc]
        rfl
    · intro s as s' hread
      change (read s >>= fun result ↦ Codec.many read n result.2 >>= fun results ↦
        Except.ok (result.1 :: results.1, results.2)) = _ at hread
      cases hfirst : read s with
      | error stop =>
        rw [hfirst] at hread
        cases hread
      | ok result =>
        obtain ⟨a, s₁⟩ := result
        rw [hfirst] at hread
        change (Codec.many read n s₁ >>= fun results ↦ Except.ok (a :: results.1, results.2)) = _
          at hread
        cases hothers : Codec.many read n s₁ with
        | error stop =>
          rw [hothers] at hread
          cases hread
        | ok results =>
          obtain ⟨others, s₂⟩ := results
          rw [hothers] at hread
          obtain ⟨rfl, rfl⟩ := Prod.mk.inj (Except.ok.inj hread)
          obtain ⟨ha, hrest, hpos⟩ := h.sound hfirst
          obtain ⟨⟨hlength, hgood⟩, hrest', hpos'⟩ := ih.sound hothers
          refine ⟨⟨congrArg Nat.succ hlength, ha, ?_⟩, ?_, ?_⟩
          · rw [← hpos]
            exact hgood
          · rw [List.flatMap_cons, hrest, hrest', List.append_assoc]
          · rw [List.flatMap_cons, hpos', hpos, List.length_append, Nat.add_assoc]

/-- Where the position does not matter, good lists are lists of good values. -/
theorem goodFrom_iff {write : α → List β} {p : α → Prop} (pos : ℕ) (as : List α) :
    GoodFrom write (fun _ ↦ p) pos as ↔ ∀ a ∈ as, p a := by
  induction as generalizing pos with
  | nil => simp [GoodFrom]
  | cons a as ih => simp [GoodFrom, ih]

end Tenyr.Lib.Codec
