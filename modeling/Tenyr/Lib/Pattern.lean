import Mathlib.Computability.Language

/-!
# Patterns and longest matches

Regular expressions over sets of letters, and lists of rules that have a pattern each: of the rules that
match the most of a text, the first one is taken. Derivatives decide what matches.
-/

namespace Tenyr.Lib

open Computability

inductive Pattern (α : Type) where
  | never
  | blank
  | one (p : α → Bool)
  | seq (a b : Pattern α)
  | alt (a b : Pattern α)
  | many (a : Pattern α)
  | upTo (n : ℕ) (a : Pattern α)

namespace Pattern

variable {α : Type} {a b : Pattern α} {c : α} {x : List α}

def language : Pattern α → Language α
  | never => 0
  | blank => 1
  | one p => {x | ∃ c, p c = true ∧ x = [c]}
  | seq a b => a.language * b.language
  | alt a b => a.language + b.language
  | many a => a.language∗
  | upTo n a => (1 + a.language) ^ n

def oneOrMore (a : Pattern α) : Pattern α := seq a (many a)

def isNever : Pattern α → Bool
  | never => true
  | _ => false

def nullable : Pattern α → Bool
  | never | one _ => false
  | blank | many _ | upTo _ _ => true
  | seq a b => a.nullable && b.nullable
  | alt a b => a.nullable || b.nullable

/-- `seq`, simplified. -/
def andThen : Pattern α → Pattern α → Pattern α
  | never, _ => never
  | blank, b => b
  | a, b => seq a b

/-- `alt`, simplified. -/
def orElse : Pattern α → Pattern α → Pattern α
  | never, b => b
  | a, never => a
  | a, b => alt a b

/-- What is left to match after a letter. -/
def deriv (c : α) : Pattern α → Pattern α
  | never | blank | upTo 0 _ => never
  | one p => if p c then blank else never
  | seq a b => if a.nullable then ((a.deriv c).andThen b).orElse (b.deriv c) else (a.deriv c).andThen b
  | alt a b => (a.deriv c).orElse (b.deriv c)
  | many a => (a.deriv c).andThen (many a)
  | upTo (n + 1) a => (a.deriv c).andThen (upTo n a)

theorem language_andThen (a b : Pattern α) : (a.andThen b).language = a.language * b.language := by
  cases a with
  | never => exact (zero_mul _).symm
  | blank => exact (one_mul _).symm
  | one | seq | alt | many | upTo => rfl

theorem language_orElse (a b : Pattern α) : (a.orElse b).language = a.language + b.language := by
  cases a with
  | never => exact (zero_add _).symm
  | blank | one | seq | alt | many | upTo =>
    cases b with
    | never => exact (add_zero _).symm
    | blank | one | seq | alt | many | upTo => rfl

theorem nil_mem_one_add_pow (l : Language α) (n : ℕ) : [] ∈ (1 + l) ^ n := by
  induction n with
  | zero => exact Language.nil_mem_one
  | succ n ih =>
    rw [pow_succ]
    exact Language.append_mem_mul ih (Or.inl Language.nil_mem_one)

theorem nullable_iff (a : Pattern α) : a.nullable = true ↔ [] ∈ a.language := by
  induction a with
  | never => exact iff_of_false Bool.false_ne_true (Language.notMem_zero _)
  | blank => exact iff_of_true rfl Language.nil_mem_one
  | one p =>
    refine iff_of_false Bool.false_ne_true ?_
    rintro ⟨c, -, h⟩
    exact List.cons_ne_nil _ _ h.symm
  | seq a b iha ihb =>
    rw [nullable, Bool.and_eq_true, iha, ihb, language, Language.mem_mul]
    constructor
    · rintro ⟨ha, hb⟩
      exact ⟨[], ha, [], hb, rfl⟩
    · rintro ⟨u, hu, v, hv, huv⟩
      obtain ⟨rfl, rfl⟩ := List.append_eq_nil_iff.mp huv
      exact ⟨hu, hv⟩
  | alt a b iha ihb => rw [nullable, Bool.or_eq_true, iha, ihb, language, Language.mem_add]
  | many a => exact iff_of_true rfl (Language.nil_mem_kstar _)
  | upTo n a => exact iff_of_true rfl (nil_mem_one_add_pow _ _)

/-- A product starts in its first factor, or in its second if the first is empty. -/
theorem cons_mem_mul_iff {l m : Language α} :
    c :: x ∈ l * m ↔ (∃ u v, c :: u ∈ l ∧ v ∈ m ∧ u ++ v = x) ∨ ([] ∈ l ∧ c :: x ∈ m) := by
  rw [Language.mem_mul]
  constructor
  · rintro ⟨u, hu, v, hv, huv⟩
    cases u with
    | nil => exact .inr ⟨hu, huv ▸ hv⟩
    | cons d u =>
      obtain ⟨rfl, rfl⟩ := List.cons.inj huv
      exact .inl ⟨u, v, hu, hv, rfl⟩
  · rintro (⟨u, v, hu, hv, rfl⟩ | ⟨hl, hm⟩)
    · exact ⟨c :: u, hu, v, hv, rfl⟩
    · exact ⟨[], hl, c :: x, hm, rfl⟩

theorem cons_mem_kstar_iff {l : Language α} :
    c :: x ∈ l∗ ↔ ∃ u v, c :: u ∈ l ∧ v ∈ l∗ ∧ u ++ v = x := by
  constructor
  · intro h
    obtain ⟨parts, hparts, hmem⟩ := Language.mem_kstar_iff_exists_nonempty.mp h
    cases parts with
    | nil => exact absurd hparts (List.cons_ne_nil _ _)
    | cons part parts =>
      obtain ⟨hpart, hne⟩ := hmem part List.mem_cons_self
      obtain ⟨d, u, rfl⟩ := List.exists_cons_of_ne_nil hne
      obtain ⟨rfl, rfl⟩ := List.cons.inj hparts
      refine ⟨u, parts.flatten, hpart, ?_, rfl⟩
      exact Language.join_mem_kstar fun y hy ↦ (hmem y (List.mem_cons_of_mem _ hy)).1
  · rintro ⟨u, v, hu, hv, rfl⟩
    exact Set.mem_of_mem_of_subset (Language.append_mem_mul hu hv) (mul_kstar_le_kstar (a := l))

theorem cons_mem_one_add_pow_iff {l : Language α} {n : ℕ} :
    c :: x ∈ (1 + l) ^ (n + 1) ↔ ∃ u v, c :: u ∈ l ∧ v ∈ (1 + l) ^ n ∧ u ++ v = x := by
  have hone : ∀ {u}, c :: u ∈ 1 + l ↔ c :: u ∈ l := fun {u} ↦
    or_iff_right (List.cons_ne_nil c u)
  induction n generalizing x with
  | zero =>
    rw [zero_add, pow_one, pow_zero, hone]
    constructor
    · exact fun h ↦ ⟨x, [], h, Language.nil_mem_one, List.append_nil x⟩
    · rintro ⟨u, v, hu, rfl, rfl⟩
      rwa [List.append_nil]
  | succ n ih =>
    rw [pow_succ' _ (n + 1), cons_mem_mul_iff]
    constructor
    · rintro (⟨u, v, hu, hv, rfl⟩ | ⟨-, h⟩)
      · exact ⟨u, v, hone.mp hu, hv, rfl⟩
      · obtain ⟨u, v, hu, hv, rfl⟩ := ih.mp h
        refine ⟨u, v, hu, ?_, rfl⟩
        have hnil : [] ∈ 1 + l := Or.inl Language.nil_mem_one
        rw [pow_succ']
        exact Language.append_mem_mul hnil hv
    · rintro ⟨u, v, hu, hv, rfl⟩
      exact .inl ⟨u, v, hone.mpr hu, hv, rfl⟩

theorem mem_language_deriv (a : Pattern α) (c : α) (x : List α) :
    x ∈ (a.deriv c).language ↔ c :: x ∈ a.language := by
  have hcut : ∀ {a b : Pattern α}, (∀ u, u ∈ (a.deriv c).language ↔ c :: u ∈ a.language) →
      ∀ {x}, x ∈ ((a.deriv c).andThen b).language ↔
        ∃ u v, c :: u ∈ a.language ∧ v ∈ b.language ∧ u ++ v = x := by
    intro a b ih x
    rw [language_andThen, Language.mem_mul]
    constructor
    · rintro ⟨u, hu, v, hv, huv⟩
      exact ⟨u, v, (ih u).mp hu, hv, huv⟩
    · rintro ⟨u, v, hu, hv, huv⟩
      exact ⟨u, (ih u).mpr hu, v, hv, huv⟩
  induction a generalizing x with
  | never => exact iff_of_false (Language.notMem_zero _) (Language.notMem_zero _)
  | blank => exact iff_of_false (Language.notMem_zero _) (List.cons_ne_nil _ _)
  | one p =>
    rw [deriv]
    split
    · rename_i hp
      constructor
      · rintro rfl
        exact ⟨c, hp, rfl⟩
      · rintro ⟨d, -, h⟩
        exact (List.cons.inj h).2
    · rename_i hp
      refine iff_of_false (Language.notMem_zero _) ?_
      rintro ⟨d, hd, h⟩
      exact hp ((List.cons.inj h).1 ▸ hd)
  | seq a b iha ihb =>
    rw [deriv, language, cons_mem_mul_iff]
    split
    · rename_i hnull
      rw [language_orElse, Language.mem_add, hcut fun u ↦ iha u]
      exact or_congr_right ((ihb x).trans (and_iff_right ((nullable_iff a).mp hnull)).symm)
    · rename_i hnull
      rw [hcut fun u ↦ iha u]
      exact (or_iff_left fun h ↦ hnull ((nullable_iff a).mpr h.1)).symm
  | alt a b iha ihb =>
    rw [deriv, language_orElse, language, Language.mem_add, Language.mem_add]
    exact or_congr (iha x) (ihb x)
  | many a ih => exact (hcut ih).trans cons_mem_kstar_iff.symm
  | upTo n a ih =>
    cases n with
    | zero => exact iff_of_false (Language.notMem_zero _) (List.cons_ne_nil _ _)
    | succ n => exact (hcut ih).trans cons_mem_one_add_pow_iff.symm

end Pattern

/-! ## Rules -/

/-- The first rule that matches all of what has been read. -/
def accepted {α β : Type} (rules : List (β × Pattern α)) : Option β :=
  (rules.find? fun rule ↦ rule.2.nullable).map Prod.fst

/-- What is left of the rules after a letter. -/
def advance {α β : Type} (rules : List (β × Pattern α)) (c : α) : List (β × Pattern α) :=
  (rules.map fun rule ↦ (rule.1, rule.2.deriv c)).filter fun rule ↦ !rule.2.isNever

/-- The first of the rules that match the most of a text, and how much they match. -/
def longest {α β : Type} : List (β × Pattern α) → List α → Option (β × ℕ)
  | [], _ => none
  | rules, [] => (accepted rules).map fun b ↦ (b, 0)
  | rules, c :: text =>
    match longest (advance rules c) text with
    | some (b, n) => some (b, n + 1)
    | none => (accepted rules).map fun b ↦ (b, 0)

/-- The first rule that matches all of a text. -/
def FirstMatch {α β : Type} (rules : List (β × Pattern α)) (text : List α) (b : β) : Prop :=
  ∃ before p after, rules = before ++ (b, p) :: after ∧ text ∈ p.language ∧
    ∀ rule ∈ before, text ∉ rule.2.language

section

variable {α β : Type} {rules : List (β × Pattern α)} {b : β} {c : α} {n : ℕ} {text : List α}

@[simp]
theorem longest_nil_left (text : List α) : longest ([] : List (β × Pattern α)) text = none := by
  rw [longest]

theorem longest_nil_right (rules : List (β × Pattern α)) :
    longest rules [] = (accepted rules).map fun b ↦ (b, 0) := by
  cases rules <;> rfl

theorem longest_cons (rules : List (β × Pattern α)) (c : α) (text : List α) :
    longest rules (c :: text) = match longest (advance rules c) text with
      | some (b, n) => some (b, n + 1)
      | none => (accepted rules).map fun b ↦ (b, 0) := by
  cases rules with
  | nil =>
    have hnone : longest (advance ([] : List (β × Pattern α)) c) text = none := longest_nil_left text
    rw [longest_nil_left, hnone]
    rfl
  | cons => rfl

theorem firstMatch_nil_iff : FirstMatch rules [] b ↔ accepted rules = some b := by
  rw [accepted, Option.map_eq_some_iff]
  simp only [List.find?_eq_some_iff_append, Pattern.nullable_iff]
  constructor
  · rintro ⟨before, p, after, hrules, hp, hbefore⟩
    refine ⟨(b, p), ⟨hp, before, after, hrules, ?_⟩, rfl⟩
    intro rule hrule
    rw [Bool.not_eq_true', Bool.eq_false_iff, Ne, Pattern.nullable_iff]
    exact hbefore rule hrule
  · rintro ⟨⟨b, p⟩, ⟨hp, before, after, hrules, hbefore⟩, rfl⟩
    refine ⟨before, p, after, hrules, hp, ?_⟩
    intro rule hrule h
    have hnot := hbefore rule hrule
    rw [Bool.not_eq_true', Bool.eq_false_iff, Ne, Pattern.nullable_iff] at hnot
    exact hnot h

theorem not_firstMatch_nil : ¬FirstMatch ([] : List (β × Pattern α)) text b := by
  rintro ⟨before, p, after, h, -⟩
  exact List.append_ne_nil_of_right_ne_nil before (List.cons_ne_nil _ _) h.symm

/-- The first rule of a list, or the first one of the rest. -/
theorem firstMatch_cons_iff {rule : β × Pattern α} :
    FirstMatch (rule :: rules) text b ↔
      (text ∈ rule.2.language ∧ rule.1 = b) ∨ (text ∉ rule.2.language ∧ FirstMatch rules text b) := by
  constructor
  · rintro ⟨before, p, after, hrules, hp, hbefore⟩
    cases before with
    | nil =>
      obtain ⟨rfl, -⟩ := List.cons.inj hrules
      exact .inl ⟨hp, rfl⟩
    | cons rule' before =>
      obtain ⟨rfl, rfl⟩ := List.cons.inj hrules
      refine .inr ⟨hbefore _ List.mem_cons_self, before, p, after, rfl, hp, ?_⟩
      exact fun r hr ↦ hbefore r (List.mem_cons_of_mem _ hr)
  · rintro (⟨hrule, rfl⟩ | ⟨hrule, before, p, after, rfl, hp, hbefore⟩)
    · exact ⟨[], rule.2, rules, rfl, hrule, fun r hr ↦ absurd hr List.not_mem_nil⟩
    · refine ⟨rule :: before, p, after, rfl, hp, ?_⟩
      intro r hr
      rcases List.mem_cons.mp hr with rfl | hr
      · exact hrule
      · exact hbefore r hr

theorem firstMatch_advance_iff : FirstMatch (advance rules c) text b ↔ FirstMatch rules (c :: text) b := by
  induction rules with
  | nil => exact iff_of_false not_firstMatch_nil not_firstMatch_nil
  | cons rule rules ih =>
    have hderiv := Pattern.mem_language_deriv rule.2 c text
    rw [firstMatch_cons_iff, ← hderiv, ← ih]
    by_cases hnever : (rule.2.deriv c).isNever = true
    · have hskip : advance (rule :: rules) c = advance rules c :=
        List.filter_cons_of_neg (by simpa using hnever)
      have hempty : text ∉ (rule.2.deriv c).language := by
        intro h
        cases hd : rule.2.deriv c with
        | never =>
          rw [hd] at h
          exact Language.notMem_zero _ h
        | blank | one | seq | alt | many | upTo =>
          rw [hd] at hnever
          exact Bool.false_ne_true hnever
      rw [hskip]
      simp only [hempty, false_and, not_false_eq_true, true_and, false_or]
    · have hkeep : advance (rule :: rules) c = (rule.1, rule.2.deriv c) :: advance rules c :=
        List.filter_cons_of_pos (by simpa using hnever)
      rw [hkeep, firstMatch_cons_iff]

theorem firstMatch_take_cons_iff {m : ℕ} :
    FirstMatch rules ((c :: text).take (m + 1)) b ↔ FirstMatch (advance rules c) (text.take m) b := by
  rw [List.take_succ_cons, firstMatch_advance_iff]

theorem longest_eq_none_iff :
    longest rules text = none ↔ ∀ m ≤ text.length, ∀ b, ¬FirstMatch rules (text.take m) b := by
  induction text generalizing rules with
  | nil =>
    rw [longest_nil_right, Option.map_eq_none_iff]
    constructor
    · intro h m _ b hfirst
      rw [List.take_nil, firstMatch_nil_iff, h] at hfirst
      cases hfirst
    · intro h
      exact Option.eq_none_iff_forall_ne_some.mpr fun b hb ↦ h 0 le_rfl b (firstMatch_nil_iff.mpr hb)
  | cons c text ih =>
    rw [longest_cons]
    cases hrest : longest (advance rules c) text with
    | some found =>
      refine iff_of_false (Option.some_ne_none _) fun h ↦ ?_
      have hnone : longest (advance rules c) text = none :=
        ih.mpr fun m hm b hfirst ↦ h (m + 1) (Nat.succ_le_succ hm) b (firstMatch_take_cons_iff.mpr hfirst)
      rw [hnone] at hrest
      cases hrest
    | none =>
      rw [Option.map_eq_none_iff]
      constructor
      · intro h m hm b hfirst
        cases m with
        | zero =>
          rw [List.take_zero, firstMatch_nil_iff, h] at hfirst
          cases hfirst
        | succ m => exact ih.mp hrest m (Nat.le_of_succ_le_succ hm) b (firstMatch_take_cons_iff.mp hfirst)
      · intro h
        exact Option.eq_none_iff_forall_ne_some.mpr
          fun b hb ↦ h 0 (Nat.zero_le _) b (firstMatch_nil_iff.mpr hb)

/-- `longest` finds the longest match, and of the rules that match as much the first one. -/
theorem longest_eq_some_iff : longest rules text = some (b, n) ↔
    n ≤ text.length ∧ FirstMatch rules (text.take n) b ∧
      ∀ m, n < m → m ≤ text.length → ∀ b', ¬FirstMatch rules (text.take m) b' := by
  induction text generalizing rules b n with
  | nil =>
    rw [longest_nil_right, Option.map_eq_some_iff]
    constructor
    · rintro ⟨b, hb, h⟩
      obtain ⟨rfl, rfl⟩ := Prod.mk.inj h
      exact ⟨le_rfl, firstMatch_nil_iff.mpr hb, fun m hm hle ↦ absurd hle (Nat.not_le_of_lt hm)⟩
    · rintro ⟨hn, hfirst, -⟩
      obtain rfl : n = 0 := Nat.le_zero.mp hn
      exact ⟨b, firstMatch_nil_iff.mp hfirst, rfl⟩
  | cons c text ih =>
    rw [longest_cons]
    cases hrest : longest (advance rules c) text with
    | some found =>
      obtain ⟨b₀, n₀⟩ := found
      obtain ⟨hn₀, hfirst₀, hlonger₀⟩ := ih.mp hrest
      constructor
      · intro h
        obtain ⟨rfl, rfl⟩ := Prod.mk.inj (Option.some.inj h)
        refine ⟨Nat.succ_le_succ hn₀, firstMatch_take_cons_iff.mpr hfirst₀, ?_⟩
        intro m hm hle b' hfirst
        obtain ⟨m, rfl⟩ : ∃ m', m = m' + 1 := ⟨m - 1, by omega⟩
        exact hlonger₀ m (Nat.lt_of_succ_lt_succ hm) (Nat.le_of_succ_le_succ hle) b'
          (firstMatch_take_cons_iff.mp hfirst)
      · rintro ⟨hn, hfirst, hlonger⟩
        cases n with
        | zero =>
          exact absurd (firstMatch_take_cons_iff.mpr hfirst₀)
            (hlonger (n₀ + 1) (Nat.succ_pos _) (Nat.succ_le_succ hn₀) b₀)
        | succ n =>
          have hsome : longest (advance rules c) text = some (b, n) := by
            refine ih.mpr ⟨Nat.le_of_succ_le_succ hn, firstMatch_take_cons_iff.mp hfirst, ?_⟩
            intro m hm hle b' hfirst'
            exact hlonger (m + 1) (Nat.succ_lt_succ hm) (Nat.succ_le_succ hle) b'
              (firstMatch_take_cons_iff.mpr hfirst')
          rw [hsome] at hrest
          obtain ⟨rfl, rfl⟩ := Prod.mk.inj (Option.some.inj hrest)
          rfl
    | none =>
      have hnothing := longest_eq_none_iff.mp hrest
      rw [Option.map_eq_some_iff]
      constructor
      · rintro ⟨b, hb, h⟩
        obtain ⟨rfl, rfl⟩ := Prod.mk.inj h
        refine ⟨Nat.zero_le _, firstMatch_nil_iff.mpr hb, ?_⟩
        intro m hm hle b' hfirst
        obtain ⟨m, rfl⟩ : ∃ m', m = m' + 1 := ⟨m - 1, by omega⟩
        exact hnothing m (Nat.le_of_succ_le_succ hle) b' (firstMatch_take_cons_iff.mp hfirst)
      · rintro ⟨hn, hfirst, -⟩
        cases n with
        | zero => exact ⟨b, firstMatch_nil_iff.mp hfirst, rfl⟩
        | succ n =>
          exact absurd (firstMatch_take_cons_iff.mp hfirst) (hnothing n (Nat.le_of_succ_le_succ hn) b)

/-- A text that is accepted is the longest match if no rule is left at the letter behind it. -/
theorem longest_append (hacc : accepted (text.foldl advance rules) = some b)
    (hdead : advance (text.foldl advance rules) c = []) (rest : List α) :
    longest rules (text ++ c :: rest) = some (b, text.length) := by
  induction text generalizing rules with
  | nil =>
    rw [List.nil_append, longest_cons, show advance rules c = [] from hdead, longest_nil_left]
    exact congrArg (Option.map _) hacc
  | cons d text ih =>
    rw [List.cons_append, longest_cons, ih hacc hdead]
    rfl

/-- The same at the end of a text as well, if no letter leaves a rule. -/
theorem longest_append_of_closed (hacc : accepted (text.foldl advance rules) = some b)
    (hdead : ∀ c, advance (text.foldl advance rules) c = []) (rest : List α) :
    longest rules (text ++ rest) = some (b, text.length) := by
  cases rest with
  | cons c rest => exact longest_append hacc (hdead c) rest
  | nil =>
    rw [List.append_nil]
    clear hdead
    induction text generalizing rules with
    | nil =>
      rw [longest_nil_right]
      exact congrArg (Option.map _) hacc
    | cons d text ih =>
      rw [longest_cons, ih hacc]
      rfl

theorem advance_many_one (p : α → Bool) (b : β) (c : α) :
    advance [(b, .many (.one p))] c = if p c then [(b, .many (.one p))] else [] := by
  cases hc : p c <;> simp [advance, Pattern.deriv, hc, Pattern.andThen, Pattern.isNever]

theorem longest_many_one (p : α → Bool) (b : β) (text : List α) :
    longest [(b, .many (.one p))] text = some (b, (text.takeWhile p).length) := by
  induction text with
  | nil => rfl
  | cons c text ih =>
    rw [longest_cons, advance_many_one]
    cases hc : p c with
    | true => simp [ih, hc]
    | false => simp [hc, accepted, Pattern.nullable]

/-- Letters of one kind leave a rule for any number of them as it is. -/
theorem foldl_advance_many_one {p : α → Bool} (h : ∀ c ∈ text, p c = true) :
    text.foldl advance [(b, .many (.one p))] = [(b, .many (.one p))] := by
  induction text with
  | nil => rfl
  | cons c text ih =>
    rw [List.foldl_cons, advance_many_one, if_pos (h c List.mem_cons_self)]
    exact ih fun d hd ↦ h d (List.mem_cons_of_mem c hd)

end

end Tenyr.Lib
