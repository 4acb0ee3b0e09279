import Mathlib.Data.List.Find
import Tenyr.Asm.Lookup

/-!
# Names that are too long

The lexer accepts local labels of up to 33 characters. A reference to a label that is defined before it
is bound to a symbol whose first 32 characters agree; any other reference keeps 31 characters of its
name. Both are looked up once more by a comparison of 32 characters when expressions are fixed up.
-/

namespace Tenyr.Asm

open Isa Obj

/-! ## The lexer -/

/-- `[A-Z0-9_]`, in either case. -/
def isWordChar (c : Char) : Bool := c.isAlphanum || c == '_'

/-- `symbol`: `[A-Z_][A-Z0-9_]{1,30}`, or `[Q-Z_][A-Z0-9_]{0,30}` to avoid the names of registers. -/
def isSymbol : Name → Bool
  | [] => false
  | c :: rest =>
    rest.all isWordChar && decide (rest.length ≤ 30) &&
      ((c.isAlpha || c == '_') && !rest.isEmpty || decide ('Q' ≤ c.toUpper ∧ c.toUpper ≤ 'Z') || c == '_')

/-- `local`: `\.L[A-Z0-9_]{1,31}` -/
def isLocal : Name → Bool
  | '.' :: l :: rest => (l == 'L' || l == 'l') && rest.all isWordChar && !rest.isEmpty &&
      decide (rest.length ≤ 31)
  | _ => false

theorem length_of_isSymbol {name : Name} (h : isSymbol name = true) : name.length < symbolLen := by
  cases name with
  | nil => decide
  | cons c rest =>
    simp only [isSymbol, Bool.and_eq_true, decide_eq_true_eq] at h
    rw [List.length_cons, symbolLen]
    omega

theorem head?_of_isSymbol {name : Name} (h : isSymbol name = true) : name.head? ≠ some '.' := by
  cases name with
  | nil => exact fun hhead ↦ by cases hhead
  | cons c rest =>
    rw [List.head?_cons]
    rintro hhead
    obtain rfl := Option.some.inj hhead
    simp only [isSymbol, Bool.and_eq_true, Bool.or_eq_true, decide_eq_true_eq] at h
    obtain ⟨_, (⟨h, _⟩ | h) | h⟩ := h
    · revert h
      decide
    · revert h
      decide
    · revert h
      decide

theorem head?_of_isLocal {name : Name} (h : isLocal name = true) : name.head? = some '.' := by
  unfold isLocal at h
  split at h
  · rfl
  · cases h

/-- The names an expression refers to, and whether with an at sign. -/
def ConstExpr.names {ρ : Type} : ConstExpr ρ → List (Bool × ρ)
  | ref isExternal name => [(isExternal, name)]
  | ici | imm _ _ => []
  | paren e => e.names
  | op1 _ left => left.names
  | op2 _ left right => left.names ++ right.names

def Element.names : Element → List (Bool × Name)
  | word exprs => exprs.flatMap ConstExpr.names
  | zero size => size.names
  | utf32 _ | illegal => []
  | insn stmt => (stmt.rhs.expr?.map ConstExpr.names).getD []
  | labelled _ inner => inner.names

/-- The labels of an element, the innermost first. -/
def Element.labels : Element → List Name
  | word _ | zero _ | utf32 _ | illegal | insn _ => []
  | labelled symbol inner => inner.labels ++ [symbol]

def Statement.names : Statement → List (Bool × Name)
  | element e => e.names
  | set _ e => e.names
  | global _ | option => []

/-- External references are symbols, and plain ones local symbols. -/
def isReference (r : Bool × Name) : Bool := if r.1 then isSymbol r.2 else isLocal r.2

/-- The names in a statement come from the lexer. -/
structure Statement.Lexed (s : Statement) : Prop where
  names : ∀ r ∈ s.names, isReference r = true
  labels : ∀ e, s = .element e → ∀ name ∈ e.labels, isSymbol name = true ∨ isLocal name = true
  symbols : ∀ name e, s = .set name e → isSymbol name = true

/-- The names of a statement that have to come from the lexer, and whether they can. -/
def Statement.isLexed (s : Statement) : Bool :=
  s.names.all isReference &&
    match s with
    | element e => e.labels.all fun name ↦ isSymbol name || isLocal name
    | set name _ => isSymbol name
    | global _ | option => true

theorem Statement.isLexed_iff (s : Statement) : s.isLexed = true ↔ s.Lexed := by
  unfold isLexed
  rw [Bool.and_eq_true, List.all_eq_true]
  constructor
  · rintro ⟨hnames, hrest⟩
    refine ⟨hnames, ?_, ?_⟩
    · rintro e rfl name hname
      simpa using List.all_eq_true.mp hrest name hname
    · rintro name e rfl
      exact hrest
  · rintro ⟨hnames, hlabels, hsymbols⟩
    refine ⟨hnames, ?_⟩
    cases s with
    | element e => simpa using hlabels e rfl
    | set name e => exact hsymbols name e rfl
    | global | option => rfl

instance (s : Statement) : Decidable s.Lexed := decidable_of_iff _ s.isLexed_iff

/-! ## Names of symbols -/

section

variable {undef : UndefinedShifts} {fuel : ℕ}

theorem parseElement_labels {env : Env} {e : Element}
    {result : List Elem × List Name × List Diagnostic}
    (h : parseElement undef fuel env e = .ok result) : result.2.1 = e.labels := by
  induction e generalizing result with
  | word | zero | insn =>
    rw [parseElement, bind_eq_ok] at h
    obtain ⟨_, _, h⟩ := h
    obtain rfl := Except.ok.inj h
    rfl
  | utf32 | illegal =>
    obtain rfl := Except.ok.inj h
    rfl
  | labelled symbol inner ih =>
    rw [parseElement, bind_eq_ok] at h
    obtain ⟨⟨elems, labels, errors⟩, hinner, h⟩ := h
    have hlabels := ih hinner
    dsimp only at h hlabels
    split at h
    · cases h
    · obtain rfl := Except.ok.inj h
      rw [Element.labels, ← hlabels]

/-- What the lexer promises for the names of symbols. -/
def ParseData.Lexed (pd : ParseData) : Prop :=
  ∀ s ∈ pd.symbols, isSymbol s.name = true ∨ s.ce = none ∧ isLocal s.name = true

theorem parseStatement_symbols {pd pd' : ParseData} {s : Statement}
    (h : parseStatement undef fuel pd s = .ok pd') :
    ∃ symbols, pd'.symbols = pd.symbols ++ symbols ∧
      (s.Lexed → ∀ t ∈ symbols, isSymbol t.name = true ∨ t.ce = none ∧ isLocal t.name = true) := by
  cases s with
  | element e =>
    rw [parseStatement, bind_eq_ok] at h
    obtain ⟨⟨elems, labels, errors⟩, helement, h⟩ := h
    obtain rfl := Except.ok.inj h
    refine ⟨_, rfl, ?_⟩
    intro hlexed t ht
    obtain ⟨name, hname, rfl⟩ := List.mem_map.mp ht
    have hlabels : labels = e.labels := parseElement_labels helement
    rw [hlabels] at hname
    exact (hlexed.labels e rfl name hname).imp id fun hlocal ↦ ⟨rfl, hlocal⟩
  | global symbol =>
    obtain rfl := Except.ok.inj h
    exact ⟨[], (List.append_nil _).symm, fun _ t ht ↦ (List.not_mem_nil ht).elim⟩
  | set symbol e =>
    rw [parseStatement, bind_eq_ok] at h
    obtain ⟨errors, _, h⟩ := h
    obtain rfl := Except.ok.inj h
    refine ⟨_, rfl, ?_⟩
    intro hlexed t ht
    obtain rfl := List.mem_singleton.mp ht
    exact .inl (hlexed.symbols symbol e rfl)
  | option =>
    obtain rfl := Except.ok.inj h
    exact ⟨[], (List.append_nil _).symm, fun _ t ht ↦ (List.not_mem_nil ht).elim⟩

theorem parse_lexed {source : Source} {pd : ParseData} (h : parse undef fuel source = .ok pd)
    (hlexed : ∀ s ∈ source, s.Lexed) : pd.Lexed := by
  have hrun : ∀ {source : Source} {pd₀ pd : ParseData},
      source.foldlM (parseStatement undef fuel) pd₀ = .ok pd → (∀ s ∈ source, s.Lexed) →
        pd₀.Lexed → pd.Lexed := by
    intro source
    induction source with
    | nil =>
      intro pd₀ pd h _ hpd₀
      obtain rfl := Except.ok.inj h
      exact hpd₀
    | cons s rest ih =>
      intro pd₀ pd h hlexed hpd₀
      rw [List.foldlM_cons, bind_eq_ok] at h
      obtain ⟨pd₁, hs, hrest⟩ := h
      obtain ⟨symbols, hsymbols, hnew⟩ := parseStatement_symbols hs
      apply ih hrest fun s hs ↦ hlexed s (List.mem_cons_of_mem _ hs)
      intro t ht
      rw [hsymbols] at ht
      rcases List.mem_append.mp ht with ht | ht
      · exact hpd₀ t ht
      · exact hnew (hlexed s List.mem_cons_self) t ht
  exact hrun h hlexed fun s hs ↦ (List.not_mem_nil hs).elim

/-- Parsing on only adds symbols. -/
theorem parse_append {before after : Source} {pd : ParseData}
    (h : parse undef fuel (before ++ after) = .ok pd) {pd₀ : ParseData}
    (h₀ : parse undef fuel before = .ok pd₀) : ∃ symbols, pd.symbols = pd₀.symbols ++ symbols := by
  rw [parse, List.foldlM_append, bind_eq_ok] at h
  obtain ⟨pd₁, hbefore, hafter⟩ := h
  obtain rfl := Except.ok.inj (h₀.symm.trans hbefore)
  have hstep : ∀ (pd : ParseData) s pd', (∃ symbols, pd.symbols = pd₀.symbols ++ symbols) →
      parseStatement undef fuel pd s = .ok pd' → ∃ symbols, pd'.symbols = pd₀.symbols ++ symbols := by
    rintro pd s pd' ⟨symbols, hsymbols⟩ hs
    obtain ⟨symbols', hsymbols', _⟩ := parseStatement_symbols hs
    exact ⟨symbols ++ symbols', by rw [hsymbols', hsymbols, List.append_assoc]⟩
  exact foldlM_parseStatement_invariant undef fuel hstep ⟨[], (List.append_nil _).symm⟩ hafter

/-! ## References -/

/-- A name is referred to where `pd₀` has been parsed. -/
def Occurs (undef : UndefinedShifts) (fuel : ℕ) (source : Source) (pd₀ : ParseData) (name : Name) :
    Prop :=
  ∃ before s after isExternal, source = before ++ s :: after ∧
    parse undef fuel before = .ok pd₀ ∧ (isExternal, name) ∈ s.names

/-- The address of a label. -/
def ParseData.address (pd : ParseData) (s : Symbol) : Word :=
  (addrsFrom 0#32 pd.elems).getD s.place 0#32

/-- Whenever a reference is evaluated for the output, it has a certain value and leaves a relocation of a
certain name. -/
def ResolvesTo (undef : UndefinedShifts) (pd : ParseData) (r : Ref) (value : Word) (name : Name) :
    Prop :=
  ∀ symbols, Reached pd symbols → ∀ sub context negate width isExternal,
    ceEvalWith undef (pd.envWith symbols) sub context { relocate := true, negate } width
      (.ref isExternal r) = .ok (some value, [{ name, insn := context, width, negate }])

/-- A reference to a label has its address and leaves no named relocation. A reference to a name that
is not defined leaves a relocation of that name. -/
structure ResolvesRight (undef : UndefinedShifts) (pd : ParseData) (name : Name) (r : Ref) :
    Prop where
  label : ∀ s ∈ pd.symbols, s.ce = none → s.name = name → ResolvesTo undef pd r (pd.address s) []
  undefined : (∀ s ∈ pd.symbols, s.name ≠ name) → ∃ value, ResolvesTo undef pd r value name

/-- Every label is defined once, and no label is a `.set` symbol. -/
structure ParseData.LabelsOnce (pd : ParseData) : Prop where
  once : ((pd.symbols.filter fun s ↦ s.ce.isNone).map Symbol.name).Nodup
  disjoint : ∀ s ∈ pd.symbols, ∀ t ∈ pd.symbols, s.ce = none → t.name = s.name → t.ce = none

/-- The last member with a property. -/
def IsLast {α : Type} (l : List α) (p : α → Prop) (a : α) : Prop :=
  ∃ before after, l = before ++ a :: after ∧ p a ∧ ∀ b ∈ after, ¬ p b

/-- When a reference to a label whose name has 32 characters or more comes out right. If a symbol whose
first 32 characters agree is defined before it, the last such symbol of the program has to stand where
the label does; otherwise a label that consists of the first 31 characters. -/
def LongNameResolves (pd₀ pd : ParseData) (name : Name) : Prop :=
  ∃ s ∈ pd.symbols, s.ce = none ∧ s.name = name ∧ ∃ t,
    ((∃ u ∈ pd₀.symbols, u.name.take symbolLen = name.take symbolLen) →
      IsLast pd.symbols (fun u ↦ u.name.take symbolLen = name.take symbolLen) t) ∧
    ((∀ u ∈ pd₀.symbols, u.name.take symbolLen ≠ name.take symbolLen) →
      t ∈ pd.symbols ∧ t.name = strcopy name) ∧
    pd.address t = pd.address s

end

/-! ## Looking up -/

theorem find?_index_bind {α : Type} (p : α → Bool) (l : List α) :
    (((List.range l.length).reverse.find? fun k ↦ l[k]?.any p).bind fun k ↦ l[k]?) =
      l.reverse.find? p := by
  induction l using List.reverseRecOn with
  | nil => rfl
  | append_singleton l a ih =>
    have hlast : (l ++ [a])[l.length]? = some a := by simp
    rw [List.length_append, List.length_singleton, List.range_succ, List.reverse_append,
      List.reverse_singleton, List.singleton_append, List.find?_cons, hlast, Option.any_some,
      List.reverse_append, List.reverse_singleton, List.singleton_append, List.find?_cons]
    cases p a with
    | true => exact hlast
    | false =>
      have hget : ∀ k ∈ (List.range l.length).reverse, (l ++ [a])[k]? = l[k]? := by
        intro k hk
        rw [List.mem_reverse, List.mem_range] at hk
        exact List.getElem?_append_left hk
      rw [List.find?_congr fun k hk ↦ by rw [hget k hk]]
      cases hfind : (List.range l.length).reverse.find? fun k ↦ l[k]?.any p with
      | none =>
        rw [← ih, hfind]
        rfl
      | some k =>
        rw [← ih, hfind]
        exact hget k (List.mem_of_find?_eq_some hfind)

/-- The symbol that is looked up is the last one whose first 32 characters agree. -/
theorem lookup_eq_find? (pd : ParseData) (name : Name) :
    pd.lookup name = pd.symbols.reverse.find? fun s ↦ sameSymbol s.name name := by
  rw [← find?_index_bind, ParseData.lookup]
  congr 1
  have henv : pd.finalEnv.symbolFind name =
      ({ pd.finalEnv with symbols := pd.symbols } : Env).symbolFind name :=
    symbolFind_congr (names_labels pd) name
  exact henv

theorem sameSymbol_iff {a b : Name} :
    sameSymbol a b = true ↔ a.take symbolLen = b.take symbolLen := by
  rw [sameSymbol, beq_iff_eq]

/-- Shorter names are only the same if they are equal. -/
theorem take_symbolLen_eq_iff {a b : Name} (hb : b.length < symbolLen) :
    a.take symbolLen = b.take symbolLen ↔ a = b := by
  constructor
  · intro h
    have hlength := congrArg List.length h
    rw [List.length_take, List.length_take] at hlength
    have ha : a.length < symbolLen := by omega
    rwa [List.take_of_length_le ha.le, List.take_of_length_le hb.le] at h
  · rintro rfl
    rfl

theorem head?_of_take_eq {a b : Name} (h : a.take symbolLen = b.take symbolLen) :
    a.head? = b.head? := by
  have hhead := congrArg List.head? h
  rwa [List.head?_take, List.head?_take] at hhead

/-- What is bound at a reference, or kept of its name. -/
theorem makeRef_cases (pd₀ : ParseData) (name : Name) :
    (∃ id u, pd₀.symbols[id]? = some u ∧ u.name.take symbolLen = name.take symbolLen ∧
      makeRef pd₀.env name = .bound id) ∨
    ((∀ u ∈ pd₀.symbols, u.name.take symbolLen ≠ name.take symbolLen) ∧
      makeRef pd₀.env name = .unbound (strcopy name)) := by
  cases hfind : pd₀.env.symbolFind name with
  | some id =>
    have hfound := hfind
    rw [Env.symbolFind] at hfound
    have hsame := List.find?_some hfound
    change (pd₀.symbols[id]?.any fun u ↦ sameSymbol u.name name) = true at hsame
    cases hu : pd₀.symbols[id]? with
    | none =>
      rw [hu] at hsame
      cases hsame
    | some u =>
      rw [hu, Option.any_some] at hsame
      exact .inl ⟨id, u, hu, sameSymbol_iff.mp hsame, by rw [makeRef, hfind]⟩
  | none =>
    refine .inr ⟨?_, by rw [makeRef, hfind]⟩
    intro u hu hname
    obtain ⟨id, hid, rfl⟩ := List.mem_iff_getElem.mp hu
    have hnot := List.find?_eq_none.mp hfind id (by simpa [ParseData.env] using hid)
    apply hnot
    rw [ParseData.env, List.getElem?_eq_getElem hid, Option.any_some]
    exact sameSymbol_iff.mpr hname

/-! ## Evaluating references -/

section

variable {undef : UndefinedShifts} {pd : ParseData}

theorem reached_labels (pd : ParseData) : Reached pd pd.labels where
  names := names_labels pd
  kept id s hs := by
    refine ⟨resolveLabel (addrsFrom 0#32 pd.elems) s, ?_, ?_, .inl (resolveLabel_ce _ s), ?_⟩
    · rw [labels_getElem?, hs]
      rfl
    · unfold resolveLabel
      split <;> rfl
    · intro hce
      rw [resolveLabel, hce]
      rfl

theorem ResolvesTo.unique {r : Ref} {value value' : Word} {name name' : Name}
    (h : ResolvesTo undef pd r value name) (h' : ResolvesTo undef pd r value' name') :
    value = value' ∧ name = name' := by
  have hsame := (h pd.labels (reached_labels pd) (fun _ _ _ _ ↦ .error .fatal) none false 0 false).symm.trans
    (h' pd.labels (reached_labels pd) (fun _ _ _ _ ↦ .error .fatal) none false 0 false)
  simpa using hsame

/-- A reference that leads to a label has its address. -/
theorem resolvesTo_label {r : Ref} {t : Symbol} (hplain : pd.finalEnv.boundSet r = none)
    (ht : pd.lookup (pd.finalEnv.refName r) = some t) (hce : t.ce = none) :
    ResolvesTo undef pd r (pd.address t) [] := by
  intro symbols hreached sub context negate width isExternal
  rw [ceEvalWith, hreached.boundSet_eq_none hplain]
  dsimp only
  rw [hreached.refName_eq, hreached.symbolLookup_label sub ht hce]
  rfl

/-- A reference that leads nowhere leaves its name. -/
theorem resolvesTo_none {r : Ref} (hplain : pd.finalEnv.boundSet r = none)
    (hnone : pd.lookup (pd.finalEnv.refName r) = none) :
    ResolvesTo undef pd r 0#32 (strcopy (pd.finalEnv.refName r)) := by
  intro symbols hreached sub context negate width isExternal
  rw [ceEvalWith, hreached.boundSet_eq_none hplain]
  dsimp only
  rw [hreached.refName_eq, hreached.symbolLookup_none sub hnone]
  rfl

theorem boundSet_bound {id : ℕ} {u : Symbol} (hu : pd.symbols[id]? = some u) (hce : u.ce = none) :
    pd.finalEnv.boundSet (.bound id) = none := by
  simp [Env.boundSet, ParseData.finalEnv, labels_getElem?, hu, hce]

theorem refName_bound {id : ℕ} {u : Symbol} (hu : pd.symbols[id]? = some u) :
    pd.finalEnv.refName (.bound id) = u.name := by
  simp [Env.refName, ParseData.finalEnv, labels_getElem?, hu]

/-- Labels of the same name are the same label. -/
theorem ParseData.LabelsOnce.eq_of_name_eq (h : pd.LabelsOnce) {s t : Symbol} (hs : s ∈ pd.symbols)
    (ht : t ∈ pd.symbols) (hce : s.ce = none) (hname : t.name = s.name) : t = s := by
  have hce' : t.ce = none := h.disjoint s hs t ht hce hname
  have hs' : s ∈ pd.symbols.filter fun s ↦ s.ce.isNone := by simp [hs, hce]
  have ht' : t ∈ pd.symbols.filter fun s ↦ s.ce.isNone := by simp [ht, hce']
  exact List.inj_on_of_nodup_map h.once ht' hs' hname

/-- A reference that leads to a label comes out right if the label stands where the one of that name
does. -/
theorem resolvesRight_label_iff (honce : pd.LabelsOnce) {name : Name} (hne : name ≠ [])
    (hlabels : ∀ s ∈ pd.symbols, s.name = name → s.ce = none) {r : Ref} {t : Symbol}
    (ht : ResolvesTo undef pd r (pd.address t) []) :
    ResolvesRight undef pd name r ↔
      ∃ s ∈ pd.symbols, s.ce = none ∧ s.name = name ∧ pd.address t = pd.address s := by
  constructor
  · intro h
    by_contra hnone
    have hundefined : ∀ s ∈ pd.symbols, s.name ≠ name := by
      intro s hs hname
      have hce := hlabels s hs hname
      exact hnone ⟨s, hs, hce, hname, (ht.unique (h.label s hs hce hname)).1⟩
    obtain ⟨value, hvalue⟩ := h.undefined hundefined
    exact hne (ht.unique hvalue).2.symm
  · rintro ⟨s, hs, hce, hname, haddress⟩
    refine ⟨?_, fun hundefined ↦ absurd hname (hundefined s hs)⟩
    intro s' hs' _ hname'
    obtain rfl := honce.eq_of_name_eq hs hs' hce (hname'.trans hname.symm)
    rwa [← haddress]

/-- A reference that leaves another name does not come out right. -/
theorem not_resolvesRight_of_other {name other : Name} (hne : other ≠ []) (hother : other ≠ name)
    (hlabels : ∀ s ∈ pd.symbols, s.name = name → s.ce = none) {r : Ref} {value : Word}
    (ht : ResolvesTo undef pd r value other) : ¬ ResolvesRight undef pd name r := by
  intro h
  by_cases hdefined : ∃ s ∈ pd.symbols, s.name = name
  · obtain ⟨s, hs, hname⟩ := hdefined
    exact hne (ht.unique (h.label s hs (hlabels s hs hname) hname)).2
  · obtain ⟨value', hvalue⟩ := h.undefined fun s hs hname ↦ hdefined ⟨s, hs, hname⟩
    exact hother (ht.unique hvalue).2

/-! ## Short and long names -/

/-- The symbol that is looked up, for names that agree with a label in their first 32 characters. -/
theorem lookup_cases (pd : ParseData) (name : Name) :
    (∃ t, pd.lookup name = some t ∧
      IsLast pd.symbols (fun u ↦ u.name.take symbolLen = name.take symbolLen) t) ∨
    (pd.lookup name = none ∧ ∀ u ∈ pd.symbols, u.name.take symbolLen ≠ name.take symbolLen) := by
  rw [lookup_eq_find?]
  cases hfind : pd.symbols.reverse.find? fun s ↦ sameSymbol s.name name with
  | none =>
    refine .inr ⟨rfl, ?_⟩
    intro u hu hname
    exact List.find?_eq_none.mp hfind u (List.mem_reverse.mpr hu) (sameSymbol_iff.mpr hname)
  | some t =>
    obtain ⟨hsame, before, after, hsymbols, hbefore⟩ := List.find?_eq_some_iff_append.mp hfind
    refine .inl ⟨t, rfl, after.reverse, before.reverse, ?_, sameSymbol_iff.mp hsame, ?_⟩
    · have hreverse := congrArg List.reverse hsymbols
      simpa using hreverse
    · intro b hb hname
      have hnot := hbefore b (List.mem_reverse.mp hb)
      rw [sameSymbol_iff.mpr hname] at hnot
      cases hnot

theorem IsLast.mem {α : Type} {l : List α} {p : α → Prop} {a : α} (h : IsLast l p a) : a ∈ l := by
  obtain ⟨before, after, rfl, _⟩ := h
  exact List.mem_append_right _ List.mem_cons_self

theorem IsLast.prop {α : Type} {l : List α} {p : α → Prop} {a : α} (h : IsLast l p a) : p a := by
  obtain ⟨_, _, _, hp, _⟩ := h
  exact hp

theorem IsLast.unique {α : Type} {l : List α} {p : α → Prop} {a b : α} (ha : IsLast l p a)
    (hb : IsLast l p b) : a = b := by
  obtain ⟨before, after, hl, hpa, hafter⟩ := ha
  obtain ⟨before', after', hl', hpb, hafter'⟩ := hb
  rw [hl] at hl'
  rcases List.append_eq_append_iff.mp hl' with ⟨middle, _, hmiddle⟩ | ⟨middle, _, hmiddle⟩
  · cases middle with
    | nil => exact (List.cons.inj hmiddle).1
    | cons c middle =>
      obtain ⟨_, rfl⟩ := List.cons.inj hmiddle
      exact absurd hpb (hafter b (List.mem_append_right _ List.mem_cons_self))
  · cases middle with
    | nil => exact (List.cons.inj hmiddle).1.symm
    | cons c middle =>
      obtain ⟨_, rfl⟩ := List.cons.inj hmiddle
      exact absurd hpa (hafter' a (List.mem_append_right _ List.mem_cons_self))

/-- Where every lookup is exact, references come out right. -/
theorem resolvesRight_of_exact (honce : pd.LabelsOnce) {name : Name} (hshort : name.length < symbolLen)
    {r : Ref} (hname : pd.finalEnv.refName r = name)
    (hplain : ∀ s ∈ pd.symbols, s.name = name → s.ce = none → pd.finalEnv.boundSet r = none)
    (hunbound : (∀ s ∈ pd.symbols, s.name ≠ name) → pd.finalEnv.boundSet r = none) :
    ResolvesRight undef pd name r := by
  have hstrcopy : strcopy name = name := strcopy_of_length_lt hshort
  constructor
  · intro s hs hce hself
    have hbound := hplain s hs hself hce
    rcases lookup_cases pd name with ⟨t, hlookup, hlast⟩ | ⟨_, hnone⟩
    · have htname : t.name = s.name :=
        ((take_symbolLen_eq_iff hshort).mp hlast.prop).trans hself.symm
      obtain rfl := honce.eq_of_name_eq hs hlast.mem hce htname
      rw [← hname] at hlookup
      exact resolvesTo_label hbound hlookup hce
    · exact absurd (congrArg (List.take symbolLen) hself) (hnone s hs)
  · intro hundefined
    have hbound := hunbound hundefined
    rcases lookup_cases pd name with ⟨t, _, hlast⟩ | ⟨hlookup, _⟩
    · exact absurd ((take_symbolLen_eq_iff hshort).mp hlast.prop) (hundefined t hlast.mem)
    · rw [← hname] at hlookup
      have hto : ResolvesTo undef pd r 0#32 (strcopy (pd.finalEnv.refName r)) :=
        resolvesTo_none hbound hlookup
      rw [hname, hstrcopy] at hto
      exact ⟨0#32, hto⟩

/-- Names of fewer than 32 characters always come out right. -/
theorem resolvesRight_of_short (honce : pd.LabelsOnce) {pd₀ : ParseData}
    (hbefore : ∃ symbols, pd.symbols = pd₀.symbols ++ symbols) {name : Name}
    (hshort : name.length < symbolLen) :
    ResolvesRight undef pd name (makeRef pd₀.env name) := by
  obtain ⟨symbols, hsymbols⟩ := hbefore
  rcases makeRef_cases pd₀ name with ⟨id, u, hu, hname, href⟩ | ⟨_, href⟩
  · have huname : u.name = name := (take_symbolLen_eq_iff hshort).mp hname
    have hid : pd.symbols[id]? = some u := by
      rw [hsymbols, List.getElem?_append_left (List.getElem?_eq_some_iff.mp hu).1, hu]
    have hmem : u ∈ pd.symbols := List.mem_of_getElem? hid
    rw [href]
    apply resolvesRight_of_exact honce hshort ((refName_bound hid).trans huname)
    · intro s hs hself hce
      exact boundSet_bound hid (honce.disjoint s hs u hmem hce (huname.trans hself.symm))
    · intro hundefined
      exact absurd huname (hundefined u hmem)
  · rw [href]
    exact resolvesRight_of_exact honce hshort (strcopy_of_length_lt hshort) (fun _ _ _ _ ↦ rfl)
      fun _ ↦ rfl

/-- Only labels begin with a dot. -/
theorem ParseData.Lexed.ce_eq_none (hlexed : pd.Lexed) {s : Symbol} (hs : s ∈ pd.symbols)
    (hhead : s.name.head? = some '.') : s.ce = none := by
  rcases hlexed s hs with hsymbol | ⟨hce, _⟩
  · exact absurd hhead (head?_of_isSymbol hsymbol)
  · exact hce

/-- Longer names come out right under a condition on the labels. -/
theorem resolvesRight_of_long_iff (hlexed : pd.Lexed) (honce : pd.LabelsOnce) {pd₀ : ParseData}
    (hbefore : ∃ symbols, pd.symbols = pd₀.symbols ++ symbols) {name : Name}
    (hlocal : isLocal name = true) (hlong : symbolLen ≤ name.length) :
    ResolvesRight undef pd name (makeRef pd₀.env name) ↔ LongNameResolves pd₀ pd name := by
  obtain ⟨symbols, hsymbols⟩ := hbefore
  have hhead := head?_of_isLocal hlocal
  have hne : name ≠ [] := by
    rintro rfl
    cases hhead
  have hlabels : ∀ s ∈ pd.symbols, s.name = name → s.ce = none := by
    intro s hs hself
    exact hlexed.ce_eq_none hs (hself ▸ hhead)
  rcases makeRef_cases pd₀ name with ⟨id, u, hu, hname, href⟩ | ⟨hnone, href⟩
  · have hid : pd.symbols[id]? = some u := by
      rw [hsymbols, List.getElem?_append_left (List.getElem?_eq_some_iff.mp hu).1, hu]
    have hce : u.ce = none :=
      hlexed.ce_eq_none (List.mem_of_getElem? hid) ((head?_of_take_eq hname).trans hhead)
    have hfound : ∃ u ∈ pd₀.symbols, u.name.take symbolLen = name.take symbolLen :=
      ⟨u, List.mem_of_getElem? hu, hname⟩
    rcases lookup_cases pd u.name with ⟨t, hlookup, hlast⟩ | ⟨_, hnot⟩
    · rw [hname] at hlast
      have htce : t.ce = none :=
        hlexed.ce_eq_none hlast.mem ((head?_of_take_eq hlast.prop).trans hhead)
      have hto : ResolvesTo undef pd (.bound id) (pd.address t) [] :=
        resolvesTo_label (boundSet_bound hid hce) (by rw [refName_bound hid, hlookup]) htce
      rw [href, resolvesRight_label_iff honce hne hlabels hto]
      constructor
      · rintro ⟨s, hs, hsce, hself, haddress⟩
        have hnot : ¬ ∀ u ∈ pd₀.symbols, u.name.take symbolLen ≠ name.take symbolLen :=
          fun hnone ↦ hnone u (List.mem_of_getElem? hu) hname
        exact ⟨s, hs, hsce, hself, t, fun _ ↦ hlast, fun hnone ↦ absurd hnone hnot, haddress⟩
      · rintro ⟨s, hs, hsce, hself, t', hlast', _, haddress⟩
        obtain rfl := (hlast' hfound).unique hlast
        exact ⟨s, hs, hsce, hself, haddress⟩
    · exact absurd rfl (hnot u (List.mem_of_getElem? hid))
  · have hcut : (strcopy name).length < symbolLen := by
      rw [strcopy, List.length_take, symbolLen]
      omega
    have hcutHead : (strcopy name).head? = some '.' := by
      rw [strcopy, List.head?_take]
      exact hhead
    have hcutNe : strcopy name ≠ [] := by
      intro hnil
      rw [hnil] at hcutHead
      cases hcutHead
    rcases lookup_cases pd (strcopy name) with ⟨t, hlookup, hlast⟩ | ⟨hlookup, hnot⟩
    · have htname : t.name = strcopy name := (take_symbolLen_eq_iff hcut).mp hlast.prop
      have htce : t.ce = none := hlexed.ce_eq_none hlast.mem (htname ▸ hcutHead)
      have hto : ResolvesTo undef pd (.unbound (strcopy name)) (pd.address t) [] :=
        resolvesTo_label rfl hlookup htce
      rw [href, resolvesRight_label_iff honce hne hlabels hto]
      constructor
      · rintro ⟨s, hs, hsce, hself, haddress⟩
        refine ⟨s, hs, hsce, hself, t, ?_, fun _ ↦ ⟨hlast.mem, htname⟩, haddress⟩
        rintro ⟨u, hu, hname⟩
        exact absurd hname (hnone u hu)
      · rintro ⟨s, hs, hsce, hself, t', _, hcut', haddress⟩
        obtain ⟨hmem, htname'⟩ := hcut' hnone
        obtain rfl := honce.eq_of_name_eq hlast.mem hmem htce (htname'.trans htname.symm)
        exact ⟨s, hs, hsce, hself, haddress⟩
    · have hto : ResolvesTo undef pd (.unbound (strcopy name)) 0#32 (strcopy (strcopy name)) :=
        resolvesTo_none rfl hlookup
      rw [strcopy_strcopy] at hto
      have hother : strcopy name ≠ name := by
        intro hsame
        rw [hsame] at hcut
        omega
      rw [href]
      constructor
      · intro h
        exact absurd h (not_resolvesRight_of_other hcutNe hother hlabels hto)
      · rintro ⟨_, _, _, _, t, _, hcut', _⟩
        obtain ⟨hmem, htname⟩ := hcut' hnone
        exact absurd (congrArg (List.take symbolLen) htname) (hnot t hmem)

/-! ## All references of a program -/

/-- A reference with its name is one to a symbol or a local symbol. -/
theorem Occurs.isReference {fuel : ℕ} {source : Source} {pd₀ : ParseData} {name : Name}
    (h : Occurs undef fuel source pd₀ name) (hlexed : ∀ s ∈ source, s.Lexed) :
    isSymbol name = true ∨ isLocal name = true := by
  obtain ⟨before, s, after, isExternal, rfl, _, hmem⟩ := h
  have href := (hlexed s (List.mem_append_right _ List.mem_cons_self)).names _ hmem
  rw [Asm.isReference] at href
  split at href
  · exact .inl href
  · exact .inr href

/-- The references of a program all come out right just when those to names of 32 characters or more
do, of which the labels decide. -/
theorem references_resolve_iff {fuel : ℕ} {source : Source} (hlexed : ∀ s ∈ source, s.Lexed)
    (hparse : parse undef fuel source = .ok pd) (honce : pd.LabelsOnce) :
    (∀ pd₀ name, Occurs undef fuel source pd₀ name →
        ResolvesRight undef pd name (makeRef pd₀.env name)) ↔
      ∀ pd₀ name, Occurs undef fuel source pd₀ name → symbolLen ≤ name.length →
        LongNameResolves pd₀ pd name := by
  have hbefore : ∀ pd₀ name, Occurs undef fuel source pd₀ name →
      ∃ symbols, pd.symbols = pd₀.symbols ++ symbols := by
    rintro pd₀ name ⟨before, s, after, _, rfl, hparsed, _⟩
    exact parse_append hparse hparsed
  have hlong : ∀ pd₀ name, Occurs undef fuel source pd₀ name → symbolLen ≤ name.length →
      (ResolvesRight undef pd name (makeRef pd₀.env name) ↔ LongNameResolves pd₀ pd name) := by
    intro pd₀ name hoccurs hle
    have hlocal : isLocal name = true := by
      rcases hoccurs.isReference hlexed with hsymbol | hlocal
      · exact absurd (length_of_isSymbol hsymbol) (not_lt.mpr hle)
      · exact hlocal
    exact resolvesRight_of_long_iff (parse_lexed hparse hlexed) honce (hbefore pd₀ name hoccurs)
      hlocal hle
  constructor
  · intro h pd₀ name hoccurs hle
    exact (hlong pd₀ name hoccurs hle).mp (h pd₀ name hoccurs)
  · intro h pd₀ name hoccurs
    by_cases hle : symbolLen ≤ name.length
    · exact (hlong pd₀ name hoccurs hle).mpr (h pd₀ name hoccurs hle)
    · exact resolvesRight_of_short honce (hbefore pd₀ name hoccurs) (not_le.mp hle)

/-! ## A reference in front of its label -/

/-- `.word name` and then `name: .word 7`. -/
def forward (name : Name) (isExternal : Bool) : Source :=
  [.element (.word [.ref isExternal name]), .element (.labelled name (.word [.imm 7#32 false]))]

/-- What is parsed of it, where the name is not known yet at its reference. -/
def forwardParsed (name : Name) (isExternal : Bool) : ParseData where
  elems :=
    [{ word := 0#32, size := 1#32
       fixup := some
        { ce := .ref isExternal (.unbound (strcopy name)), mult := 1#32, width := wordBitwidth
          ignoreWidth := false } },
      { word := 0#32, size := 1#32
        fixup := some { ce := .imm 7#32 false, mult := 1#32, width := wordBitwidth
                        ignoreWidth := false } }]
  symbols := [makeSymbol name none 1]
  globals := []
  errors := []

theorem parse_forward (name : Name) (isExternal : Bool) :
    parse undef 0 (forward name isExternal) = .ok (forwardParsed name isExternal) := by
  cases isExternal <;> rfl

theorem forward_lexed {name : Name} {isExternal : Bool}
    (h : isReference (isExternal, name) = true) : ∀ s ∈ forward name isExternal, s.Lexed := by
  have hname : isSymbol name = true ∨ isLocal name = true := by
    cases isExternal with
    | true => exact .inl h
    | false => exact .inr h
  intro s hs
  rcases List.mem_cons.mp hs with rfl | hs
  · refine ⟨?_, ?_, fun _ _ heq ↦ by cases heq⟩
    · intro r hr
      obtain rfl := List.mem_singleton.mp hr
      exact h
    · intro e heq label hlabel
      cases heq
      cases hlabel
  · obtain rfl := List.mem_singleton.mp hs
    refine ⟨fun r hr ↦ (List.not_mem_nil hr).elim, ?_, fun _ _ heq ↦ by cases heq⟩
    intro e heq label hlabel
    cases heq
    obtain rfl := List.mem_singleton.mp hlabel
    exact hname

theorem forwardParsed_labelsOnce (name : Name) (isExternal : Bool) :
    (forwardParsed name isExternal).LabelsOnce where
  once := List.nodup_singleton _
  disjoint := by
    intro _ _ t ht _ _
    obtain rfl := List.mem_singleton.mp ht
    rfl

theorem eq_of_occurs_forward {name name' : Name} {isExternal : Bool} {pd₀ : ParseData}
    (h : Occurs undef 0 (forward name isExternal) pd₀ name') : name' = name := by
  obtain ⟨before, s, after, isExternal', hsource, _, hmem⟩ := h
  have hs : s ∈ forward name isExternal := by
    rw [hsource]
    exact List.mem_append_right _ List.mem_cons_self
  rcases List.mem_cons.mp hs with rfl | hs
  · exact (Prod.mk.inj (List.mem_singleton.mp hmem)).2
  · obtain rfl := List.mem_singleton.mp hs
    cases hmem

end

theorem references_resolve_forward :
    parse .masked 0 (forward ['x'] true) = .ok (forwardParsed ['x'] true) ∧
      ∀ pd₀ name, Occurs .masked 0 (forward ['x'] true) pd₀ name →
        ResolvesRight .masked (forwardParsed ['x'] true) name (makeRef pd₀.env name) := by
  refine ⟨parse_forward ['x'] true, ?_⟩
  have hlexed : ∀ s ∈ forward ['x'] true, s.Lexed := forward_lexed (by decide)
  apply (references_resolve_iff hlexed (parse_forward ['x'] true)
    (forwardParsed_labelsOnce ['x'] true)).mpr
  intro pd₀ name hoccurs hlong
  rw [eq_of_occurs_forward hoccurs] at hlong
  exact absurd hlong (by decide)

/-- A local label of 32 characters is not found by a reference in front of it, which leaves a relocation
of its first 31 characters. -/
theorem not_references_resolve_long :
    ∃ name, (∀ s ∈ forward name false, s.Lexed) ∧
      parse .masked 0 (forward name false) = .ok (forwardParsed name false) ∧
      (forwardParsed name false).LabelsOnce ∧
      ∃ pd₀, Occurs .masked 0 (forward name false) pd₀ name ∧
        ¬ ResolvesRight .masked (forwardParsed name false) name (makeRef pd₀.env name) := by
  have hlocal : isLocal ('.' :: 'L' :: List.replicate 30 'x') = true := by decide
  refine ⟨'.' :: 'L' :: List.replicate 30 'x', forward_lexed hlocal, parse_forward _ _,
    forwardParsed_labelsOnce _ _, .empty, ⟨[], _, _, false, rfl, rfl, List.mem_cons_self⟩, ?_⟩
  have hlookup : (forwardParsed ('.' :: 'L' :: List.replicate 30 'x') false).lookup
      (strcopy ('.' :: 'L' :: List.replicate 30 'x')) = none := by
    rw [lookup_eq_find?]
    decide
  exact not_resolvesRight_of_other (by decide) (by decide) (fun s hs _ ↦ by
    obtain rfl := List.mem_singleton.mp hs
    rfl) (resolvesTo_none rfl hlookup)

end Tenyr.Asm
