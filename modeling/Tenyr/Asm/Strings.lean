import Tenyr.Asm.Program
import Tenyr.Lib.LinkedList

/-!
# Strings

The lexer copies the characters of a literal into segments of memory, and the grammar links the segments
of adjacent literals. Each segment has a pointer to the next one, and the first one a pointer to the last.
-/

namespace Tenyr.Asm

open Isa Lib.LinkedList

/-! ## Literals -/

/-- `escchar` -/
inductive Escape where
  | backslash | quote | doubleQuote | nul | b | n | r | t | f | v
  deriving DecidableEq, Repr

/-- `translate_escape` -/
def Escape.translate : Escape → BitVec 8
  | backslash => 0x5c#8
  | quote => 0x27#8
  | doubleQuote => 0x22#8
  | nul => 0x00#8
  | b => 0x08#8
  | f => 0x0c#8
  | n => 0x0a#8
  | r => 0x0d#8
  | t => 0x09#8
  | v => 0x0b#8

/-- A character of a literal as it is written. -/
inductive StringChar where
  | plain (c : BitVec 8)
  | escape (e : Escape)
  deriving DecidableEq, Repr

def StringChar.decode : StringChar → BitVec 8
  | plain c => c
  | escape e => e.translate

abbrev StringLiteral := List StringChar

def StringLiteral.decode (literal : StringLiteral) : List (BitVec 8) := literal.map StringChar.decode

/-- What one rule of the lexer matches in a literal. -/
inductive Span where
  | run (chars : List (BitVec 8))
  | escape (e : Escape)
  deriving DecidableEq, Repr

/-- The spans of a literal; runs are as long as possible. -/
def spans : StringLiteral → List Span
  | [] => []
  | .escape e :: rest => .escape e :: spans rest
  | .plain c :: rest =>
    match spans rest with
    | .run chars :: more => .run (c :: chars) :: more
    | more => .run [c] :: more

/-! ## Segments -/

/-- `struct cstr`; the characters are those from `head` to `tail`. -/
structure Cstr where
  size : ℤ
  chars : List (BitVec 8)
  last : ℕ
  right : Option ℕ

/-- The segments that have been allocated. -/
structure Segments where
  count : ℕ
  seg : ℕ → Cstr

def Segments.empty : Segments where
  count := 0
  seg _ := { size := 0, chars := [], last := 0, right := none }

def Segments.set (h : Segments) (p : ℕ) (s : Cstr) : Segments :=
  { h with seg := Function.update h.seg p s }

/-- The least size of a segment. -/
def minSegment : ℕ := 128

/-- `resizestr` without a segment. -/
def newstr (h : Segments) (len : ℕ) : ℕ × Segments :=
  let size := if len < minSegment then minSegment else len
  (h.count,
    { count := h.count + 1
      seg := Function.update h.seg h.count { size, chars := [], last := h.count, right := none } })

/-- `resizestr`: the segment to write to. -/
def resizestr (h : Segments) (p len : ℕ) : ℕ × Segments :=
  let s := h.seg p
  if s.size < s.chars.length + len then
    let (right, h) := newstr h len
    (right, h.set p { s with size := s.chars.length, right := some right, last := right })
  else (p, h)

/-- `savestr` -/
def savestr (h : Segments) (p : ℕ) (text : List (BitVec 8)) : Segments :=
  let (p, h) := resizestr h p text.length
  h.set p { h.seg p with chars := (h.seg p).chars ++ text }

/-- `CHKSTR` -/
def chkstr (h : Segments) (yystr leng : ℕ) : ℕ × Segments :=
  if (h.seg yystr).size < 0 then newstr h leng else (yystr, h)

/-- How much of the source is matched. -/
def Span.leng : Span → ℕ
  | run chars => chars.length
  | escape _ => 2

def Span.text : Span → List (BitVec 8)
  | run chars => chars
  | escape e => [e.translate]

/-- The rules for the inside of a literal, given the value of the token before: that of the `STRSPAN`. -/
def lexSpan (h : Segments) (yystr : ℕ) (span : Span) : ℕ × Segments :=
  let (yystr, h) := chkstr h yystr span.leng
  let h := savestr h yystr span.text
  (yystr, h.set yystr { h.seg yystr with size := -1 })

/-! ## The grammar -/

/-- `$$->last->right = right; if (right) $$->last = right` -/
def linkLast (h : Segments) (p : ℕ) (right : Option ℕ) : Segments :=
  let last := (h.seg p).last
  let h := h.set last { h.seg last with right }
  match right with
  | none => h
  | some q => h.set p { h.seg p with last := q }

/-- `strspan`, after the spans that `left` has. -/
def strspan (h : Segments) (yystr : ℕ) (left : Option ℕ) : List Span → Option ℕ × Segments
  | [] => (left, h)
  | span :: rest =>
    let (token, h) := lexSpan h yystr span
    match left with
    | none => strspan h token (some token) rest
    | some p => strspan (linkLast h p (some token)) token (some p) rest

/-- `stringelt`. The opening quote is given a segment as well. -/
def stringelt (h : Segments) (literal : StringLiteral) : Option ℕ × Segments :=
  let (yystr, h) := newstr h 1
  strspan h yystr none (spans literal)

/-- `string`, after the literals that `left` has. -/
def stringAfter (h : Segments) (left : Option ℕ) : List StringLiteral → Option ℕ × Segments
  | [] => (left, h)
  | literal :: rest =>
    let (elt, h) := stringelt h literal
    match left, elt with
    | some p, elt => stringAfter (linkLast h p elt) (some p) rest
    | none, none => stringAfter h none rest
    | none, some q => stringAfter (h.set q { h.seg q with last := q }) (some q) rest

/-- `string` -/
def stringOf (first : StringLiteral) (rest : List StringLiteral) : Option ℕ × Segments :=
  let (elt, h) := stringelt .empty first
  stringAfter h elt rest

def Segments.next (h : Segments) (p : ℕ) : Option ℕ := (h.seg p).right

/-- The characters that `make_utf32` finds; nothing if the segments have no end. -/
def stringChars (root : Option ℕ) (h : Segments) : Option (List (BitVec 8)) :=
  (walk h.next h.count root).map fun cells ↦ cells.flatMap fun p ↦ (h.seg p).chars

/-- The elements of `.utf32` with adjacent literals. -/
def utf32Elems (first : StringLiteral) (rest : List StringLiteral) : Option (List Elem) :=
  let (root, h) := stringOf first rest
  (stringChars root h).map makeUtf32

/-! ## Chains of segments -/

/-- The texts of the segments of a literal. A run that does not fit the first segment, which the opening
quote has made, leaves it empty. -/
def segmentTexts (literal : StringLiteral) : List (List (BitVec 8)) :=
  match spans literal with
  | [] => []
  | span :: more =>
    (if minSegment < span.text.length then [[], span.text] else [span.text]) ++ more.map Span.text

def Segments.texts (h : Segments) (cells : List ℕ) : List (List (BitVec 8)) :=
  cells.map fun p ↦ (h.seg p).chars

/-- Segments from `lo` on that are linked, the first of which points to the one after `before`. -/
structure Chained (h : Segments) (lo root : ℕ) (before : List ℕ) (last : ℕ) (after : List ℕ) :
    Prop where
  linked : Linked h.next (some root) (before ++ last :: after)
  last_eq : (h.seg root).last = last
  nodup : (before ++ last :: after).Nodup
  range : ∀ p ∈ before ++ last :: after, lo ≤ p ∧ p < h.count

/-- What allocating and linking keep of the segments below `lo`. -/
structure Keeps (lo : ℕ) (h h' : Segments) : Prop where
  seg : ∀ p < lo, h'.seg p = h.seg p
  count : h.count ≤ h'.count

theorem Keeps.refl (lo : ℕ) (h : Segments) : Keeps lo h h := ⟨fun _ _ ↦ rfl, le_rfl⟩

theorem Keeps.trans {lo : ℕ} {h₁ h₂ h₃ : Segments} (h : Keeps lo h₁ h₂) (h' : Keeps lo h₂ h₃) :
    Keeps lo h₁ h₃ where
  seg p hp := (h'.seg p hp).trans (h.seg p hp)
  count := h.count.trans h'.count

theorem Keeps.mono {lo lo' : ℕ} {h h' : Segments} (hk : Keeps lo h h') (hle : lo' ≤ lo) :
    Keeps lo' h h' where
  seg p hp := hk.seg p (by omega)
  count := hk.count

section

variable {h h' : Segments} {lo root last : ℕ} {before after : List ℕ}

theorem Chained.root_mem (hc : Chained h lo root before last after) :
    root ∈ before ++ last :: after := by
  have hlinked := hc.linked
  cases before with
  | nil =>
    obtain ⟨heq, -⟩ := hlinked
    rw [Option.some.inj heq]
    exact List.mem_cons_self
  | cons p rest =>
    obtain ⟨heq, -⟩ := hlinked
    rw [Option.some.inj heq]
    exact List.mem_cons_self

/-- Chains below the segments that are changed stay as they are. -/
theorem Chained.keep {hi : ℕ} (hc : Chained h lo root before last after) (hcount : h.count ≤ hi)
    (hk : Keeps hi h h') : Chained h' lo root before last after where
  linked := by
    apply hc.linked.congr
    intro p hp
    rw [Segments.next, Segments.next, hk.seg p ((hc.range p hp).2.trans_le hcount)]
  last_eq := by
    rw [hk.seg root ((hc.range root hc.root_mem).2.trans_le hcount), hc.last_eq]
  nodup := hc.nodup
  range p hp := ⟨(hc.range p hp).1, (hc.range p hp).2.trans_le hk.count⟩

theorem texts_keep {hi : ℕ} {cells : List ℕ} (hcells : ∀ p ∈ cells, p < hi) (hk : Keeps hi h h') :
    h'.texts cells = h.texts cells := by
  apply List.map_congr_left
  intro p hp
  rw [hk.seg p (hcells p hp)]

/-! ## Linking -/

theorem linkLast_count (h : Segments) (p : ℕ) (right : Option ℕ) :
    (linkLast h p right).count = h.count := by
  cases right <;> rfl

/-- What linking changes of each segment. -/
theorem linkLast_seg_eq (h : Segments) (p q : ℕ) (right : Option ℕ) :
    (linkLast h p right).seg q = { h.seg q with
      last := if q = p then right.getD (h.seg p).last else (h.seg q).last
      right := if q = (h.seg p).last then right else (h.seg q).right } := by
  unfold linkLast Segments.set
  dsimp only
  generalize hlast : (h.seg p).last = l
  cases right with
  | none =>
    dsimp only
    by_cases hql : q = l
    · subst hql
      rw [Function.update_self, if_pos rfl]
      by_cases hqp : q = p
      · subst hqp
        rw [if_pos rfl, Option.getD_none, hlast]
      · rw [if_neg hqp]
    · rw [Function.update_of_ne hql, if_neg hql]
      by_cases hqp : q = p
      · subst hqp
        rw [if_pos rfl, Option.getD_none, ← hlast]
      · rw [if_neg hqp]
  | some r =>
    dsimp only
    by_cases hqp : q = p
    · subst hqp
      rw [Function.update_self, if_pos rfl, Option.getD_some]
      by_cases hql : q = l
      · subst hql
        rw [Function.update_self, if_pos rfl]
      · rw [Function.update_of_ne hql, if_neg hql]
    · rw [Function.update_of_ne hqp, if_neg hqp]
      by_cases hql : q = l
      · subst hql
        rw [Function.update_self, if_pos rfl]
      · rw [Function.update_of_ne hql, if_neg hql]

theorem linkLast_chars (h : Segments) (p q : ℕ) (right : Option ℕ) :
    ((linkLast h p right).seg q).chars = (h.seg q).chars := by
  rw [linkLast_seg_eq]

theorem linkLast_size (h : Segments) (p q : ℕ) (right : Option ℕ) :
    ((linkLast h p right).seg q).size = (h.seg q).size := by
  rw [linkLast_seg_eq]

theorem linkLast_next (h : Segments) (p q : ℕ) (right : Option ℕ) :
    (linkLast h p right).next q = if q = (h.seg p).last then right else h.next q := by
  rw [Segments.next, linkLast_seg_eq]
  rfl

theorem linkLast_last (h : Segments) (p : ℕ) (right : Option ℕ) :
    ((linkLast h p right).seg p).last = right.getD (h.seg p).last := by
  rw [linkLast_seg_eq]
  exact if_pos rfl

theorem linkLast_seg (h : Segments) {p q : ℕ} (right : Option ℕ) (hp : q ≠ p)
    (hlast : q ≠ (h.seg p).last) : (linkLast h p right).seg q = h.seg q := by
  rw [linkLast_seg_eq, if_neg hp, if_neg hlast]

theorem Chained.keeps_linkLast (hc : Chained h lo root before last after) (right : Option ℕ) :
    Keeps lo h (linkLast h root right) where
  seg p hp := by
    have hroot := (hc.range root hc.root_mem).1
    have hlast := (hc.range last (by simp)).1
    apply linkLast_seg
    · omega
    · rw [hc.last_eq]
      omega
  count := by rw [linkLast_count]

/-- Linking replaces what is behind the segment that the first one points to. -/
theorem Chained.linked_linkLast (hc : Chained h lo root before last after) {right : Option ℕ}
    {cells : List ℕ} (hright : Linked h.next right cells) (hlast : last ∉ cells) :
    Linked (linkLast h root right).next (some root) (before ++ last :: cells) := by
  have hbefore : last ∉ before := by
    intro hmem
    have hnodup := hc.nodup
    rw [List.nodup_append] at hnodup
    exact hnodup.2.2 last hmem last List.mem_cons_self rfl
  have hsame : ∀ p, p ≠ last → (linkLast h root right).next p = h.next p := by
    intro p hp
    rw [linkLast_next, hc.last_eq, if_neg hp]
  refine hc.linked.relink ?_ ?_ (hright.congr ?_)
  · intro p hp
    exact hsame p (ne_of_mem_of_not_mem hp hbefore)
  · rw [linkLast_next, hc.last_eq, if_pos rfl]
  · intro p hp
    exact hsame p (ne_of_mem_of_not_mem hp hlast)

/-- Linking to another chain. -/
theorem Chained.link_some (hc : Chained h lo root before last after) {mid root' : ℕ}
    {cells : List ℕ} (hlo : lo ≤ mid) (hbelow : ∀ p ∈ before ++ last :: after, p < mid)
    (hlinked : Linked h.next (some root') (root' :: cells)) (hnodup : (root' :: cells).Nodup)
    (hrange : ∀ p ∈ root' :: cells, mid ≤ p ∧ p < h.count) :
    Chained (linkLast h root (some root')) lo root (before ++ [last]) root' cells := by
  have hkept : ∀ p ∈ before ++ [last], p ∈ before ++ last :: after := by
    intro p hp
    rw [List.mem_append, List.mem_singleton] at hp
    rw [List.mem_append, List.mem_cons]
    tauto
  have hlast : last ∉ root' :: cells := by
    intro hmem
    have hmid := (hrange last hmem).1
    have hlt := hbelow last (by simp)
    omega
  refine ⟨?_, linkLast_last h root (some root'), ?_, ?_⟩
  · rw [List.append_assoc]
    exact hc.linked_linkLast hlinked hlast
  · have hfirst : (before ++ [last]).Nodup := by
      refine List.Nodup.sublist ?_ hc.nodup
      exact List.Sublist.append_left (List.singleton_sublist.mpr List.mem_cons_self) before
    apply hfirst.append hnodup
    intro p hp hp'
    have hlt := hbelow p (hkept p hp)
    have hmid := (hrange p hp').1
    omega
  · intro p hp
    rw [linkLast_count]
    rcases List.mem_append.mp hp with hp | hp
    · exact hc.range p (hkept p hp)
    · have hmid := hrange p hp
      omega

/-- Linking to nothing drops what is behind the segment that the first one points to. -/
theorem Chained.link_none (hc : Chained h lo root before last after) :
    Chained (linkLast h root none) lo root before last [] := by
  have hkept : ∀ p ∈ before ++ [last], p ∈ before ++ last :: after := by
    intro p hp
    rw [List.mem_append, List.mem_singleton] at hp
    rw [List.mem_append, List.mem_cons]
    tauto
  refine ⟨hc.linked_linkLast rfl List.not_mem_nil, ?_, ?_, ?_⟩
  · rw [linkLast_last, Option.getD_none, hc.last_eq]
  · refine List.Nodup.sublist ?_ hc.nodup
    exact List.Sublist.append_left (List.singleton_sublist.mpr List.mem_cons_self) before
  · intro p hp
    rw [linkLast_count]
    exact hc.range p (hkept p hp)

end

/-! ## Lexing -/

/-- Memory with one more segment. -/
def Segments.push (h : Segments) (s : Cstr) : Segments where
  count := h.count + 1
  seg := Function.update h.seg h.count s

theorem Segments.push_self (h : Segments) (s : Cstr) : (h.push s).seg h.count = s :=
  Function.update_self _ _ _

theorem Segments.push_keeps (h : Segments) (s : Cstr) : Keeps h.count h (h.push s) where
  seg _ hp := Function.update_of_ne (Nat.ne_of_lt hp) _ _
  count := Nat.le_succ _

theorem Segments.set_push (h : Segments) (s s' : Cstr) :
    (h.push s).set h.count s' = h.push s' := by
  rw [set, push, push]
  exact congrArg (Segments.mk (h.count + 1)) (Function.update_idem _ _ _)

theorem newstr_eq (h : Segments) (len : ℕ) : newstr h len = (h.count,
    h.push { size := (max minSegment len : ℕ), chars := [], last := h.count, right := none }) := by
  have hsize : ((if len < minSegment then minSegment else len : ℕ) : ℤ) = max minSegment len := by
    split
    · rw [max_eq_left (by omega)]
    · rw [max_eq_right (by omega)]
  rw [newstr, Segments.push, ← hsize]

theorem Span.length_text_le (span : Span) : span.text.length ≤ max minSegment span.leng := by
  cases span with
  | run chars => exact le_max_right _ _
  | escape e => exact le_max_of_le_left (show 1 ≤ minSegment by decide)

/-- Writing to a segment with enough room. -/
theorem savestr_of_le {h : Segments} {p : ℕ} {text : List (BitVec 8)}
    (hroom : ((h.seg p).chars.length + text.length : ℤ) ≤ (h.seg p).size) :
    savestr h p text = h.set p { h.seg p with chars := (h.seg p).chars ++ text } := by
  rw [savestr, resizestr, if_neg (by omega)]

/-- After the first span of a literal each one gets a segment that has room for it. -/
theorem lexSpan_of_used {h : Segments} {y : ℕ} (hused : (h.seg y).size < 0) (span : Span) :
    lexSpan h y span = (h.count,
      h.push { size := -1, chars := span.text, last := h.count, right := none }) := by
  have hroom := span.length_text_le
  rw [lexSpan, chkstr, if_pos hused, newstr_eq]
  dsimp only
  rw [savestr_of_le]
  · rw [Segments.push_self, Segments.set_push, Segments.push_self, Segments.set_push, List.nil_append]
  · rw [Segments.push_self, List.length_nil]
    dsimp only
    omega

/-- The first span of a literal is written to the segment that the opening quote has made. -/
theorem lexSpan_first {h : Segments} {span : Span} (hfits : span.text.length ≤ minSegment) :
    lexSpan (newstr h 1).2 h.count span = (h.count,
      h.push { size := -1, chars := span.text, last := h.count, right := none }) := by
  have hsize : ((max minSegment 1 : ℕ) : ℤ) = 128 := by decide
  have hmin : minSegment = 128 := rfl
  rw [lexSpan, chkstr, newstr_eq]
  dsimp only
  rw [Segments.push_self, hsize, if_neg (show ¬(128 : ℤ) < 0 by decide)]
  dsimp only
  rw [savestr_of_le]
  · rw [Segments.push_self, Segments.set_push, Segments.push_self, Segments.set_push, List.nil_append]
  · rw [Segments.push_self, List.length_nil]
    dsimp only
    omega

/-- Where it does not fit, it is written to a segment of its own. -/
theorem lexSpan_first_overflow {h : Segments} {span : Span} (hlong : minSegment < span.text.length) :
    lexSpan (newstr h 1).2 h.count span = (h.count,
      ((h.push { size := -1, chars := [], last := h.count + 1, right := some (h.count + 1) }).push
        { size := span.text.length, chars := span.text, last := h.count + 1, right := none })) := by
  have hsize : ((max minSegment 1 : ℕ) : ℤ) = 128 := by decide
  have hmax : max minSegment span.text.length = span.text.length := max_eq_right hlong.le
  have hmin : minSegment = 128 := rfl
  rw [lexSpan, chkstr, newstr_eq]
  dsimp only
  rw [Segments.push_self, hsize, if_neg (show ¬(128 : ℤ) < 0 by decide)]
  dsimp only
  rw [savestr, resizestr, Segments.push_self, List.length_nil]
  dsimp only
  rw [if_pos (by omega), newstr_eq, hmax]
  apply congrArg (Prod.mk h.count)
  simp only [Segments.push, Segments.set, Segments.mk.injEq, true_and]
  funext p
  by_cases hroot : p = h.count
  · subst hroot
    simp
  · by_cases hnext : p = h.count + 1
    · subst hnext
      simp
    · simp [hroot, hnext]

/-! ## The segments of a literal -/

/-- What is known after the spans of a literal: a chain with their texts, without anything behind the last
segment. -/
structure SpansDone (h : Segments) (lo root y : ℕ) (texts : List (List (BitVec 8))) : Prop where
  chained : ∃ before last, Chained h lo root before last [] ∧ h.texts (before ++ [last]) = texts
  used : (h.seg y).size < 0

theorem spansDone_first {h : Segments} {lo : ℕ} (hlo : lo ≤ h.count) (span : Span) :
    let (y, h') := lexSpan (newstr h 1).2 h.count span
    y = h.count ∧ Keeps lo h h' ∧ SpansDone h' lo y y
      (if minSegment < span.text.length then [[], span.text] else [span.text]) := by
  split
  rename_i y h' hlex
  by_cases hlong : minSegment < span.text.length
  · rw [lexSpan_first_overflow hlong] at hlex
    obtain ⟨rfl, rfl⟩ := Prod.mk.inj hlex
    rw [if_pos hlong]
    set first : Cstr := { size := -1, chars := [], last := h.count + 1, right := some (h.count + 1) }
      with hfirst
    set second : Cstr :=
      { size := span.text.length, chars := span.text, last := h.count + 1, right := none } with hsecond
    have hsegFirst : ((h.push first).push second).seg h.count = first := by
      rw [((h.push first).push_keeps second).seg h.count (Nat.lt_succ_self _), Segments.push_self]
    have hsegSecond : ((h.push first).push second).seg (h.count + 1) = second :=
      (h.push first).push_self second
    have hkeeps : Keeps h.count h ((h.push first).push second) :=
      (h.push_keeps first).trans (((h.push first).push_keeps second).mono (Nat.le_succ _))
    refine ⟨rfl, hkeeps.mono hlo,
      ⟨[h.count], h.count + 1, ⟨⟨rfl, ?_, ?_⟩, ?_, ?_, ?_⟩, ?_⟩, ?_⟩
    · rw [Segments.next, hsegFirst]
    · rw [Segments.next, hsegSecond]
      rfl
    · rw [hsegFirst]
    · simp
    · intro p hp
      have hcount : ((h.push first).push second).count = h.count + 2 := rfl
      have hcells : p = h.count ∨ p = h.count + 1 := by simpa using hp
      omega
    · rw [Segments.texts, List.map_append, List.map_singleton, List.map_singleton, hsegFirst,
        hsegSecond]
      rfl
    · rw [hsegFirst]
      exact Int.negSucc_lt_zero 0
  · rw [lexSpan_first (by omega)] at hlex
    obtain ⟨rfl, rfl⟩ := Prod.mk.inj hlex
    rw [if_neg hlong]
    refine ⟨rfl, (h.push_keeps _).mono hlo, ⟨[], h.count, ⟨⟨rfl, ?_⟩, ?_, ?_, ?_⟩, ?_⟩, ?_⟩
    · rw [Segments.next, Segments.push_self]
      rfl
    · rw [Segments.push_self]
    · exact List.nodup_singleton _
    · intro p hp
      obtain rfl := List.mem_singleton.mp hp
      exact ⟨hlo, Nat.lt_succ_self _⟩
    · rw [List.nil_append, Segments.texts, List.map_singleton, Segments.push_self]
    · rw [Segments.push_self]
      exact Int.negSucc_lt_zero 0

/-- One more span. -/
theorem SpansDone.step {h : Segments} {lo root y : ℕ} {texts : List (List (BitVec 8))}
    (hdone : SpansDone h lo root y texts) (span : Span) :
    let (token, h') := lexSpan h y span
    let h'' := linkLast h' root (some token)
    Keeps lo h h'' ∧ SpansDone h'' lo root token (texts ++ [span.text]) := by
  rw [lexSpan_of_used hdone.used]
  dsimp only
  set h' := h.push { size := -1, chars := span.text, last := h.count, right := none } with hpush
  obtain ⟨before, last, hc, htexts⟩ := hdone.chained
  have hkeeps : Keeps h.count h h' := h.push_keeps _
  have hc' : Chained h' lo root before last [] := hc.keep le_rfl hkeeps
  have hbelow : ∀ p ∈ before ++ [last], p < h.count := fun p hp ↦ (hc.range p hp).2
  have hlo : lo ≤ h.count := by
    have hroot := hc.range root hc.root_mem
    omega
  have hlinked : Chained (linkLast h' root (some h.count)) lo root (before ++ [last]) h.count [] := by
    refine hc'.link_some hlo hbelow ⟨rfl, ?_⟩ (List.nodup_singleton _) ?_
    · rw [Segments.next, hpush, Segments.push_self]
      rfl
    · intro p hp
      obtain rfl := List.mem_singleton.mp hp
      exact ⟨le_rfl, Nat.lt_succ_self _⟩
  refine ⟨(hkeeps.mono hlo).trans (hc'.keeps_linkLast _), ⟨before ++ [last], h.count, hlinked, ?_⟩, ?_⟩
  · have hsame : ∀ cells, (linkLast h' root (some h.count)).texts cells = h'.texts cells := by
      intro cells
      apply List.map_congr_left
      intro p _
      exact linkLast_chars h' root p _
    have hold : h'.texts (before ++ [last]) = texts := by
      rw [texts_keep hbelow hkeeps, htexts]
    rw [hsame, ← hold, Segments.texts, Segments.texts, List.map_append, List.map_singleton, hpush,
      Segments.push_self]
  · rw [linkLast_size, hpush, Segments.push_self]
    exact Int.negSucc_lt_zero 0

/-- All further spans of a literal. -/
theorem SpansDone.run {h : Segments} {lo root y : ℕ} {texts : List (List (BitVec 8))}
    (hdone : SpansDone h lo root y texts) (spans : List Span) :
    let (elt, h') := strspan h y (some root) spans
    elt = some root ∧ Keeps lo h h' ∧ ∃ y', SpansDone h' lo root y' (texts ++ spans.map Span.text) := by
  induction spans generalizing h y texts with
  | nil =>
    rw [strspan, List.map_nil, List.append_nil]
    exact ⟨rfl, .refl _ _, y, hdone⟩
  | cons span rest ih =>
    have hstep := hdone.step span
    rw [strspan]
    dsimp only at hstep ⊢
    obtain ⟨hkeeps, hdone'⟩ := hstep
    obtain ⟨helt, hkeeps', y', hdone''⟩ := ih hdone'
    rw [List.append_assoc] at hdone''
    exact ⟨helt, hkeeps.trans hkeeps', y', hdone''⟩

/-- What a literal leaves: nothing, or a chain of new segments with its texts. -/
theorem stringelt_spec (h : Segments) (literal : StringLiteral) :
    let (elt, h') := stringelt h literal
    Keeps h.count h h' ∧
      match elt with
      | none => segmentTexts literal = []
      | some root => ∃ before last, Chained h' h.count root before last [] ∧
          h'.texts (before ++ [last]) = segmentTexts literal := by
  rw [stringelt, segmentTexts, newstr_eq]
  dsimp only
  cases hspans : spans literal with
  | nil => exact ⟨h.push_keeps _, rfl⟩
  | cons span rest =>
    have hfirst := spansDone_first (h := h) le_rfl span
    rw [newstr_eq] at hfirst
    rw [strspan]
    dsimp only at hfirst ⊢
    obtain ⟨hy, hkeeps, hdone⟩ := hfirst
    have hrun := hdone.run rest
    dsimp only at hrun
    obtain ⟨helt, hkeeps', y', hdone'⟩ := hrun
    rw [helt]
    exact ⟨hkeeps.trans hkeeps', hy ▸ hdone'.chained⟩

/-! ## Adjacent literals -/

/-- What is known after some literals: the texts of the segments up to the one that the first segment
points to, and the texts behind it. -/
def LiteralsDone (h : Segments) (committed behind : List (List (BitVec 8))) : Option ℕ → Prop
  | none => committed = [] ∧ behind = []
  | some root => ∃ before last after, Chained h 0 root before last after ∧
      h.texts (before ++ [last]) = committed ∧ h.texts after = behind

theorem Chained.exists_tail {h : Segments} {lo root last : ℕ} {before after : List ℕ}
    (hc : Chained h lo root before last after) : ∃ cells, before ++ last :: after = root :: cells := by
  have hlinked := hc.linked
  cases before with
  | nil =>
    obtain ⟨heq, -⟩ := hlinked
    exact ⟨after, by rw [Option.some.inj heq]; rfl⟩
  | cons p rest =>
    obtain ⟨heq, -⟩ := hlinked
    exact ⟨rest ++ last :: after, by rw [Option.some.inj heq]; rfl⟩

theorem texts_congr {h h' : Segments} (hsame : ∀ p, (h'.seg p).chars = (h.seg p).chars)
    (cells : List ℕ) : h'.texts cells = h.texts cells :=
  List.map_congr_left fun p _ ↦ hsame p

/-- One more literal: its first segment is linked for good, and those behind it until the next one. -/
theorem LiteralsDone.step {h : Segments} {committed behind : List (List (BitVec 8))}
    {left : Option ℕ} (hdone : LiteralsDone h committed behind left) (literal : StringLiteral)
    (rest : List StringLiteral) : ∃ left' h',
      stringAfter h left (literal :: rest) = stringAfter h' left' rest ∧
      LiteralsDone h' (committed ++ (segmentTexts literal).take 1) ((segmentTexts literal).drop 1)
        left' := by
  have helt := stringelt_spec h literal
  rw [stringAfter]
  generalize stringelt h literal = result at helt
  obtain ⟨elt, h'⟩ := result
  dsimp only at helt ⊢
  obtain ⟨hkeeps, helt⟩ := helt
  cases elt with
  | none =>
    dsimp only at helt
    rw [helt, List.take_nil, List.drop_nil, List.append_nil]
    cases left with
    | none =>
      obtain ⟨rfl, rfl⟩ := hdone
      exact ⟨none, h', rfl, rfl, rfl⟩
    | some root =>
      obtain ⟨before, last, after, hc, htexts, -⟩ := hdone
      have hc' := (hc.keep le_rfl hkeeps).link_none
      refine ⟨some root, _, rfl, before, last, [], hc', ?_, rfl⟩
      rw [texts_congr fun p ↦ linkLast_chars h' root p none, ← htexts]
      apply texts_keep _ hkeeps
      intro p hp
      refine (hc.range p ?_).2
      simp only [List.mem_append, List.mem_cons] at hp ⊢
      tauto
  | some root' =>
    obtain ⟨before', last', hc', htexts'⟩ := helt
    obtain ⟨cells, hcells⟩ := hc'.exists_tail
    have hlinked := hc'.linked
    have hnodup := hc'.nodup
    have hrange := hc'.range
    rw [hcells] at hlinked hnodup hrange htexts'
    have htake : (segmentTexts literal).take 1 = h'.texts [root'] := by
      rw [← htexts']
      rfl
    have hdrop : (segmentTexts literal).drop 1 = h'.texts cells := by
      rw [← htexts']
      rfl
    rw [htake, hdrop]
    cases left with
    | none =>
      obtain ⟨rfl, -⟩ := hdone
      set h'' := h'.set root' { h'.seg root' with last := root' } with hset
      have hself : h''.seg root' = { h'.seg root' with last := root' } := Function.update_self _ _ _
      have hother : ∀ p, p ≠ root' → h''.seg p = h'.seg p :=
        fun p hp ↦ Function.update_of_ne hp _ _
      have hnext : ∀ p, h''.next p = h'.next p := by
        intro p
        rw [Segments.next, Segments.next]
        by_cases hp : p = root'
        · rw [hp, hself]
        · rw [hother p hp]
      have hchars : ∀ p, (h''.seg p).chars = (h'.seg p).chars := by
        intro p
        by_cases hp : p = root'
        · rw [hp, hself]
        · rw [hother p hp]
      refine ⟨some root', h'', rfl, [], root', cells, ⟨?_, ?_, hnodup, ?_⟩, ?_, ?_⟩
      · exact hlinked.congr fun p _ ↦ hnext p
      · rw [hself]
      · exact fun p hp ↦ ⟨Nat.zero_le _, (hrange p hp).2⟩
      · exact texts_congr hchars _
      · exact texts_congr hchars _
    | some root =>
      obtain ⟨before, last, after, hc, htexts, -⟩ := hdone
      have hbelow : ∀ p ∈ before ++ last :: after, p < h.count := fun p hp ↦ (hc.range p hp).2
      have hc'' := (hc.keep le_rfl hkeeps).link_some (Nat.zero_le _) hbelow hlinked hnodup hrange
      have hchars := texts_congr fun p ↦ linkLast_chars h' root p (some root')
      refine ⟨some root, _, rfl, before ++ [last], root', cells, hc'', ?_, hchars cells⟩
      have hold : h'.texts (before ++ [last]) = committed := by
        rw [← htexts]
        apply texts_keep _ hkeeps
        intro p hp
        apply hbelow p
        simp only [List.mem_append, List.mem_cons] at hp ⊢
        tauto
      rw [hchars, ← hold, Segments.texts, Segments.texts, Segments.texts, List.map_append]

/-- The texts of the segments that are linked in the end: of the literals between the first and the last
one only the first segment. -/
def linkedTexts (first : StringLiteral) (rest : List StringLiteral) : List (List (BitVec 8)) :=
  segmentTexts first ++ rest.dropLast.flatMap (fun literal ↦ (segmentTexts literal).take 1) ++
    (rest.getLast?.map segmentTexts).getD []

theorem LiteralsDone.run {h : Segments} {committed behind : List (List (BitVec 8))}
    {left : Option ℕ} (hdone : LiteralsDone h committed behind left) {rest : List StringLiteral}
    (hrest : rest ≠ []) : ∃ committed' behind',
      LiteralsDone (stringAfter h left rest).2 committed' behind' (stringAfter h left rest).1 ∧
      committed' ++ behind' = committed ++
        rest.dropLast.flatMap (fun literal ↦ (segmentTexts literal).take 1) ++
          (rest.getLast?.map segmentTexts).getD [] := by
  induction rest generalizing h committed behind left with
  | nil => exact absurd rfl hrest
  | cons literal rest ih =>
    obtain ⟨left', h', hstep, hdone'⟩ := hdone.step literal rest
    rw [hstep]
    cases rest with
    | nil =>
      refine ⟨_, _, hdone', ?_⟩
      rw [List.append_assoc, List.take_append_drop]
      simp
    | cons literal' rest' =>
      obtain ⟨committed', behind', hdone'', htexts⟩ := ih hdone' (List.cons_ne_nil _ _)
      refine ⟨committed', behind', hdone'', ?_⟩
      rw [htexts, List.dropLast_cons_cons, List.flatMap_cons, List.getLast?_cons_cons]
      simp only [List.append_assoc]

/-- What `make_utf32` finds. -/
theorem stringChars_eq (first : StringLiteral) (rest : List StringLiteral) :
    stringChars (stringOf first rest).1 (stringOf first rest).2 =
      some (linkedTexts first rest).flatten := by
  have hfirst := stringelt_spec .empty first
  rw [stringOf]
  generalize stringelt .empty first = result at hfirst
  obtain ⟨elt, h⟩ := result
  dsimp only at hfirst ⊢
  obtain ⟨-, helt⟩ := hfirst
  have hdone : LiteralsDone h (segmentTexts first) [] elt := by
    cases elt with
    | none => exact ⟨helt, rfl⟩
    | some root =>
      obtain ⟨before, last, hc, htexts⟩ := helt
      exact ⟨before, last, [], hc, htexts, rfl⟩
  obtain ⟨committed, behind, hlast, htexts⟩ : ∃ committed behind,
      LiteralsDone (stringAfter h elt rest).2 committed behind (stringAfter h elt rest).1 ∧
      committed ++ behind = linkedTexts first rest := by
    cases rest with
    | nil => exact ⟨_, _, hdone, by simp [linkedTexts]⟩
    | cons literal rest' => exact hdone.run (List.cons_ne_nil _ _)
  rw [← htexts]
  generalize stringAfter h elt rest = final at hlast
  obtain ⟨root, h'⟩ := final
  dsimp only at hlast ⊢
  cases root with
  | none =>
    obtain ⟨rfl, rfl⟩ := hlast
    rw [stringChars]
    cases h'.count <;> rfl
  | some root =>
    obtain ⟨before, last, after, hc, hcommitted, hbehind⟩ := hlast
    have hlength : (before ++ last :: after).length ≤ h'.count := by
      have hsubset : before ++ last :: after ⊆ List.range h'.count :=
        fun p hp ↦ List.mem_range.mpr (hc.range p hp).2
      have hle := hc.nodup.length_le_of_subset hsubset
      rwa [List.length_range] at hle
    rw [stringChars, hc.linked.walk_eq hlength, Option.map_some, ← hcommitted, ← hbehind,
      Segments.texts, Segments.texts, ← List.map_append, List.append_assoc, List.singleton_append]
    rfl

/-! ## Decoding -/

theorem spans_text (literal : StringLiteral) :
    (spans literal).flatMap Span.text = literal.decode := by
  induction literal with
  | nil => rfl
  | cons c rest ih =>
    rw [StringLiteral.decode, List.map_cons]
    change _ = c.decode :: StringLiteral.decode rest
    rw [← ih]
    cases c with
    | escape e => rfl
    | plain c =>
      rw [spans]
      split
      · rename_i chars more hspans
        rw [hspans]
        rfl
      · rfl

theorem spans_nonempty (literal : StringLiteral) : ∀ span ∈ spans literal, span.text ≠ [] := by
  induction literal with
  | nil => simp [spans]
  | cons c rest ih =>
    cases c with
    | escape e =>
      intro span hspan
      rcases List.mem_cons.mp hspan with rfl | hspan
      · exact List.cons_ne_nil _ _
      · exact ih span hspan
    | plain c =>
      intro span hspan
      rw [spans] at hspan
      split at hspan
      · rename_i chars more hspans
        rcases List.mem_cons.mp hspan with rfl | hspan
        · exact List.cons_ne_nil _ _
        · exact ih span (by rw [hspans]; exact List.mem_cons_of_mem _ hspan)
      · rcases List.mem_cons.mp hspan with rfl | hspan
        · exact List.cons_ne_nil _ _
        · exact ih span hspan

/-- The segments of a literal have all its characters. -/
theorem segmentTexts_flatten (literal : StringLiteral) :
    (segmentTexts literal).flatten = literal.decode := by
  rw [← spans_text, segmentTexts]
  cases spans literal with
  | nil => rfl
  | cons span more =>
    dsimp only
    rw [List.flatten_append, List.flatMap_cons, List.flatMap_def]
    split <;> simp

/-- A literal that takes one segment at most. -/
def StringLiteral.InOneSegment (literal : StringLiteral) : Prop :=
  (spans literal).length ≤ 1 ∧ literal.length ≤ minSegment

instance (literal : StringLiteral) : Decidable literal.InOneSegment :=
  inferInstanceAs (Decidable (_ ∧ _))

/-- Characters behind the first segment. -/
theorem segmentTexts_drop (literal : StringLiteral) :
    ((segmentTexts literal).drop 1).flatten = [] ↔ literal.InOneSegment := by
  have hlength : literal.length = ((spans literal).flatMap Span.text).length := by
    rw [spans_text, StringLiteral.decode, List.length_map]
  have hnonempty := spans_nonempty literal
  rw [StringLiteral.InOneSegment, hlength, segmentTexts]
  cases hspans : spans literal with
  | nil => simp
  | cons span more =>
    rw [hspans] at hnonempty
    have hspan : span.text ≠ [] := hnonempty span List.mem_cons_self
    dsimp only
    by_cases hlong : minSegment < span.text.length
    · rw [if_pos hlong]
      refine iff_of_false ?_ ?_
      · simp [hspan]
      · rw [List.flatMap_cons, List.length_append]
        omega
    · rw [if_neg hlong]
      cases more with
      | nil =>
        refine iff_of_true (by simp) ⟨by simp, ?_⟩
        rw [List.flatMap_cons, List.flatMap_nil, List.append_nil]
        omega
      | cons span' more' =>
        have hspan' : span'.text ≠ [] :=
          hnonempty span' (List.mem_cons_of_mem _ List.mem_cons_self)
        refine iff_of_false ?_ ?_
        · simp [hspan']
        · simp

/-- Nothing is lost from literals of which only the first segment is linked exactly when they have no
other. -/
theorem flatMap_take_iff (literals : List StringLiteral) :
    (literals.flatMap fun literal ↦ (segmentTexts literal).take 1).flatten =
        literals.flatMap StringLiteral.decode ↔
      ∀ literal ∈ literals, literal.InOneSegment := by
  have hsplit : ∀ literal : StringLiteral, literal.decode =
      ((segmentTexts literal).take 1).flatten ++ ((segmentTexts literal).drop 1).flatten := by
    intro literal
    rw [← List.flatten_append, List.take_append_drop, segmentTexts_flatten]
  have hle : ∀ literals : List StringLiteral,
      ((literals.flatMap fun literal ↦ (segmentTexts literal).take 1).flatten).length ≤
        (literals.flatMap StringLiteral.decode).length := by
    intro literals
    induction literals with
    | nil => simp
    | cons literal rest ih =>
      rw [List.flatMap_cons, List.flatMap_cons, List.flatten_append, List.length_append,
        List.length_append, hsplit literal, List.length_append]
      omega
  induction literals with
  | nil => simp
  | cons literal rest ih =>
    rw [List.forall_mem_cons, ← segmentTexts_drop, List.flatMap_cons, List.flatMap_cons,
      List.flatten_append, hsplit literal]
    constructor
    · intro h
      have hlength := congrArg List.length h
      simp only [List.length_append] at hlength
      have hrest := hle rest
      have hnil : ((segmentTexts literal).drop 1).flatten = [] := by
        apply List.length_eq_zero_iff.mp
        omega
      rw [hnil, List.append_nil] at h
      exact ⟨hnil, ih.mp (List.append_cancel_left h)⟩
    · rintro ⟨hnil, hrest⟩
      rw [hnil, ih.mpr hrest, List.append_nil]

theorem makeUtf32_injective : Function.Injective makeUtf32 := by
  apply List.map_injective_iff.mpr
  intro c c' h
  have hword : c.signExtend 32 = c'.signExtend 32 := congrArg Elem.word h
  have hint := congrArg BitVec.toInt hword
  rw [BitVec.toInt_signExtend_of_le (by decide), BitVec.toInt_signExtend_of_le (by decide)] at hint
  exact BitVec.eq_of_toInt_eq hint

/-- **Which strings are complete.** `.utf32` with adjacent literals yields one word for each character
exactly when every literal between the first and the last one takes one segment at most: it is empty, or
a single escape, or up to 128 characters without escapes. -/
theorem utf32Elems_iff (first : StringLiteral) (rest : List StringLiteral) :
    utf32Elems first rest = some (makeUtf32 ((first :: rest).flatMap StringLiteral.decode)) ↔
      ∀ literal ∈ rest.dropLast, literal.InOneSegment := by
  rw [utf32Elems]
  dsimp only
  rw [stringChars_eq, Option.map_some, Option.some.injEq, makeUtf32_injective.eq_iff, linkedTexts,
    List.flatten_append, List.flatten_append, segmentTexts_flatten, List.flatMap_cons,
    List.append_assoc, List.append_right_inj, ← flatMap_take_iff]
  rcases List.eq_nil_or_concat rest with rfl | ⟨init, last, rfl⟩
  · simp
  · rw [List.concat_eq_append, List.dropLast_concat, List.getLast?_concat, Option.map_some,
      Option.getD_some, segmentTexts_flatten, List.flatMap_append, List.flatMap_cons,
      List.flatMap_nil, List.append_nil, List.append_left_inj]

/-- `"a" "b\n" ""` -/
theorem not_utf32Elems :
    ¬∀ (first : StringLiteral) (rest : List StringLiteral),
      utf32Elems first rest = some (makeUtf32 ((first :: rest).flatMap StringLiteral.decode)) := by
  intro h
  have hall := (utf32Elems_iff [.plain 0x61#8] [[.plain 0x62#8, .escape .n], []]).mp (h _ _)
  exact absurd (hall [.plain 0x62#8, .escape .n] (by simp)) (by decide)

end Tenyr.Asm
