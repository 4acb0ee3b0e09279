import Tenyr.Asm.Immediates
import Tenyr.Asm.Lexing

/-!
# Printed right-hand sides

What the grammar reads in the texts of operands that the disassembler prints.
-/

namespace Tenyr.Asm

open Isa Obj

/-! ## Literals -/

/-- The actions of `immediate` and `atom`, before any symbol is bound. -/
def Literal.written : Literal → ConstExpr Name
  | decnum value => .imm (BitVec.ofNat 32 value) false
  | hexnum value => .imm (BitVec.ofNat 32 value) true
  | paren e => .paren e.written
  | neg e => .op1 .neg e.written

theorem Literal.map_written (env : Env) (e : Literal) : e.written.map (makeRef env) = e.expr := by
  induction e with
  | decnum | hexnum => rfl
  | paren e ih => exact congrArg ConstExpr.paren ih
  | neg e ih => exact congrArg (ConstExpr.op1 .neg) ih

/-- The literal that is printed for an immediate. -/
def printedLiteral (hex : Bool) (i : Word) : Literal :=
  if hex then .hexnum i.toNat
  else if i.toInt < 0 then .neg (.decnum i.toInt.natAbs)
  else .decnum i.toInt.natAbs

theorem isHex_printedLiteral (hex : Bool) (i : Word) : (printedLiteral hex i).isHex = hex := by
  unfold printedLiteral
  split
  · rename_i h
    exact h.symm
  · rename_i h
    rw [Bool.not_eq_true] at h
    split <;> exact h.symm

theorem ofInt_printedLiteral (hex : Bool) (i : Word) :
    BitVec.ofInt 32 (printedLiteral hex i).value = i := by
  unfold printedLiteral
  split
  · rw [Literal.value, BitVec.ofInt_natCast, BitVec.ofNat_toNat, BitVec.setWidth_eq]
  · have hvalue : (if i.toInt < 0 then Literal.neg (.decnum i.toInt.natAbs)
        else .decnum i.toInt.natAbs).value = i.toInt := by
      split
      · rename_i h
        simp only [Literal.value]
        omega
      · rename_i h
        simp only [Literal.value]
        omega
    rw [hvalue, BitVec.ofInt_toInt]

/-! ## Operands -/

section

variable {s s₀ s' : Scanner} {c : Char} {text rest : List Char}

/-- Only the first token of a phrase depends on what is in front of it. -/
theorem Derives.congr_yylex {e : ConstExpr Name} (h : Derives .atom s e s') (hlex : yylex s₀ = yylex s) :
    Derives .atom s₀ e s' := by
  have hread : ∀ {t s₁}, Reads s t s₁ → Reads s₀ t s₁ := fun h ↦ hlex.trans h
  cases h with
  | eref hat hname => exact .eref (hread hat) hname
  | paren hopen he hclose => exact .paren (hread hopen) he hclose
  | unary hop he => exact .unary (hread hop) he
  | immediate ht hi => exact .immediate (hread ht) hi
  | dot hdot => exact .dot (hread hdot)
  | loc hname => exact .loc (hread hname)

theorem Derives.spaces {e : ConstExpr Name} (k : ℕ) (h : Derives .atom (scan text) e s') :
    Derives .atom (scan (List.replicate k ' ' ++ text)) e s' :=
  h.congr_yylex (yylex_spaces k text)

theorem ReadsReg.spaces {x : RegIndex} (k : ℕ) (h : ReadsReg (scan text) x s') :
    ReadsReg (scan (List.replicate k ' ' ++ text)) x s' := by
  obtain ⟨name, hread, hx⟩ := h
  exact ⟨name, hread.spaces k, hx⟩

theorem derives_printImm (hex : Bool) (i : Word) (hc : EndsOperand c) :
    Derives .atom (scan (printImm hex i ++ c :: rest)) (printedLiteral hex i).written (scan (c :: rest)) := by
  unfold printImm printedLiteral
  split
  · have hvalue : BitVec.ofNat 32 i.toNat = i := by rw [BitVec.ofNat_toNat, BitVec.setWidth_eq]
    rw [Literal.written, hvalue]
    exact .immediate (reads_printHexWord i hc) rfl
  · have hlt : i.toInt.natAbs < 2 ^ 63 := by
      have hle := BitVec.toInt_lt (x := i)
      have hge := BitVec.le_toInt (x := i)
      omega
    unfold printInt
    split
    · rename_i hneg
      obtain ⟨d, digits, hdigits, hd, hd'⟩ := exists_toDigits_cons (n := i.toInt.natAbs) (by omega)
      have hminus : Reads (scan ('-' :: Nat.toDigits 10 i.toInt.natAbs ++ c :: rest)) UnaryOp.neg.token
          (scan (Nat.toDigits 10 i.toInt.natAbs ++ c :: rest)) := by
        rw [hdigits]
        exact reads_minus hd hd'
      exact .unary hminus (.immediate (reads_decimal hlt hc) rfl)
    · exact .immediate (reads_decimal hlt hc) rfl

/-! ## Right-hand sides -/

/-- A text that is read as a right-hand side wherever an operand can end. -/
def Spells (text : List Char) (rhs : RhsPlain Name) : Prop :=
  ∀ c rest, EndsOperand c → DerivesRhsPlain (scan (text ++ c :: rest)) rhs (scan (c :: rest))

/-- A sum behind an operand. -/
theorem reads_sum (text : List Char) :
    Reads (scan (' ' :: '+' :: ' ' :: text)) (.char '+') (scan (List.replicate 1 ' ' ++ text)) :=
  reads_plus.skip

theorem endsOperand_space : EndsOperand ' ' := .inl rfl

variable (x y : RegIndex) (op : Op) (hex : Bool) (i : Word)

theorem spells_reg : Spells [regName x] (.reg x) :=
  fun _ _ hc ↦ .reg (readsReg_regName x hc)

theorem spells_imm : Spells (printImm hex i) (.imm (printedLiteral hex i).written) :=
  fun _ _ hc ↦ .imm (derives_printImm hex i hc)

theorem spells_regReg : Spells ([regName x] ++ ' ' :: printOp (opName op) ++ ' ' :: [regName y])
    (.regReg x (.native op) y) := by
  intro c rest hc
  obtain ⟨k, hop⟩ := readsBinop_printOp op (regName y :: c :: rest)
  rw [List.append_assoc, List.append_assoc]
  exact .regReg (readsReg_regName x endsOperand_space) hop ((readsReg_regName y hc).spaces k)

theorem spells_regRegImm :
    Spells ([regName x] ++ ' ' :: printOp (opName op) ++ ' ' :: [regName y] ++ [' ', '+', ' '] ++ printImm hex i)
      (.regRegImm x (.native op) y .plus (printedLiteral hex i).written) := by
  intro c rest hc
  obtain ⟨k, hop⟩ := readsBinop_printOp op (regName y :: ' ' :: '+' :: ' ' :: (printImm hex i ++ c :: rest))
  simp only [List.append_assoc]
  exact .regRegImm (readsReg_regName x endsOperand_space) hop
    ((readsReg_regName y endsOperand_space).spaces k) (reads_sum _) ((derives_printImm hex i hc).spaces 1)

theorem spells_regImmReg :
    Spells ([regName x] ++ ' ' :: printOp (opName op) ++ ' ' :: printImm hex i ++ [' ', '+', ' '] ++ [regName y])
      (.regImmReg x (.native op) (printedLiteral hex i).written y) := by
  intro c rest hc
  obtain ⟨k, hop⟩ := readsBinop_printOp op (printImm hex i ++ ' ' :: '+' :: ' ' :: regName y :: c :: rest)
  simp only [List.append_assoc, List.cons_append]
  exact .regImmReg (readsReg_regName x endsOperand_space) hop
    ((derives_printImm hex i endsOperand_space).spaces k) (reads_sum _) ((readsReg_regName y hc).spaces 1)

theorem spells_regImm : Spells ([regName x] ++ ' ' :: printOp (opName op) ++ ' ' :: printImm hex i)
    (.regImm x (.native op) (printedLiteral hex i).written) := by
  intro c rest hc
  obtain ⟨k, hop⟩ := readsBinop_printOp op (printImm hex i ++ c :: rest)
  simp only [List.append_assoc, List.cons_append]
  exact .regImm (readsReg_regName x endsOperand_space) hop ((derives_printImm hex i hc).spaces k)

theorem spells_immRegReg :
    Spells (printImm hex i ++ ' ' :: printOp (opName op) ++ ' ' :: [regName x] ++ [' ', '+', ' '] ++ [regName y])
      (.immRegReg (printedLiteral hex i).written (.native op) x y) := by
  intro c rest hc
  obtain ⟨k, hop⟩ := readsBinop_printOp op (regName x :: ' ' :: '+' :: ' ' :: regName y :: c :: rest)
  simp only [List.append_assoc, List.cons_append]
  exact .immRegReg (derives_printImm hex i endsOperand_space) hop
    ((readsReg_regName x endsOperand_space).spaces k) (reads_sum _) ((readsReg_regName y hc).spaces 1)

theorem spells_immReg : Spells (printImm hex i ++ ' ' :: printOp (opName op) ++ ' ' :: [regName x])
    (.immReg (printedLiteral hex i).written (.native op) x) := by
  intro c rest hc
  obtain ⟨k, hop⟩ := readsBinop_printOp op (regName x :: c :: rest)
  simp only [List.append_assoc, List.cons_append]
  exact .immReg (derives_printImm hex i endsOperand_space) hop ((readsReg_regName x hc).spaces k)

/-- `s6` for the sugar of a unary operator. -/
def InsnUnaryOp.name : InsnUnaryOp → List Char
  | neg => ['-']
  | compl => ['~']

/-- A unary operator with the blank that stands for its left operand. -/
theorem reads_unaryOp (op : InsnUnaryOp) (text : List Char) :
    Reads (scan (' ' :: ' ' :: (printOp op.name ++ ' ' :: text))) op.token
      (scan (List.replicate 2 ' ' ++ text)) := by
  cases op with
  | neg => exact (reads_append ['-'] rfl rfl rfl).skip.skip.skip
  | compl => exact (reads_append ['~'] rfl rfl rfl).skip.skip.skip

variable (unary : InsnUnaryOp)

theorem spells_unaryReg : Spells ([' '] ++ ' ' :: printOp unary.name ++ ' ' :: [regName x])
    (.unaryReg unary x) := by
  intro c rest hc
  simp only [List.append_assoc, List.cons_append]
  exact .unaryReg (reads_unaryOp unary _) ((readsReg_regName x hc).spaces 2)

theorem spells_unaryRegImm :
    Spells ([' '] ++ ' ' :: printOp unary.name ++ ' ' :: [regName x] ++ [' ', '+', ' '] ++ printImm hex i)
      (.unaryRegImm unary x .plus (printedLiteral hex i).written) := by
  intro c rest hc
  simp only [List.append_assoc, List.cons_append]
  exact .unaryRegImm (reads_unaryOp unary _) ((readsReg_regName x endsOperand_space).spaces 2) (reads_sum _)
    ((derives_printImm hex i hc).spaces 1)

end

/-! ## Fields of a word -/

theorem setWidth_signExtend {n : ℕ} (hn : n ≤ 32) (imm : BitVec n) : (imm.signExtend 32).setWidth n = imm := by
  apply BitVec.eq_of_getLsbD_eq
  intro k hk
  rw [BitVec.getLsbD_setWidth, BitVec.getLsbD_signExtend]
  simp [hk, hk.trans_le hn]

/-- The fields of a word that a right-hand side has to agree with. -/
structure RhsExpr.Agrees {ρ : Type} (r : RhsExpr ρ) (w : Word) : Prop where
  type : r.type = fieldP w
  x : r.x = fieldX w
  y : fieldP w ≠ 3#2 → r.y = fieldY w
  op : fieldP w ≠ 3#2 → r.op = fieldOp w

section

variable {ρ : Type} {r : RhsExpr ρ} {w : Word}

theorem RhsExpr.Agrees.word_eq (h : r.Agrees w) : r.word (fieldDd w) (fieldZ w) (printedImm w) = w := by
  unfold RhsExpr.word printedImm
  rw [h.type, h.x]
  split
  · rw [setWidth_signExtend (by decide)]
    exact type3_fields w
  · rename_i hp
    rw [h.y hp, h.op hp, setWidth_signExtend (by decide)]
    exact type012_fields w

/-- The immediate fits its field. -/
theorem RhsExpr.Agrees.fits (h : r.Agrees w) : sextend32 r.width (printedImm w) = printedImm w := by
  rw [RhsExpr.width, printedImm, sextend32, h.type]
  by_cases hp : fieldP w = 3#2
  · rw [if_pos hp, if_pos hp, mediumImmediateBitwidth, setWidth_signExtend (by decide)]
  · rw [if_neg hp, if_neg hp, smallImmediateBitwidth, setWidth_signExtend (by decide)]

end

/-- A right-hand side, with its literal, that is assembled to a word. -/
structure Encodes (rhs : RhsPlain Name) (e? : Option Literal) (w : Word) : Prop where
  expr : rhs.expr? = e?.map Literal.written
  value : (e?.elim 0#32 fun e ↦ BitVec.ofInt 32 e.value) = printedImm w
  make : ∀ (env : Env) (i : ConstExpr Ref → Word), (∀ e : Literal, i e.expr = BitVec.ofInt 32 e.value) →
    ((rhs.map (ConstExpr.map (makeRef env))).make i).Agrees w ∧
      (e?.isSome = true → ((rhs.map (ConstExpr.map (makeRef env))).make i).mult = 1#32)

section

variable {w : Word} (hex : Bool)

/-- Decimal immediates that fit 12 bits are not for type 3. -/
theorem isType3_printedLiteral (hp : fieldP w ≠ 3#2) {i : ConstExpr Ref → Word}
    (hi : ∀ e : Literal, i e.expr = BitVec.ofInt 32 e.value) (hex : Bool) :
    isType3 i (printedLiteral hex (printedImm w)).expr = hex := by
  have hfits : sextend32 smallImmediateBitwidth (printedImm w) = printedImm w := by
    rw [printedImm, if_neg hp, sextend32, smallImmediateBitwidth, setWidth_signExtend (by decide)]
  rw [isType3, Literal.flags_expr, isHex_printedLiteral, hi, ofInt_printedLiteral, hfits]
  simp

theorem encodes_regRegImm (hp : fieldP w = 0#2) :
    Encodes (.regRegImm (fieldX w) (.native (fieldOp w)) (fieldY w) .plus
      (printedLiteral hex (printedImm w)).written) (some (printedLiteral hex (printedImm w))) w where
  expr := rfl
  value := ofInt_printedLiteral hex _
  make _ _ _ := ⟨⟨hp.symm, rfl, fun _ ↦ rfl, fun _ ↦ rfl⟩, fun _ ↦ rfl⟩

theorem encodes_regReg (hp : fieldP w = 0#2) (himm : printedImm w = 0#32) :
    Encodes (.regReg (fieldX w) (.native (fieldOp w)) (fieldY w)) none w where
  expr := rfl
  value := himm.symm
  make _ _ _ := ⟨⟨hp.symm, rfl, fun _ ↦ rfl, fun _ ↦ rfl⟩, nofun⟩

theorem encodes_reg (hp : fieldP w = 0#2) (hop : fieldOp w = .bitwiseOr) (hy : fieldY w = 0#4)
    (himm : printedImm w = 0#32) : Encodes (.reg (fieldX w)) none w where
  expr := rfl
  value := himm.symm
  make _ _ _ := ⟨⟨hp.symm, rfl, fun _ ↦ hy.symm, fun _ ↦ hop.symm⟩, nofun⟩

theorem encodes_imm (hp : fieldP w = 0#2) (hop : fieldOp w = .bitwiseOr) (hx : fieldX w = 0#4)
    (hy : fieldY w = 0#4) :
    Encodes (.imm (printedLiteral false (printedImm w)).written)
      (some (printedLiteral false (printedImm w))) w where
  expr := rfl
  value := ofInt_printedLiteral false _
  make env i hi := by
    have htype := isType3_printedLiteral (w := w) (by rw [hp]; decide) hi false
    rw [← Literal.map_written env] at htype
    rw [RhsPlain.map, RhsPlain.make, htype]
    exact ⟨⟨hp.symm, hx.symm, fun _ ↦ hy.symm, fun _ ↦ hop.symm⟩, fun _ ↦ rfl⟩

theorem encodes_unaryRegImm {op : InsnUnaryOp} (hp : fieldP w = 0#2) (hop : fieldOp w = op.op)
    (hx : fieldX w = 0#4) :
    Encodes (.unaryRegImm op (fieldY w) .plus (printedLiteral hex (printedImm w)).written)
      (some (printedLiteral hex (printedImm w))) w where
  expr := rfl
  value := ofInt_printedLiteral hex _
  make _ _ _ := ⟨⟨hp.symm, hx.symm, fun _ ↦ rfl, fun _ ↦ hop.symm⟩, fun _ ↦ rfl⟩

theorem encodes_regImmReg (hp : fieldP w = 1#2) :
    Encodes (.regImmReg (fieldX w) (.native (fieldOp w)) (printedLiteral hex (printedImm w)).written
      (fieldY w)) (some (printedLiteral hex (printedImm w))) w where
  expr := rfl
  value := ofInt_printedLiteral hex _
  make _ _ _ := ⟨⟨hp.symm, rfl, fun _ ↦ rfl, fun _ ↦ rfl⟩, fun _ ↦ rfl⟩

/-- A difference is not printed like this, because it would be read as a sum. -/
theorem encodes_regImm (hp : fieldP w = 1#2) (hop : fieldOp w ≠ .subtract) (hy : fieldY w = 0#4) :
    Encodes (.regImm (fieldX w) (.native (fieldOp w)) (printedLiteral false (printedImm w)).written)
      (some (printedLiteral false (printedImm w))) w where
  expr := rfl
  value := ofInt_printedLiteral false _
  make env i hi := by
    have htype := isType3_printedLiteral (w := w) (by rw [hp]; decide) hi false
    rw [← Literal.map_written env] at htype
    have hop' : Binop.native (fieldOp w) ≠ .native .subtract := fun h ↦ hop (Binop.native.inj h)
    rw [RhsPlain.map, RhsPlain.make, htype]
    simp only [if_neg hop', Bool.and_false]
    exact ⟨⟨hp.symm, rfl, fun _ ↦ hy.symm, fun _ ↦ rfl⟩, fun _ ↦ rfl⟩

theorem encodes_immRegReg (hp : fieldP w = 2#2) :
    Encodes (.immRegReg (printedLiteral hex (printedImm w)).written (.native (fieldOp w)) (fieldX w)
      (fieldY w)) (some (printedLiteral hex (printedImm w))) w where
  expr := rfl
  value := ofInt_printedLiteral hex _
  make _ _ _ := ⟨⟨hp.symm, rfl, fun _ ↦ rfl, fun _ ↦ rfl⟩, fun _ ↦ rfl⟩

theorem encodes_immReg (hp : fieldP w = 2#2) (hy : fieldY w = 0#4) :
    Encodes (.immReg (printedLiteral hex (printedImm w)).written (.native (fieldOp w)) (fieldX w))
      (some (printedLiteral hex (printedImm w))) w where
  expr := rfl
  value := ofInt_printedLiteral hex _
  make _ _ _ := ⟨⟨hp.symm, rfl, fun _ ↦ hy.symm, fun _ ↦ rfl⟩, fun _ ↦ rfl⟩

theorem encodes_unaryReg {op : InsnUnaryOp} (hp : fieldP w = 2#2) (hop : fieldOp w = op.op)
    (hy : fieldY w = 0#4) (himm : printedImm w = 0#32) : Encodes (.unaryReg op (fieldX w)) none w where
  expr := rfl
  value := himm.symm
  make _ _ _ := ⟨⟨hp.symm, rfl, fun _ ↦ hy.symm, fun _ ↦ hop.symm⟩, nofun⟩

/-- Hexadecimal immediates are for type 3. -/
theorem isType3_hex (env : Env) (i : ConstExpr Ref → Word) (imm : Word) :
    isType3 i ((printedLiteral true imm).written.map (makeRef env)) = true := by
  rw [Literal.map_written, isType3, Literal.flags_expr, isHex_printedLiteral]
  rfl

theorem encodes_type3_sum (hp : fieldP w = 3#2) :
    Encodes (.regImm (fieldX w) (.native .add) (printedLiteral true (printedImm w)).written)
      (some (printedLiteral true (printedImm w))) w where
  expr := rfl
  value := ofInt_printedLiteral true _
  make env i _ := by
    rw [RhsPlain.map, RhsPlain.make, isType3_hex]
    exact ⟨⟨hp.symm, rfl, fun h ↦ absurd hp h, fun h ↦ absurd hp h⟩, fun _ ↦ rfl⟩

theorem encodes_type3 (hp : fieldP w = 3#2) (hx : fieldX w = 0#4) :
    Encodes (.imm (printedLiteral true (printedImm w)).written)
      (some (printedLiteral true (printedImm w))) w where
  expr := rfl
  value := ofInt_printedLiteral true _
  make env i _ := by
    rw [RhsPlain.map, RhsPlain.make, isType3_hex]
    exact ⟨⟨hp.symm, hx.symm, fun h ↦ absurd hp h, fun h ↦ absurd hp h⟩, fun _ ↦ rfl⟩

end

/-! ## Operands that are shown -/

/-- What is printed of the operands is read back as the operands of a word. -/
def Operands.ReadBack (o : Operands) (w : Word) : Prop :=
  ∃ text rhs e?, o.print = some text ∧ Spells text rhs ∧ Encodes rhs e? w

theorem Shows.count_all : Shows.all.count = 3 := rfl

/-- The operands of each type, in their order. -/
def operands0 (hex : Bool) (w : Word) (shows : Shows) : Operands :=
  ⟨[regName (fieldX w)], opName (fieldOp w), [regName (fieldY w)], printImm hex (printedImm w), shows⟩

def operands1 (hex : Bool) (w : Word) (shows : Shows) : Operands :=
  ⟨[regName (fieldX w)], opName (fieldOp w), printImm hex (printedImm w), [regName (fieldY w)], shows⟩

def operands2 (hex : Bool) (w : Word) (shows : Shows) : Operands :=
  ⟨printImm hex (printedImm w), opName (fieldOp w), [regName (fieldX w)], [regName (fieldY w)], shows⟩

/-- `sA` and `s6` for the sugar of a unary operator. -/
def Operands.sugar (o : Operands) (op : InsnUnaryOp) : Operands := { o with sA := [' '], s6 := op.name }

section

variable {w : Word} (hex : Bool)

theorem readBack_all0 (hp : fieldP w = 0#2) : (operands0 hex w .all).ReadBack w :=
  ⟨_, _, _, rfl, spells_regRegImm _ _ _ _ _, encodes_regRegImm hex hp⟩

theorem readBack_all1 (hp : fieldP w = 1#2) : (operands1 hex w .all).ReadBack w :=
  ⟨_, _, _, rfl, spells_regImmReg _ _ _ _ _, encodes_regImmReg hex hp⟩

theorem readBack_all2 (hp : fieldP w = 2#2) : (operands2 hex w .all).ReadBack w :=
  ⟨_, _, _, rfl, spells_immRegReg _ _ _ _ _, encodes_immRegReg hex hp⟩

theorem readBack_sugar0 {op : InsnUnaryOp} (hp : fieldP w = 0#2) (hop : fieldOp w = op.op)
    (hx : fieldX w = 0#4) : ((operands0 hex w .all).sugar op).ReadBack w :=
  ⟨_, _, _, rfl, spells_unaryRegImm _ _ _ _, encodes_unaryRegImm hex hp hop hx⟩

theorem readBack_sugar2 {op : InsnUnaryOp} (hp : fieldP w = 2#2) (hop : fieldOp w = op.op)
    (hy : fieldY w = 0#4) (himm : printedImm w = 0#32) :
    ((operands2 hex w ⟨true, true, false⟩).sugar op).ReadBack w :=
  ⟨_, _, _, rfl, spells_unaryReg _ _, encodes_unaryReg hp hop hy himm⟩

theorem readBack_zero (hp : fieldP w = 0#2) (hop : fieldOp w = .bitwiseOr) (hx : fieldX w = 0#4)
    (hy : fieldY w = 0#4) (himm : printedImm w = 0#32) :
    (operands0 false w ⟨false, false, false⟩).ReadBack w := by
  have hencodes := encodes_imm hp hop hx hy
  rw [himm] at hencodes
  exact ⟨_, _, _, rfl, spells_imm false 0#32, hencodes⟩

theorem readBack_reg (hp : fieldP w = 0#2) (hop : fieldOp w = .bitwiseOr) (hy : fieldY w = 0#4)
    (himm : printedImm w = 0#32) : (operands0 false w ⟨true, false, false⟩).ReadBack w :=
  ⟨_, _, _, rfl, spells_reg _, encodes_reg hp hop hy himm⟩

theorem readBack_imm (hp : fieldP w = 0#2) (hop : fieldOp w = .bitwiseOr) (hx : fieldX w = 0#4)
    (hy : fieldY w = 0#4) : (operands0 false w ⟨false, false, true⟩).ReadBack w :=
  ⟨_, _, _, rfl, spells_imm false (printedImm w), encodes_imm hp hop hx hy⟩

theorem readBack_regReg (hp : fieldP w = 0#2) (himm : printedImm w = 0#32) :
    (operands0 false w ⟨true, true, false⟩).ReadBack w :=
  ⟨_, _, _, rfl, spells_regReg _ _ _, encodes_regReg hp himm⟩

theorem readBack_regImm (hp : fieldP w = 1#2) (hop : fieldOp w ≠ .subtract) (hy : fieldY w = 0#4) :
    (operands1 false w ⟨true, true, false⟩).ReadBack w :=
  ⟨_, _, _, rfl, spells_regImm (fieldX w) (fieldOp w) false (printedImm w), encodes_regImm hp hop hy⟩

theorem readBack_immReg (hp : fieldP w = 2#2) (hy : fieldY w = 0#4) :
    (operands2 false w ⟨true, true, false⟩).ReadBack w :=
  ⟨_, _, _, rfl, spells_immReg (fieldX w) (fieldOp w) false (printedImm w), encodes_immReg false hp hy⟩

end

/-! ## Printed operands -/

section

variable {w : Word}

/-- The operators with sugar of their own, `|`, and the others. -/
theorem Op.cases_sugar (op : Op) :
    op = .bitwiseOr ∨ (∃ unary : InsnUnaryOp, op = unary.op) ∨
      (op ≠ .bitwiseOr ∧ op ≠ .subtract ∧ op ≠ .bitwiseOrn) := by
  by_cases hor : op = .bitwiseOr
  · exact .inl hor
  by_cases hsub : op = .subtract
  · exact .inr (.inl ⟨.neg, hsub⟩)
  by_cases horn : op = .bitwiseOrn
  · exact .inr (.inl ⟨.compl, horn⟩)
  · exact .inr (.inr ⟨hor, hsub, horn⟩)

theorem printedOperands_or0 (hp : fieldP w = 0#2) (hop : fieldOp w = .bitwiseOr) :
    printedOperands false w = operands0 false w
      (if fieldX w = 0#4 ∧ fieldY w = 0#4 then ⟨false, false, printedImm w ≠ 0#32⟩
      else if printedImm w = 0#32 ∧ fieldX w ≠ 0#4 then ⟨true, fieldY w ≠ 0#4, false⟩
      else .all) := by
  by_cases hx : fieldX w = 0#4 <;> by_cases hy : fieldY w = 0#4 <;> by_cases himm : printedImm w = 0#32 <;>
    simp [printedOperands, orderOperands, firstShows, edgeOperands, operands0, Shows.all, Shows.count, hp, hop,
      hx, hy, himm]

theorem printedOperands_sugar0 {op : InsnUnaryOp} (hp : fieldP w = 0#2) (hop : fieldOp w = op.op) :
    printedOperands false w =
      if printedImm w = 0#32 ∧ fieldX w = 0#4 then (operands0 false w .all).sugar op
      else operands0 false w ⟨true, true, printedImm w ≠ 0#32⟩ := by
  cases op <;> by_cases hx : fieldX w = 0#4 <;> by_cases himm : printedImm w = 0#32 <;>
    simp [printedOperands, orderOperands, firstShows, edgeOperands, operands0, Operands.sugar,
      InsnUnaryOp.name, InsnUnaryOp.op, opName, Shows.all, Shows.count, hp, hop, hx, himm]

theorem printedOperands_other0 (hp : fieldP w = 0#2) (hor : fieldOp w ≠ .bitwiseOr)
    (hsub : fieldOp w ≠ .subtract) (horn : fieldOp w ≠ .bitwiseOrn) :
    printedOperands false w = operands0 false w ⟨true, true, printedImm w ≠ 0#32⟩ := by
  by_cases himm : printedImm w = 0#32 <;>
    simp [printedOperands, orderOperands, firstShows, edgeOperands, operands0, Shows.count, hp, hor, hsub, horn,
      himm]

/-- The right operand is left out where the type is clear without it. -/
theorem printedOperands_type1 (hp : fieldP w = 1#2) :
    printedOperands false w = operands1 false w
      (if fieldY w = 0#4 ∧ fieldOp w ≠ .bitwiseOr ∧ fieldOp w ≠ .subtract ∧
        (fieldOp w = .add → fieldX w ≠ 0#4) then ⟨true, true, false⟩ else .all) := by
  by_cases hor : fieldOp w = .bitwiseOr
  · by_cases hx : fieldX w = 0#4 <;> by_cases hy : fieldY w = 0#4 <;> by_cases himm : printedImm w = 0#32 <;>
      simp [printedOperands, orderOperands, firstShows, edgeOperands, operands1, Shows.all, Shows.count, hp, hor,
        hx, hy, himm]
  by_cases hsub : fieldOp w = .subtract
  · by_cases hy : fieldY w = 0#4 <;>
      simp [printedOperands, orderOperands, firstShows, edgeOperands, operands1, Shows.all, Shows.count, hp, hsub,
        hy]
  by_cases hadd : fieldOp w = .add
  · by_cases hx : fieldX w = 0#4 <;> by_cases hy : fieldY w = 0#4 <;>
      simp [printedOperands, orderOperands, firstShows, edgeOperands, operands1, Shows.all, Shows.count, hp, hadd,
        hx, hy]
  · by_cases hy : fieldY w = 0#4 <;>
      simp [printedOperands, orderOperands, firstShows, edgeOperands, operands1, Shows.all, Shows.count, hp, hor,
        hsub, hadd, hy]

theorem printedOperands_or2 (hp : fieldP w = 2#2) (hop : fieldOp w = .bitwiseOr) :
    printedOperands false w = operands2 false w
      (if printedImm w ≠ 0#32 ∧ fieldX w ≠ 0#4 ∧ fieldY w = 0#4 then ⟨true, true, false⟩ else .all) := by
  by_cases hx : fieldX w = 0#4 <;> by_cases hy : fieldY w = 0#4 <;> by_cases himm : printedImm w = 0#32 <;>
    simp [printedOperands, orderOperands, firstShows, edgeOperands, operands2, Shows.all, Shows.count, hp, hop,
      hx, hy, himm]

theorem printedOperands_sugar2 {op : InsnUnaryOp} (hp : fieldP w = 2#2) (hop : fieldOp w = op.op) :
    printedOperands false w =
      if fieldY w = 0#4 ∧ printedImm w = 0#32 then (operands2 false w ⟨true, true, false⟩).sugar op
      else operands2 false w ⟨true, true, fieldY w ≠ 0#4⟩ := by
  cases op <;> by_cases hy : fieldY w = 0#4 <;> by_cases himm : printedImm w = 0#32 <;>
    simp [printedOperands, orderOperands, firstShows, edgeOperands, operands2, Operands.sugar,
      InsnUnaryOp.name, InsnUnaryOp.op, opName, Shows.count, hp, hop, hy, himm]

theorem printedOperands_other2 (hp : fieldP w = 2#2) (hor : fieldOp w ≠ .bitwiseOr)
    (hsub : fieldOp w ≠ .subtract) (horn : fieldOp w ≠ .bitwiseOrn) :
    printedOperands false w = operands2 false w ⟨true, true, fieldY w ≠ 0#4⟩ := by
  by_cases hy : fieldY w = 0#4 <;>
    simp [printedOperands, orderOperands, firstShows, edgeOperands, operands2, Shows.count, hp, hor, hsub, horn, hy]

theorem readBack_type0 (hp : fieldP w = 0#2) : (printedOperands false w).ReadBack w := by
  rcases Op.cases_sugar (fieldOp w) with hop | ⟨op, hop⟩ | ⟨hor, hsub, horn⟩
  · rw [printedOperands_or0 hp hop]
    by_cases himm : printedImm w = 0#32
    · by_cases hx : fieldX w = 0#4
      · by_cases hy : fieldY w = 0#4
        · simpa [hx, hy, himm] using readBack_zero hp hop hx hy himm
        · simpa [hx, hy, himm] using readBack_all0 false hp
      · by_cases hy : fieldY w = 0#4
        · simpa [hx, hy, himm] using readBack_reg hp hop hy himm
        · simpa [hx, hy, himm] using readBack_regReg hp himm
    · by_cases hxy : fieldX w = 0#4 ∧ fieldY w = 0#4
      · simpa [hxy, himm] using readBack_imm hp hop hxy.1 hxy.2
      · simpa [hxy, himm] using readBack_all0 false hp
  · rw [printedOperands_sugar0 hp hop]
    by_cases himm : printedImm w = 0#32
    · by_cases hx : fieldX w = 0#4
      · simpa [hx, himm] using readBack_sugar0 false hp hop hx
      · simpa [hx, himm] using readBack_regReg hp himm
    · simpa [himm, Shows.all] using readBack_all0 false hp
  · rw [printedOperands_other0 hp hor hsub horn]
    by_cases himm : printedImm w = 0#32
    · simpa [himm] using readBack_regReg hp himm
    · simpa [himm, Shows.all] using readBack_all0 false hp

theorem readBack_type1 (hp : fieldP w = 1#2) : (printedOperands false w).ReadBack w := by
  rw [printedOperands_type1 hp]
  split
  · rename_i h
    exact readBack_regImm hp h.2.2.1 h.1
  · exact readBack_all1 false hp

theorem readBack_type2 (hp : fieldP w = 2#2) : (printedOperands false w).ReadBack w := by
  rcases Op.cases_sugar (fieldOp w) with hop | ⟨op, hop⟩ | ⟨hor, hsub, horn⟩
  · rw [printedOperands_or2 hp hop]
    split
    · rename_i h
      exact readBack_immReg hp h.2.2
    · exact readBack_all2 false hp
  · rw [printedOperands_sugar2 hp hop]
    by_cases hy : fieldY w = 0#4
    · by_cases himm : printedImm w = 0#32
      · simpa [hy, himm] using readBack_sugar2 false hp hop hy himm
      · simpa [hy, himm] using readBack_immReg hp hy
    · simpa [hy, Shows.all] using readBack_all2 false hp
  · rw [printedOperands_other2 hp hor hsub horn]
    by_cases hy : fieldY w = 0#4
    · simpa [hy] using readBack_immReg hp hy
    · simpa [hy, Shows.all] using readBack_all2 false hp

theorem readBack_type3 (verbose : Bool) (hp : fieldP w = 3#2) : (printedOperands verbose w).ReadBack w := by
  have h : printedOperands verbose w =
      ⟨[], opName (fieldOp w), [regName (fieldX w)], printImm true (printedImm w),
        ⟨false, verbose || fieldX w != 0#4, true⟩⟩ := by
    cases verbose <;> by_cases hx : fieldX w = 0#4 <;>
      simp [printedOperands, orderOperands, firstShows, edgeOperands, Shows.all, Shows.count, hp, hx]
  rw [h]
  by_cases hshow : (verbose || fieldX w != 0#4) = true
  · rw [hshow]
    exact ⟨_, _, _, rfl, spells_regImm (fieldX w) .add true (printedImm w), encodes_type3_sum hp⟩
  · have hx : fieldX w = 0#4 := by
      simp only [Bool.or_eq_true, bne_iff_ne, not_or, not_not] at hshow
      exact hshow.2
    rw [Bool.not_eq_true] at hshow
    rw [hshow]
    exact ⟨_, _, _, rfl, spells_imm true (printedImm w), encodes_type3 hp hx⟩

/-- All operands of a verbose instruction are shown. -/
theorem readBack_verbose (hp : fieldP w ≠ 3#2) : (printedOperands true w).ReadBack w := by
  rcases fieldP_cases w with hp' | hp' | hp' | hp'
  · have h : printedOperands true w = operands0 true w .all := by
      simp [printedOperands, orderOperands, firstShows, operands0, hp', Shows.count_all]
    exact h ▸ readBack_all0 true hp'
  · have h : printedOperands true w = operands1 true w .all := by
      simp [printedOperands, orderOperands, firstShows, operands1, hp', Shows.count_all]
    exact h ▸ readBack_all1 true hp'
  · have h : printedOperands true w = operands2 true w .all := by
      simp [printedOperands, orderOperands, firstShows, operands2, hp', Shows.count_all]
    exact h ▸ readBack_all2 true hp'
  · exact absurd hp' hp

/-- There is always a format, and what is printed by it has the operands of the word. -/
theorem readBack_printedOperands (verbose : Bool) (w : Word) : (printedOperands verbose w).ReadBack w := by
  by_cases hp : fieldP w = 3#2
  · exact readBack_type3 verbose hp
  cases verbose with
  | true => exact readBack_verbose hp
  | false =>
    rcases fieldP_cases w with hp' | hp' | hp' | hp'
    · exact readBack_type0 hp'
    · exact readBack_type1 hp'
    · exact readBack_type2 hp'
    · exact absurd hp' hp

end

end Tenyr.Asm
