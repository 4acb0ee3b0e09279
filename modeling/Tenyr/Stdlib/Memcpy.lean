import Mathlib.Data.Set.BooleanAlgebra
import Mathlib.Order.CompletePartialOrder
import Tenyr.Stdlib.Macros

/-!
# Copying words

`memcpy` copies upward, one word after another.
-/

namespace Tenyr.Stdlib

open Isa Sim

inductive MemcpyLabel where
  | memcpy | loop | done
  deriving DecidableEq, Repr

def memcpyLines : MemcpyLabel → List (Line MemcpyLabel)
  | .memcpy => pushall [.f, .g] ++ [
      .insn (.assign .b (.reg .c)),
      .insn (.assign .f (.imm 0#12))]
  | .loop => [
      .insn (.assign .g (.regReg .e .compareEq .f)),
      .jnzrel .g .done,
      .insn (.load .g (.regReg .d .add .f)),
      .insn (.store .g (.regReg .c .add .f)),
      .insn (.assign .f (.regImm .f .add 1#12)),
      .goto .loop]
  | .done => popall [.f, .g] ++ ret

def memcpy : Code MemcpyLabel where
  labels := [.memcpy, .loop, .done]
  lines := memcpyLines

/-! ## Blocks of memory -/

/-- Cells from `base` upward. -/
def block (base : Word) (size : ℕ) : Set Word := {a | (a - base).toNat < size}

/-- Memory with a block as another one is. -/
def copied (mem : Word → Word) (dst src : Word) (size : ℕ) : Word → Word := fun a ↦
  if (a - dst).toNat < size then mem (src + (a - dst)) else mem a

section

variable {mem : Word → Word} {dst src a : Word} {size t : ℕ}

theorem copied_of_notMem (ha : a ∉ block dst size) : copied mem dst src size a = mem a := if_neg ha

theorem copied_of_mem (ha : a ∈ block dst size) : copied mem dst src size a = mem (src + (a - dst)) :=
  if_pos ha

theorem copied_zero : copied mem dst src 0 = mem :=
  funext fun _ ↦ copied_of_notMem (Nat.not_lt_zero _)

/-- The next word of the source is as it was: it is not among those that have been written to. -/
theorem copied_succ (ht : t < 2 ^ 32) (hahead : t ≤ (src + BitVec.ofNat 32 t - dst).toNat) :
    Function.update (copied mem dst src t) (dst + BitVec.ofNat 32 t)
      (copied mem dst src t (src + BitVec.ofNat 32 t)) = copied mem dst src (t + 1) := by
  have hword : copied mem dst src t (src + BitVec.ofNat 32 t) = mem (src + BitVec.ofNat 32 t) :=
    copied_of_notMem (Nat.not_lt.mpr hahead)
  have hoffset : dst + BitVec.ofNat 32 t - dst = BitVec.ofNat 32 t := add_sub_cancel_left _ _
  funext a
  by_cases ha : a = dst + BitVec.ofNat 32 t
  · have hin : a ∈ block dst (t + 1) := by
      change (a - dst).toNat < t + 1
      rw [ha, hoffset, BitVec.toNat_ofNat, Nat.mod_eq_of_lt ht]
      exact Nat.lt_succ_self t
    rw [copied_of_mem hin, ha, Function.update_self, hword, hoffset]
  · rw [Function.update_of_ne ha, copied, copied]
    have hsame : (a - dst).toNat < t ↔ (a - dst).toNat < t + 1 := by
      rw [Nat.lt_succ_iff_lt_or_eq]
      apply (or_iff_left _).symm
      intro heq
      apply ha
      rw [← heq, BitVec.ofNat_toNat, BitVec.setWidth_eq]
      exact (add_sub_cancel dst a).symm
    simp only [hsame]

end

/-! ## The machine -/

section

variable {S : Setting} {Q : Cpu → Prop} {far : MemcpyLabel → ℤ} {start : Word} {cpu : Cpu}
  (h : Placed S memcpy far start)

include h

theorem memcpy_loop {mem : Word → Word} {t : ℕ} (hp : cpu.p = memcpy.addr far start .loop)
    (hf : cpu.f = BitVec.ofNat 32 t) (ht : t ≤ cpu.e.toNat) (hmem : cpu.mem = copied mem cpu.c cpu.d t)
    (hdst : block cpu.c cpu.e.toNat ⊆ S.writable)
    (hahead : ∀ t < cpu.e.toNat, t ≤ (cpu.d + BitVec.ofNat 32 t - cpu.c).toNat)
    (hQ : ∀ f g, S.Leads Q { cpu with
      f, g, mem := copied mem cpu.c cpu.d cpu.e.toNat, p := memcpy.addr far start .done }) :
    S.Leads Q cpu := by
  obtain ⟨turns, hturns⟩ := Nat.exists_eq_add_of_le ht
  induction turns generalizing t cpu with
  | zero =>
    have hend : cpu.e = BitVec.ofNat 32 t := by
      rw [← Nat.add_zero t, ← hturns, BitVec.ofNat_toNat, BitVec.setWidth_eq]
    apply h.leads rfl hp
    change Wp _ _ _ _ (memcpyLines .loop) _
    simp [memcpyLines, combine_eq, opValue]
    rw [wp_jnzrel rfl, if_pos (by simp [hf, hend])]
    rw [← Nat.add_zero t, ← hturns] at hmem
    have hlast := hQ cpu.f (negBool (cpu.e == cpu.f))
    rw [← hmem] at hlast
    exact hlast
  | succ turns ih =>
    have hlt : t < cpu.e.toNat := by omega
    have hbound := cpu.e.isLt
    have hmore : cpu.e ≠ BitVec.ofNat 32 t := by
      intro heq
      rw [heq, BitVec.toNat_ofNat, Nat.mod_eq_of_lt (by omega)] at hlt
      exact Nat.lt_irrefl t hlt
    have hnext : BitVec.ofNat 32 t + 1#32 = BitVec.ofNat 32 (t + 1) := (BitVec.ofNat_add t 1).symm
    have hstep : Function.update cpu.mem (cpu.c + cpu.f) (cpu.mem (cpu.d + cpu.f)) =
        copied mem cpu.c cpu.d (t + 1) := by
      rw [hmem, hf]
      exact copied_succ (by omega) (hahead t hlt)
    apply h.leads rfl hp
    change Wp _ _ _ _ (memcpyLines .loop) _
    simp [memcpyLines, combine_eq, opValue]
    rw [wp_jnzrel rfl, if_neg (by simpa [hf] using hmore)]
    simp [combine_eq, opValue]
    refine ⟨?_, ?_⟩
    · intro a ha
      obtain rfl : cpu.c + cpu.f + 0#32 = a := by simpa [combine_eq, opValue] using ha
      apply hdst
      have hoffset : cpu.c + cpu.f + 0#32 - cpu.c = cpu.f := by
        rw [BitVec.add_zero]
        exact add_sub_cancel_left _ _
      change (cpu.c + cpu.f + 0#32 - cpu.c).toNat < cpu.e.toNat
      rw [hoffset, hf, BitVec.toNat_ofNat, Nat.mod_eq_of_lt (by omega)]
      exact hlt
    · simp [combine_eq, opValue]
      rw [hstep]
      apply ih
      · rfl
      · rw [← hnext, ← hf]
      · exact hlt
      · rfl
      · exact hdst
      · exact hahead
      · exact hQ
      · change cpu.e.toNat = t + 1 + turns
        omega

/-- A whole run. -/
theorem memcpy_run (hp : cpu.p = start) (hstack : stack cpu.o 2 ⊆ S.writable)
    (hdst : block cpu.c cpu.e.toNat ⊆ S.writable)
    (hapart : Disjoint (stack (cpu.o + 1#32) 3) (block cpu.c cpu.e.toNat))
    (hahead : ∀ t < cpu.e.toNat, t ≤ (cpu.d + BitVec.ofNat 32 t - cpu.c).toNat)
    (hQ : S.Leads Q { cpu with
      b := cpu.c, mem := copied (saved cpu.mem cpu.o [cpu.f, cpu.g]) cpu.c cpu.d cpu.e.toNat
      o := cpu.o + 1#32, p := cpu.mem (cpu.o + 1#32) }) : S.Leads Q cpu := by
  have hbegin : cpu.p = memcpy.addr far start .memcpy := hp.trans (BitVec.add_zero start).symm
  apply h.leads rfl hbegin
  change Wp _ _ _ _ (memcpyLines .memcpy) _
  apply wp_pushall (by decide) (by decide) (by decide) hstack
  simp [combine_eq, opValue]
  have hzero : saved cpu.mem cpu.o [cpu.f, cpu.g] =
      copied (saved cpu.mem cpu.o [cpu.f, cpu.g]) cpu.c cpu.d 0 := copied_zero.symm
  apply memcpy_loop h rfl rfl (Nat.zero_le _) hzero
  · exact hdst
  · exact hahead
  · intro f g
    have hread : ∀ x, (1#32 - x).toNat < 3 →
        copied (saved cpu.mem cpu.o [cpu.f, cpu.g]) cpu.c cpu.d cpu.e.toNat (cpu.o + x) =
          saved cpu.mem cpu.o [cpu.f, cpu.g] (cpu.o + x) := by
      intro x hx
      apply copied_of_notMem
      apply Set.disjoint_left.mp hapart
      change (cpu.o + 1#32 - (cpu.o + x)).toNat < 3
      rw [add_sub_add_left_eq_sub]
      exact hx
    have hF := hread 0#32 (by decide)
    have hG := hread (-1#32) (by decide)
    have hreturn := hread 1#32 (by decide)
    simp at hF hG hreturn
    apply h.leads rfl rfl
    change Wp _ _ _ _ (memcpyLines .done) _
    simpa [memcpyLines, popall, loadall, ret, pop, combine_eq, opValue, hF, hG, hreturn] using hQ

end

end Tenyr.Stdlib
