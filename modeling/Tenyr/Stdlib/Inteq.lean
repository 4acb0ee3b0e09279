import Tenyr.Stdlib.Macros

/-!
# A comparator

The one that the examples call the searching and sorting routines with.
-/

namespace Tenyr.Stdlib

open Isa Sim

inductive InteqLabel where
  | inteq
  deriving DecidableEq, Repr

def inteqLines : InteqLabel → List (Line InteqLabel)
  | .inteq => [
      .insn (.load .c (.reg .c)),
      .insn (.load .d (.reg .d)),
      .insn (.assign .b (.regReg .c .subtract .d))] ++ ret

def inteq : Code InteqLabel where
  labels := [.inteq]
  lines := inteqLines

/-- It answers with the difference of the words that it gets pointers to. -/
theorem inteq_leads {S : Setting} {far : InteqLabel → ℤ} {start : Word} {cpu : Cpu}
    (h : Placed S inteq far start) (hp : cpu.p = start) :
    S.Leads (fun next ↦ Keeps 0 cpu next ∧ next.b = cpu.mem cpu.c - cpu.mem cpu.d) cpu := by
  have hbegin : cpu.p = inteq.addr far start .inteq := hp.trans (BitVec.add_zero start).symm
  apply h.leads rfl hbegin
  change Wp _ _ _ _ (inteqLines .inteq) _
  simp [inteqLines, ret, pop, combine_eq, opValue]
  apply Setting.Leads.here
  exact ⟨⟨⟨rfl, rfl⟩, rfl, rfl, rfl, rfl, rfl, rfl, rfl, rfl, rfl, rfl, fun _ _ ↦ rfl⟩, rfl⟩

end Tenyr.Stdlib
