import Tenyr.Link.LinearField

/-!
# Fields of other expressions

Relocations add displacements, whatever the operators around an address. The field of an expression
that is not linear is right exactly when its value changes by what is added.
-/

namespace Tenyr.Asm.ConstExpr

variable {ρ : Type}

end Tenyr.Asm.ConstExpr

namespace Tenyr.Link

open Isa Obj Asm

variable {undef : UndefinedShifts} {fuel : ℕ}

/-- The word of a value. -/
def wordOf (value : Except Stop Word) : Word :=
  match value with
  | .ok w => w
  | .error _ => 0#32

end Tenyr.Link
