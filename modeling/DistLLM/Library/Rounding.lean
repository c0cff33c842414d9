import Mathlib.Order.Monotone.Basic
import Mathlib.Algebra.Order.Ring.Rat

/-!
# Rounding

The result of an operation on floats is the exact one, rounded. What is shown for every rounding is
shown for the floats of the machine, as long as nothing overflows.
-/
namespace DistLLM.Library

structure Rounding where
  fl : ℚ → ℚ
  mono : Monotone fl
  zero : fl 0 = 0
  one : fl 1 = 1

namespace Rounding

instance : CoeFun Rounding fun _ => ℚ → ℚ := ⟨fl⟩

/-- No rounding at all, as in exact arithmetic. -/
def exact : Rounding := ⟨fun x => x, monotone_id, rfl, rfl⟩

@[simp] theorem exact_apply (x : ℚ) : exact x = x := rfl

variable (fl : Rounding) {x : ℚ}

theorem nonneg (nonneg : 0 ≤ x) : 0 ≤ fl x := fl.zero ▸ fl.mono nonneg

theorem one_le (one_le : 1 ≤ x) : 1 ≤ fl x := fl.one ▸ fl.mono one_le

end Rounding

end DistLLM.Library
