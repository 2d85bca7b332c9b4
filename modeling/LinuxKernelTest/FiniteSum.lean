import Mathlib.Tactic

/-!
# Sums that change at one index

A step of a system with many parts mostly changes one of them. `sum_add_eq_of_eq_off` compares a sum
over the parts before and after such a step, in any commutative monoid.
-/

open Finset

namespace LinuxKernelTest

/-- Two families that agree but at `i` have the same sum, but for their values at `i`. -/
theorem sum_add_eq_of_eq_off {ι M : Type*} [Fintype ι] [DecidableEq ι] [AddCommMonoid M]
    {f g : ι → M} {i : ι} (h : ∀ j, j ≠ i → f j = g j) :
    ∑ j, f j + g i = ∑ j, g j + f i := by
  rw [← add_sum_erase univ f (mem_univ i), ← add_sum_erase univ g (mem_univ i),
    sum_congr rfl fun j hj => h j (ne_of_mem_erase hj)]
  ac_rfl

end LinuxKernelTest
