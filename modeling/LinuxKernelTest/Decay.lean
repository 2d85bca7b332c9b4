import Mathlib.Tactic

/-!
# Rounded decay

A decay multiplies by a factor of at most one and rounds down : `v ↦ v * a / b` with `a ≤ b`, and
every composition of such maps. Whatever the rounding, two decayed parts are together at most
the decayed whole (`IsDecay.superadd`), so a sum that is decayed part by part, and filled up by
what the whole has lost, stays within the whole (`IsDecay.refill_le`).

`scale_mul_add_le` bounds the loss of parts on two scales.
-/

namespace LinuxKernelTest

open Nat

/-- Decay by a factor of at most one, rounded down. -/
structure IsDecay (f : ℕ → ℕ) : Prop where
  superadd : ∀ v w, f v + f w ≤ f (v + w)
  le_self : ∀ v, f v ≤ v

namespace IsDecay

variable {f g : ℕ → ℕ}

theorem mono (hf : IsDecay f) {v w : ℕ} (h : v ≤ w) : f v ≤ f w := by
  obtain ⟨u, rfl⟩ := Nat.exists_eq_add_of_le h
  have := hf.superadd v u
  omega

theorem zero : IsDecay fun _ => 0 where
  superadd _ _ := le_refl 0
  le_self := zero_le

theorem scale {a b : ℕ} (h : a ≤ b) : IsDecay fun v => v * a / b where
  superadd v w := by
    rw [add_mul]
    exact div_add_div_le_add_div
  le_self v := Nat.div_le_of_le_mul (by rw [Nat.mul_comm b]; exact Nat.mul_le_mul_left v h)

theorem comp (hg : IsDecay g) (hf : IsDecay f) : IsDecay fun v => g (f v) where
  superadd v w := (hg.superadd _ _).trans (hg.mono (hf.superadd v w))
  le_self v := (hg.le_self _).trans (hf.le_self v)

/-- Two parts of `m`, decayed one by one, and what `m` itself has lost. -/
theorem refill_le (hf : IsDecay f) {v w m : ℕ} (h : v + w ≤ m) : f v + f w + (m - f m) ≤ m := by
  have hparts := (hf.superadd v w).trans (hf.mono h)
  have := hf.le_self m
  omega

end IsDecay

/-- Rounding on a scale `m` times finer gains at most `m`. -/
theorem scale_mul_add_le {a b : ℕ} (hb : 0 < b) (m v w : ℕ) :
    (m * v + w) * a / b ≤ m * (v * a / b) + m + w * a / b := by
  have hv : v * a ≤ b * (v * a / b + 1) := (lt_mul_div_succ (v * a) hb).le
  have hscaled : (m * v + w) * a ≤ w * a + b * (m * (v * a / b + 1)) := by
    calc (m * v + w) * a = w * a + m * (v * a) := by
          rw [add_mul, mul_assoc, add_comm]
      _ ≤ w * a + m * (b * (v * a / b + 1)) := Nat.add_le_add_left (Nat.mul_le_mul_left m hv) _
      _ = w * a + b * (m * (v * a / b + 1)) := by rw [Nat.mul_left_comm]
  calc (m * v + w) * a / b ≤ (w * a + b * (m * (v * a / b + 1))) / b := Nat.div_le_div_right hscaled
    _ = w * a / b + m * (v * a / b + 1) := Nat.add_mul_div_left _ _ hb
    _ = m * (v * a / b) + m + w * a / b := by rw [mul_add, mul_one, add_comm]

end LinuxKernelTest
