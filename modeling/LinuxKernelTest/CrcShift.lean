import LinuxKernelTest.Crc32

/-!
# Shifting a cyclic redundancy check

`crc32_generic_shift` of `lib/crc32.c` appends `len` zero bytes to a check in a number of steps
that is logarithmic in `len`. The words stand for polynomials with the most significant bit as the
constant coefficient, and `power` goes through the powers `x ^ 32`, `x ^ 64`, `x ^ 128`, … modulo
the polynomial.

`gf2_multiply` keeps steps of the register on its second factor (`gf2Multiply_lfsr`), and with the
word of `1` for it the product is the first factor (`gf2Multiply_one`). So a factor that is `k`
steps from `1` stands for `k` steps (`gf2Multiply_power`), and the loop makes `8 * len` steps.
So two checks can be combined (`crc32Combine_append`).
-/

namespace LinuxKernelTest

open Function BitVec

namespace Crc32

/-- A round of the loop of `gf2_multiply` : what is left of `x`, and the product. -/
def gf2Round (y modulus : BitVec 32) (s : BitVec 32 × BitVec 32) : BitVec 32 × BitVec 32 :=
  let x := s.1 >>> 1
  (x, lfsr modulus s.2 ^^^ if x.getLsbD 0 then y else 0)

/-- `gf2_multiply`. -/
def gf2Multiply (x y modulus : BitVec 32) : BitVec 32 :=
  ((gf2Round y modulus)^[31] (x, if x.getLsbD 0 then y else 0)).2

/-- The endless loop of `crc32_generic_shift`. -/
def shiftLoop (polynomial crc power : BitVec 32) (len : ℕ) : BitVec 32 :=
  let crc := if len % 2 = 1 then gf2Multiply crc power polynomial else crc
  if len / 2 = 0 then crc
  else shiftLoop polynomial crc (gf2Multiply power power polynomial) (len / 2)
termination_by len
decreasing_by omega

/-- `crc32_generic_shift`. -/
def crc32GenericShift (crc : BitVec 32) (len : ℕ) (polynomial : BitVec 32) : BitVec 32 :=
  let crc := (lfsr polynomial)^[8 * (len % 4)] crc
  if len / 4 = 0 then crc else shiftLoop polynomial crc polynomial (len / 4)

/-- `crc32_le_shift`. -/
def crc32LeShift (crc : BitVec 32) (len : ℕ) : BitVec 32 := crc32GenericShift crc len crc32PolyLe

/-- `__crc32c_le_shift`. -/
def crc32cLeShift (crc : BitVec 32) (len : ℕ) : BitVec 32 := crc32GenericShift crc len crc32cPolyLe

/-- `crc32_le_combine`. -/
def crc32LeCombine (crc1 crc2 : BitVec 32) (len2 : ℕ) : BitVec 32 :=
  crc32LeShift crc1 len2 ^^^ crc2

/-- `__crc32c_le_combine`. -/
def crc32cLeCombine (crc1 crc2 : BitVec 32) (len2 : ℕ) : BitVec 32 :=
  crc32cLeShift crc1 len2 ^^^ crc2

/-! ## Products -/

/-- The word of the polynomial `1`. -/
def one : BitVec 32 := 0x80000000

theorem lfsr_ite (m y : BitVec 32) (b : Bool) :
    lfsr m (if b then y else 0) = if b then lfsr m y else 0 := by
  cases b
  · simp [lfsr]
  · rfl

/-- A step on the second factor is a step on the product. -/
theorem gf2Multiply_lfsr (x y m : BitVec 32) :
    gf2Multiply x (lfsr m y) m = lfsr m (gf2Multiply x y m) := by
  have hround : Semiconj (Prod.map id (lfsr m)) (gf2Round y m) (gf2Round (lfsr m y) m) := by
    rintro ⟨x, p⟩
    simp only [gf2Round, Prod.map_apply, id_eq, lfsr_xor, lfsr_ite]
  have hrun := hround.iterate_right 31 (x, if x.getLsbD 0 then y else 0)
  have hstart : Prod.map id (lfsr m) (x, if x.getLsbD 0 then y else 0) =
      (x, if x.getLsbD 0 then lfsr m y else 0) := by
    rw [Prod.map_apply, id_eq, lfsr_ite]
  rw [hstart] at hrun
  exact (congrArg Prod.snd hrun).symm

theorem getLsbD_ite_one (b : Bool) {i : ℕ} (hi : i < 32) :
    (if b then one else 0).getLsbD i = (b && decide (i = 31)) := by
  have hone : ∀ i < 32, one.getLsbD i = decide (i = 31) := by decide
  cases b
  · simp
  · exact hone i hi

/-- After `n` rounds with the second factor `1` the product has the low bits of `x`. -/
theorem iterate_gf2Round_one (x m : BitVec 32) : ∀ n ≤ 31,
    (gf2Round one m)^[n] (x, if x.getLsbD 0 then one else 0) = (x >>> n, x <<< (31 - n))
  | 0, _ => by
    refine Prod.ext (ushiftRight_zero x).symm (eq_of_getLsbD_eq fun i hi => ?_)
    rw [iterate_zero_apply, getLsbD_ite_one _ hi, getLsbD_shiftLeft]
    by_cases h31 : i = 31
    · simp [h31]
    · simp [h31, show i < 31 by omega]
  | n + 1, hn => by
    have hlow : (x <<< (31 - n)).getLsbD 0 = false := by simp [show 0 < 31 - n by omega]
    rw [iterate_succ_apply', iterate_gf2Round_one x m n (by omega), gf2Round, lfsr, hlow]
    refine Prod.ext (by rw [shiftRight_add]) (eq_of_getLsbD_eq fun i hi => ?_)
    rw [if_neg Bool.false_ne_true, getLsbD_xor, getLsbD_ite_one _ hi, getLsbD_xor,
      getLsbD_ushiftRight, getLsbD_shiftLeft, getLsbD_shiftLeft,
      getLsbD_ushiftRight, getLsbD_ushiftRight]
    by_cases h31 : i = 31
    · simp [h31, show ¬31 < 30 - n by omega, show 31 - (30 - n) = n + 1 by omega]
    · simp [h31, hi, show 1 + i < 32 by omega, show 1 + i - (31 - n) = i - (31 - (n + 1)) by omega,
        show 1 + i < 31 - n ↔ i < 31 - (n + 1) by omega]

theorem gf2Multiply_one (x m : BitVec 32) : gf2Multiply x one m = x := by
  rw [gf2Multiply, iterate_gf2Round_one x m 31 le_rfl]
  exact shiftLeft_zero x

/-- A factor that is `k` steps from `1` stands for `k` steps. -/
theorem gf2Multiply_power (x m : BitVec 32) (k : ℕ) :
    gf2Multiply x ((lfsr m)^[k] one) m = (lfsr m)^[k] x := by
  have hsteps : Semiconj (fun y => gf2Multiply x y m) (lfsr m) (lfsr m) := fun y =>
    gf2Multiply_lfsr x y m
  have hpower := hsteps.iterate_right k one
  rwa [gf2Multiply_one] at hpower

/-! ## Shifts -/

/-- The polynomial is `x ^ 32`. -/
theorem iterate_lfsr_one (m : BitVec 32) : (lfsr m)^[32] one = m := by
  have hclear : ∀ i < 31, one.getLsbD i = false := by decide
  have hlast : lfsr m (one >>> 31) = m := by
    rw [show one >>> 31 = 1 from rfl, lfsr]
    simp
  rw [iterate_succ_apply', iterate_lfsr_high m 31 one hclear, hlast]

/-- The loop multiplies by the power `len` of the factor it starts with. -/
theorem shiftLoop_eq (m : BitVec 32) (len k : ℕ) (c : BitVec 32) :
    shiftLoop m c ((lfsr m)^[k] one) len = (lfsr m)^[k * len] c := by
  induction len using Nat.strong_induction_on generalizing k c with
  | _ len ih =>
    have hodd : (if len % 2 = 1 then gf2Multiply c ((lfsr m)^[k] one) m else c) =
        (lfsr m)^[k * (len % 2)] c := by
      rcases Nat.mod_two_eq_zero_or_one len with h | h <;> simp [h, gf2Multiply_power]
    rw [shiftLoop, hodd]
    split
    · rename_i hhalf
      rw [show len % 2 = len by omega]
    · rw [gf2Multiply_power, ← iterate_add_apply, ih _ (by omega), ← iterate_add_apply]
      congr 1
      calc (k + k) * (len / 2) + k * (len % 2) = k * (2 * (len / 2) + len % 2) := by ring
        _ = k * len := by rw [Nat.div_add_mod]

theorem crc32GenericShift_eq (c m : BitVec 32) (len : ℕ) :
    crc32GenericShift c len m = (lfsr m)^[8 * len] c := by
  have hloop := shiftLoop_eq m (len / 4) 32 ((lfsr m)^[8 * (len % 4)] c)
  rw [iterate_lfsr_one, ← iterate_add_apply] at hloop
  rw [crc32GenericShift]
  split
  · rw [show len % 4 = len by omega]
  · rw [hloop]
    congr 1
    omega

theorem crc_replicate_zero (m c : BitVec 32) (len : ℕ) :
    crc m c (List.replicate len 0) = (lfsr m)^[8 * len] c := by
  induction len generalizing c with
  | zero => rfl
  | succ len ih =>
    have hbyte : crcByte m c 0 = (lfsr m)^[8] c := by simp [crcByte]
    rw [List.replicate_succ, crc, List.foldl_cons, ← crc, ih, hbyte, ← iterate_add_apply]
    congr 1

/-- A shift is the check of that many zero bytes, bit by bit. -/
theorem crc32Shift_spec (c : BitVec 32) (len : ℕ) :
    (crc32LeShift c len = crc crc32PolyLe c (List.replicate len 0) ∧
      crc32cLeShift c len = crc crc32cPolyLe c (List.replicate len 0)) ∧
    ∀ a b, crc32LeShift (crc32LeShift c a) b = crc32LeShift c (a + b) ∧
      crc32cLeShift (crc32cLeShift c a) b = crc32cLeShift c (a + b) := by
  simp only [crc32LeShift, crc32cLeShift, crc32GenericShift_eq, crc_replicate_zero, true_and]
  intro a b
  rw [← iterate_add_apply, ← iterate_add_apply, Nat.mul_add, Nat.add_comm (8 * a)]
  exact ⟨rfl, rfl⟩

/-- The seed and the bytes run through the register side by side. -/
theorem crc_eq_xor (m c : BitVec 32) (buf : List (BitVec 8)) :
    crc m c buf = crc32GenericShift c buf.length m ^^^ crc m 0 buf := by
  rw [crc32GenericShift_eq]
  induction buf generalizing c with
  | nil => exact BitVec.xor_zero.symm
  | cons x buf ih =>
    have hcons : ∀ c, crc m c (x :: buf) = crc m ((lfsr m)^[8] (c ^^^ x.setWidth 32)) buf :=
      fun _ => rfl
    rw [hcons, hcons, ih, ih ((lfsr m)^[8] _), ofNat_eq_ofNat, zero_xor, iterate_lfsr_xor,
      iterate_lfsr_xor, ← iterate_add_apply, xor_assoc, List.length_cons, Nat.mul_succ]

/-- The check of a buffer is combined from those of its two parts, the second from the seed `0`. -/
theorem crc32Combine_append (seed : BitVec 32) (p q : List (BitVec 8)) :
    crc crc32PolyLe seed (p ++ q) =
      crc32LeCombine (crc crc32PolyLe seed p) (crc crc32PolyLe 0 q) q.length ∧
    crc crc32cPolyLe seed (p ++ q) =
      crc32cLeCombine (crc crc32cPolyLe seed p) (crc crc32cPolyLe 0 q) q.length := by
  have happend : ∀ m, crc m seed (p ++ q) = crc m (crc m seed p) q := fun _ => List.foldl_append
  rw [happend, happend]
  exact ⟨crc_eq_xor _ _ q, crc_eq_xor _ _ q⟩

end Crc32

end LinuxKernelTest
