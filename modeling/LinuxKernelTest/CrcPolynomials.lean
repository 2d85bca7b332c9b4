import Mathlib.Tactic

/-!
# Cyclic redundancy checks as polynomials

A word of `w` bits stands for a polynomial over the field of two elements. In the reflected order
the most significant bit is the constant coefficient (`reflected`), so a shift to the right is a
multiplication by `X`.

One step of the register shifts it and takes the polynomial `poly` in if a bit falls out (`lfsr`).
This is a multiplication by `X` modulo the generator `X ^ w + poly` (`mk_reflected_lfsr`), and a
byte at a time the register holds the remainder of the message (`mk_reflected_crc`).

The last part compares the register with one that is only shifted, which takes no polynomial in
(`crc_eq_shift_iff`).
-/

namespace LinuxKernelTest

open Function Polynomial

variable {w v n : ℕ}

/-! ## Words as polynomials -/

/-- A bit as a coefficient. -/
def bitCoeff (b : Bool) : ZMod 2 := if b then 1 else 0

@[simp] theorem bitCoeff_false : bitCoeff false = 0 := rfl

@[simp] theorem bitCoeff_true : bitCoeff true = 1 := rfl

theorem bitCoeff_xor (a b : Bool) : bitCoeff (a ^^ b) = bitCoeff a + bitCoeff b := by
  cases a <;> cases b <;> decide

theorem bitCoeff_injective : Injective bitCoeff := by decide

variable (c : BitVec w) {poly : BitVec w}

/-- The polynomial of a word, the most significant bit first. -/
noncomputable def reflected : (ZMod 2)[X] :=
  ∑ k ∈ Finset.range w, C (bitCoeff (c.getMsbD k)) * X ^ k

@[simp] theorem coeff_reflected (k : ℕ) :
    (reflected c).coeff k = bitCoeff (c.getMsbD k) := by
  rw [reflected, finsetSum_coeff]
  simp only [coeff_C_mul, coeff_X_pow, mul_ite, mul_one, mul_zero, Finset.sum_ite_eq,
    Finset.mem_range]
  by_cases h : k < w
  · rw [if_pos h]
  · rw [if_neg h, BitVec.getMsbD_of_ge c k (by omega), bitCoeff_false]

theorem reflected_injective : Injective (reflected : BitVec w → (ZMod 2)[X]) := by
  intro a b h
  refine BitVec.eq_of_getMsbD_eq fun k _ => bitCoeff_injective ?_
  rw [← coeff_reflected, h, coeff_reflected]

theorem reflected_xor (a b : BitVec w) : reflected (a ^^^ b) = reflected a + reflected b := by
  ext k
  rw [coeff_add, coeff_reflected, coeff_reflected, coeff_reflected, BitVec.getMsbD_xor,
    bitCoeff_xor]

theorem reflected_ite (b : Bool) (c : BitVec w) :
    reflected (if b then c else 0) = C (bitCoeff b) * reflected c := by
  ext k
  cases b <;> simp

theorem degree_reflected_lt : (reflected c).degree < w := by
  refine (degree_lt_iff_coeff_zero _ _).mpr fun k hk => ?_
  rw [coeff_reflected, BitVec.getMsbD_of_ge c k hk, bitCoeff_false]

/-- A shift : the bits that fall out are the high coefficients. -/
theorem X_pow_mul_reflected (hn : n ≤ w) :
    X ^ n * reflected c = reflected (c >>> n) + X ^ w * reflected (c.setWidth n) := by
  ext k
  rw [coeff_add, coeff_X_pow_mul', coeff_X_pow_mul']
  simp only [coeff_reflected, BitVec.getMsbD_ushiftRight, BitVec.getMsbD_setWidth]
  by_cases hkn : n ≤ k
  · by_cases hkw : w ≤ k
    · have hin : n - w ≤ k - w := by omega
      simp [hkn, hkw, hin, show ¬ k < w by omega]
    · simp [hkn, hkw, show ¬ k < n by omega, show k < w by omega]
  · simp [hkn, show ¬ w ≤ k by omega, show k < n by omega]

/-- A short word as a wide one. -/
theorem reflected_setWidth (c : BitVec v) (hv : v ≤ w) :
    reflected (c.setWidth w) = X ^ (w - v) * reflected c := by
  ext k
  rw [coeff_X_pow_mul']
  simp only [coeff_reflected, BitVec.getMsbD_setWidth]
  by_cases hk : w - v ≤ k
  · simp [hk, show k + v - w = k - (w - v) by omega]
  · simp [hk]

/-! ## The register -/

/-- A step of the register. -/
def lfsr (poly c : BitVec w) : BitVec w := (c >>> 1) ^^^ if c.getLsbD 0 then poly else 0

/-- The generator, with the coefficient of `X ^ w` that the word has no bit for. -/
noncomputable def generator (poly : BitVec w) : (ZMod 2)[X] := X ^ w + reflected poly

theorem degree_generator (poly : BitVec w) : (generator poly).degree = w := by
  have h := degree_reflected_lt poly
  rw [generator, degree_add_eq_left_of_degree_lt] <;> rw [degree_X_pow]
  exact h

/-- A generator with a constant term has no factor `X`. -/
theorem isCoprime_generator (hp : poly.msb = true) (n : ℕ) :
    IsCoprime (generator poly) (X ^ n) := by
  have hw : w ≠ 0 := by
    rintro rfl
    rw [BitVec.msb_eq_getMsbD_zero, BitVec.getMsbD_of_ge poly 0 le_rfl] at hp
    cases hp
  refine (IsCoprime.pow_left ((irreducible_X.coprime_iff_not_dvd).mpr fun hX => ?_)).symm
  have h0 := X_dvd_iff.mp hX
  rw [generator, coeff_add, coeff_X_pow, if_neg (Ne.symm hw), coeff_reflected,
    ← BitVec.msb_eq_getMsbD_zero, hp] at h0
  exact absurd h0 (by decide)

theorem reflected_lfsr (poly c : BitVec w) : reflected (lfsr poly c) =
    reflected (c >>> 1) + C (bitCoeff (c.getLsbD 0)) * reflected poly := by
  rw [lfsr, reflected_xor, reflected_ite]

theorem lfsr_xor (poly a b : BitVec w) :
    lfsr poly (a ^^^ b) = lfsr poly a ^^^ lfsr poly b := by
  refine reflected_injective ?_
  rw [reflected_xor, reflected_lfsr, reflected_lfsr, reflected_lfsr, BitVec.getLsbD_xor,
    BitVec.ushiftRight_xor_distrib, reflected_xor, bitCoeff_xor, C_add]
  ring

theorem iterate_lfsr_xor (poly a b : BitVec w) (n : ℕ) :
    (lfsr poly)^[n] (a ^^^ b) = (lfsr poly)^[n] a ^^^ (lfsr poly)^[n] b :=
  Semiconj₂.iterate (lfsr_xor poly) n a b

/-- A step multiplies by `X` modulo the generator. -/
theorem mk_reflected_lfsr (hw : 0 < w) (poly c : BitVec w) :
    AdjoinRoot.mk (generator poly) (reflected (lfsr poly c)) =
      AdjoinRoot.mk (generator poly) (X * reflected c) := by
  have hX := X_pow_mul_reflected c (show 1 ≤ w from hw)
  have hlow : reflected (c.setWidth 1) = C (bitCoeff (c.getLsbD 0)) := by
    ext k
    rw [coeff_reflected, coeff_C, BitVec.getMsbD_eq_getLsbD, BitVec.getLsbD_setWidth]
    by_cases hk : k = 0 <;> simp [hk]
  rw [pow_one, hlow] at hX
  rw [AdjoinRoot.mk_eq_mk, hX, reflected_lfsr, add_sub_add_left_eq_sub, CharTwo.sub_eq_add]
  exact ⟨C (bitCoeff (c.getLsbD 0)), by rw [generator]; ring⟩

theorem mk_reflected_iterate (hw : 0 < w) (poly c : BitVec w) (n : ℕ) :
    AdjoinRoot.mk (generator poly) (reflected ((lfsr poly)^[n] c)) =
      AdjoinRoot.mk (generator poly) (X ^ n * reflected c) := by
  induction n generalizing c with
  | zero => simp
  | succ n ih =>
    rw [iterate_succ_apply, ih, map_mul, mk_reflected_lfsr hw, ← map_mul, pow_succ, mul_assoc]

/-! ## Messages -/

/-- The register after a byte, the bits of the byte taken in the order of the register. -/
def crcByte (poly c : BitVec w) (b : BitVec 8) : BitVec w := (lfsr poly)^[8] (c ^^^ b.setWidth w)

/-- The register after the bytes of a buffer, from the word `seed`. -/
def crc (poly seed : BitVec w) (buf : List (BitVec 8)) : BitVec w := buf.foldl (crcByte poly) seed

/-- The polynomial of a buffer, its first byte with the highest coefficients. -/
noncomputable def message : List (BitVec 8) → (ZMod 2)[X]
  | [] => 0
  | b :: buf => X ^ (8 * buf.length) * reflected b + message buf

theorem mk_reflected_crcByte (hw : 8 ≤ w) (poly c : BitVec w) (b : BitVec 8) :
    AdjoinRoot.mk (generator poly) (reflected (crcByte poly c b)) =
      AdjoinRoot.mk (generator poly) (X ^ 8 * reflected c + X ^ w * reflected b) := by
  rw [crcByte, mk_reflected_iterate (by omega), reflected_xor, reflected_setWidth b hw]
  congr 1
  rw [mul_add, ← mul_assoc, ← pow_add, show 8 + (w - 8) = w by omega]

/-- The register holds the remainder of the message, with the seed in front of it. -/
theorem mk_reflected_crc (hw : 8 ≤ w) (poly : BitVec w) (buf : List (BitVec 8)) (seed : BitVec w) :
    AdjoinRoot.mk (generator poly) (reflected (crc poly seed buf)) = AdjoinRoot.mk (generator poly)
        (X ^ (8 * buf.length) * reflected seed + X ^ w * message buf) := by
  induction buf generalizing seed with
  | nil => simp [crc, message]
  | cons b buf ih =>
    have hcons : crc poly seed (b :: buf) = crc poly (crcByte poly seed b) buf := rfl
    obtain ⟨q, hq⟩ := AdjoinRoot.mk_eq_mk.mp (mk_reflected_crcByte hw poly seed b)
    rw [hcons, ih, AdjoinRoot.mk_eq_mk, message, List.length_cons]
    refine ⟨X ^ (8 * buf.length) * q, ?_⟩
    linear_combination X ^ (8 * buf.length) * hq

/-! ## A register that is only shifted -/

/-- The buffer with the bytes of the seed taken in, the least significant one first. -/
def seeded : BitVec w → List (BitVec 8) → List (BitVec 8)
  | _, [] => []
  | seed, b :: buf => (b ^^^ seed.setWidth 8) :: seeded (seed >>> 8) buf

theorem length_seeded (seed : BitVec w) (buf : List (BitVec 8)) :
    (seeded seed buf).length = buf.length := by
  induction buf generalizing seed with
  | nil => rfl
  | cons b buf ih => rw [seeded, List.length_cons, List.length_cons, ih]

/-- What the shifts leave of the seed, and what they take from it. -/
theorem reflected_shift_add_message (hw : 8 ≤ w) (buf : List (BitVec 8)) (seed : BitVec w) :
    X ^ (8 * buf.length) * reflected seed + X ^ w * message buf =
      reflected (seed >>> (8 * buf.length)) + X ^ w * message (seeded seed buf) := by
  induction buf generalizing seed with
  | nil => simp [message, seeded]
  | cons b buf ih =>
    have hshift : seed >>> (8 * (b :: buf).length) = (seed >>> 8) >>> (8 * buf.length) := by
      rw [← BitVec.shiftRight_add, List.length_cons]
      congr 1
      omega
    have hX := X_pow_mul_reflected seed hw
    calc X ^ (8 * (b :: buf).length) * reflected seed + X ^ w * message (b :: buf)
        = X ^ (8 * buf.length) * (X ^ 8 * reflected seed) +
            X ^ w * (X ^ (8 * buf.length) * reflected b + message buf) := by
          rw [List.length_cons, message]
          ring
      _ = X ^ (8 * buf.length) * reflected (seed >>> 8) + X ^ w * message buf +
            X ^ w * (X ^ (8 * buf.length) * (reflected b + reflected (seed.setWidth 8))) := by
          rw [hX]
          ring
      _ = reflected ((seed >>> 8) >>> (8 * buf.length)) +
            X ^ w * message (seeded (seed >>> 8) buf) +
            X ^ w * (X ^ (8 * buf.length) * (reflected b + reflected (seed.setWidth 8))) := by
          rw [ih]
      _ = reflected (seed >>> (8 * (b :: buf).length)) +
            X ^ w * message (seeded seed (b :: buf)) := by
          rw [hshift, seeded, message, length_seeded, reflected_xor]
          ring

/-- The register ends like one that is only shifted exactly if the message with the seed taken in is
a multiple of the generator. -/
theorem crc_eq_shift_iff (hw : 8 ≤ w) (hp : poly.msb = true) (seed : BitVec w)
    (buf : List (BitVec 8)) :
    crc poly seed buf = seed >>> (8 * buf.length) ↔ generator poly ∣ message (seeded seed buf) := by
  have hcrc := mk_reflected_crc hw poly buf seed
  rw [reflected_shift_add_message hw, AdjoinRoot.mk_eq_mk] at hcrc
  have hmul : generator poly ∣ reflected (crc poly seed buf) -
      reflected (seed >>> (8 * buf.length)) ↔
        generator poly ∣ X ^ w * message (seeded seed buf) := by
    refine dvd_iff_dvd_of_dvd_sub ?_
    rwa [sub_sub]
  have hsmall : (reflected (crc poly seed buf) -
      reflected (seed >>> (8 * buf.length))).degree < (generator poly).degree := by
    rw [degree_generator, CharTwo.sub_eq_add, ← reflected_xor]
    exact degree_reflected_lt _
  rw [← reflected_injective.eq_iff, ← sub_eq_zero]
  constructor
  · intro h
    refine (isCoprime_generator hp w).dvd_of_dvd_mul_left (hmul.mp ?_)
    rw [h]
    exact dvd_zero _
  · intro h
    exact eq_zero_of_dvd_of_degree_lt (hmul.mpr (Dvd.dvd.mul_left h _)) hsmall

end LinuxKernelTest
