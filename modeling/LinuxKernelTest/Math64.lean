import LinuxKernelTest.Pelt

/-!
# Wide multiplication without numbers of 128 bits

The functions of `include/linux/math64.h` for compilers without `__int128`. A number of 64 bits is
a union with its two halves of 32 bits (`low`, `high`, and `ofHalves` for what is written through
them), and a product of 128 bits is put together from four products of halves with the carries
between them (`mulWide_spec`). `do_div` divides by 32 bits, and `mul_u64_u32_div` uses it for two
digits of 32 bits.

The union names its halves under `#ifdef __BIG_ENDIAN`. The `endian.h` of the C library defines this
name on every machine, as one of the values of `__BYTE_ORDER`, and `test/user-define.h` includes it.
So in the files of this repository the two names are exchanged (`swapped`) on a machine that stores
the lower half first, and the functions with the union are wrong there (`math64_swapped`).
-/

namespace LinuxKernelTest

open Nat

/-! ## The functions -/

/-- `l.low` of the union. Its names are `swapped` where `__BIG_ENDIAN` is defined. -/
def low (swapped : Bool) (x : UInt64) : UInt32 :=
  if swapped then (x >>> 32).toUInt32 else x.toUInt32

/-- `l.high` of the union. -/
def high (swapped : Bool) (x : UInt64) : UInt32 := low (!swapped) x

/-- `ll` of the union with these halves. -/
def ofHalves (swapped : Bool) (high low : UInt32) : UInt64 :=
  if swapped then low.toUInt64 <<< 32 ||| high.toUInt64 else high.toUInt64 <<< 32 ||| low.toUInt64

/-- `mul_u32_u32`. -/
def mulU32U32 (a b : UInt32) : UInt64 := a.toUInt64 * b.toUInt64

/-- `mul_u64_u32_shr` where there are no numbers of 128 bits. -/
def mulU64U32ShrHalves (a : UInt64) (mul : UInt32) (shift : ℕ) : UInt64 :=
  let al := a.toUInt32
  let ah := (a >>> 32).toUInt32
  let ret := (al.toUInt64 * mul.toUInt64) >>> UInt64.ofNat shift
  if ah ≠ 0 then ret + (ah.toUInt64 * mul.toUInt64) <<< UInt64.ofNat (32 - shift) else ret

/-- `rl` and `rh` of `mul_u64_u64_shr` after the carries. -/
def mulWide (swapped : Bool) (a b : UInt64) : UInt64 × UInt64 :=
  let low := low swapped
  let high := high swapped
  let ofHalves := ofHalves swapped
  let rl := mulU32U32 (low a) (low b)
  let rm := mulU32U32 (low a) (high b)
  let rn := mulU32U32 (high a) (low b)
  let rh := mulU32U32 (high a) (high b)
  let c := (high rl).toUInt64 + (low rm).toUInt64 + (low rn).toUInt64
  let rl := ofHalves c.toUInt32 (low rl)
  let c := (c >>> 32) + (high rm).toUInt64 + (high rn).toUInt64 + (low rh).toUInt64
  let rh := ofHalves (high rh) c.toUInt32
  let rh := ofHalves ((c >>> 32) + (high rh).toUInt64).toUInt32 (low rh)
  (rl, rh)

/-- `mul_u64_u64_shr` where there are no numbers of 128 bits. -/
def mulU64U64Shr (swapped : Bool) (a b : UInt64) (shift : ℕ) : UInt64 :=
  let (rl, rh) := mulWide swapped a b
  if shift = 0 then rl
  else if shift < 64 then (rl >>> UInt64.ofNat shift) ||| (rh <<< UInt64.ofNat (64 - shift))
  else rh >>> UInt64.ofNat (shift % 64)

/-- `mul_u64_u32_div` : `do_div` leaves the quotient and returns the remainder. -/
def mulU64U32Div (swapped : Bool) (a : UInt64) (mul divisor : UInt32) : UInt64 :=
  let low := low swapped
  let high := high swapped
  let ofHalves := ofHalves swapped
  let rl := mulU32U32 (low a) mul
  let rh := mulU32U32 (high a) mul + (high rl).toUInt64
  let rl := ofHalves (rh % divisor.toUInt64).toUInt32 (low rl)
  let rh := rh / divisor.toUInt64
  let rl := rl / divisor.toUInt64
  ofHalves (low rh) (low rl)

/-! ## Halves -/

section

variable (a b : UInt64) (m d : UInt32) {shift : ℕ}

@[simp] theorem toNat_low : (low false a).toNat = a.toNat % 2 ^ 32 := by simp [low]

@[simp] theorem toNat_shiftRight_half : (a >>> 32).toNat = a.toNat / 2 ^ 32 := by
  rw [UInt64.toNat_shiftRight, shiftRight_eq_div_pow]
  rfl

@[simp] theorem toNat_high : (high false a).toNat = a.toNat / 2 ^ 32 := by
  have ha := a.toNat_lt
  rw [high, Bool.not_false, low, if_pos rfl, UInt64.toNat_toUInt32, toNat_shiftRight_half]
  omega

@[simp] theorem toNat_ofHalves (h l : UInt32) :
    (ofHalves false h l).toNat = h.toNat * 2 ^ 32 + l.toNat := by
  have hh := h.toNat_lt
  have hl := l.toNat_lt
  have hshift : (h.toUInt64 <<< 32).toNat = 2 ^ 32 * h.toNat := by
    simp [UInt64.toNat_shiftLeft, shiftLeft_eq]
    omega
  rw [ofHalves, if_neg Bool.false_ne_true, UInt64.toNat_or, hshift, UInt32.toNat_toUInt64,
    ← two_pow_add_eq_or_of_lt hl, mul_comm]

@[simp] theorem toNat_mulU32U32 (x y : UInt32) : (mulU32U32 x y).toNat = x.toNat * y.toNat := by
  have hlt : x.toNat * y.toNat < 2 ^ 64 := by nlinarith [x.toNat_lt, y.toNat_lt]
  rw [mulU32U32, UInt64.toNat_mul, UInt32.toNat_toUInt64, UInt32.toNat_toUInt64, mod_eq_of_lt hlt]

/-- A number from its halves, as they appear in products. -/
theorem exists_halves : ∃ l h, l < 2 ^ 32 ∧ h < 2 ^ 32 ∧ a.toNat % 2 ^ 32 = l ∧
    a.toNat / 2 ^ 32 = h ∧ a.toNat = h * 2 ^ 32 + l := by
  have ha := a.toNat_lt
  exact ⟨_, _, by omega, by omega, rfl, rfl, by omega⟩

theorem mulWide_spec :
    (mulWide false a b).2.toNat * 2 ^ 64 + (mulWide false a b).1.toNat = a.toNat * b.toNat := by
  obtain ⟨al, ah, hal, hah, hal', hah', ha⟩ := exists_halves a
  obtain ⟨bl, bh, hbl, hbh, hbl', hbh', hb⟩ := exists_halves b
  have hprod : a.toNat * b.toNat = ah * bh * 2 ^ 64 + (al * bh + ah * bl) * 2 ^ 32 + al * bl := by
    rw [ha, hb]
    ring
  have hlt : a.toNat * b.toNat < 2 ^ 128 := by nlinarith [a.toNat_lt, b.toNat_lt]
  have hP : al * bl < 2 ^ 64 := by nlinarith
  have hQ : al * bh < 2 ^ 64 := by nlinarith
  have hR : ah * bl < 2 ^ 64 := by nlinarith
  have hS : ah * bh < 2 ^ 64 := by nlinarith
  simp only [mulWide, toNat_ofHalves, UInt64.toNat_toUInt32, toNat_low, toNat_high,
    toNat_mulU32U32, UInt64.toNat_add, UInt32.toNat_toUInt64, toNat_shiftRight_half, hal', hah',
    hbl', hbh', hprod] at hlt ⊢
  generalize al * bl = P, al * bh = Q, ah * bl = R, ah * bh = S at *
  omega

/-! ## The results -/

/-- The low word of a product, and the rest shifted in above it. -/
theorem toNat_mulU64U64Shr (h : shift < 128) :
    (mulU64U64Shr false a b shift).toNat = a.toNat * b.toNat / 2 ^ shift % 2 ^ 64 := by
  obtain ⟨rl, rh, hwide⟩ : ∃ rl rh, mulWide false a b = (rl, rh) := ⟨_, _, rfl⟩
  have hspec := mulWide_spec a b
  have hrl := rl.toNat_lt
  have hrh := rh.toNat_lt
  have hof : ∀ k < 64, (UInt64.ofNat k).toNat % 64 = k := fun k hk => by
    rw [UInt64.toNat_ofNat_of_lt' (by rw [UInt64.size]; omega), mod_eq_of_lt hk]
  rw [hwide] at hspec
  rw [mulU64U64Shr, hwide, ← hspec]
  dsimp only
  by_cases h0 : shift = 0
  · rw [if_pos h0, h0]
    omega
  rw [if_neg h0]
  by_cases h64 : shift < 64
  · have hpow : 2 ^ 64 = 2 ^ shift * 2 ^ (64 - shift) := by
      rw [← pow_add, add_sub_of_le h64.le]
    have hlow : rl.toNat / 2 ^ shift < 2 ^ (64 - shift) := Nat.div_lt_of_lt_mul (hpow ▸ hrl)
    have hhigh : rh.toNat * 2 ^ (64 - shift) % 2 ^ 64 =
        2 ^ (64 - shift) * (rh.toNat % 2 ^ shift) := by
      rw [hpow, mul_mod_mul_right, mul_comm]
    have hdiv : (rh.toNat * 2 ^ 64 + rl.toNat) / 2 ^ shift =
        rh.toNat * 2 ^ (64 - shift) + rl.toNat / 2 ^ shift := by
      rw [show rh.toNat * 2 ^ 64 = 2 ^ shift * (rh.toNat * 2 ^ (64 - shift)) by rw [hpow]; ring,
        mul_add_div (by positivity)]
    have hsum : 2 ^ (64 - shift) * (rh.toNat % 2 ^ shift) + rl.toNat / 2 ^ shift < 2 ^ 64 := by
      have hmod := Nat.mul_le_mul_left (2 ^ (64 - shift))
        (Nat.succ_le_of_lt (Nat.mod_lt rh.toNat (Nat.two_pow_pos shift)))
      rw [mul_succ, mul_comm _ (2 ^ shift), ← hpow] at hmod
      omega
    rw [if_pos h64, UInt64.toNat_or, UInt64.toNat_shiftRight, UInt64.toNat_shiftLeft, hof _ h64,
      hof _ (by omega), Nat.shiftRight_eq_div_pow, Nat.shiftLeft_eq, hhigh, Nat.or_comm,
      ← Nat.two_pow_add_eq_or_of_lt hlow, hdiv, ← Nat.mod_add_mod, hhigh, Nat.mod_eq_of_lt hsum]
  · have hsplit : 2 ^ shift = 2 ^ 64 * 2 ^ (shift % 64) := by
      rw [← pow_add]
      congr 1
      omega
    rw [if_neg h64, UInt64.toNat_shiftRight, hof _ (by omega),
      Nat.shiftRight_eq_div_pow, hsplit, ← Nat.div_div_eq_div_mul,
      show (rh.toNat * 2 ^ 64 + rl.toNat) / 2 ^ 64 = rh.toNat by omega,
      mod_eq_of_lt ((div_le_self _ _).trans_lt hrh)]

theorem toNat_mulU64U32ShrHalves (h : shift ≤ 32) :
    (mulU64U32ShrHalves a m shift).toNat = a.toNat * m.toNat / 2 ^ shift % 2 ^ 64 := by
  obtain ⟨l, u, hl, hu, hlow, hhigh, ha⟩ := exists_halves a
  have hm := m.toNat_lt
  have hof : ∀ k ≤ 32, (UInt64.ofNat k).toNat % 64 = k := fun k hk => by
    rw [UInt64.toNat_ofNat_of_lt' (by rw [UInt64.size]; omega), mod_eq_of_lt (by omega)]
  -- The upper half is shifted to the left by what is left of 32.
  have hsplit : a.toNat * m.toNat / 2 ^ shift =
      l * m.toNat / 2 ^ shift + u * m.toNat * 2 ^ (32 - shift) := by
    have hpow : 2 ^ 32 = 2 ^ shift * 2 ^ (32 - shift) := by rw [← pow_add, add_sub_of_le h]
    rw [ha, hpow, ← Nat.add_mul_div_left _ _ (Nat.two_pow_pos shift)]
    congr 1
    ring
  have hret : (mulU32U32 (low false a) m >>> UInt64.ofNat shift).toNat =
      l * m.toNat / 2 ^ shift := by
    rw [UInt64.toNat_shiftRight, toNat_mulU32U32, toNat_low, hlow, hof _ h, shiftRight_eq_div_pow]
  have hret' : (mulU32U32 (high false a) m <<< UInt64.ofNat (32 - shift)).toNat =
      u * m.toNat * 2 ^ (32 - shift) % 2 ^ 64 := by
    rw [UInt64.toNat_shiftLeft, toNat_mulU32U32, toNat_high, hhigh, hof _ (by omega), shiftLeft_eq]
  have hdef : mulU64U32ShrHalves a m shift = if high false a ≠ 0 then
      mulU32U32 (low false a) m >>> UInt64.ofNat shift +
        mulU32U32 (high false a) m <<< UInt64.ofNat (32 - shift)
      else mulU32U32 (low false a) m >>> UInt64.ofNat shift := rfl
  rw [hdef, hsplit]
  split
  · rw [UInt64.toNat_add, hret, hret', add_mod_mod]
  · rename_i hzero
    have hu0 : u = 0 := by rw [← hhigh, ← toNat_high, not_not.mp hzero]; rfl
    have hlt : l * m.toNat < 2 ^ 64 := by nlinarith
    rw [hret, hu0, zero_mul, zero_mul, add_zero,
      Nat.mod_eq_of_lt ((Nat.div_le_self _ _).trans_lt hlt)]

/-- Both digits of the quotient. -/
theorem toNat_mulU64U32Div (hd : d ≠ 0) :
    (mulU64U32Div false a m d).toNat = a.toNat * m.toNat / d.toNat % 2 ^ 64 := by
  obtain ⟨l, u, hl, hu, hlow, hhigh, ha⟩ := exists_halves a
  have hm := m.toNat_lt
  have hd' := d.toNat_lt
  have hpos : 0 < d.toNat := pos_of_ne_zero fun h0 => hd (UInt32.toNat_inj.mp h0)
  have hlm : l * m.toNat < 2 ^ 64 := by nlinarith
  have hum : u * m.toNat + l * m.toNat / 2 ^ 32 < 2 ^ 64 := by
    have : u * m.toNat ≤ (2 ^ 32 - 1) * (2 ^ 32 - 1) := Nat.mul_le_mul (by omega) (by omega)
    omega
  simp only [mulU64U32Div, toNat_ofHalves, UInt64.toNat_toUInt32, toNat_low, toNat_high,
    toNat_mulU32U32, UInt64.toNat_add, UInt64.toNat_mod, UInt64.toNat_div, UInt32.toNat_toUInt64,
    hlow, hhigh, mod_eq_of_lt hum]
  obtain ⟨r, hr⟩ : ∃ r, r = u * m.toNat + l * m.toNat / 2 ^ 32 := ⟨_, rfl⟩
  have hprod : a.toNat * m.toNat = r * 2 ^ 32 + l * m.toNat % 2 ^ 32 := by
    have := div_add_mod (l * m.toNat) (2 ^ 32)
    rw [ha, hr]
    linarith
  have hrem : r % d.toNat < d.toNat := mod_lt _ hpos
  have hdigit : (r % d.toNat * 2 ^ 32 + l * m.toNat % 2 ^ 32) / d.toNat < 2 ^ 32 := by
    rw [div_lt_iff_lt_mul hpos]
    have := Nat.mod_lt (l * m.toNat) (Nat.two_pow_pos 32)
    nlinarith
  have hdiv : a.toNat * m.toNat / d.toNat = r / d.toNat * 2 ^ 32 +
      (r % d.toNat * 2 ^ 32 + l * m.toNat % 2 ^ 32) / d.toNat := by
    have hsum : a.toNat * m.toNat =
        r % d.toNat * 2 ^ 32 + l * m.toNat % 2 ^ 32 + d.toNat * (r / d.toNat * 2 ^ 32) := by
      have := div_add_mod r d.toNat
      linarith
    rw [hsum, add_mul_div_left _ _ hpos, add_comm]
  rw [← hr, mod_eq_of_lt (show r % d.toNat < 2 ^ 32 by omega), hdiv, mod_eq_of_lt hdigit]
  generalize (r % d.toNat * 2 ^ 32 + l * m.toNat % 2 ^ 32) / d.toNat = digit at hdigit
  generalize r / d.toNat = quotient
  omega

end

/-- The functions with the union take the lower half for the upper one if its names are swapped. -/
theorem math64_swapped : mulU64U64Shr true 5 7 0 = 0 ∧ mulU64U32Div true 100 3 7 = 0 := by
  decide

/-- `mul_u64_u32_shr` is the exact product modulo `2 ^ 64`, and the two functions with the union are
if its names are not swapped, and only then. -/
theorem math64_exact (swapped : Bool) :
    ((∀ a b, ∀ shift < 128, (mulU64U64Shr swapped a b shift).toNat =
      a.toNat * b.toNat / 2 ^ shift % 2 ^ 64) ↔ swapped = false) ∧
    (∀ a m, ∀ shift ≤ 32, (mulU64U32ShrHalves a m shift).toNat =
      a.toNat * m.toNat / 2 ^ shift % 2 ^ 64) ∧
    ((∀ a m d, d ≠ 0 → (mulU64U32Div swapped a m d).toNat =
      a.toNat * m.toNat / d.toNat % 2 ^ 64) ↔ swapped = false) := by
  refine ⟨?_, fun a m _ => toNat_mulU64U32ShrHalves a m, ?_⟩
  · cases swapped with
    | false => exact iff_of_true (fun a b _ => toNat_mulU64U64Shr a b) rfl
    | true => exact iff_of_false (fun h => absurd (h 5 7 0 (by norm_num)) (by decide)) (by decide)
  · cases swapped with
    | false => exact iff_of_true toNat_mulU64U32Div rfl
    | true => exact iff_of_false (fun h => absurd (h 100 3 7 (by decide)) (by decide)) (by decide)

/-- The largest factors, where every carry is taken. -/
theorem math64_exact_largest :
    (mulU64U64Shr false (-1) (-1) 64).toNat = (2 ^ 64 - 1) * (2 ^ 64 - 1) / 2 ^ 64 % 2 ^ 64 ∧
      (mulU64U32ShrHalves (-1) (-1) 32).toNat = (2 ^ 64 - 1) * (2 ^ 32 - 1) / 2 ^ 32 % 2 ^ 64 ∧
      (mulU64U32Div false (-1) (-1) 3).toNat = (2 ^ 64 - 1) * (2 ^ 32 - 1) / 3 % 2 ^ 64 := by
  obtain ⟨h64, h32, hdiv⟩ := math64_exact false
  exact ⟨h64.mpr rfl (-1) (-1) 64 (by norm_num), h32 (-1) (-1) 32 le_rfl,
    hdiv.mpr rfl (-1) (-1) 3 (by decide)⟩

end LinuxKernelTest
