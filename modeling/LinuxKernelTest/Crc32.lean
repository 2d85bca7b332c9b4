import LinuxKernelTest.CrcPolynomials

/-!
# The 32-bit cyclic redundancy checks

A model of `lib/crc32.c` as it is configured : `CRC_LE_BITS` and `CRC_BE_BITS` are 64, so a buffer
is read in slices of eight bytes behind a prologue that aligns it, on a little-endian machine.

The slices are right for every table whose row `0` is additive and whose other rows are made from it
by further steps (`crc32Body_eq_foldl`). With the tables of the polynomials the functions are the
checks, bit by bit (`crc32Body_crcTable`).

In the source the tables are `static` arrays; the include of `crc32table.h`, which has their
contents, is disabled, and nothing else writes to them. They are zero, and the functions only shift
the seed out (`crc32LeGeneric_zero`).
-/

namespace LinuxKernelTest

open Function Polynomial List
open BitVec hiding mul_add

namespace Crc32

/-! ## The source -/

/-- `CRC32_POLY_LE`. -/
def crc32PolyLe : BitVec 32 := 0xedb88320

/-- `CRC32_POLY_BE`. -/
def crc32PolyBe : BitVec 32 := 0x04c11db7

/-- `CRC32C_POLY_LE`. -/
def crc32cPolyLe : BitVec 32 := 0x82f63b78

/-- The rows of a table. -/
abbrev Table : Type := ℕ → BitVec 8 → BitVec 32

/-- `crc32table_le`. -/
def crc32tableLe : Table := fun _ _ => 0

/-- `crc32table_be`. -/
def crc32tableBe : Table := fun _ _ => 0

/-- `crc32ctable_le`. -/
def crc32ctableLe : Table := fun _ _ => 0

/-- The byte at the place `k` of a word. -/
def byteAt (q : BitVec 32) (k : ℕ) : BitVec 8 := (q >>> (8 * k)).setWidth 8

/-- `DO_CRC`. -/
def doCrc (tab : Table) (crc : BitVec 32) (x : BitVec 8) : BitVec 32 :=
  tab 0 (byteAt (crc ^^^ x.setWidth 32) 0) ^^^ (crc >>> 8)

/-- `DO_CRC4`. -/
def doCrc4 (tab : Table) (q : BitVec 32) : BitVec 32 :=
  tab 3 (byteAt q 0) ^^^ tab 2 (byteAt q 1) ^^^ tab 1 (byteAt q 2) ^^^ tab 0 (byteAt q 3)

/-- `DO_CRC8`. -/
def doCrc8 (tab : Table) (q : BitVec 32) : BitVec 32 :=
  tab 7 (byteAt q 0) ^^^ tab 6 (byteAt q 1) ^^^ tab 5 (byteAt q 2) ^^^ tab 4 (byteAt q 3)

/-- A word of four bytes in memory. -/
def loadWord (x₀ x₁ x₂ x₃ : BitVec 8) : BitVec 32 := x₃ ++ x₂ ++ x₁ ++ x₀

/-- The bytes up to an aligned address. -/
def alignBytes (tab : Table) (crc : BitVec 32) (addr : ℕ) :
    List (BitVec 8) → BitVec 32 × List (BitVec 8)
  | [] => (crc, [])
  | x :: buf =>
    if addr % 4 ≠ 0 then alignBytes tab (doCrc tab crc x) (addr + 1) buf else (crc, x :: buf)

/-- The slices of eight bytes. It faults at a slice that the buffer does not have. -/
def sliceBytes (tab : Table) :
    ℕ → BitVec 32 → List (BitVec 8) → Option (BitVec 32 × List (BitVec 8))
  | 0, crc, buf => some (crc, buf)
  | len + 1, crc, x₀ :: x₁ :: x₂ :: x₃ :: x₄ :: x₅ :: x₆ :: x₇ :: buf =>
    let q := crc ^^^ loadWord x₀ x₁ x₂ x₃
    let crc := doCrc8 tab q
    let q := loadWord x₄ x₅ x₆ x₇
    sliceBytes tab len (crc ^^^ doCrc4 tab q) buf
  | _ + 1, _, _ => none

/-- `crc32_body` of the bytes `buf` from the address `addr` on. -/
def crc32Body (crc : BitVec 32) (addr : ℕ) (buf : List (BitVec 8)) (tab : Table) :
    Option (BitVec 32) :=
  let (crc, buf) := alignBytes tab crc addr buf
  (sliceBytes tab (buf.length / 8) crc buf).map fun r => r.2.foldl (doCrc tab) r.1

/-- The bytes of a word in the other order. -/
def swab32 (x : BitVec 32) : BitVec 32 :=
  loadWord (byteAt x 3) (byteAt x 2) (byteAt x 1) (byteAt x 0)

/-- `crc32_le_generic`. -/
def crc32LeGeneric (crc : BitVec 32) (addr : ℕ) (buf : List (BitVec 8)) (tab : Table) :
    Option (BitVec 32) := crc32Body crc addr buf tab

/-- `crc32_be_generic`. -/
def crc32BeGeneric (crc : BitVec 32) (addr : ℕ) (buf : List (BitVec 8)) (tab : Table) :
    Option (BitVec 32) := (crc32Body (swab32 crc) addr buf tab).map swab32

/-- `crc32_le`. -/
def crc32Le (crc : BitVec 32) (addr : ℕ) (p : List (BitVec 8)) : Option (BitVec 32) :=
  crc32LeGeneric crc addr p crc32tableLe

/-- `__crc32c_le`. -/
def crc32cLe (crc : BitVec 32) (addr : ℕ) (p : List (BitVec 8)) : Option (BitVec 32) :=
  crc32LeGeneric crc addr p crc32ctableLe

/-- `crc32_be`. -/
def crc32Be (crc : BitVec 32) (addr : ℕ) (p : List (BitVec 8)) : Option (BitVec 32) :=
  crc32BeGeneric crc addr p crc32tableBe

/-! ## Slices -/

/-- A step without a byte. -/
def advance (tab : Table) (crc : BitVec 32) : BitVec 32 := tab 0 (byteAt crc 0) ^^^ (crc >>> 8)

/-- The rows of a table fit together : row `0` is additive, and each further row is one step on. -/
structure Sliced (tab : Table) : Prop where
  additive : ∀ x y, tab 0 (x ^^^ y) = tab 0 x ^^^ tab 0 y
  next : ∀ r < 7, ∀ x, tab (r + 1) x = advance tab (tab r x)

variable {tab : Table} {w : ℕ}

theorem byteAt_xor (p q : BitVec 32) (k : ℕ) : byteAt (p ^^^ q) k = byteAt p k ^^^ byteAt q k := by
  rw [byteAt, ushiftRight_xor_distrib, setWidth_xor]
  rfl

theorem byteAt_shift (q : BitVec 32) (j k : ℕ) : byteAt (q >>> (8 * j)) k = byteAt q (j + k) := by
  rw [byteAt, byteAt, ← BitVec.shiftRight_add, mul_add]

theorem byteAt_setWidth (x : BitVec 8) : byteAt (x.setWidth 32) 0 = x := by
  rw [byteAt]
  simp

theorem Sliced.advance_xor (h : Sliced tab) (p q : BitVec 32) :
    advance tab (p ^^^ q) = advance tab p ^^^ advance tab q := by
  rw [advance, advance, advance, byteAt_xor, h.additive, ushiftRight_xor_distrib]
  ac_rfl

theorem Sliced.row_xor (h : Sliced tab) : ∀ r ≤ 7, ∀ x y, tab r (x ^^^ y) = tab r x ^^^ tab r y
  | 0, _, x, y => h.additive x y
  | r + 1, hr, x, y => by
    rw [h.next r hr, h.next r hr, h.next r hr, h.row_xor r (by omega), h.advance_xor]

/-- A byte is taken in before the step or behind it. -/
theorem Sliced.doCrc_eq (h : Sliced tab) (crc : BitVec 32) (x : BitVec 8) :
    doCrc tab crc x = advance tab crc ^^^ tab 0 x := by
  rw [doCrc, advance, byteAt_xor, byteAt_setWidth, h.additive]
  ac_rfl

theorem advance_shift (tab : Table) (crc : BitVec 32) (k : ℕ) :
    advance tab (crc >>> (8 * k)) = tab 0 (byteAt crc k) ^^^ (crc >>> (8 * (k + 1))) := by
  rw [advance, byteAt_shift, ← BitVec.shiftRight_add]
  rfl

/-- Four steps empty the register into the rows. -/
theorem Sliced.advance_four (h : Sliced tab) (crc : BitVec 32) :
    (advance tab)^[4] crc = doCrc4 tab crc := by
  have hzero : crc >>> (8 * 4) = 0#32 := ushiftRight_eq_zero (by decide)
  have h1 : ∀ x, advance tab (tab 0 x) = tab 1 x := fun x => (h.next 0 (by decide) x).symm
  have h2 : ∀ x, advance tab (tab 1 x) = tab 2 x := fun x => (h.next 1 (by decide) x).symm
  have h3 : ∀ x, advance tab (tab 2 x) = tab 3 x := fun x => (h.next 2 (by decide) x).symm
  calc (advance tab)^[4] crc
      = advance tab (advance tab (advance tab (advance tab crc))) := rfl
    _ = advance tab (advance tab (advance tab (tab 0 (byteAt crc 0) ^^^ (crc >>> (8 * 1))))) := rfl
    _ = tab 3 (byteAt crc 0) ^^^ (tab 2 (byteAt crc 1) ^^^ (tab 1 (byteAt crc 2) ^^^
          (tab 0 (byteAt crc 3) ^^^ (crc >>> (8 * 4))))) := by
        simp only [h.advance_xor, h1, h2, h3, advance_shift]
    _ = doCrc4 tab crc := by
        rw [hzero, xor_zero, doCrc4]
        ac_rfl

theorem getLsbD_byteAt (q : BitVec 32) (k i : ℕ) :
    (byteAt q k).getLsbD i = (decide (i < 8) && q.getLsbD (8 * k + i)) := by
  rw [byteAt, getLsbD_setWidth, getLsbD_ushiftRight]

theorem getLsbD_loadWord (x0 x1 x2 x3 : BitVec 8) (i : ℕ) :
    (loadWord x0 x1 x2 x3).getLsbD i = if i < 8 then x0.getLsbD i
      else if i < 16 then x1.getLsbD (i - 8)
      else if i < 24 then x2.getLsbD (i - 16) else x3.getLsbD (i - 24) := by
  have h1 : i - 8 < 8 ↔ i < 16 := by omega
  have h2 : i - 16 < 8 ↔ i < 24 := by omega
  simp only [loadWord, getLsbD_append]
  simp only [Nat.sub_sub, Nat.reduceAdd, h1, h2]

theorem byteAt_loadWord (x0 x1 x2 x3 : BitVec 8) :
    byteAt (loadWord x0 x1 x2 x3) 0 = x0 ∧ byteAt (loadWord x0 x1 x2 x3) 1 = x1 ∧
      byteAt (loadWord x0 x1 x2 x3) 2 = x2 ∧ byteAt (loadWord x0 x1 x2 x3) 3 = x3 := by
  refine ⟨?_, ?_, ?_, ?_⟩ <;> refine eq_of_getLsbD_eq fun i hi => ?_ <;>
    rw [getLsbD_byteAt, getLsbD_loadWord, decide_eq_true hi, Bool.true_and] <;> grind

theorem Sliced.doCrc4_xor (h : Sliced tab) (p q : BitVec 32) :
    doCrc4 tab (p ^^^ q) = doCrc4 tab p ^^^ doCrc4 tab q := by
  simp only [doCrc4, byteAt_xor, h.row_xor 3 (by decide), h.row_xor 2 (by decide),
    h.row_xor 1 (by decide), h.row_xor 0 (by decide)]
  ac_rfl

/-- Four bytes at once. -/
theorem Sliced.four (h : Sliced tab) (crc : BitVec 32) (x0 x1 x2 x3 : BitVec 8) :
    [x0, x1, x2, x3].foldl (doCrc tab) crc = doCrc4 tab (crc ^^^ loadWord x0 x1 x2 x3) := by
  obtain ⟨h0, h1, h2, h3⟩ := byteAt_loadWord x0 x1 x2 x3
  have hword : doCrc4 tab (loadWord x0 x1 x2 x3) =
      tab 3 x0 ^^^ tab 2 x1 ^^^ tab 1 x2 ^^^ tab 0 x3 := by
    rw [doCrc4, h0, h1, h2, h3]
  rw [h.doCrc4_xor, hword, ← h.advance_four]
  simp only [foldl_cons, foldl_nil, h.doCrc_eq, h.advance_xor, ← h.next 0 (by decide),
    ← h.next 1 (by decide), ← h.next 2 (by decide)]
  show _ = advance tab (advance tab (advance tab (advance tab crc))) ^^^ _
  ac_rfl

/-- Eight bytes at once, in two words. -/
theorem Sliced.eight (h : Sliced tab) (crc : BitVec 32) (x0 x1 x2 x3 x4 x5 x6 x7 : BitVec 8) :
    [x0, x1, x2, x3, x4, x5, x6, x7].foldl (doCrc tab) crc =
      doCrc8 tab (crc ^^^ loadWord x0 x1 x2 x3) ^^^ doCrc4 tab (loadWord x4 x5 x6 x7) := by
  have hsplit : [x0, x1, x2, x3, x4, x5, x6, x7] = [x0, x1, x2, x3] ++ [x4, x5, x6, x7] := rfl
  have hrows : ∀ r < 4, ∀ x, (advance tab)^[4] (tab r x) = tab (r + 4) x := fun r hr x => by
    show advance tab (advance tab (advance tab (advance tab (tab r x)))) = _
    rw [← h.next r (by omega), ← h.next (r + 1) (by omega), ← h.next (r + 2) (by omega),
      ← h.next (r + 3) (by omega)]
  have hiter : ∀ p q, (advance tab)^[4] (p ^^^ q) = (advance tab)^[4] p ^^^ (advance tab)^[4] q :=
    fun p q => by rw [h.advance_four, h.advance_four, h.advance_four, h.doCrc4_xor]
  rw [hsplit, foldl_append, h.four, h.four, h.doCrc4_xor, ← h.advance_four]
  congr 1
  rw [doCrc4, hiter, hiter, hiter, hrows 3 (by decide), hrows 2 (by decide), hrows 1 (by decide),
    hrows 0 (by decide)]
  rfl

theorem Sliced.sliceBytes_eq (h : Sliced tab) : ∀ (len : ℕ) (crc : BitVec 32)
    (buf : List (BitVec 8)), 8 * len ≤ buf.length →
    sliceBytes tab len crc buf =
      some ((buf.take (8 * len)).foldl (doCrc tab) crc, buf.drop (8 * len))
  | 0, crc, buf, _ => by simp [sliceBytes]
  | len + 1, crc, x0 :: x1 :: x2 :: x3 :: x4 :: x5 :: x6 :: x7 :: buf, hlen => by
    have hlen' : 8 * len ≤ buf.length := by
      simp only [length_cons] at hlen
      omega
    have htake : (x0 :: x1 :: x2 :: x3 :: x4 :: x5 :: x6 :: x7 :: buf).take (8 * (len + 1)) =
        [x0, x1, x2, x3, x4, x5, x6, x7] ++ buf.take (8 * len) := rfl
    have hdrop : (x0 :: x1 :: x2 :: x3 :: x4 :: x5 :: x6 :: x7 :: buf).drop (8 * (len + 1)) =
        buf.drop (8 * len) := rfl
    rw [sliceBytes, htake, hdrop, foldl_append, h.eight]
    exact h.sliceBytes_eq len _ buf hlen'

theorem alignBytes_spec (tab : Table) : ∀ (buf : List (BitVec 8)) (crc : BitVec 32) (addr : ℕ),
    ∃ pre, buf = pre ++ (alignBytes tab crc addr buf).2 ∧
      (alignBytes tab crc addr buf).1 = pre.foldl (doCrc tab) crc
  | [], crc, addr => ⟨[], rfl, rfl⟩
  | x :: buf, crc, addr => by
    rw [alignBytes]
    by_cases haddr : addr % 4 ≠ 0
    · obtain ⟨pre, hbuf, hcrc⟩ := alignBytes_spec tab buf (doCrc tab crc x) (addr + 1)
      rw [if_pos haddr]
      refine ⟨x :: pre, ?_, hcrc⟩
      rw [List.cons_append, ← hbuf]
    · rw [if_neg haddr]
      exact ⟨[], rfl, rfl⟩

/-- The slices and the alignment make no difference : the bytes are taken one by one. -/
theorem crc32Body_eq_foldl (h : Sliced tab) (crc : BitVec 32) (addr : ℕ) (buf : List (BitVec 8)) :
    crc32Body crc addr buf tab = some (buf.foldl (doCrc tab) crc) := by
  obtain ⟨pre, hbuf, hcrc⟩ := alignBytes_spec tab buf crc addr
  obtain ⟨rest, hrest⟩ : ∃ rest, rest = (alignBytes tab crc addr buf).2 := ⟨_, rfl⟩
  have hbody : crc32Body crc addr buf tab =
      (sliceBytes tab (rest.length / 8) (pre.foldl (doCrc tab) crc) rest).map fun r =>
        r.2.foldl (doCrc tab) r.1 := by
    rw [hrest, ← hcrc]
    rfl
  rw [← hrest] at hbuf
  rw [hbody, h.sliceBytes_eq _ _ _ (Nat.mul_div_le _ _), Option.map_some, ← foldl_append,
    take_append_drop, ← foldl_append, ← hbuf]

/-! ## Tables of the polynomials -/

/-- The most significant bit first : the loop for `CRC_BE_BITS == 1`. -/
def lfsrBe (poly c : BitVec 32) : BitVec 32 := (c <<< 1) ^^^ if c.msb then poly else 0

/-- A byte at the most significant end. -/
def crcByteBe (poly c : BitVec 32) (b : BitVec 8) : BitVec 32 :=
  (lfsrBe poly)^[8] (c ^^^ (b.setWidth 32 <<< 24))

/-- The check, the most significant bit first. -/
def crcBe (poly seed : BitVec 32) (buf : List (BitVec 8)) : BitVec 32 :=
  buf.foldl (crcByteBe poly) seed

/-- The table of a polynomial, the least significant bit first : row `r` has the steps for `r + 1`
bytes. -/
def crcTable (poly : BitVec 32) : Table := fun r x => (lfsr poly)^[8 * (r + 1)] (x.setWidth 32)

/-- Steps on a word whose low bits are clear only shift it. -/
theorem iterate_lfsr_high (poly : BitVec 32) : ∀ (n : ℕ) (c : BitVec 32),
    (∀ i < n, c.getLsbD i = false) → (lfsr poly)^[n] c = c >>> n
  | 0, c, _ => (ushiftRight_zero c).symm
  | n + 1, c, h => by
    have hstep : lfsr poly c = c >>> 1 := by
      rw [lfsr, h 0 (by omega)]
      simp
    rw [iterate_succ_apply, hstep, iterate_lfsr_high poly n, ← BitVec.shiftRight_add, add_comm]
    intro i hi
    rw [getLsbD_ushiftRight]
    exact h _ (by omega)

/-- Eight steps : those of the low byte, and the rest shifted. -/
theorem iterate_lfsr_eight (poly c : BitVec 32) :
    (lfsr poly)^[8] c = (lfsr poly)^[8] ((byteAt c 0).setWidth 32) ^^^ (c >>> 8) := by
  have hc : c = (byteAt c 0).setWidth 32 ^^^ (c >>> 8 <<< 8) := eq_of_getLsbD_eq fun i hi => by
    simp only [getLsbD_xor, getLsbD_setWidth, getLsbD_byteAt, getLsbD_shiftLeft,
      getLsbD_ushiftRight]
    grind
  have hshift : (c >>> 8 <<< 8) >>> 8 = c >>> 8 := eq_of_getLsbD_eq fun i hi => by
    simp only [getLsbD_ushiftRight, getLsbD_shiftLeft]
    grind
  conv_lhs => rw [hc]
  rw [iterate_lfsr_xor, iterate_lfsr_high poly 8 (c >>> 8 <<< 8) fun i hi => by simp [hi], hshift]

theorem advance_crcTable (poly c : BitVec 32) : advance (crcTable poly) c = (lfsr poly)^[8] c :=
  (iterate_lfsr_eight poly c).symm

theorem sliced_crcTable (poly : BitVec 32) : Sliced (crcTable poly) where
  additive x y := by
    simp only [crcTable]
    rw [setWidth_xor, iterate_lfsr_xor]
  next r _ x := by
    rw [advance_crcTable, crcTable, crcTable, ← iterate_add_apply]
    congr 1
    omega

theorem doCrc_crcTable (poly c : BitVec 32) (x : BitVec 8) :
    doCrc (crcTable poly) c x = crcByte poly c x := by
  rw [(sliced_crcTable poly).doCrc_eq, advance_crcTable, crcByte, iterate_lfsr_xor]
  rfl

/-- With the table of a polynomial the body is the check. -/
theorem crc32Body_crcTable (poly seed : BitVec 32) (addr : ℕ) (buf : List (BitVec 8)) :
    crc32Body seed addr buf (crcTable poly) = some (crc poly seed buf) := by
  rw [crc32Body_eq_foldl (sliced_crcTable poly), crc]
  congr 2
  funext c x
  exact doCrc_crcTable poly c x

/-! ## The other bit order -/

theorem reverse_xor (a b : BitVec w) : (a ^^^ b).reverse = a.reverse ^^^ b.reverse := by
  refine eq_of_getMsbD_eq fun i _ => ?_
  rw [getMsbD_xor, getMsbD_reverse, getMsbD_reverse, getMsbD_reverse, getLsbD_xor]

theorem reverse_reverse (a : BitVec w) : a.reverse.reverse = a :=
  eq_of_getLsbD_eq fun i _ => by simp

theorem reverse_injective : Injective (BitVec.reverse : BitVec w → BitVec w) :=
  Function.LeftInverse.injective reverse_reverse

theorem reverse_shiftLeft (a : BitVec w) (n : ℕ) : (a <<< n).reverse = a.reverse >>> n := by
  refine eq_of_getMsbD_eq fun i hi => ?_
  rw [getMsbD_reverse, getMsbD_ushiftRight, getMsbD_reverse, getLsbD_shiftLeft, Bool.and_assoc]

/-- A byte at the other end. -/
theorem reverse_byte (b : BitVec 8) :
    (b.setWidth 32 <<< 24).reverse = b.reverse.setWidth 32 := by
  refine eq_of_getMsbD_eq fun i hi => ?_
  rw [getMsbD_reverse, getLsbD_shiftLeft, getMsbD_setWidth, getLsbD_setWidth, getMsbD_reverse]
  by_cases h : i < 24
  · simp [h, show ¬ 24 ≤ i by omega]
  · simp [h, hi, show 24 ≤ i by omega, show i - 24 < 32 by omega, show i + 8 - 32 = i - 24 by omega]

theorem reverse_lfsrBe (poly c : BitVec 32) :
    (lfsrBe poly c).reverse = lfsr poly.reverse c.reverse := by
  rw [lfsrBe, lfsr, reverse_xor, reverse_shiftLeft, getLsbD_reverse, ← msb_eq_getMsbD_zero]
  have hzero : (0 : BitVec 32).reverse = 0 := eq_of_getMsbD_eq fun i _ => by
    rw [getMsbD_reverse]
    simp
  rw [apply_ite BitVec.reverse, hzero]

theorem reverse_iterate_lfsrBe (poly c : BitVec 32) (n : ℕ) :
    ((lfsrBe poly)^[n] c).reverse = (lfsr poly.reverse)^[n] c.reverse := by
  induction n generalizing c with
  | zero => rfl
  | succ n ih => rw [iterate_succ_apply, ih, reverse_lfsrBe, iterate_succ_apply]

theorem reverse_crcByteBe (poly c : BitVec 32) (b : BitVec 8) :
    (crcByteBe poly c b).reverse = crcByte poly.reverse c.reverse b.reverse := by
  rw [crcByteBe, reverse_iterate_lfsrBe, reverse_xor, reverse_byte, crcByte]

/-- The check in the one order is the check in the other, of the reversed bytes. -/
theorem reverse_crcBe (poly : BitVec 32) (buf : List (BitVec 8)) (seed : BitVec 32) :
    (crcBe poly seed buf).reverse = crc poly.reverse seed.reverse (buf.map BitVec.reverse) := by
  induction buf generalizing seed with
  | nil => rfl
  | cons b buf ih =>
    have hcons : crcBe poly seed (b :: buf) = crcBe poly (crcByteBe poly seed b) buf := rfl
    rw [hcons, ih, reverse_crcByteBe]
    rfl

theorem swab32_swab32 (x : BitVec 32) : swab32 (swab32 x) = x := by
  obtain ⟨h0, h1, h2, h3⟩ := byteAt_loadWord (byteAt x 3) (byteAt x 2) (byteAt x 1) (byteAt x 0)
  rw [swab32, swab32, h0, h1, h2, h3]
  refine eq_of_getLsbD_eq fun i hi => ?_
  simp only [getLsbD_loadWord, getLsbD_byteAt]
  grind

theorem swab32_shift (x : BitVec 32) : swab32 (swab32 x >>> 8) = x <<< 8 := by
  refine eq_of_getLsbD_eq fun i hi => ?_
  rw [getLsbD_shiftLeft]
  simp only [swab32, getLsbD_loadWord, getLsbD_byteAt, getLsbD_ushiftRight]
  grind

theorem swab32_xor (x y : BitVec 32) : swab32 (x ^^^ y) = swab32 x ^^^ swab32 y := by
  refine eq_of_getLsbD_eq fun i hi => ?_
  simp only [swab32, byteAt_xor, getLsbD_xor, getLsbD_loadWord]
  grind

theorem byteAt_reverse (c : BitVec 32) : byteAt c.reverse 0 = (byteAt c 3).reverse := by
  refine eq_of_getLsbD_eq fun i hi => ?_
  rw [getLsbD_byteAt, getLsbD_reverse, getLsbD_reverse, getMsbD_eq_getLsbD,
    getMsbD_eq_getLsbD, getLsbD_byteAt]
  grind

theorem iterate_lfsrBe_xor (poly a b : BitVec 32) (n : ℕ) :
    (lfsrBe poly)^[n] (a ^^^ b) = (lfsrBe poly)^[n] a ^^^ (lfsrBe poly)^[n] b := by
  refine reverse_injective ?_
  rw [reverse_xor, reverse_iterate_lfsrBe, reverse_iterate_lfsrBe, reverse_iterate_lfsrBe,
    reverse_xor, iterate_lfsr_xor]

theorem iterate_lfsrBe_eight (poly c : BitVec 32) :
    (lfsrBe poly)^[8] c = (lfsrBe poly)^[8] ((byteAt c 3).setWidth 32 <<< 24) ^^^ (c <<< 8) := by
  refine reverse_injective ?_
  rw [reverse_xor, reverse_iterate_lfsrBe, reverse_iterate_lfsrBe, reverse_byte, reverse_shiftLeft,
    iterate_lfsr_eight, byteAt_reverse]

/-- The table of a polynomial, the most significant bit first, its words in the order of
`crc32_body`. -/
def crcTableBe (poly : BitVec 32) : Table := fun r x =>
  swab32 ((lfsrBe poly)^[8 * (r + 1)] (x.setWidth 32 <<< 24))

theorem advance_crcTableBe (poly c : BitVec 32) :
    advance (crcTableBe poly) (swab32 c) = swab32 ((lfsrBe poly)^[8] c) := by
  have hbyte : byteAt (swab32 c) 0 = byteAt c 3 := (byteAt_loadWord _ _ _ _).1
  have hshift : swab32 c >>> 8 = swab32 (c <<< 8) := by
    rw [← swab32_shift, swab32_swab32]
  rw [advance, hbyte, hshift, iterate_lfsrBe_eight, swab32_xor]
  rfl

theorem sliced_crcTableBe (poly : BitVec 32) : Sliced (crcTableBe poly) where
  additive x y := by
    simp only [crcTableBe]
    rw [setWidth_xor, shiftLeft_xor_distrib, iterate_lfsrBe_xor, swab32_xor]
  next r _ x := by
    have hrow : ∀ r, crcTableBe poly r x =
      swab32 ((lfsrBe poly)^[8 * (r + 1)] (x.setWidth 32 <<< 24)) := fun _ => rfl
    rw [hrow (r + 1), hrow r, advance_crcTableBe, ← iterate_add_apply,
      show 8 * (r + 1 + 1) = 8 + 8 * (r + 1) by omega]

/-- With the table of a polynomial `crc32_be_generic` is the check, the most significant bit
first. -/
theorem crc32BeGeneric_crcTableBe (poly seed : BitVec 32) (addr : ℕ) (buf : List (BitVec 8)) :
    crc32BeGeneric seed addr buf (crcTableBe poly) = some (crcBe poly seed buf) := by
  have hstep : ∀ c x, doCrc (crcTableBe poly) (swab32 c) x = swab32 (crcByteBe poly c x) := by
    intro c x
    rw [(sliced_crcTableBe poly).doCrc_eq, advance_crcTableBe, crcByteBe, iterate_lfsrBe_xor,
      swab32_xor]
    rfl
  rw [crc32BeGeneric, crc32Body_eq_foldl (sliced_crcTableBe poly), foldl_hom swab32 hstep,
    Option.map_some, swab32_swab32, crcBe]

/-! ## The tables of the source -/

theorem sliced_zero : Sliced fun _ _ => 0 where
  additive x y := (BitVec.xor_self).symm
  next r _ x := by simp [advance]

theorem foldl_doCrc_zero (buf : List (BitVec 8)) (crc : BitVec 32) :
    buf.foldl (doCrc fun _ _ => 0) crc = crc >>> (8 * buf.length) := by
  induction buf generalizing crc with
  | nil => simp
  | cons x buf ih =>
    have hstep : doCrc (fun _ _ => 0) crc x = crc >>> 8 := by simp [doCrc]
    rw [foldl_cons, hstep, ih, ← BitVec.shiftRight_add, length_cons]
    congr 1
    omega

/-- `crc32_le` and `__crc32c_le` only shift the seed out. -/
theorem crc32LeGeneric_zero (seed : BitVec 32) (addr : ℕ) (buf : List (BitVec 8)) :
    crc32LeGeneric seed addr buf (fun _ _ => 0) = some (seed >>> (8 * buf.length)) := by
  rw [crc32LeGeneric, crc32Body_eq_foldl sliced_zero, foldl_doCrc_zero]

theorem swab32_shifts (x : BitVec 32) (n : ℕ) : swab32 (swab32 x >>> (8 * n)) = x <<< (8 * n) := by
  induction n with
  | zero => simpa using swab32_swab32 x
  | succ n ih =>
    rw [mul_add, BitVec.shiftRight_add, BitVec.shiftLeft_add, ← ih, ← swab32_shift, swab32_swab32]

/-- `crc32_be` shifts it out at the other end. -/
theorem crc32BeGeneric_zero (seed : BitVec 32) (addr : ℕ) (buf : List (BitVec 8)) :
    crc32BeGeneric seed addr buf (fun _ _ => 0) = some (seed <<< (8 * buf.length)) := by
  rw [crc32BeGeneric, crc32Body_eq_foldl sliced_zero, foldl_doCrc_zero, Option.map_some,
    swab32_shifts]

/-- A function that returns the seed shifted out returns the check exactly for the multiples of the
generator. -/
theorem shift_eq_crc_iff {poly : BitVec 32} (hp : poly.msb = true) (seed : BitVec 32)
    (buf : List (BitVec 8)) :
    some (seed >>> (8 * buf.length)) = some (crc poly seed buf) ↔
      generator poly ∣ message (seeded seed buf) := by
  rw [Option.some_inj, eq_comm]
  exact crc_eq_shift_iff (by decide) hp seed buf

/-- The functions return the checks exactly for the buffers that, with the seed taken into their
first bytes, are multiples of the generator. In `crc32_be` all is read with the most significant bit
first. -/
theorem crc32_computes_iff (seed : BitVec 32) (addr : ℕ) (buf : List (BitVec 8)) :
    (crc32Le seed addr buf = some (crc crc32PolyLe seed buf) ↔
      generator crc32PolyLe ∣ message (seeded seed buf)) ∧
    (crc32cLe seed addr buf = some (crc crc32cPolyLe seed buf) ↔
      generator crc32cPolyLe ∣ message (seeded seed buf)) ∧
    (crc32Be seed addr buf = some (crcBe crc32PolyBe seed buf) ↔
      generator crc32PolyBe.reverse ∣ message (seeded seed.reverse (buf.map BitVec.reverse))) := by
  refine ⟨?_, ?_, ?_⟩
  · have hle : crc32Le seed addr buf = _ := crc32LeGeneric_zero seed addr buf
    rw [hle]
    exact shift_eq_crc_iff (by decide) seed buf
  · have hle : crc32cLe seed addr buf = _ := crc32LeGeneric_zero seed addr buf
    rw [hle]
    exact shift_eq_crc_iff (by decide) seed buf
  · have hbe : crc32Be seed addr buf = _ := crc32BeGeneric_zero seed addr buf
    have hmsb : crc32PolyBe.reverse.msb = true := by
      rw [msb_eq_getMsbD_zero, getMsbD_reverse]
      decide
    rw [hbe, ← shift_eq_crc_iff hmsb, Option.some_inj, Option.some_inj, ← reverse_injective.eq_iff,
      reverse_crcBe, reverse_shiftLeft, length_map]

/-- One byte with the seed `0` : the check is `0x77073096`, and the function returns `0`. -/
theorem crc32Le_one : crc32Le 0 0 [1] = some 0 ∧ crc crc32PolyLe 0 [1] = 0x77073096 := by
  decide +kernel

end Crc32

end LinuxKernelTest
