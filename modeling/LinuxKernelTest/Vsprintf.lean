import Mathlib.Data.Nat.Digits.Lemmas

/-!
# Decimal output

`num_to_str` of `lib/vsprintf.c`, on a machine with 64-bit words. `put_dec` stores the digits of
a number from the last one on : groups of eight digits by `put_dec_full8`, what is left by
`put_dec_trunc8`. Both take two digits at a time, by a multiplication with the reciprocal of
`100`, and look the pair up in the table `decpair`. `num_to_str` turns the digits around and pads
them (`numToStr_spec`).
-/

namespace LinuxKernelTest

open Function List Nat

/-! ## The code -/

/-- The bytes, and where the pointer `buf` points. -/
structure CharPtr where
  mem : ℕ → ℕ
  buf : ℕ

/-- The table of pairs : the last digit in the low byte. It has 100 entries. -/
def decpair (x : ℕ) : Option ℕ :=
  if x < 100 then some ((x % 10 ||| (x / 10) <<< 8) + 0x3030) else none

/-- `*((u16 *)buf) = decpair[x]; buf += k` : the word is stored with the low byte first. -/
def CharPtr.putPair (p : CharPtr) (x : BitVec 32) (k : ℕ) : Option CharPtr :=
  (decpair x.toNat).map fun v =>
    ⟨update (update p.mem p.buf (v % 256)) (p.buf + 1) (v / 256), p.buf + k⟩

/-- `(r * (u64)0x28f5c29) >> 32`. -/
def mulShift32 (r : BitVec 32) : BitVec 32 := ((r.setWidth 64 * 0x28f5c29#64) >>> 32).setWidth 32

/-- `(r * 0x147b) >> 19`. -/
def mulShift19 (r : BitVec 32) : BitVec 32 := (r * 0x147b#32) >>> 19

/-- The label `out_r` : of a single digit the second byte is stored, but not counted. -/
def putDecOut (p : CharPtr) (r : BitVec 32) : Option CharPtr :=
  p.putPair r (if r < 10#32 then 1 else 2)

/-- `put_dec_trunc8`. -/
def putDecTrunc8 (p : CharPtr) (r : BitVec 32) : Option CharPtr :=
  if r < 100#32 then putDecOut p r
  else
    let q := mulShift32 r
    (p.putPair (r - 100#32 * q) 2).bind fun p =>
      if q < 100#32 then putDecOut p q
      else
        let r := mulShift32 q
        (p.putPair (q - 100#32 * r) 2).bind fun p =>
          if r < 100#32 then putDecOut p r
          else
            let q := mulShift19 r
            (p.putPair (r - 100#32 * q) 2).bind fun p => putDecOut p q

/-- `put_dec_full8`. -/
def putDecFull8 (p : CharPtr) (r : BitVec 32) : Option CharPtr :=
  let q := mulShift32 r
  (p.putPair (r - 100#32 * q) 2).bind fun p =>
    let r := mulShift32 q
    (p.putPair (q - 100#32 * r) 2).bind fun p =>
      let q := mulShift19 r
      (p.putPair (r - 100#32 * q) 2).bind fun p => p.putPair q 2

/-- The statement that `put_dec` has twice : eight digits of a large number. -/
def putDecGroup (p : CharPtr) (n : BitVec 64) : Option (CharPtr × BitVec 64) :=
  if n ≥ 100000000#64 then
    (putDecFull8 p ((n % 100000000#64).setWidth 32)).map fun p => (p, n / 100000000#64)
  else some (p, n)

/-- `put_dec`. -/
def putDec (p : CharPtr) (n : BitVec 64) : Option CharPtr :=
  (putDecGroup p n).bind fun s =>
    (putDecGroup s.1 s.2).bind fun s => putDecTrunc8 s.1 (s.2.setWidth 32)

/-- `for (idx = 0; idx < n; idx++) buf[idx + off] = f(idx)`. -/
def storeLoop (buf : ℕ → ℕ) (off : ℕ) (f : ℕ → ℕ) (n : ℕ) : ℕ → ℕ :=
  (List.range n).foldl (fun buf idx => update buf (idx + off) (f idx)) buf

/-- `num_to_str` : the bytes at `buf` and the length. `size` is signed, `width` is not, and the
second comparison is unsigned. `tmp` is what the array on the stack holds. -/
def numToStr (tmp buf : ℕ → ℕ) (size : BitVec 32) (num : BitVec 64) (width : BitVec 32) :
    Option ((ℕ → ℕ) × ℕ) :=
  (if num ≤ 9#64 then some ⟨update tmp 0 (48 + num.toNat), 1⟩ else putDec ⟨tmp, 0⟩ num).map
    fun p : CharPtr =>
      let len := p.buf
      if (len : ℤ) > size.toInt ∨ width > size then (buf, 0)
      else
        let pad := if width.toNat > len then width.toNat - len else 0
        let buf := storeLoop buf 0 (fun _ => 32) pad
        (storeLoop buf pad (fun idx => p.mem (len - idx - 1)) len, len + pad)

/-! ## Digits -/

/-- The pointer moved over the digits `ds`, and what was behind it stayed. -/
structure Wrote (p p' : CharPtr) (ds : List ℕ) : Prop where
  buf : p'.buf = p.buf + ds.length
  below : ∀ i < p.buf, p'.mem i = p.mem i
  digit : ∀ i d, ds[i]? = some d → p'.mem (p.buf + i) = 48 + d

/-- Of the digits of `n` those of `m` are left. -/
def Leaves (p p' : CharPtr) (n m : ℕ) : Prop :=
  ∃ ds, digits 10 n = ds ++ digits 10 m ∧ Wrote p p' ds

variable {p p' : CharPtr} {x r : BitVec 32} {n m : ℕ} {ds : List ℕ} {k : ℕ}

theorem Leaves.trans {p'' : CharPtr} (h : Leaves p p' n m) (h' : Leaves p' p'' m k) :
    Leaves p p'' n k := by
  obtain ⟨ds, hds, hbuf, hbelow, hdigit⟩ := h
  obtain ⟨es, hes, hbuf', hbelow', hdigit'⟩ := h'
  refine ⟨ds ++ es, by rw [hds, hes, append_assoc],
    by rw [hbuf', hbuf, length_append, add_assoc], fun i hi => ?_, fun i d hd => ?_⟩
  · rw [hbelow' i (by omega), hbelow i hi]
  · by_cases hi : i < ds.length
    · rw [getElem?_append_left hi] at hd
      rw [hbelow' _ (by omega), hdigit i d hd]
    · rw [getElem?_append_right (by omega)] at hd
      have := hdigit' _ d hd
      rwa [hbuf, show p.buf + ds.length + (i - ds.length) = p.buf + i by omega] at this

theorem decpair_bytes : ∀ x < 100, ∃ v, decpair x = some v ∧ v % 256 = 48 + x % 10 ∧
    v / 256 = 48 + x / 10 := by
  intro x hx
  refine ⟨_, if_pos hx, ?_⟩
  revert x
  decide

theorem putPair_spec (hx : x.toNat < 100) (hk : k ≤ 2) :
    ∃ p', p.putPair x k = some p' ∧ Wrote p p' ([x.toNat % 10, x.toNat / 10].take k) := by
  obtain ⟨v, hv, hlow, hhigh⟩ := decpair_bytes _ hx
  refine ⟨_, by rw [CharPtr.putPair, hv]; rfl, by simp [hk], fun i hi => ?_, fun i d hd => ?_⟩
  · simp [update_of_ne (show i ≠ p.buf + 1 by omega), update_of_ne (show i ≠ p.buf by omega)]
  · rw [getElem?_take] at hd
    rcases i with _ | _ | i <;> simp at hd
    · simp [hlow, hd.2]
    · simp [hhigh, hd.2]

theorem putPair_leaves (hx : x.toNat = n % 100) (hn : 10 ≤ n) :
    ∃ p', p.putPair x 2 = some p' ∧ Leaves p p' n (n / 100) := by
  obtain ⟨p', hput, h'⟩ := putPair_spec (p := p) (x := x) (by omega) le_rfl
  refine ⟨p', hput, _, ?_, h'⟩
  rw [digits_def' (by norm_num) (by omega), digits_def' (by norm_num) (by omega),
    Nat.div_div_eq_div_mul, show n % 10 = x.toNat % 10 by omega,
    show n / 10 % 10 = x.toNat / 10 by omega]
  rfl

/-- A pair, and then the rest. -/
theorem putPair_bind {f : CharPtr → Option CharPtr} (hx : x.toNat = n % 100) (hn : 10 ≤ n)
    (hf : ∀ p, ∃ p', f p = some p' ∧ Leaves p p' (n / 100) m) :
    ∃ p', (p.putPair x 2).bind f = some p' ∧ Leaves p p' n m := by
  obtain ⟨p1, hput, h1⟩ := putPair_leaves (p := p) hx hn
  obtain ⟨p', hrest, h'⟩ := hf p1
  exact ⟨p', by rw [hput, Option.bind_some, hrest], h1.trans h'⟩

/-- `m` is a little more than `k / 100`. -/
theorem mul_div_eq {a m k e : ℕ} (hm : 100 * m = k + e) (ha : e * (a / 100) + m * (a % 100) < k) :
    a * m / k = a / 100 := by
  have hsplit : a * m = k * (a / 100) + (e * (a / 100) + m * (a % 100)) := by
    conv_lhs => rw [← div_add_mod a 100]
    rw [← add_assoc, ← add_mul, ← hm]
    ring
  rw [hsplit, mul_add_div (by omega), div_eq_of_lt ha, add_zero]

/-- The reciprocal is exact for eight digits. -/
theorem toNat_mulShift32 (hr : r.toNat < 10 ^ 8) : (mulShift32 r).toNat = r.toNat / 100 := by
  have hdiv : r.toNat * 42949673 / 2 ^ 32 = r.toNat / 100 :=
    mul_div_eq (e := 4) (by norm_num) (by omega)
  have hwide : r.toNat * 42949673 < 2 ^ 64 := by omega
  rw [mulShift32, BitVec.toNat_setWidth, BitVec.toNat_ushiftRight, BitVec.toNat_mul,
    BitVec.toNat_ofNat, BitVec.toNat_setWidth, shiftRight_eq_div_pow,
    mod_eq_of_lt (show 42949673 < 2 ^ 64 by norm_num),
    mod_eq_of_lt (show r.toNat < 2 ^ 64 by omega), mod_eq_of_lt hwide, hdiv]
  exact mod_eq_of_lt (by omega)

/-- The short one is exact for four. -/
theorem toNat_mulShift19 (hr : r.toNat < 10 ^ 4) : (mulShift19 r).toNat = r.toNat / 100 := by
  have hwide : r.toNat * 5243 < 2 ^ 32 := by omega
  rw [mulShift19, BitVec.toNat_ushiftRight, BitVec.toNat_mul, BitVec.toNat_ofNat,
    shiftRight_eq_div_pow, mod_eq_of_lt (show 5243 < 2 ^ 32 by norm_num), mod_eq_of_lt hwide]
  exact mul_div_eq (e := 12) (by norm_num) (by omega)

theorem toNat_sub_hundred {q : BitVec 32} (hq : q.toNat = r.toNat / 100) :
    (r - 100#32 * q).toNat = r.toNat % 100 := by
  rw [BitVec.toNat_sub, BitVec.toNat_mul, hq, BitVec.toNat_ofNat]
  omega

theorem putDecFull8_spec (hr : r.toNat = n % 10 ^ 8) (hn : 10 ^ 8 ≤ n) :
    ∃ p', putDecFull8 p r = some p' ∧ Leaves p p' n (n / 10 ^ 8) := by
  have hq := toNat_mulShift32 (r := r) (by omega)
  have hr1 := toNat_mulShift32 (r := mulShift32 r) (by omega)
  have hq1 := toNat_mulShift19 (r := mulShift32 (mulShift32 r)) (by omega)
  have hx := toNat_sub_hundred hq
  have hx1 := toNat_sub_hundred hr1
  have hx2 := toNat_sub_hundred hq1
  rw [show n / 10 ^ 8 = n / 100 / 100 / 100 / 100 by omega]
  exact putPair_bind (by omega) (by omega) fun p => putPair_bind (by omega) (by omega) fun p =>
    putPair_bind (by omega) (by omega) fun p => putPair_leaves (by omega) (by omega)

theorem putDecOut_spec (hpos : 0 < r.toNat) (hr : r.toNat < 100) :
    ∃ p', putDecOut p r = some p' ∧ Leaves p p' r.toNat 0 := by
  rw [putDecOut]
  by_cases hten : r.toNat < 10
  · rw [if_pos (show r < 10#32 from hten)]
    obtain ⟨p', hput, h'⟩ := putPair_spec (p := p) hr one_le_two
    refine ⟨p', hput, _, ?_, h'⟩
    rw [digits_of_lt 10 _ hpos.ne' hten, mod_eq_of_lt hten]
    rfl
  · rw [if_neg (show ¬r < 10#32 from hten), ← div_eq_of_lt hr]
    exact putPair_leaves (mod_eq_of_lt hr).symm (by omega)

/-- The digits of a number that is not `0`. -/
theorem putDecTrunc8_spec (hpos : 0 < r.toNat) (hr : r.toNat < 10 ^ 8) :
    ∃ p', putDecTrunc8 p r = some p' ∧ Leaves p p' r.toNat 0 := by
  have hlt : ∀ {x : BitVec 32}, x < 100#32 ↔ x.toNat < 100 := Iff.rfl
  have hq := toNat_mulShift32 hr
  rw [putDecTrunc8]
  split_ifs with h0
  · exact putDecOut_spec hpos h0
  rw [hlt] at h0
  refine putPair_bind (toNat_sub_hundred hq) (by omega) fun p => ?_
  rw [← hq]
  split_ifs with h1
  · exact putDecOut_spec (by omega) h1
  have hr1 := toNat_mulShift32 (r := mulShift32 r) (by omega)
  rw [hlt] at h1
  refine putPair_bind (toNat_sub_hundred hr1) (by omega) fun p => ?_
  rw [← hr1]
  split_ifs with h2
  · exact putDecOut_spec (by omega) h2
  have hq1 := toNat_mulShift19 (r := mulShift32 (mulShift32 r)) (by omega)
  rw [hlt] at h2
  refine putPair_bind (toNat_sub_hundred hq1) (by omega) fun p => ?_
  rw [← hq1]
  exact putDecOut_spec (by omega) (by omega)

theorem putDecGroup_spec (p : CharPtr) (n : BitVec 64) :
    ∃ s, putDecGroup p n = some s ∧ Leaves p s.1 n.toNat s.2.toNat ∧
      s.2.toNat = if n.toNat < 10 ^ 8 then n.toNat else n.toNat / 10 ^ 8 := by
  rw [putDecGroup]
  by_cases hn : n.toNat < 10 ^ 8
  · rw [if_neg (show ¬n ≥ 100000000#64 from not_le.mpr hn), if_pos hn]
    exact ⟨_, rfl, ⟨[], rfl, rfl, fun _ _ => rfl, fun _ _ hd => by simp at hd⟩, rfl⟩
  obtain ⟨p', hfull, h'⟩ := putDecFull8_spec (p := p) (n := n.toNat)
    (r := (n % 100000000#64).setWidth 32) (by simp; omega) (not_lt.mp hn)
  rw [if_pos (show n ≥ 100000000#64 from not_lt.mp hn), hfull, if_neg hn]
  exact ⟨_, rfl, h', rfl⟩

theorem putDec_spec (p : CharPtr) {n : BitVec 64} (hn : 0 < n.toNat) :
    ∃ p', putDec p n = some p' ∧ Leaves p p' n.toNat 0 := by
  obtain ⟨s, hs, hleaves, hval⟩ := putDecGroup_spec p n
  obtain ⟨s', hs', hleaves', hval'⟩ := putDecGroup_spec s.1 s.2
  have hlt := n.isLt
  have hlast : 0 < s'.2.toNat ∧ s'.2.toNat < 10 ^ 8 := by split_ifs at hval hval' <;> omega
  have hword : (s'.2.setWidth 32).toNat = s'.2.toNat := by
    rw [BitVec.toNat_setWidth]
    omega
  obtain ⟨p', hrun, h'⟩ := putDecTrunc8_spec (p := s'.1) (r := s'.2.setWidth 32) (by omega)
    (by omega)
  rw [hword] at h'
  exact ⟨p', by rw [putDec, hs, Option.bind_some, hs', Option.bind_some, hrun],
    hleaves.trans (hleaves'.trans h')⟩

/-! ## The text -/

theorem storeLoop_apply (buf : ℕ → ℕ) (off : ℕ) (f : ℕ → ℕ) (n j : ℕ) :
    storeLoop buf off f n j = if off ≤ j ∧ j < off + n then f (j - off) else buf j := by
  induction n with
  | zero => simp [storeLoop]
  | succ n ih =>
    rw [storeLoop, range_succ, foldl_append]
    change update (storeLoop buf off f n) (n + off) (f n) j = _
    by_cases hj : j = n + off
    · rw [hj, update_self, if_pos (by omega), Nat.add_sub_cancel]
    rw [update_of_ne hj, ih]
    congr 1
    simp only [eq_iff_iff]
    omega

/-- The decimal digits, from the last one on. -/
def decimalDigits (num : ℕ) : List ℕ := if num = 0 then [0] else digits 10 num

/-- The digits without leading zeros, after enough spaces for the width. -/
def decimalText (num width : ℕ) : List ℕ :=
  replicate (width - (decimalDigits num).length) 32 ++
    ((decimalDigits num).map (48 + ·)).reverse

/-- What `tmp` holds. -/
theorem numToStr_digits (tmp : ℕ → ℕ) (num : BitVec 64) :
    ∃ p', (if num ≤ 9#64 then some ⟨update tmp 0 (48 + num.toNat), 1⟩
      else putDec ⟨tmp, 0⟩ num) = some p' ∧ Wrote ⟨tmp, 0⟩ p' (decimalDigits num.toNat) := by
  by_cases hnine : num.toNat ≤ 9
  case neg =>
    obtain ⟨p', hrun, ds, hds, h'⟩ := putDec_spec ⟨tmp, 0⟩ (n := num) (by omega)
    rw [digits_zero, append_nil] at hds
    rw [if_neg (show ¬num ≤ 9#64 from hnine), decimalDigits, if_neg (by omega), hds]
    exact ⟨p', hrun, h'⟩
  have hdigits : decimalDigits num.toNat = [num.toNat] := by
    rw [decimalDigits]
    split_ifs with hzero
    · rw [hzero]
    · exact digits_of_lt 10 _ hzero (by omega)
  rw [if_pos (show num ≤ 9#64 from hnine), hdigits]
  refine ⟨_, rfl, rfl, fun i hi => absurd hi (not_lt_zero i), fun i d hd => ?_⟩
  obtain ⟨rfl, rfl⟩ : i = 0 ∧ num.toNat = d := by
    rcases i with _ | i <;> simp at hd
    exact ⟨rfl, hd⟩
  simp

/-- `num_to_str` writes the text of the number and returns its length, or leaves the buffer and
returns `0` if the text does not fit. -/
theorem numToStr_spec (tmp buf : ℕ → ℕ) (size : BitVec 32) (num : BitVec 64) (width : BitVec 32) :
    numToStr tmp buf size num width = some
      (if ((decimalText num.toNat width.toNat).length : ℤ) ≤ size.toInt then
        (fun i => (decimalText num.toNat width.toNat)[i]?.getD (buf i),
          (decimalText num.toNat width.toNat).length)
      else (buf, 0)) := by
  set text := decimalText num.toNat width.toNat
  obtain ⟨p, hrun, hp⟩ := numToStr_digits tmp num
  have hbuf := hp.buf.trans (zero_add _)
  have hlen : text.length = width.toNat - p.buf + p.buf := by simp [text, decimalText, hbuf]
  have hfit : ((p.buf : ℤ) > size.toInt ∨ width > size) ↔ ¬(text.length : ℤ) ≤ size.toInt := by
    have hsize := BitVec.toInt_eq_toNat_cond size
    have hwidth : width > size ↔ size.toNat < width.toNat := Iff.rfl
    rw [hwidth, hlen]
    split_ifs at hsize <;> omega
  have hpad : (if width.toNat > p.buf then width.toNat - p.buf else 0) = width.toNat - p.buf := by
    split_ifs <;> omega
  rw [numToStr, hrun, Option.map_some]
  simp only [hfit, hpad, ite_not]
  refine congrArg some (if_congr Iff.rfl (Prod.ext (funext fun i => ?_) (by omega)) rfl)
  simp only [storeLoop_apply, text, decimalText, ← hbuf]
  split_ifs with hdigit hspace
  · have hlt : p.buf - 1 - (i - (width.toNat - p.buf)) < (decimalDigits num.toNat).length := by
      omega
    rw [getElem?_append_right (by rw [length_replicate]; omega), length_replicate,
      getElem?_reverse (by rw [length_map]; omega), length_map, ← hbuf,
      Nat.sub_right_comm, getElem?_map, getElem?_eq_getElem hlt]
    simpa using hp.digit _ _ (getElem?_eq_getElem hlt)
  · rw [getElem?_append_left (by rw [length_replicate]; omega),
      getElem?_replicate_of_lt (by omega), Option.getD_some]
  · rw [getElem?_eq_none (by simp; omega), Option.getD_none]

end LinuxKernelTest
