import Mathlib.Data.List.TakeWhile
import Mathlib.Tactic

/-!
# Numbers from strings

`kstrtoull` of `lib/kstrtox.c`. A string is the list of its bytes before the terminating NUL, and a
read behind its end gives NUL. The parser accumulates in 64 bits and tests for an overflow only from
`2 ^ 60` on, where a digit of base 16 may be one too many; it remembers one in the top bit of the
count of characters.

The grammar is stated apart from the parser : `isDigit` and `numeralValue` for a run of digits, by
`Nat.ofDigits`, and `Numeral` for what may follow it.
-/

namespace LinuxKernelTest

open BitVec List

namespace Kstrtox

/-! ## The parser -/

/-- A character constant. -/
def chr (c : Char) : BitVec 8 := BitVec.ofNat 8 c.toNat

variable (s : List (BitVec 8))

/-- `s[i]`. -/
def charAt (i : ℕ) : BitVec 8 := s.getD i 0

/-- `_tolower`. -/
def tolower (c : BitVec 8) : BitVec 8 := c ||| 0x20

/-- `isxdigit` : the characters with `_D` or `_X` in `_ctype`. -/
def isxdigit (c : BitVec 8) : Bool :=
  (chr '0' ≤ c ∧ c ≤ chr '9') ∨ (chr 'A' ≤ c ∧ c ≤ chr 'F') ∨ (chr 'a' ≤ c ∧ c ≤ chr 'f')

/-- `KSTRTOX_OVERFLOW`. -/
def kstrtoxOverflow : BitVec 32 := 1 <<< 31

/-- `-EINVAL`. -/
def einval : ℤ := -22

/-- `-ERANGE`. -/
def erange : ℤ := -34

/-- `_parse_integer_fixup_radix`. -/
def parseIntegerFixupRadix (base : BitVec 32) : List (BitVec 8) × BitVec 32 :=
  let base := if base = 0 then
      if charAt s 0 = chr '0' then
        if tolower (charAt s 1) = chr 'x' ∧ isxdigit (charAt s 2) then 16 else 8
      else 10
    else base
  (if base = 16 ∧ charAt s 0 = chr '0' ∧ tolower (charAt s 1) = chr 'x' then s.drop 2 else s, base)

/-- The value of a character in the loop of `_parse_integer`, where `char` is signed. -/
def charValue (s : BitVec 8) : Option (BitVec 32) :=
  let c := s.signExtend 32
  let lc := c ||| 0x20
  if (chr '0').setWidth 32 ≤ c ∧ c ≤ (chr '9').setWidth 32 then some (c - (chr '0').setWidth 32)
  else if (chr 'a').setWidth 32 ≤ lc ∧ lc ≤ (chr 'f').setWidth 32 then
    some (lc - (chr 'a').setWidth 32 + 10)
  else none

/-- The test for an overflow before the digit `val`. -/
def overflows (base : BitVec 32) (res : BitVec 64) (val : BitVec 32) : Bool :=
  res &&& (BitVec.allOnes 64 <<< 60) ≠ 0 ∧
    (BitVec.allOnes 64 - val.setWidth 64) / base.setWidth 64 < res

/-- The loop of `_parse_integer`. The NUL at the end is no digit. -/
def parseIntegerLoop (base : BitVec 32) :
    List (BitVec 8) → BitVec 64 → BitVec 32 → BitVec 64 × BitVec 32
  | [], res, rv => (res, rv)
  | c :: s, res, rv =>
    match charValue c with
    | none => (res, rv)
    | some val =>
      if base ≤ val then (res, rv)
      else
        let rv := if overflows base res val then rv ||| kstrtoxOverflow else rv
        parseIntegerLoop base s (res * base.setWidth 64 + val.setWidth 64) (rv + 1)

/-- `_parse_integer`. -/
def parseInteger (base : BitVec 32) : BitVec 64 × BitVec 32 :=
  parseIntegerLoop base s 0 0

/-- `_kstrtoull`, with the result and what `*res` is afterwards. -/
def kstrtoullRaw (base : BitVec 32) (res : BitVec 64) : ℤ × BitVec 64 :=
  let (s, base) := parseIntegerFixupRadix s base
  let (newRes, rv) := parseInteger s base
  if rv &&& kstrtoxOverflow ≠ 0 then (erange, res)
  else if rv = 0 then (einval, res)
  else
    let s := s.drop rv.toNat
    let s := if charAt s 0 = chr '\n' then s.drop 1 else s
    if charAt s 0 ≠ 0 then (einval, res) else (0, newRes)

/-- `if (s[0] == '+') s++`. -/
def skipPlus : List (BitVec 8) := if charAt s 0 = chr '+' then s.drop 1 else s

/-- `kstrtoull`. -/
def kstrtoull (base : BitVec 32) (res : BitVec 64) : ℤ × BitVec 64 :=
  kstrtoullRaw (skipPlus s) base res

/-! ## The grammar -/

/-- The value of a digit of base 16 or less. -/
def digitValue (c : BitVec 8) : Option ℕ :=
  if chr '0' ≤ c ∧ c ≤ chr '9' then some (c.toNat - (chr '0').toNat)
  else if chr 'A' ≤ c ∧ c ≤ chr 'F' then some (c.toNat - (chr 'A').toNat + 10)
  else if chr 'a' ≤ c ∧ c ≤ chr 'f' then some (c.toNat - (chr 'a').toNat + 10)
  else none

/-- `c` is a digit in `base`. -/
def isDigit (base : ℕ) (c : BitVec 8) : Bool := (digitValue c).any (· < base)

/-- The number that a run of digits denotes. -/
def numeralValue (base : ℕ) (ds : List (BitVec 8)) : ℕ :=
  Nat.ofDigits base (ds.map fun c => (digitValue c).getD 0).reverse

/-- At least one digit, at most one newline, and the end. -/
def Numeral (base : ℕ) (s : List (BitVec 8)) (n : ℕ) : Prop :=
  ∃ ds tail, s = ds ++ tail ∧ ds ≠ [] ∧ (∀ c ∈ ds, isDigit base c = true) ∧
    (tail = [] ∨ tail = [chr '\n']) ∧ n = numeralValue base ds

/-! ## The loop -/

variable {base : BitVec 32} {res : BitVec 64} {rv val : BitVec 32} {c : BitVec 8}
  {s ds : List (BitVec 8)}

/-- The parser knows the digits. -/
theorem charValue_eq (c : BitVec 8) : (charValue c).map BitVec.toNat = digitValue c := by
  revert c
  decide +kernel

theorem numeralValue_eq_foldl (base : ℕ) (ds : List (BitVec 8)) :
    numeralValue base ds = ds.foldl (fun n c => n * base + (digitValue c).getD 0) 0 := by
  rw [numeralValue, Nat.ofDigits_eq_foldr, ← foldl_reverse, reverse_reverse, foldl_map]
  congr 1
  funext n c
  rw [Nat.cast_id]
  ring

theorem getLsbD_and_high (res : BitVec 64) (i : ℕ) :
    (res &&& (BitVec.allOnes 64 <<< 60)).getLsbD i = (decide (60 ≤ i) && res.getLsbD i) := by
  rw [getLsbD_and, getLsbD_shiftLeft, getLsbD_allOnes]
  by_cases hi : i < 64
  · rw [decide_eq_true hi, decide_eq_true (show i - 60 < 64 by omega), Bool.true_and, Bool.and_true,
      Bool.and_comm, ← decide_not, decide_eq_decide.mpr not_lt]
  · rw [getLsbD_of_ge res i (by omega), Bool.false_and, Bool.and_false]

/-- The four highest bits are not all zero. -/
theorem and_high_ne_zero_iff (res : BitVec 64) :
    res &&& (BitVec.allOnes 64 <<< 60) ≠ 0 ↔ 2 ^ 60 ≤ res.toNat := by
  rw [← not_lt, not_iff_not]
  constructor
  · intro hzero
    refine Nat.lt_pow_two_of_testBit _ fun i hi => ?_
    have hbit := getLsbD_and_high res i
    rw [hzero] at hbit
    rw [decide_eq_true hi, Bool.true_and] at hbit
    exact hbit.symm.trans getLsbD_zero
  · intro hlt
    refine eq_of_getLsbD_eq fun i _ => ?_
    change _ = (0#64).getLsbD i
    rw [getLsbD_and_high, getLsbD_zero]
    by_cases hi : 60 ≤ i
    · have hbit : res.getLsbD i = false :=
        Nat.testBit_lt_two_pow (hlt.trans_le (Nat.pow_le_pow_right (by decide) hi))
      rw [hbit, Bool.and_false]
    · simp [hi]

variable {b : ℕ} {n count : ℕ} {t : List (BitVec 8)}

/-- The test is exact. -/
theorem overflows_iff (hb : base.toNat = b) (h2 : 2 ≤ b) (h16 : b ≤ 16) (hval : val.toNat < b) :
    overflows base res val = true ↔ 2 ^ 64 ≤ res.toNat * b + val.toNat := by
  have hbase : (base.setWidth 64).toNat = b := by
    rw [toNat_setWidth, hb, Nat.mod_eq_of_lt (by omega)]
  have hv : (val.setWidth 64).toNat = val.toNat := by
    rw [toNat_setWidth, Nat.mod_eq_of_lt (by omega)]
  have hquot : ((BitVec.allOnes 64 - val.setWidth 64) / base.setWidth 64).toNat =
      (2 ^ 64 - 1 - val.toNat) / b := by
    have hsub : (BitVec.allOnes 64 - val.setWidth 64).toNat = 2 ^ 64 - 1 - val.toNat := by
      rw [toNat_sub_of_le, toNat_allOnes, hv]
      rw [le_def, toNat_allOnes, hv]
      omega
    rw [toNat_udiv, hsub, hbase]
  have hdiv : (2 ^ 64 - 1 - val.toNat) / b < res.toNat ↔ 2 ^ 64 ≤ res.toNat * b + val.toNat := by
    rw [Nat.div_lt_iff_lt_mul (by omega)]
    omega
  rw [overflows, decide_eq_true_eq, and_high_ne_zero_iff, lt_def, hquot, hdiv]
  refine and_iff_right_of_imp fun hover => ?_
  -- Below `2 ^ 60` no digit can be too many.
  by_contra hsmall
  have hmul : res.toNat * b ≤ (2 ^ 60 - 1) * 16 := Nat.mul_le_mul (by omega) h16
  omega

theorem toNat_or_overflow (rv : BitVec 32) :
    (rv ||| kstrtoxOverflow).toNat = 2 ^ 31 + rv.toNat % 2 ^ 31 := by
  have hov : kstrtoxOverflow.toNat = 2 ^ 31 := by decide
  have hmod : rv.toNat % 2 ^ 31 < 2 ^ 31 := by omega
  have hor : 2 ^ 31 + rv.toNat % 2 ^ 31 = 2 ^ 31 ||| rv.toNat % 2 ^ 31 := by
    simpa using Nat.two_pow_add_eq_or_of_lt hmod 1
  rw [toNat_or, hov]
  rcases lt_or_ge rv.toNat (2 ^ 31) with hlt | hge
  · rw [Nat.mod_eq_of_lt hlt] at hor ⊢
    rw [hor, Nat.or_comm]
  have heq : rv.toNat = 2 ^ 31 + rv.toNat % 2 ^ 31 := by
    have := rv.isLt
    omega
  calc rv.toNat ||| 2 ^ 31 = (2 ^ 31 ||| rv.toNat % 2 ^ 31) ||| 2 ^ 31 := by rw [← hor, ← heq]
    _ = 2 ^ 31 + rv.toNat % 2 ^ 31 := by
      rw [Nat.or_comm, ← Nat.or_assoc, Nat.or_self, hor]

/-- The state of the loop after digits with the value `n` : the result is `n`, or the top bit of the
count is set. -/
def Parsed (n count : ℕ) (res : BitVec 64) (rv : BitVec 32) : Prop :=
  if n < 2 ^ 64 then res.toNat = n ∧ rv.toNat = count else rv.toNat = 2 ^ 31 + count

theorem Parsed.step (h : Parsed n count res rv) (hcount : count + 1 < 2 ^ 31)
    (hb : base.toNat = b) (h2 : 2 ≤ b) (h16 : b ≤ 16) (hval : val.toNat < b) :
    Parsed (n * b + val.toNat) (count + 1) (res * base.setWidth 64 + val.setWidth 64)
      ((if overflows base res val then rv ||| kstrtoxOverflow else rv) + 1) := by
  have hone : (1 : BitVec 32).toNat = 1 := by decide
  have hover := toNat_or_overflow rv
  rw [Parsed] at h
  split_ifs at h with hn
  · obtain ⟨rfl, hrv⟩ := h
    have htest : overflows base res val = true ↔ _ := overflows_iff hb h2 h16 hval
    by_cases hlt : res.toNat * b + val.toNat < 2 ^ 64
    · rw [if_neg (by rw [htest]; omega), Parsed, if_pos hlt, toNat_add, toNat_mul,
        toNat_setWidth, toNat_setWidth, hb, toNat_add, hone, hrv,
        Nat.mod_eq_of_lt (show b < 2 ^ 64 by omega),
        Nat.mod_eq_of_lt (show val.toNat < 2 ^ 64 by omega),
        Nat.mod_eq_of_lt (show res.toNat * b < 2 ^ 64 by omega), Nat.mod_eq_of_lt hlt]
      omega
    · rw [if_pos (htest.mpr (by omega)), Parsed, if_neg hlt, toNat_add, hone, hover, hrv]
      omega
  · -- Once the value is out of range it stays out of range.
    have hmul : n ≤ n * b := Nat.le_mul_of_pos_right n (by omega)
    rw [Parsed, if_neg (by omega)]
    split_ifs
    · rw [toNat_add, hone, hover, h]
      omega
    · rw [toNat_add, hone, h]
      omega

/-- The loop reads the digits and stops behind them. -/
theorem Parsed.loop (hb : base.toNat = b) (h2 : 2 ≤ b) (h16 : b ≤ 16) :
    ∀ {s : List (BitVec 8)} {n count : ℕ} {res : BitVec 64} {rv : BitVec 32},
      Parsed n count res rv → count + s.length < 2 ^ 31 →
      Parsed ((s.takeWhile (isDigit b)).foldl (fun n c => n * b + (digitValue c).getD 0) n)
        (count + (s.takeWhile (isDigit b)).length) (parseIntegerLoop base s res rv).1
        (parseIntegerLoop base s res rv).2
  | [], _, _, _, _, h, _ => h
  | c :: s, n, count, res, rv, h, hlen => by
    have hc := charValue_eq c
    rw [parseIntegerLoop]
    cases hval : charValue c with
    | none =>
      have hno : isDigit b c = false := by
        rw [isDigit, ← hc, hval]
        rfl
      rw [takeWhile_cons_of_neg (by rw [hno]; decide)]
      exact h
    | some val =>
      have hdigit : digitValue c = some val.toNat := by rw [← hc, hval, Option.map_some]
      dsimp only
      by_cases hbig : base ≤ val
      · have hno : isDigit b c = false := by
          rw [le_def, hb] at hbig
          simpa [isDigit, hdigit] using hbig
        rw [if_pos hbig, takeWhile_cons_of_neg (by rw [hno]; decide)]
        exact h
      have hlt : val.toNat < b := by
        rw [le_def, hb] at hbig
        omega
      have hyes : isDigit b c = true := by simpa [isDigit, hdigit] using hlt
      rw [length_cons] at hlen
      rw [if_neg hbig, takeWhile_cons_of_pos hyes, foldl_cons, length_cons, hdigit,
        Option.getD_some, ← Nat.add_assoc, Nat.add_right_comm]
      exact Parsed.loop hb h2 h16 (h.step (by omega) hb h2 h16 hlt) (by omega)

theorem parsed_parseInteger (hb : base.toNat = b) (h2 : 2 ≤ b) (h16 : b ≤ 16)
    (hlen : s.length < 2 ^ 31) :
    Parsed (numeralValue b (s.takeWhile (isDigit b))) (s.takeWhile (isDigit b)).length
      (parseInteger s base).1 (parseInteger s base).2 := by
  have hstart : Parsed 0 0 (0 : BitVec 64) (0 : BitVec 32) := ⟨rfl, rfl⟩
  have h := hstart.loop hb h2 h16 (s := s) (by omega)
  rwa [Nat.zero_add, ← numeralValue_eq_foldl] at h

/-! ## What may follow -/

/-- A character that ends the run of digits. -/
theorem takeWhile_of_numeral {n : ℕ} (h : Numeral b s n) :
    s.takeWhile (isDigit b) ≠ [] ∧ n = numeralValue b (s.takeWhile (isDigit b)) ∧
      (s.dropWhile (isDigit b) = [] ∨ s.dropWhile (isDigit b) = [chr '\n']) := by
  obtain ⟨ds, tail, rfl, hne, hdigits, htail, rfl⟩ := h
  have hnl : isDigit b (chr '\n') = false := by
    rw [isDigit, show digitValue (chr '\n') = none by decide]
    rfl
  have htake : tail.takeWhile (isDigit b) = [] ∧ tail.dropWhile (isDigit b) = tail := by
    rcases htail with rfl | rfl
    · exact ⟨rfl, rfl⟩
    · simp [hnl]
  rw [takeWhile_append_of_pos hdigits, dropWhile_append_of_pos hdigits, htake.1, htake.2,
    append_nil]
  exact ⟨hne, rfl, htail⟩

theorem numeral_iff {n : ℕ} : Numeral b s n ↔ s.takeWhile (isDigit b) ≠ [] ∧
    n = numeralValue b (s.takeWhile (isDigit b)) ∧
      (s.dropWhile (isDigit b) = [] ∨ s.dropWhile (isDigit b) = [chr '\n']) := by
  refine ⟨takeWhile_of_numeral, fun ⟨hne, hn, htail⟩ => ⟨_, _, ?_, hne, ?_, htail, hn⟩⟩
  · exact takeWhile_append_dropWhile.symm
  · exact fun c hc => mem_takeWhile_imp hc

/-- The test after the digits : an optional newline, and the end. -/
theorem charAt_tail_iff (hnul : 0 ∉ t) :
    charAt (if charAt t 0 = chr '\n' then t.drop 1 else t) 0 = 0 ↔ t = [] ∨ t = [chr '\n'] := by
  have hnil : ∀ t : List (BitVec 8), 0 ∉ t → (charAt t 0 = 0 ↔ t = []) := by
    intro t ht
    cases t with
    | nil => simp [charAt]
    | cons c t =>
      have hc : c ≠ 0 := fun hc => ht (hc ▸ mem_cons_self)
      simpa [charAt] using hc
  cases t with
  | nil => simp [charAt]
  | cons c t =>
    have ht : 0 ∉ t := fun hc => hnul (mem_cons_of_mem _ hc)
    by_cases hc : c = chr '\n'
    · rw [if_pos (show charAt (c :: t) 0 = chr '\n' from hc), drop_one, tail_cons, hnil t ht, hc]
      simp
    · rw [if_neg (show ¬charAt (c :: t) 0 = chr '\n' from hc), hnil _ hnul]
      simp [hc]

theorem ite_suffix {p : Prop} [Decidable p] (s : List (BitVec 8)) (n : ℕ) :
    (if p then s.drop n else s) <:+ s := by
  split_ifs
  · exact drop_suffix n s
  · exact suffix_refl s

/-- The base is one of three, and the rest of the string is part of it. -/
theorem parseIntegerFixupRadix_spec (hbase : base ∈ [0, 8, 10, 16]) (s : List (BitVec 8)) :
    (parseIntegerFixupRadix s base).2 ∈ [8, 10, 16] ∧ (parseIntegerFixupRadix s base).1 <:+ s := by
  constructor
  · rw [parseIntegerFixupRadix]
    dsimp only
    simp only [mem_cons, not_mem_nil, or_false] at hbase ⊢
    split_ifs <;> simp_all
  · exact ite_suffix s 2

theorem and_overflow_ne_zero_iff (rv : BitVec 32) :
    rv &&& kstrtoxOverflow ≠ 0 ↔ 2 ^ 31 ≤ rv.toNat := by
  have hbit : rv.getLsbD 31 = decide (2 ^ 31 ≤ rv.toNat) := msb_eq_decide rv
  rw [show kstrtoxOverflow = BitVec.twoPow 32 31 from rfl, and_twoPow, hbit]
  split_ifs with h
  · exact iff_of_true (by decide) (of_decide_eq_true h)
  · exact iff_of_false (fun hc => hc rfl) (by simpa using h)

/-- The end of `_kstrtoull`, when `count` digits with the value `n` have been parsed. -/
theorem kstrtoullRaw_eq {b : BitVec 32}
    (hfix : parseIntegerFixupRadix s base = (t, b)) (hcount : count < 2 ^ 31)
    (h : Parsed n count (parseInteger t b).1 (parseInteger t b).2) : kstrtoullRaw s base res =
      if 2 ^ 64 ≤ n then (erange, res)
      else if count = 0 then (einval, res)
      else if charAt (if charAt (t.drop count) 0 = chr '\n' then (t.drop count).drop 1
        else t.drop count) 0 ≠ 0 then (einval, res)
      else (0, BitVec.ofNat 64 n) := by
  rw [kstrtoullRaw, hfix]
  dsimp only
  have htest := and_overflow_ne_zero_iff (parseInteger t b).2
  rw [Parsed] at h
  split_ifs at h with hn
  · obtain ⟨hres, hrv⟩ := h
    have hzero : (parseInteger t b).2 = 0 ↔ count = 0 := by
      rw [← hrv]
      exact ⟨fun hz => by rw [hz]; rfl, fun hz => eq_of_toNat_eq hz⟩
    have hval : (parseInteger t b).1 = BitVec.ofNat 64 n :=
      eq_of_toNat_eq (by rw [hres, toNat_ofNat, Nat.mod_eq_of_lt hn])
    rw [if_neg (by rw [htest]; omega), if_neg (by omega : ¬2 ^ 64 ≤ n), hrv, hval]
    simp only [hzero]
  · rw [if_pos (htest.mpr (by omega)), if_pos (by omega : 2 ^ 64 ≤ n)]

theorem drop_length_takeWhile (p : BitVec 8 → Bool) (s : List (BitVec 8)) :
    s.drop (s.takeWhile p).length = s.dropWhile p := by
  have happend : s.takeWhile p ++ s.dropWhile p = s := takeWhile_append_dropWhile
  calc s.drop (s.takeWhile p).length
      = (s.takeWhile p ++ s.dropWhile p).drop (s.takeWhile p).length := by rw [happend]
    _ = s.dropWhile p := drop_left

/-- The result of `kstrtoull` by the run of digits and what follows it. -/
theorem kstrtoull_eq {r : BitVec 32} (hnul : 0 ∉ s)
    (hlen : s.length < 2 ^ 31) (hbase : base ∈ [0, 8, 10, 16])
    (hfix : parseIntegerFixupRadix (skipPlus s) base = (t, r)) (hb : r.toNat = b) :
    kstrtoull s base res =
      if 2 ^ 64 ≤ numeralValue b (t.takeWhile (isDigit b)) then (erange, res)
      else if t.takeWhile (isDigit b) = [] then (einval, res)
      else if ¬(t.dropWhile (isDigit b) = [] ∨ t.dropWhile (isDigit b) = [chr '\n']) then
        (einval, res)
      else (0, BitVec.ofNat 64 (numeralValue b (t.takeWhile (isDigit b)))) := by
  obtain ⟨hradix, hsuffix⟩ := parseIntegerFixupRadix_spec hbase (skipPlus s)
  rw [hfix] at hradix hsuffix
  have hsub : t <:+ s := hsuffix.trans (ite_suffix s 1)
  have hlen' : t.length < 2 ^ 31 := hsub.length_le.trans_lt hlen
  obtain ⟨h2, h16⟩ : 2 ≤ b ∧ b ≤ 16 := by
    have hmem : r = 8 ∨ r = 10 ∨ r = 16 := by simpa using hradix
    rw [← hb]
    rcases hmem with rfl | rfl | rfl <;> decide
  have hrun : (t.takeWhile (isDigit b)).length < 2 ^ 31 :=
    (takeWhile_sublist _).length_le.trans_lt hlen'
  have hrest : 0 ∉ t.dropWhile (isDigit b) := fun hc =>
    hnul (hsub.subset ((dropWhile_suffix _).subset hc))
  rw [kstrtoull, kstrtoullRaw_eq hfix hrun (parsed_parseInteger hb h2 h16 hlen'),
    drop_length_takeWhile]
  simp only [length_eq_zero_iff, ne_eq, charAt_tail_iff hrest]

/-- `kstrtoull` accepts its grammar, and nothing else. -/
theorem kstrtoull_spec (s : List (BitVec 8)) (base : BitVec 32) (res : BitVec 64) (hnul : 0 ∉ s)
    (hlen : s.length < 2 ^ 31) (hbase : base ∈ [0, 8, 10, 16]) :
    ∀ p r, p = parseIntegerFixupRadix (skipPlus s) base → r = kstrtoull s base res →
    (r.1 = 0 ↔ ∃ n < 2 ^ 64, Numeral p.2.toNat p.1 n) ∧
    (∀ n < 2 ^ 64, Numeral p.2.toNat p.1 n → r.2.toNat = n) ∧
    (r.1 = erange ↔ 2 ^ 64 ≤ numeralValue p.2.toNat (p.1.takeWhile (isDigit p.2.toNat))) ∧
    (r.1 = 0 ∨ r.1 = erange ∨ r.1 = einval) ∧ (r.1 ≠ 0 → r.2 = res) := by
  intro p r hp hr
  rw [kstrtoull_eq hnul hlen hbase (t := p.1) (r := p.2) hp.symm rfl] at hr
  simp only [numeral_iff]
  rw [hr]
  have hcodes : erange ≠ 0 ∧ einval ≠ 0 ∧ einval ≠ erange := by decide
  split_ifs with hbig hnone htail
  · refine ⟨iff_of_false hcodes.1 ?_, ?_, iff_of_true rfl hbig, .inr (.inl rfl), fun _ => rfl⟩
    · rintro ⟨n, hn, -, rfl, -⟩
      omega
    · rintro n hn ⟨-, rfl, -⟩
      omega
  · refine ⟨iff_of_false hcodes.2.1 ?_, ?_, iff_of_false hcodes.2.2 hbig, .inr (.inr rfl),
      fun _ => rfl⟩
    · rintro ⟨n, hn, hne, -⟩
      exact hne hnone
    · rintro n hn ⟨hne, -⟩
      exact absurd hnone hne
  · refine ⟨iff_of_true rfl ⟨_, not_le.mp hbig, hnone, rfl, htail⟩, ?_,
      iff_of_false hcodes.1.symm hbig, .inl rfl, fun hc => absurd rfl hc⟩
    rintro n hn ⟨-, rfl, -⟩
    rw [toNat_ofNat, Nat.mod_eq_of_lt hn]
  · refine ⟨iff_of_false hcodes.2.1 ?_, ?_, iff_of_false hcodes.2.2 hbig, .inr (.inr rfl),
      fun _ => rfl⟩
    · rintro ⟨n, hn, -, -, ht⟩
      exact htail ht
    · rintro n hn ⟨-, -, ht⟩
      exact absurd ht htail

/-- `"+0x1F\n"`, where the base is found. -/
def hexString : List (BitVec 8) := "+0x1F\n".toList.map chr

theorem kstrtoull_spec_hex :
    (0 ∉ hexString ∧ hexString.length < 2 ^ 31) ∧
    let p := parseIntegerFixupRadix (skipPlus hexString) 0
    let r := kstrtoull hexString 0 7
    r = (0, 31) ∧
    (r.1 = 0 ↔ ∃ n < 2 ^ 64, Numeral p.2.toNat p.1 n) ∧
    (∀ n < 2 ^ 64, Numeral p.2.toNat p.1 n → r.2.toNat = n) ∧
    (r.1 = erange ↔ 2 ^ 64 ≤ numeralValue p.2.toNat (p.1.takeWhile (isDigit p.2.toNat))) ∧
    (r.1 = 0 ∨ r.1 = erange ∨ r.1 = einval) ∧ (r.1 ≠ 0 → r.2 = 7) :=
  ⟨by decide, by decide +kernel,
    kstrtoull_spec hexString 0 7 (by decide) (by decide) (by decide) _ _ rfl rfl⟩

end Kstrtox

end LinuxKernelTest
