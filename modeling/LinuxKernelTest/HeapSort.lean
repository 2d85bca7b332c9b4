import LinuxKernelTest.Loop
import LinuxKernelTest.HeapPaths

/-!
# Heapsort on byte offsets

A model of `lib/sort.c`. The array is the memory from `base` on, and an element is a place in it by
its offset, a multiple of `size`. The offsets are of the type `size_t`, here `BitVec 64`.

An access to an element that the array does not have is a fault. So a result of `sortR` says that
only elements of the array have been compared and exchanged.

A comparison may depend on how many have been made before it, so it may be as inconsistent as one
likes. What is proved about the order is relative to a relation `le` that the comparison respects
(`Respects`); for any comparison there is the relation that always holds, and this is the part about
termination, faults and the elements.
-/

namespace LinuxKernelTest

open Function List Nat Equiv

namespace HeapSort

/-! ## The source -/

/-- The bytes from the address `base` on. -/
abbrev Mem : Type := ℕ → BitVec 8

/-- `is_aligned`, with or without `CONFIG_HAVE_EFFICIENT_UNALIGNED_ACCESS`. -/
def isAligned (efficient : Bool) (base size : BitVec 64) (align : BitVec 8) : Bool :=
  let lsbits := size.setWidth 8
  let lsbits := if efficient then lsbits else lsbits ||| base.setWidth 8
  lsbits &&& (align - 1) = 0

/-- The bytes at `p`. -/
def load (mem : Mem) (p : ℕ) : ℕ → BitVec 8 := fun t => mem (p + t)

/-- Write a word of `w` bytes at `p`. -/
def store (mem : Mem) (w p : ℕ) (v : ℕ → BitVec 8) : Mem :=
  fun x => if p ≤ x ∧ x < p + w then v (x - p) else mem x

/-- A round of the loop of `swap_words_64`, `swap_words_32` and `swap_bytes`, for words of `w`
bytes. It faults if `n` would pass zero. -/
def swapRound (w a b : ℕ) : Mem × ℕ → Round (Mem × ℕ) (Option Mem)
  | (mem, n) =>
    if n < w then .done none
    else
      let n := n - w
      let t := load mem (a + n)
      let mem := store mem w (a + n) (load mem (b + n))
      let mem := store mem w (b + n) t
      if n = 0 then .done (some mem) else .again (mem, n)

/-- The loop of the swap routines, with words of `w` bytes. -/
def swapLoop (fuel w : ℕ) (mem : Mem) (a b n : ℕ) : Option Mem :=
  (runLoop (swapRound w a b) fuel (mem, n)).join

/-- `swap_words_32`. -/
def swapWords32 (fuel : ℕ) : Mem → ℕ → ℕ → ℕ → Option Mem := swapLoop fuel 4

/-- `swap_words_64`. -/
def swapWords64 (fuel : ℕ) : Mem → ℕ → ℕ → ℕ → Option Mem := swapLoop fuel 8

/-- `swap_bytes`. -/
def swapBytes (fuel : ℕ) : Mem → ℕ → ℕ → ℕ → Option Mem := swapLoop fuel 1

/-- `swap_func_t` : the routines of the file, or one of the caller. -/
inductive SwapFunc
  | words64
  | words32
  | bytes
  | user (f : Mem → ℕ → ℕ → ℕ → Mem)

/-- The offset is that of an element. -/
def InArray (num size off : BitVec 64) : Prop :=
  off.toNat % size.toNat = 0 ∧ off.toNat / size.toNat < num.toNat

instance (num size off : BitVec 64) : Decidable (InArray num size off) :=
  inferInstanceAs (Decidable (_ ∧ _))

/-- `do_swap`. -/
def doSwap (fuel : ℕ) (num : BitVec 64) (mem : Mem) (a b size : BitVec 64) (swapFunc : SwapFunc) :
    Option Mem :=
  if InArray num size a ∧ InArray num size b then
    match swapFunc with
    | .words64 => swapWords64 fuel mem a.toNat b.toNat size.toNat
    | .words32 => swapWords32 fuel mem a.toNat b.toNat size.toNat
    | .bytes => swapBytes fuel mem a.toNat b.toNat size.toNat
    | .user f => some (f mem a.toNat b.toNat size.toNat)
  else none

/-- The bytes of an element. -/
abbrev Elem (size : BitVec 64) : Type := Fin size.toNat → BitVec 8

/-- The element at an offset. -/
def element (size : BitVec 64) (mem : Mem) (off : ℕ) : Elem size := fun t => mem (off + t)

/-- `parent`. -/
def parent (i : BitVec 64) (lsbit : BitVec 32) (size : BitVec 64) : BitVec 64 :=
  let i := i - size
  let i := i - (size &&& -(i &&& lsbit.setWidth 64))
  i / 2

section

variable (fuel : ℕ) (num size : BitVec 64)
  (cmp : ℕ → Elem size → Elem size → ℤ)
  (swapFunc : SwapFunc)

/-- `do_cmp`, when `tick` comparisons have been made. -/
def doCmp (mem : Mem) (tick : ℕ) (a b : BitVec 64) : Option ℤ :=
  if InArray num size a ∧ InArray num size b then
    some (cmp tick (element size mem a.toNat) (element size mem b.toNat))
  else none

/-- `size & -size`. -/
def lsbit (size : BitVec 64) : BitVec 32 := (size &&& -size).setWidth 32

/-- The way down to a leaf. -/
def descendRound (mem : Mem) (n : BitVec 64) :
    ℕ × BitVec 64 → Round (ℕ × BitVec 64) (Option (ℕ × BitVec 64))
  | (tick, b) =>
    let c := 2 * b + size
    let d := c + size
    if d < n then
      match doCmp num size cmp mem tick c d with
      | none => .done none
      | some r => .again (tick + 1, if 0 ≤ r then c else d)
    -- The last leaf may have no sibling.
    else .done (some (tick, if d = n then c else b))

/-- The way back to where `a` belongs. -/
def climbRound (mem : Mem) (a : BitVec 64) :
    ℕ × BitVec 64 → Round (ℕ × BitVec 64) (Option (ℕ × BitVec 64))
  | (tick, b) =>
    if b = a then .done (some (tick, b))
    else
      match doCmp num size cmp mem tick a b with
      | none => .done none
      | some r =>
        if 0 ≤ r then .again (tick + 1, parent b (lsbit size) size) else .done (some (tick + 1, b))

/-- The exchanges that move it there. -/
def shiftRound (a c : BitVec 64) : Mem × BitVec 64 → Round (Mem × BitVec 64) (Option Mem)
  | (mem, b) =>
    if b = a then .done (some mem)
    else
      let b := parent b (lsbit size) size
      match doSwap fuel num mem b c size swapFunc with
      | none => .done none
      | some mem => .again (mem, b)

/-- Sift the element at `a` down into the heap that ends at `n`. -/
def siftDown (mem : Mem) (tick : ℕ) (n a : BitVec 64) : Option (Mem × ℕ) :=
  (runLoop (descendRound num size cmp mem n) fuel (tick, a)).join.bind fun (tick, b) =>
    (runLoop (climbRound num size cmp mem a) fuel (tick, b)).join.bind fun (tick, c) =>
      (runLoop (shiftRound fuel num size swapFunc a c) fuel (mem, c)).join.map fun mem =>
        (mem, tick)

/-- The variables of the main loop. -/
structure State where
  mem : Mem
  tick : ℕ
  n : BitVec 64
  a : BitVec 64

/-- A round of the main loop. -/
def sortRound (s : State) : Round State (Option Mem) :=
  if s.a ≠ 0 then
    let a := s.a - size
    match siftDown fuel num size cmp swapFunc s.mem s.tick s.n a with
    | none => .done none
    | some (mem, tick) => .again ⟨mem, tick, s.n, a⟩
  else
    let n := s.n - size
    if n ≠ 0 then
      match doSwap fuel num s.mem 0 n size swapFunc with
      | none => .done none
      | some mem =>
        match siftDown fuel num size cmp swapFunc mem s.tick n s.a with
        | none => .done none
        | some (mem, tick) => .again ⟨mem, tick, n, s.a⟩
    else .done (some s.mem)

/-- The routine of the caller, or the one that a NULL pointer stands for. -/
def chooseSwap (efficient : Bool) (base size : BitVec 64) :
    Option (Mem → ℕ → ℕ → ℕ → Mem) → SwapFunc
  | some f => .user f
  | none =>
    if isAligned efficient base size 8 then .words64
    else if isAligned efficient base size 4 then .words32
    else .bytes

/-- `sort_r`. -/
def sortR (efficient : Bool) (base : BitVec 64) (mem : Mem)
    (userSwap : Option (Mem → ℕ → ℕ → ℕ → Mem)) : Option Mem :=
  let n := num * size
  let a := num / 2 * size
  if a = 0 then some mem
  else
    let swapFunc := chooseSwap efficient base size userSwap
    (runLoop (sortRound fuel num size cmp swapFunc) fuel ⟨mem, 0, n, a⟩).join

end

/-! ## Offsets -/

/-- The offset of the element with the index `i`. -/
def offset (size : BitVec 64) (i : ℕ) : BitVec 64 := BitVec.ofNat 64 (i * size.toNat)

variable {num size : BitVec 64} {i j k : ℕ} {x : BitVec 64} {t : ℕ} {w : ℕ}

theorem toNat_offset (h : i * size.toNat < 2 ^ 64) : (offset size i).toNat = i * size.toNat := by
  rw [offset, BitVec.toNat_ofNat, mod_eq_of_lt h]

theorem offset_succ (size : BitVec 64) (i : ℕ) : offset size i + size = offset size (i + 1) := by
  refine BitVec.eq_of_toNat_eq ?_
  rw [offset, offset, BitVec.toNat_add, BitVec.toNat_ofNat, BitVec.toNat_ofNat, mod_add_mod,
    add_mul, one_mul]

theorem two_mul_offset (size : BitVec 64) (i : ℕ) :
    2 * offset size i + size = offset size (2 * i + 1) := by
  refine BitVec.eq_of_toNat_eq ?_
  rw [offset, offset, BitVec.toNat_add, BitVec.toNat_mul, BitVec.toNat_ofNat, BitVec.toNat_ofNat,
    show (2 : BitVec 64).toNat = 2 by decide, mod_add_mod, add_mul, one_mul, mul_assoc]
  rw [add_mod, mul_mod_mod, ← add_mod]

theorem offset_pred (size : BitVec 64) (i : ℕ) : offset size (i + 1) - size = offset size i := by
  rw [← offset_succ, BitVec.add_sub_cancel]

theorem offset_inj (hsize : 0 < size.toNat) (hi : i * size.toNat < 2 ^ 64)
    (hj : j * size.toNat < 2 ^ 64) : offset size i = offset size j ↔ i = j := by
  rw [← BitVec.toNat_inj, toNat_offset hi, toNat_offset hj]
  exact ⟨fun h => eq_of_mul_eq_mul_right hsize h, fun h => h ▸ rfl⟩

theorem offset_lt_iff (hsize : 0 < size.toNat) (hi : i * size.toNat < 2 ^ 64)
    (hj : j * size.toNat < 2 ^ 64) : offset size i < offset size j ↔ i < j := by
  rw [BitVec.lt_def, toNat_offset hi, toNat_offset hj]
  exact ⟨fun h => Nat.lt_of_mul_lt_mul_right h, fun h => Nat.mul_lt_mul_of_pos_right h hsize⟩

/-! ## The parent of an offset -/

theorem and_neg_eq_twoPow (hbit : x.getLsbD t = true)
    (hlow : ∀ i < t, x.getLsbD i = false) : x &&& -x = BitVec.twoPow 64 t := by
  have ht := BitVec.lt_of_getLsbD hbit
  refine BitVec.eq_of_getLsbD_eq fun i hi => ?_
  rw [BitVec.getLsbD_and, BitVec.getLsbD_neg, BitVec.getLsbD_twoPow]
  rcases lt_trichotomy i t with h | rfl | h
  · simp [hlow i h, h.ne']
  · have hno : ¬ ∃ j < i, x.getLsbD j = true := fun ⟨j, hj, hjt⟩ => by
      rw [hlow j hj] at hjt
      cases hjt
    simp [hbit, hno, ht]
  · have hex : ∃ j < i, x.getLsbD j = true := ⟨t, h, hbit⟩
    simp [hex, hi, h.ne]

theorem and_neg_twoPow (ht : t < 64) (hlow : ∀ i < t, x.getLsbD i = false) :
    x &&& -BitVec.twoPow 64 t = x := by
  refine BitVec.eq_of_getLsbD_eq fun i hi => ?_
  rw [BitVec.getLsbD_and, BitVec.getLsbD_neg]
  simp only [BitVec.getLsbD_twoPow, ht, decide_true, Bool.true_and, decide_eq_true_eq]
  rcases lt_trichotomy i t with h | rfl | h
  · simp [hlow i h]
  · simp
  · simp [hi, h, h.ne]

/-- The size as an odd multiple of a power of two, and the bits that this gives. -/
theorem exists_lsbit (hsize : size ≠ 0) : ∃ t < 64, size.getLsbD t = true ∧
    (∀ i < t, size.getLsbD i = false) ∧
    ∀ j, (offset size j).getLsbD t = decide (j % 2 = 1) := by
  have hne : size.toNat ≠ 0 := fun h => hsize (BitVec.eq_of_toNat_eq h)
  obtain ⟨t, m, hodd, hm⟩ := exists_eq_two_pow_mul_odd hne
  rw [mul_comm] at hm
  have hbit : ∀ i, size.getLsbD i = (decide (t ≤ i) && m.testBit (i - t)) := fun i => by
    rw [← BitVec.testBit_toNat, hm, testBit_mul_two_pow]
  have htrue : size.getLsbD t = true := by
    rw [hbit, Nat.sub_self, Nat.testBit_zero]
    simpa using Nat.odd_iff.mp hodd
  refine ⟨t, BitVec.lt_of_getLsbD htrue, htrue, fun i hi => by simp [hbit, hi], fun j => ?_⟩
  have ht := BitVec.lt_of_getLsbD htrue
  rw [offset, BitVec.getLsbD_ofNat, hm, ← mul_assoc, Nat.testBit_mul_two_pow, Nat.sub_self,
    Nat.testBit_zero]
  have hparity : j * m % 2 = j % 2 := by rw [mul_mod, odd_iff.mp hodd, mul_one, mod_mod]
  simp [ht, hparity]

/-- `parent` is the parent of the index. -/
theorem parent_offset (hsize : 0 < size.toNat) (hmax : size.toNat < 2 ^ 31) (hi : 0 < i)
    (hlen : i * size.toNat < 2 ^ 64) :
    parent (offset size i) (lsbit size) size = offset size (heapParent i) := by
  have hne : size ≠ 0 := by rintro rfl; exact absurd hsize (by decide)
  obtain ⟨t, ht, hbit, hlow, hpar⟩ := exists_lsbit hne
  obtain ⟨j, rfl⟩ : ∃ j, i = j + 1 := ⟨i - 1, by omega⟩
  have ht31 : t < 31 := by
    by_contra hge
    have hbig := testBit_lt_two_pow (lt_of_lt_of_le hmax
      (Nat.pow_le_pow_right (by decide) (not_lt.mp hge)))
    rw [BitVec.testBit_toNat, hbit] at hbig
    cases hbig
  have hmask : (lsbit size).setWidth 64 = BitVec.twoPow 64 t := by
    rw [lsbit, and_neg_eq_twoPow hbit hlow]
    refine BitVec.eq_of_getLsbD_eq fun i hi => ?_
    by_cases h : t = i
    · simp [← h, ht, show t < 32 by omega]
    · simp [h]
  have hhalf : ∀ m, 2 * m * size.toNat < 2 ^ 64 → offset size (2 * m) / 2 = offset size m :=
    fun m hm => by
      refine BitVec.eq_of_toNat_eq ?_
      have hle : m * size.toNat ≤ 2 * m * size.toNat := mul_le_mul_right _ (by omega)
      rw [BitVec.toNat_udiv, toNat_offset hm, toNat_offset (by omega),
        show (2 : BitVec 64).toNat = 2 by decide, mul_assoc, Nat.mul_div_cancel_left _ (by decide)]
  have hup : heapParent (j + 1) = j / 2 := rfl
  have hle : j * size.toNat ≤ (j + 1) * size.toNat := mul_le_mul_right _ (by omega)
  rw [parent, offset_pred, hmask, BitVec.and_twoPow, hpar, hup]
  rcases mod_two_eq_zero_or_one j with heven | hodd
  · obtain ⟨m, rfl⟩ : ∃ m, j = 2 * m := ⟨j / 2, by omega⟩
    have hzero : size &&& -(0#64) = 0#64 := by simp
    rw [if_neg (by simp [heven]), hzero, BitVec.sub_zero, hhalf m (by omega)]
    congr 1
    omega
  · obtain ⟨m, rfl⟩ : ∃ m, j = 2 * m + 1 := ⟨j / 2, by omega⟩
    have hle' : 2 * m * size.toNat ≤ (2 * m + 1) * size.toNat := mul_le_mul_right _ (by omega)
    rw [if_pos (by simp [hodd]), and_neg_twoPow ht hlow, offset_pred, hhalf m (by omega)]
    congr 1
    omega

/-! ## Exchanges -/

/-- The bytes at `a` and `b` exchanged, from the place `m` to `n`. -/
def exchange (mem : Mem) (a b m n : ℕ) : Mem := fun x =>
  if a + m ≤ x ∧ x < a + n then mem (b + (x - a))
  else if b + m ≤ x ∧ x < b + n then mem (a + (x - b)) else mem x

/-- A word more is exchanged. -/
theorem exchange_word (mem : Mem) {a b m n : ℕ} (hwn : m + w ≤ n)
    (hapart : a + n ≤ b ∨ b + n ≤ a) :
    store (store (exchange mem a b (m + w) n) w (a + m)
      (load (exchange mem a b (m + w) n) (b + m))) w (b + m)
      (load (exchange mem a b (m + w) n) (a + m)) = exchange mem a b m n := by
  funext x
  simp only [store, load, exchange]
  split_ifs <;> first | omega | (congr 1 <;> omega)

/-- The loops exchange two elements that are apart, from their ends on. -/
theorem swapLoop_spec (hw : 0 < w) {mem0 : Mem} {a b size : ℕ} (hdvd : w ∣ size)
    (hpos : 0 < size) (hapart : a + size ≤ b ∨ b + size ≤ a) {fuel : ℕ} (hfuel : size < fuel) :
    swapLoop fuel w mem0 a b size = some (exchange mem0 a b 0 size) := by
  have hround : RoundKeeps (swapRound w a b)
      (fun v s => v = s.2 ∧ 0 < s.2 ∧ s.2 ≤ size ∧ w ∣ s.2 ∧
        s.1 = exchange mem0 a b s.2 size)
      fun r => r = some (exchange mem0 a b 0 size) := by
    rintro v ⟨mem, n⟩ ⟨rfl, hn, hle, ⟨q, rfl⟩, hmem⟩
    obtain rfl : mem = exchange mem0 a b (w * q) size := hmem
    obtain ⟨q, rfl⟩ : ∃ p, q = p + 1 := ⟨q - 1, by
      have : q ≠ 0 := by rintro rfl; simp at hn
      omega⟩
    have hwq : w * (q + 1) = w * q + w := by ring
    have hnext := exchange_word mem0 (hwq ▸ hle) hapart
    simp only [hwq] at hle ⊢
    have hstep : swapRound w a b (exchange mem0 a b (w * q + w) size, w * q + w) =
        if w * q = 0 then .done (some (exchange mem0 a b (w * q) size))
        else .again (exchange mem0 a b (w * q) size, w * q) := by
      rw [swapRound, if_neg (by omega)]
      simp only [Nat.add_sub_cancel, hnext]
    rw [hstep]
    by_cases hq : w * q = 0
    · exact .inr ⟨_, if_pos hq, by rw [hq]⟩
    · exact .inl ⟨_, w * q, if_neg hq, by omega, rfl, Nat.pos_of_ne_zero hq, by omega,
        Dvd.intro q rfl, rfl⟩
  have hstart : mem0 = exchange mem0 a b size size := by
    funext x
    rw [exchange, if_neg (by omega), if_neg (by omega)]
  obtain ⟨r, hrun, rfl⟩ := runLoop_of_rank hround (s := (mem0, size))
    ⟨rfl, hpos, le_rfl, hdvd, hstart⟩ hfuel
  rw [swapLoop, hrun]
  rfl

/-- The elements of the array by their indices. -/
def elems (size : BitVec 64) (mem : Mem) : ℕ → Elem size :=
  fun i => element size mem (i * size.toNat)

/-- The bytes of one element are not those of another. -/
theorem within_iff {S t : ℕ} (ht : t < S) :
    (i * S + 0 ≤ k * S + t ∧ k * S + t < i * S + S) ↔ k = i := by
  rcases lt_trichotomy k i with h | rfl | h
  · have := mul_le_mul_right S (show k + 1 ≤ i by omega)
    rw [add_mul, one_mul] at this
    exact iff_of_false (by omega) h.ne
  · exact iff_of_true (by omega) rfl
  · have := mul_le_mul_right S (show i + 1 ≤ k by omega)
    rw [add_mul, one_mul] at this
    exact iff_of_false (by omega) h.ne'

/-- An exchange of two elements on the indices. -/
theorem elems_exchange (size : BitVec 64) (mem : Mem) (i j : ℕ) :
    elems size (exchange mem (i * size.toNat) (j * size.toNat) 0 size.toNat) =
      elems size mem ∘ Equiv.swap i j := by
  funext k t
  have hcut : ∀ p, p * size.toNat + t.val - p * size.toNat = t.val := fun p => by omega
  simp only [elems, element, exchange, within_iff t.isLt, comp_apply]
  by_cases hki : k = i
  · rw [if_pos hki, hki, hcut, swap_apply_left]
  rw [if_neg hki]
  by_cases hkj : k = j
  · rw [if_pos hkj, hkj, hcut, swap_apply_right]
  · rw [if_neg hkj, swap_apply_of_ne_of_ne hki hkj]

/-- The memory is given by its elements. -/
theorem mem_eq_of_elems (hsize : 0 < size.toNat) {mem mem' : Mem} {x : ℕ}
    (h : elems size mem' (x / size.toNat) = elems size mem (x / size.toNat)) : mem' x = mem x := by
  have hx := congrFun h ⟨x % size.toNat, mod_lt _ hsize⟩
  simpa only [elems, element, div_add_mod'] using hx

/-! ## The routines on the indices -/

/-- The routine exchanges two elements of the array : a routine of the file for words that the size
is a multiple of, or one of the caller that does so. -/
def Exchanges (num size : BitVec 64) : SwapFunc → Prop
  | .words64 => 8 ∣ size.toNat
  | .words32 => 4 ∣ size.toNat
  | .bytes => True
  | .user f => ∀ mem i j, i < num.toNat → j < num.toNat → i ≠ j →
      f mem (i * size.toNat) (j * size.toNat) size.toNat =
        exchange mem (i * size.toNat) (j * size.toNat) 0 size.toNat

/-- The array is not too long for the offsets. -/
structure Fits (num size : BitVec 64) : Prop where
  pos : 0 < size.toNat
  small : size.toNat < 2 ^ 31
  short : num.toNat * size.toNat < 2 ^ 63

theorem Fits.lt (h : Fits num size) (hi : i ≤ num.toNat) : i * size.toNat < 2 ^ 63 :=
  lt_of_le_of_lt (mul_le_mul_right _ hi) h.short

theorem Fits.offset_eq_iff (h : Fits num size) (hi : i ≤ num.toNat) (hj : j ≤ num.toNat) :
    offset size i = offset size j ↔ i = j :=
  offset_inj h.pos ((h.lt hi).trans (by decide)) ((h.lt hj).trans (by decide))

theorem Fits.offset_eq_zero (h : Fits num size)
    (hi : i ≤ num.toNat) : offset size i = 0 ↔ i = 0 := by
  have hzero : offset size 0 = 0 := by rw [offset, zero_mul]; rfl
  rw [← hzero, h.offset_eq_iff hi (zero_le _)]

theorem Fits.parent_offset (h : Fits num size) (hi : 0 < i) (hlen : i ≤ num.toNat) :
    parent (offset size i) (lsbit size) size = offset size (heapParent i) :=
  HeapSort.parent_offset h.pos h.small hi ((h.lt hlen).trans (by decide))

theorem Fits.inArray (h : Fits num size) (hi : i < num.toNat) :
    InArray num size (offset size i) := by
  have hlt := h.lt hi.le
  rw [InArray, toNat_offset (by omega), Nat.mul_mod_left, Nat.mul_div_cancel _ h.pos]
  exact ⟨rfl, hi⟩

variable {fuel tick : ℕ} {swapFunc : SwapFunc} {userSwap : Option (Mem → ℕ → ℕ → ℕ → Mem)}

theorem doSwap_spec (h : Fits num size) (hsw : Exchanges num size swapFunc) (mem : Mem)
    (hi : i < num.toNat) (hj : j < num.toNat) (hij : i ≠ j) (hfuel : size.toNat < fuel) :
    ∃ mem', doSwap fuel num mem (offset size i) (offset size j) size swapFunc = some mem' ∧
      elems size mem' = elems size mem ∘ Equiv.swap i j := by
  have hli := h.lt hi.le
  have hlj := h.lt hj.le
  have hapart : i * size.toNat + size.toNat ≤ j * size.toNat ∨
      j * size.toNat + size.toNat ≤ i * size.toNat := by
    rcases lt_or_gt_of_ne hij with hlt | hlt
    · have hle := mul_le_mul_right size.toNat (show i + 1 ≤ j from hlt)
      exact .inl (by simpa [add_mul] using hle)
    · have hle := mul_le_mul_right size.toNat (show j + 1 ≤ i from hlt)
      exact .inr (by simpa [add_mul] using hle)
  refine ⟨_, ?_, elems_exchange size mem i j⟩
  unfold doSwap
  rw [if_pos ⟨h.inArray hi, h.inArray hj⟩, toNat_offset (by omega), toNat_offset (by omega)]
  cases swapFunc with
  | words64 => exact swapLoop_spec (by decide) hsw h.pos hapart hfuel
  | words32 => exact swapLoop_spec (by decide) hsw h.pos hapart hfuel
  | bytes => exact swapLoop_spec (by decide) (one_dvd _) h.pos hapart hfuel
  | user f => exact congrArg some (hsw mem i j hi hj hij)

theorem dvd_of_isAligned {efficient : Bool} {base : BitVec 64} {align : BitVec 8} {k : ℕ}
    (hk : k ≤ 8) (halign : (align - 1).toNat = 2 ^ k - 1)
    (h : isAligned efficient base size align = true) : 2 ^ k ∣ size.toNat := by
  have hlow : size.setWidth 8 &&& (align - 1) = 0#8 := by
    rw [isAligned, decide_eq_true_iff] at h
    cases efficient with
    | true => exact h
    | false =>
      have hor : size.setWidth 8 &&& (align - 1) ||| base.setWidth 8 &&& (align - 1) = 0#8 := by
        rw [← BitVec.and_or_distrib_right]
        exact h
      exact (BitVec.or_eq_zero_iff.mp hor).1
  have hmod := congrArg BitVec.toNat hlow
  rw [BitVec.toNat_and, halign, and_two_pow_sub_one_eq_mod, BitVec.toNat_setWidth,
    mod_mod_of_dvd _ (pow_dvd_pow 2 hk)] at hmod
  exact dvd_of_mod_eq_zero hmod

/-- The routine of the caller exchanges two elements, if there is one. -/
def UserExchanges (num size : BitVec 64) (userSwap : Option (Mem → ℕ → ℕ → ℕ → Mem)) : Prop :=
  ∀ f, userSwap = some f → Exchanges num size (.user f)

/-- A routine that a NULL pointer stands for fits the size. -/
theorem exchanges_chooseSwap (efficient : Bool) (base : BitVec 64)
    (huser : UserExchanges num size userSwap) :
    Exchanges num size (chooseSwap efficient base size userSwap) := by
  cases userSwap with
  | some f => exact huser f rfl
  | none =>
    rw [chooseSwap]
    split_ifs with h8 h4
    · exact dvd_of_isAligned (k := 3) (by decide) (by decide) h8
    · exact dvd_of_isAligned (k := 2) (by decide) (by decide) h4
    · trivial

variable {cmp : ℕ → Elem size → Elem size → ℤ}

theorem doCmp_spec (h : Fits num size) (mem : Mem) (hi : i < num.toNat) (hj : j < num.toNat) :
    doCmp num size cmp mem tick (offset size i) (offset size j) =
      some (cmp tick (elems size mem i) (elems size mem j)) := by
  have hli := h.lt hi.le
  have hlj := h.lt hj.le
  rw [doCmp, if_pos ⟨h.inArray hi, h.inArray hj⟩, toNat_offset (by omega), toNat_offset (by omega)]
  rfl

/-! ## A sift -/

/-- The comparison respects the relation. -/
structure Respects (cmp : ℕ → Elem size → Elem size → ℤ)
    (le : Elem size → Elem size → Prop) : Prop where
  refl : ∀ x, le x x
  trans : ∀ x y z, le x y → le y z → le x z
  ge : ∀ t x y, 0 ≤ cmp t x y → le y x
  lt : ∀ t x y, cmp t x y < 0 → le x y

variable {le : Elem size → Elem size → Prop} {a n : ℕ}

/-- The offset is at the lower end of a path of greatest children from the index `a`. -/
structure OnPath (size : BitVec 64) (le : Elem size → Elem size → Prop)
    (xs : ℕ → Elem size) (n a : ℕ) (off : BitVec 64) (b : ℕ) (l : List ℕ) : Prop where
  at_offset : off = offset size b
  path : ClimbsTo b l a
  lt : b < n
  greatest : Greatest le xs n b l a

variable {xs : ℕ → Elem size} {off : BitVec 64} {b c : ℕ} {l : List ℕ} {ys : ℕ → Elem size} {m : ℕ}

/-- A step down to a greatest child. -/
theorem OnPath.child (h : OnPath size le xs n a off b l) (hc : c < n) (hc0 : 0 < c)
    (hcb : heapParent c = b) (hgreatest : ∀ k < n, 0 < k → heapParent k = b → le (xs k) (xs c)) :
    OnPath size le xs n a (offset size c) c (b :: l) where
  at_offset := rfl
  path := climbsTo_cons.mpr ⟨⟨hc0, hcb.symm⟩, h.path⟩
  lt := hc
  greatest u hu hne := by
    rcases mem_cons.mp hu with rfl | hu
    · rw [hcb]
      exact hgreatest
    · exact h.greatest u hu hne

theorem descendRound_spec (h : Fits num size) (hle : Respects cmp le) (hn : n ≤ num.toNat)
    (mem : Mem) :
    RoundKeeps (descendRound num size cmp mem (offset size n))
      (fun v s => ∃ b l, OnPath size le (elems size mem) n a s.2 b l ∧ v = n - b)
      fun r => ∃ s' b l, r = some s' ∧ OnPath size le (elems size mem) n a s'.2 b l ∧
        n ≤ 2 * b + 1 := by
  intro v s hs
  obtain ⟨tick, off⟩ := s
  obtain ⟨b, l, hpath, rfl⟩ := hs
  obtain rfl : off = offset size b := hpath.at_offset
  have hb := hpath.lt
  have hchildren : ∀ k, 0 < k → heapParent k = b → k = 2 * b + 1 ∨ k = 2 * b + 2 :=
    fun k hk0 hk => (heapParent_eq_iff hk0).mp hk
  -- Both children have offsets that are not cut off.
  have hbig : (2 * b + 2) * size.toNat < 2 ^ 64 := by
    have hlt := h.lt (show b + 1 ≤ num.toNat by omega)
    have heq : (2 * b + 2) * size.toNat = 2 * ((b + 1) * size.toNat) := by ring
    omega
  have hnlt := h.lt hn
  have hlt : offset size (2 * b + 2) < offset size n ↔ 2 * b + 2 < n :=
    offset_lt_iff h.pos hbig (by omega)
  have heq : offset size (2 * b + 2) = offset size n ↔ 2 * b + 2 = n :=
    offset_inj h.pos hbig (by omega)
  have hround : descendRound num size cmp mem (offset size n) (tick, offset size b) =
      if offset size (2 * b + 2) < offset size n then
        match doCmp num size cmp mem tick (offset size (2 * b + 1)) (offset size (2 * b + 2)) with
        | none => .done none
        | some r =>
          .again (tick + 1, if 0 ≤ r then offset size (2 * b + 1) else offset size (2 * b + 2))
      else .done (some (tick, if offset size (2 * b + 2) = offset size n
        then offset size (2 * b + 1) else offset size b)) := by
    rw [descendRound, two_mul_offset, offset_succ]
  rw [hround]
  by_cases hd : 2 * b + 2 < n
  · rw [if_pos (hlt.mpr hd), doCmp_spec h mem (by omega) (by omega)]
    refine .inl ⟨_, n - (if 0 ≤ cmp tick (elems size mem (2 * b + 1)) (elems size mem (2 * b + 2))
      then 2 * b + 1 else 2 * b + 2), rfl, by split_ifs <;> omega, ?_⟩
    split_ifs with hr
    · refine ⟨_, _, hpath.child (by omega) (by omega)
        ((heapParent_eq_iff (by omega)).mpr (.inl rfl)) fun k hk hk0 hkb => ?_, rfl⟩
      rcases hchildren k hk0 hkb with rfl | rfl
      · exact hle.refl _
      · exact hle.ge _ _ _ hr
    · refine ⟨_, _, hpath.child hd (by omega) ((heapParent_eq_iff (by omega)).mpr (.inr rfl))
        fun k hk hk0 hkb => ?_, rfl⟩
      rcases hchildren k hk0 hkb with rfl | rfl
      · exact hle.lt _ _ _ (not_le.mp hr)
      · exact hle.refl _
  · rw [if_neg (mt hlt.mp hd)]
    by_cases hlast : 2 * b + 2 = n
    · rw [if_pos (heq.mpr hlast)]
      refine .inr ⟨_, rfl, _, 2 * b + 1, b :: l, rfl, hpath.child (by omega) (by omega)
        ((heapParent_eq_iff (by omega)).mpr (.inl rfl)) fun k hk hk0 hkb => ?_, by omega⟩
      rcases hchildren k hk0 hkb with rfl | rfl
      · exact hle.refl _
      · omega
    · rw [if_neg (mt heq.mp hlast)]
      exact .inr ⟨_, rfl, _, b, l, rfl, hpath, by omega⟩

/-- Where the element at `a` belongs : the path ends there, and the children there are not above
the element. -/
structure Fitting (size : BitVec 64)
    (le : Elem size → Elem size → Prop)
    (xs : ℕ → Elem size) (n a : ℕ) (off : BitVec 64) (b : ℕ) (l : List ℕ) : Prop
    extends OnPath size le xs n a off b l where
  below : ∀ k < n, 0 < k → heapParent k = b → le (xs k) (xs a)

theorem climbRound_spec (h : Fits num size) (hle : Respects cmp le) (hn : n ≤ num.toNat)
    (mem : Mem) :
    RoundKeeps (climbRound num size cmp mem (offset size a))
      (fun v s => ∃ b l, Fitting size le (elems size mem) n a s.2 b l ∧ b = v)
      fun r => ∃ s' b l, r = some s' ∧ Fitting size le (elems size mem) n a s'.2 b l ∧
        (b ≠ a → le (elems size mem a) (elems size mem b)) := by
  intro v s hs
  obtain ⟨tick, off⟩ := s
  obtain ⟨b, l, hfit, rfl⟩ := hs
  obtain rfl : off = offset size b := hfit.at_offset
  have hb := hfit.lt
  have hab := (hfit.path.bounds mem_cons_self).1
  have heq := h.offset_eq_iff (i := b) (j := a) (by omega) (by omega)
  rw [climbRound]
  by_cases hba : b = a
  · rw [if_pos (heq.mpr hba)]
    exact .inr ⟨_, rfl, _, b, l, rfl, hfit, fun hne => absurd hba hne⟩
  rw [if_neg (mt heq.mp hba), doCmp_spec h mem (by omega) (by omega)]
  have hb0 := (hfit.path.parent_mem mem_cons_self hba).1
  by_cases hr : 0 ≤ cmp tick (elems size mem a) (elems size mem b)
  case neg =>
    simp only [if_neg hr]
    exact .inr ⟨_, rfl, _, b, l, rfl, hfit, fun _ => hle.lt _ _ _ (not_le.mp hr)⟩
  simp only [if_pos hr, h.parent_offset hb0 (show b ≤ num.toNat by omega)]
  refine .inl ⟨_, heapParent b, rfl, heapParent_lt hb0, ?_⟩
  cases l with
  | nil => exact absurd (climbsTo_nil_iff.mp hfit.path) hba
  | cons w l =>
    obtain ⟨⟨-, rfl⟩, hpath⟩ := climbsTo_cons.mp hfit.path
    have hlt := heapParent_lt hb0
    refine ⟨heapParent b, l,
      ⟨⟨rfl, hpath, by omega, fun u hu => ?_⟩, fun k hk hk0 hkb => ?_⟩, rfl⟩
    · exact hfit.greatest u (mem_cons_of_mem _ hu)
    · exact hle.trans _ _ _ (hfit.greatest b mem_cons_self hba k hk hk0 hkb)
        (hle.ge _ _ _ hr)

theorem shiftRound_spec (h : Fits num size) (hsw : Exchanges num size swapFunc)
    (hc : c < num.toNat) (hsize : size.toNat < fuel) :
    RoundKeeps (shiftRound fuel num size swapFunc (offset size a) (offset size c))
      (fun v s => ∃ b l, s.2 = offset size b ∧ ClimbsTo b l a ∧ b ≤ c ∧ c ∉ l ∧
        rotate (elems size s.1) c l = ys ∧ b = v)
      fun r => ∃ mem', r = some mem' ∧ elems size mem' = ys := by
  intro v s hs
  obtain ⟨mem, off⟩ := s
  obtain ⟨b, l, hoff, hpath, hbc, hcl, hys, rfl⟩ := hs
  obtain rfl : off = offset size b := hoff
  have hab := (hpath.bounds mem_cons_self).1
  have heq := h.offset_eq_iff (i := b) (j := a) (by omega) (by omega)
  rw [shiftRound]
  cases l with
  | nil =>
    rw [if_pos (heq.mpr (climbsTo_nil_iff.mp hpath))]
    exact .inr ⟨_, rfl, mem, rfl, hys⟩
  | cons w l =>
    obtain ⟨⟨hb0, rfl⟩, hpath'⟩ := climbsTo_cons.mp hpath
    have hlt := heapParent_lt hb0
    have haw := (hpath'.bounds mem_cons_self).1
    obtain ⟨hcw, hcl'⟩ : c ≠ heapParent b ∧ c ∉ l := by simpa using hcl
    obtain ⟨mem', hswap, hmem'⟩ := doSwap_spec h hsw mem
      (show heapParent b < num.toNat by omega) hc hcw.symm hsize
    rw [if_neg (mt heq.mp (by omega))]
    simp only [h.parent_offset hb0 (show b ≤ num.toNat by omega), hswap]
    refine .inl ⟨_, heapParent b, rfl, hlt, heapParent b, l, rfl, hpath', by omega, hcl', ?_, rfl⟩
    rw [hmem', ← rotate_cons]
    exact hys

/-- What a sift does to the array with the elements `xs`. -/
structure Sifted (le : Elem size → Elem size → Prop)
    (num a n : ℕ) (xs ys : ℕ → Elem size) : Prop where
  heap : HeapFrom le ys a n
  perm : (elements ys num).Perm (elements xs num)
  inside : ∀ i < n, ∃ j < n, ys i = xs j
  outside : ∀ i, n ≤ i → ys i = xs i

theorem siftDown_spec (h : Fits num size) (hle : Respects cmp le)
    (hsw : Exchanges num size swapFunc) {mem : Mem} (tick : ℕ) (hn : n ≤ num.toNat) (ha : a < n)
    (hfuel : num.toNat < fuel) (hsize : size.toNat < fuel)
    (hheap : HeapFrom le (elems size mem) (a + 1) n) :
    ∃ mem' tick', siftDown fuel num size cmp swapFunc mem tick (offset size n) (offset size a) =
        some (mem', tick') ∧ Sifted le num.toNat a n (elems size mem) (elems size mem') := by
  obtain ⟨r, hdescend, ⟨tick1, off1⟩, b, l, rfl, hpath, hleaf⟩ := runLoop_of_rank
    (descendRound_spec (a := a) h hle hn mem) (s := (tick, offset size a))
    ⟨a, [], ⟨rfl, climbsTo_nil a, ha, fun u hu hne => absurd (mem_singleton.mp hu) hne⟩, rfl⟩
    (show n - a < fuel by omega)
  have hb := hpath.lt
  have hfit : Fitting size le (elems size mem) n a off1 b l := ⟨hpath, fun k hk hk0 hkb => by
    rcases (heapParent_eq_iff hk0).mp hkb with rfl | rfl <;> omega⟩
  obtain ⟨r, hclimb, ⟨tick2, off2⟩, c, l', rfl, hfit', htop⟩ := runLoop_of_rank
    (climbRound_spec (a := a) h hle hn mem) (s := (tick1, off1)) ⟨b, l, hfit, rfl⟩
    (show b < fuel by omega)
  have hc := hfit'.lt
  obtain ⟨r, hshift, mem', rfl, hmem'⟩ := runLoop_of_rank
    (shiftRound_spec (a := a) h hsw (show c < num.toNat by omega) hsize) (s := (mem, off2))
    ⟨c, l', hfit'.at_offset, hfit'.path, le_rfl, (nodup_cons.mp hfit'.path.nodup).1, rfl, rfl⟩
    (show c < fuel by omega)
  have hinside : ∀ u ∈ c :: l', u < n := fun u hu => by
    have := hfit'.path.bounds hu
    omega
  refine ⟨mem', tick2, ?_, ?_⟩
  · obtain rfl : off2 = offset size c := hfit'.at_offset
    rw [siftDown, hdescend, Option.join_some, Option.bind_some]
    simp [hclimb, Option.join_some, hshift]
  · rw [hmem']
    exact ⟨hheap.rotate hfit'.path hc hfit'.greatest htop hfit'.below,
      elements_rotate fun u hu => (hinside u hu).trans_le hn, fun i hi => rotate_lt _ hinside hi,
      fun i hi => rotate_of_not_mem fun hmem => absurd (hinside i hmem) (by omega)⟩

/-! ## The main loop -/

/-- The elements behind the heap are sorted, and none of the heap is above them. -/
structure Extracted (le : Elem size → Elem size → Prop)
    (num n : ℕ) (xs : ℕ → Elem size) : Prop where
  above : ∀ i < n, ∀ j, n ≤ j → j < num → le (xs i) (xs j)
  sorted : ∀ i j, n ≤ i → i < j → j < num → le (xs i) (xs j)

/-- A sift inside of the heap changes nothing behind it. -/
theorem Extracted.sifted (h : Extracted le m n xs)
    (hs : Sifted le m a n xs ys) : Extracted le m n ys where
  above i hi j hj hjm := by
    obtain ⟨k, hk, hik⟩ := hs.inside i hi
    rw [hik, hs.outside j hj]
    exact h.above k hk j hj hjm
  sorted i j hi hij hj := by
    rw [hs.outside i hi, hs.outside j (by omega)]
    exact h.sorted i j hi hij hj

/-- The root goes to the end of the heap. -/
theorem Extracted.root (hle : Respects cmp le) (hheap : HeapFrom le xs 0 (n + 1))
    (h : Extracted le m (n + 1) xs) (hn : 0 < n) :
    HeapFrom le (xs ∘ Equiv.swap 0 n) 1 n ∧ Extracted le m n (xs ∘ Equiv.swap 0 n) := by
  have hroot := hheap.le_root hle.refl hle.trans
  have hkeep : ∀ k, k ≠ 0 → k ≠ n → (xs ∘ swap 0 n) k = xs k := fun k h0 hkn => by
    rw [comp_apply, swap_apply_of_ne_of_ne h0 hkn]
  have hend : (xs ∘ swap 0 n) n = xs 0 := by rw [comp_apply, swap_apply_right]
  have hfirst : (xs ∘ swap 0 n) 0 = xs n := by rw [comp_apply, swap_apply_left]
  have hin : ∀ i < n, ∃ k < n + 1, (xs ∘ swap 0 n) i = xs k := fun i hi => by
    by_cases hi0 : i = 0
    · exact ⟨n, by omega, by rw [hi0, hfirst]⟩
    · exact ⟨i, by omega, hkeep i hi0 (by omega)⟩
  refine ⟨fun j hj hj0 hpar => ?_, fun i hi j hj hjm => ?_, fun i j hi hij hjm => ?_⟩
  · have hlt := heapParent_lt hj0
    rw [hkeep j (by omega) (by omega), hkeep _ (by omega) (by omega)]
    exact hheap j (by omega) hj0 (zero_le _)
  · obtain ⟨k, hk, hik⟩ := hin i hi
    rw [hik]
    rcases eq_or_lt_of_le hj with rfl | hjn
    · rw [hend]
      exact hroot k hk
    · rw [hkeep j (by omega) (by omega)]
      exact h.above k hk j hjn hjm
  · rw [hkeep j (by omega) (by omega)]
    rcases eq_or_lt_of_le hi with rfl | hin
    · rw [hend]
      exact h.above 0 (by omega) j hij hjm
    · rw [hkeep i (by omega) (by omega)]
      exact h.sorted i j hin hij hjm

/-- The invariant of the main loop, from the elements `xs₀` on. -/
structure Sorting (num size : BitVec 64)
    (le : Elem size → Elem size → Prop)
    (xs₀ : ℕ → Elem size) (s : State) (n a : ℕ) : Prop where
  n_offset : s.n = offset size n
  a_offset : s.a = offset size a
  n_le : n ≤ num.toNat
  a_lt : a < n
  building : a = 0 ∨ n = num.toNat
  heap : HeapFrom le (elems size s.mem) a n
  extracted : Extracted le num.toNat n (elems size s.mem)
  perm : (elements (elems size s.mem) num.toNat).Perm (elements xs₀ num.toNat)
  outside : ∀ i, num.toNat ≤ i → elems size s.mem i = xs₀ i

theorem sortRound_spec (h : Fits num size) (hle : Respects cmp le)
    (hsw : Exchanges num size swapFunc) (hfuel : num.toNat < fuel) (hsize : size.toNat < fuel)
    (xs0 : ℕ → Elem size) :
    RoundKeeps (sortRound fuel num size cmp swapFunc)
      (fun v s => ∃ n a, Sorting num size le xs0 s n a ∧ n + a = v)
      fun r => ∃ s', r = some s'.mem ∧ Sorting num size le xs0 s' 1 0 := by
  intro v s hs
  obtain ⟨mem, tick, off, off'⟩ := s
  obtain ⟨n, a, hs, rfl⟩ := hs
  obtain rfl : off = offset size n := hs.n_offset
  obtain rfl : off' = offset size a := hs.a_offset
  have hn := hs.n_le
  have hlt := hs.a_lt
  have hzero : offset size 0 = 0 := (h.offset_eq_zero (zero_le _)).mpr rfl
  rw [sortRound]
  by_cases ha : a = 0
  · subst ha
    obtain ⟨m, rfl⟩ : ∃ m, n = m + 1 := ⟨n - 1, by omega⟩
    by_cases hm : m = 0
    · subst hm
      simp only [hzero, ne_eq, not_true, if_false, offset_pred]
      exact .inr ⟨_, rfl, _, rfl, hs⟩
    obtain ⟨mem1, hswap, hmem1⟩ := doSwap_spec h hsw mem (show 0 < num.toNat by omega)
      (show m < num.toNat by omega) (Ne.symm hm) hsize
    obtain ⟨hheap, hext⟩ := hs.extracted.root hle hs.heap (pos_of_ne_zero hm)
    rw [← hmem1] at hheap hext
    obtain ⟨mem', tick', hsift, hsifted⟩ := siftDown_spec h hle hsw tick
      (show m ≤ num.toNat by omega) (pos_of_ne_zero hm) hfuel hsize hheap
    rw [hzero] at hswap hsift
    have hne : offset size m ≠ 0 := mt (h.offset_eq_zero (by omega)).mp hm
    simp only [hzero, ne_eq, not_true, if_false, offset_pred, hne,
      not_false_iff, if_true, hswap, hsift]
    refine .inl ⟨_, m, rfl, by omega, m, 0, ⟨rfl, hzero.symm, by omega, pos_of_ne_zero hm,
      .inl rfl, hsifted.heap, hext.sifted hsifted, ?_, fun i hi => ?_⟩, rfl⟩
    · refine hsifted.perm.trans (List.Perm.trans ?_ hs.perm)
      rw [hmem1]
      exact elements_swap _ (by omega) (by omega)
    · rw [hsifted.outside i (by omega), hmem1, comp_apply,
        swap_apply_of_ne_of_ne (by omega) (by omega)]
      exact hs.outside i hi
  · obtain ⟨a, rfl⟩ : ∃ m, a = m + 1 := ⟨a - 1, by omega⟩
    obtain ⟨mem', tick', hsift, hsifted⟩ := siftDown_spec h hle hsw tick hn
      (show a < n by omega) hfuel hsize hs.heap
    have hne : offset size (a + 1) ≠ 0 := mt (h.offset_eq_zero (by omega)).mp ha
    simp only [ne_eq, hne, not_false_iff, if_true, offset_pred, hsift]
    refine .inl ⟨_, n + a, rfl, by omega, n, a, ⟨rfl, rfl, hn, by omega, ?_, hsifted.heap,
      hs.extracted.sifted hsifted, hsifted.perm.trans hs.perm, fun i hi => ?_⟩, rfl⟩
    · exact .inr (hs.building.resolve_left (by omega))
    · rw [hsifted.outside i (by omega)]
      exact hs.outside i hi

/-- `sort_r`, relative to a relation that the comparison respects. -/
theorem sortR_spec (h : Fits num size) (hle : Respects cmp le) (efficient : Bool)
    (base : BitVec 64)
    (huser : UserExchanges num size userSwap) (hfuel : 2 * num.toNat < fuel)
    (hsize : size.toNat < fuel) (mem : Mem) :
    ∃ mem', sortR fuel num size cmp efficient base mem userSwap = some mem' ∧
      (elements (elems size mem') num.toNat).Perm (elements (elems size mem) num.toNat) ∧
      (∀ i, num.toNat ≤ i → elems size mem' i = elems size mem i) ∧
      ∀ i j, i < j → j < num.toNat → le (elems size mem' i) (elems size mem' j) := by
  have hhalf : num / 2 * size = offset size (num.toNat / 2) := by
    refine BitVec.eq_of_toNat_eq ?_
    rw [BitVec.toNat_mul, BitVec.toNat_udiv, show (2 : BitVec 64).toNat = 2 by decide, offset,
      BitVec.toNat_ofNat]
  have hall : num * size = offset size num.toNat := by
    refine BitVec.eq_of_toNat_eq ?_
    rw [BitVec.toNat_mul, offset, BitVec.toNat_ofNat]
  have heq := h.offset_eq_zero (i := num.toNat / 2) (by omega)
  simp only [sortR, hhalf, hall]
  by_cases hnum : num.toNat / 2 = 0
  · rw [if_pos (heq.mpr hnum)]
    exact ⟨mem, rfl, List.Perm.refl _, fun _ _ => rfl, fun i j hij hj => by omega⟩
  rw [if_neg (mt heq.mp hnum)]
  have hsw := exchanges_chooseSwap efficient base huser
  have hstart : Sorting num size le (elems size mem)
      ⟨mem, 0, offset size num.toNat, offset size (num.toNat / 2)⟩ num.toNat (num.toNat / 2) := by
    refine ⟨rfl, rfl, le_rfl, by omega, .inr rfl, fun j hj hj0 hpar => ?_, ⟨?_, ?_⟩,
      List.Perm.refl _, fun _ _ => rfl⟩
    · -- The second half of the array has no children in it.
      rw [heapParent] at hpar
      omega
    · intro i hi j hj hjn
      omega
    · intro i j hi hij hj
      omega
  obtain ⟨r, hrun, s, rfl, hdone⟩ := runLoop_of_rank
    (sortRound_spec h hle hsw (by omega) hsize (elems size mem)) ⟨_, _, hstart, rfl⟩
    (show num.toNat + num.toNat / 2 < fuel by omega)
  refine ⟨s.mem, by rw [hrun]; rfl, hdone.perm, hdone.outside, fun i j hij hj => ?_⟩
  rcases Nat.eq_zero_or_pos i with rfl | hi
  · exact hdone.extracted.above 0 (by omega) j hij hj
  · exact hdone.extracted.sorted i j hi hij hj

/-- The comparison function is a total preorder : its sign is the opposite one with the arguments
exchanged, and it is transitive. -/
structure TotalPreorder {α : Type*} (c : α → α → ℤ) : Prop where
  sign : ∀ x y, 0 ≤ c x y ↔ c y x ≤ 0
  trans : ∀ x y z, c x y ≤ 0 → c y z ≤ 0 → c x z ≤ 0

/-- `sort_r` ends without a fault for every array, every comparison and every routine that exchanges
two elements. The elements are those of the array before, nothing outside of the array has changed,
and with a total preorder they are in order. -/
theorem sortR_sorts (fuel : ℕ) (num size : BitVec 64)
    (cmp : ℕ → Elem size → Elem size → ℤ) (efficient : Bool)
    (base : BitVec 64) (mem : Mem) (userSwap : Option (Mem → ℕ → ℕ → ℕ → Mem))
    (hpos : 1 ≤ size.toNat) (hmax : size.toNat ≤ 2 ^ 31 - 1)
    (hshort : num.toNat * size.toNat < 2 ^ 63) (huser : UserExchanges num size userSwap)
    (hfuel : 2 * num.toNat + size.toNat < fuel) :
    ∃ mem', sortR fuel num size cmp efficient base mem userSwap = some mem' ∧
      (elements (elems size mem') num.toNat).Perm (elements (elems size mem) num.toNat) ∧
      (∀ x, num.toNat * size.toNat ≤ x → mem' x = mem x) ∧
      ∀ c, TotalPreorder c → (∀ t x y, cmp t x y = c x y) →
        (elements (elems size mem') num.toNat).Pairwise fun x y => c x y ≤ 0 := by
  have hfits : Fits num size := ⟨hpos, by omega, hshort⟩
  have hany : Respects cmp fun _ _ => True :=
    ⟨fun _ => trivial, fun _ _ _ _ _ => trivial, fun _ _ _ _ => trivial, fun _ _ _ _ => trivial⟩
  obtain ⟨mem', hsort, hperm, hout, -⟩ := sortR_spec hfits hany efficient base huser
    (show 2 * num.toNat < fuel by omega) (by omega) mem
  refine ⟨mem', hsort, hperm, fun x hx => ?_, fun c hc hcmp => ?_⟩
  · refine mem_eq_of_elems hpos (hout _ ?_)
    exact (le_div_iff_mul_le hpos).mpr hx
  have hle : Respects cmp fun x y => c x y ≤ 0 := by
    refine ⟨fun x => ?_, hc.trans, fun t x y hxy => ?_, fun t x y hxy => ?_⟩
    · rcases le_total (c x x) 0 with h | h
      · exact h
      · exact (hc.sign x x).mp h
    · rw [hcmp] at hxy
      exact (hc.sign x y).mp hxy
    · rw [hcmp] at hxy
      exact hxy.le
  obtain ⟨mem'', hsort', -, -, hsorted⟩ := sortR_spec hfits hle efficient base huser
    (show 2 * num.toNat < fuel by omega) (by omega) mem
  obtain rfl : mem' = mem'' := Option.some_inj.mp (hsort.symm.trans hsort')
  rw [elements, pairwise_map]
  refine pairwise_lt_range.imp_of_mem fun hi hj hij => ?_
  exact hsorted _ _ hij (mem_range.mp hj)

/-- Three bytes, compared by their values. -/
theorem sortR_sorts_three :
    ∃ mem', sortR 20 3 1 (fun _ x y => (∑ i, ((x i).toNat : ℤ)) - ∑ i, ((y i).toNat : ℤ)) true 0
        (fun x => BitVec.ofNat 8 (7 - x)) none = some mem' ∧
      (elements (elems 1 mem') 3).Pairwise fun x y =>
        (∑ i, ((x i).toNat : ℤ)) - ∑ i, ((y i).toNat : ℤ) ≤ 0 := by
  obtain ⟨mem', hsort, -, -, hsorted⟩ := sortR_sorts 20 3 1
    (fun _ x y => (∑ i, ((x i).toNat : ℤ)) - ∑ i, ((y i).toNat : ℤ)) true 0
    (fun x => BitVec.ofNat 8 (7 - x)) none (by decide) (by decide) (by decide)
    (fun f hf => (by cases hf)) (by decide)
  exact ⟨mem', hsort, hsorted _ ⟨fun x y => (by omega), fun x y z hxy hyz => (by omega)⟩
    fun _ _ _ => rfl⟩

end HeapSort

end LinuxKernelTest
