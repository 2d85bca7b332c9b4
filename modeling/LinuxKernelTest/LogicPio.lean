import Mathlib.Tactic
import Mathlib.Order.CompletePartialOrder
import LinuxKernelTest.Machine

/-!
# Logical port numbers

`lib/logic_pio.c` gives every registered I/O range an interval of tokens. The ranges are in a list,
in the order in which they came. A memory-mapped one gets the tokens behind the last memory-mapped
range of the list, and an indirect one those behind `MMIO_UPPER_LIMIT` plus the sizes of all
indirect ranges.

The first rule survives any removal, because the tokens of the memory-mapped ranges ascend along the
list. The second one does not : the sum is right only if no range has been taken away in front of
another one (`NoGap`). The two halves also meet in the token `MMIO_UPPER_LIMIT`, which the test for
space grants to the last memory-mapped range and the first indirect one alike, and the same tests
wrap around for a size near `2 ^ 32`. `PioCall.Meets` excludes just these.

`CONFIG_PHYS_ADDR_T_64BIT` is not set, so a `resource_size_t` has 32 bits. A token that is looked up
is an `unsigned long` of 64 bits.
-/

set_option linter.unusedSectionVars false

namespace LinuxKernelTest

open BitVec

/-- `resource_size_t`. -/
abbrev ResourceSize := BitVec 32

/-- A registered range. -/
structure PioRange (ρ φ : Type) where
  id : ρ
  fwnode : φ
  hwStart : ResourceSize
  ioStart : ResourceSize
  size : ResourceSize
  flags : BitVec 64
deriving DecidableEq, Repr

/-- What the caller sets in a range before it registers it. -/
structure PioRequest (φ : Type) where
  fwnode : Option φ
  hwStart : ResourceSize
  size : ResourceSize
  flags : BitVec 64
deriving DecidableEq, Repr

namespace LogicPio

/-- `LOGIC_PIO_INDIRECT`. -/
def indirectFlag : BitVec 64 := 0

/-- `LOGIC_PIO_CPU_MMIO`. -/
def mmioFlag : BitVec 64 := 1

/-- `IO_SPACE_LIMIT`. -/
def ioSpaceLimit : ResourceSize := 0xffff

/-- `MMIO_UPPER_LIMIT`, with and without `CONFIG_INDIRECT_PIO`. -/
def mmioUpperLimit (indirectPio : Bool) : ResourceSize :=
  if indirectPio then ioSpaceLimit - 0x4000 else ioSpaceLimit

/-- `SZ_64K`. -/
def sz64K : ResourceSize := 0x10000

/-- `-EINVAL`. -/
def einval : ℤ := -22

/-- `-EFAULT`. -/
def efault : ℤ := -14

/-- `-E2BIG`. -/
def e2big : ℤ := -7

variable {ρ φ : Type} [DecidableEq ρ] [DecidableEq φ]

/-- The loop of `logic_pio_register_range`, with `mmio_end` and `iio_sz`. It may end the call with a
result. -/
def scan (fwnode : φ) (new : PioRequest φ) :
    List (PioRange ρ φ) → ResourceSize → ResourceSize → Except ℤ (ResourceSize × ResourceSize)
  | [], mmioEnd, iioSz => .ok (mmioEnd, iioSz)
  | range :: rest, mmioEnd, iioSz =>
    if range.fwnode = fwnode then .error 0
    else if range.flags = mmioFlag ∧ new.flags = mmioFlag then
      if range.hwStart + range.size ≤ new.hwStart ∨ new.hwStart + new.size < range.hwStart then
        scan fwnode new rest (range.ioStart + range.size) iioSz
      else .error efault
    else if range.flags = indirectFlag ∧ new.flags = indirectFlag then
      scan fwnode new rest mmioEnd (iioSz + range.size)
    else scan fwnode new rest mmioEnd iioSz

/-- The check for space, with the first token and the size of the range. -/
def place (indirectPio : Bool) (new : PioRequest φ) (mmioEnd iioSz : ResourceSize) :
    Except ℤ (ResourceSize × ResourceSize) :=
  if new.flags = mmioFlag then
    if mmioUpperLimit indirectPio < mmioEnd + new.size - 1 then
      if mmioUpperLimit indirectPio < mmioEnd + sz64K - 1 then .error e2big
      else .ok (mmioEnd, sz64K)
    else .ok (mmioEnd, new.size)
  else if new.flags = indirectFlag then
    if ioSpaceLimit < iioSz + new.size - 1 then .error e2big else .ok (iioSz, new.size)
  else .error einval

/-- `logic_pio_register_range`. -/
def registerRange (indirectPio : Bool) (id : ρ) (new : PioRequest φ) (s : List (PioRange ρ φ)) :
    List (PioRange ρ φ) × ℤ :=
  match new.fwnode with
  | none => (s, einval)
  | some fwnode =>
    if new.size = 0 then (s, einval)
    else
      let found := (scan fwnode new s 0 (mmioUpperLimit indirectPio)).bind fun ends =>
        place indirectPio new ends.1 ends.2
      match found with
      | .error ret => (s, ret)
      | .ok (ioStart, size) => (s ++ [⟨id, fwnode, new.hwStart, ioStart, size, new.flags⟩], 0)

/-- `logic_pio_unregister_range`. -/
def unregisterRange (id : ρ) (s : List (PioRange ρ φ)) : List (PioRange ρ φ) :=
  s.eraseP fun r => r.id = id

/-- `find_io_range`. -/
def findIoRange (s : List (PioRange ρ φ)) (pio : BitVec 64) : Option (PioRange ρ φ) :=
  s.find? fun r => r.ioStart.setWidth 64 ≤ pio ∧ pio < (r.ioStart + r.size).setWidth 64

/-- `logic_pio_to_hwaddr`. -/
def logicPioToHwaddr (s : List (PioRange ρ φ)) (pio : BitVec 64) : ResourceSize :=
  match findIoRange s pio with
  | some range =>
    (range.hwStart.setWidth 64 + pio - range.ioStart.setWidth 64).setWidth 32
  | none => BitVec.allOnes 32

end LogicPio

/-- The calls. -/
inductive PioCall (ρ φ : Type)
  | register (id : ρ) (new : PioRequest φ)
  | unregister (id : ρ)

namespace PioCall

open LogicPio

variable {ρ φ : Type} [DecidableEq ρ] [DecidableEq φ]

/-- One call, with its result. -/
def step (indirectPio : Bool) (s : List (PioRange ρ φ)) :
    PioCall ρ φ → Option (List (PioRange ρ φ) × ℤ)
  | register id new => some (registerRange indirectPio id new s)
  | unregister id => some (unregisterRange id s, 0)

/-- A new range is not in the list, and one that is taken away is. -/
def Promised (s : List (PioRange ρ φ)) : PioCall ρ φ → Prop
  | register id _ => ∀ r ∈ s, r.id ≠ id
  | unregister id => ∃ r ∈ s, r.id = id

end PioCall

/-! ## Tokens -/

namespace PioRange

open LogicPio

variable {ρ φ : Type}

/-- The first token behind a range. -/
def ioEnd (r : PioRange ρ φ) : ℕ := r.ioStart.toNat + r.size.toNat

/-- The tokens of a range. -/
def tokens (r : PioRange ρ φ) : Set ℕ := Set.Ico r.ioStart.toNat r.ioEnd

/-- A range is in its half of the tokens, which share one. -/
structure Placed (indirectPio : Bool) (r : PioRange ρ φ) : Prop where
  flags : r.flags = mmioFlag ∨ r.flags = indirectFlag
  mmio : r.flags = mmioFlag → r.ioEnd ≤ (mmioUpperLimit indirectPio).toNat + 1
  indirect : r.flags = indirectFlag →
    (mmioUpperLimit indirectPio).toNat ≤ r.ioStart.toNat ∧ r.ioEnd ≤ ioSpaceLimit.toNat + 1

/-- What holds of a range and a later one in the list. -/
structure Before (r r' : PioRange ρ φ) : Prop where
  disjoint : Disjoint r.tokens r'.tokens
  ascending : r.flags = mmioFlag → r'.flags = mmioFlag → r.ioEnd ≤ r'.ioStart.toNat

end PioRange

namespace LogicPio

variable {ρ φ : Type} [DecidableEq ρ] [DecidableEq φ]

/-- The first token behind all memory-mapped ranges. -/
def mmioTop : List (PioRange ρ φ) → ℕ
  | [] => 0
  | r :: s => if r.flags = mmioFlag then max r.ioEnd (mmioTop s) else mmioTop s

/-- The sizes of all indirect ranges. -/
def indirectTotal : List (PioRange ρ φ) → ℕ
  | [] => 0
  | r :: s => if r.flags = indirectFlag then r.size.toNat + indirectTotal s else indirectTotal s

/-- From the token `first` on, each indirect range begins where the one before it ends. -/
def NoGap : ℕ → List (PioRange ρ φ) → Prop
  | _, [] => True
  | first, r :: s =>
    if r.flags = indirectFlag then r.ioStart.toNat = first ∧ NoGap (first + r.size.toNat) s
    else NoGap first s

instance decidableNoGap : ∀ (first : ℕ) (s : List (PioRange ρ φ)), Decidable (NoGap first s)
  | _, [] => .isTrue trivial
  | first, r :: s =>
    if h : r.flags = indirectFlag then
      have := decidableNoGap (first + r.size.toNat) s
      decidable_of_iff (r.ioStart.toNat = first ∧ NoGap (first + r.size.toNat) s)
        (by rw [NoGap, if_pos h])
    else
      have := decidableNoGap first s
      decidable_of_iff (NoGap first s) (by rw [NoGap, if_neg h])

end LogicPio

namespace PioCall

open LogicPio

variable {ρ φ : Type} [DecidableEq ρ] [DecidableEq φ]

/-- The size of a new range does not wrap around. If the token between the halves is taken, a new
memory-mapped range ends before it or is refused. A new indirect range comes when no other one has
been taken away in front of the present ones, and the first of them when the token between the
halves is free. -/
def Meets (indirectPio : Bool) (s : List (PioRange ρ φ)) : PioCall ρ φ → Prop
  | register _ new =>
    let limit := (mmioUpperLimit indirectPio).toNat
    ioSpaceLimit.toNat + new.size.toNat < 2 ^ 32 ∧
    (new.flags = mmioFlag →
      (∀ r ∈ s, r.flags = indirectFlag → r.ioStart.toNat ≠ limit) ∨
      mmioTop s + new.size.toNat ≤ limit ∨
      limit + 1 < mmioTop s + new.size.toNat ∧ limit + 1 < mmioTop s + sz64K.toNat) ∧
    (new.flags = indirectFlag → NoGap limit s ∧ (mmioTop s ≤ limit ∨ 0 < indirectTotal s))
  | unregister _ => True

instance decidableMeets (indirectPio : Bool) (s : List (PioRange ρ φ)) (o : PioCall ρ φ) :
    Decidable (o.Meets indirectPio s) := by
  cases o <;> unfold Meets <;> infer_instance

instance decidablePromised (s : List (PioRange ρ φ)) (o : PioCall ρ φ) :
    Decidable (o.Promised s) := by
  cases o <;> unfold Promised <;> infer_instance

end PioCall

/-! ## What a call keeps -/

namespace LogicPio

variable {ρ φ : Type} [DecidableEq ρ] [DecidableEq φ] {indirectPio : Bool}

theorem mmioUpperLimit_le (indirectPio : Bool) :
    (mmioUpperLimit indirectPio).toNat ≤ ioSpaceLimit.toNat := by
  cases indirectPio <;> decide

theorem ioSpaceLimit_lt : ioSpaceLimit.toNat + 1 < 2 ^ 32 := by decide

/-- The ranges of the list. -/
structure Allotted (indirectPio : Bool) (s : List (PioRange ρ φ)) : Prop where
  placed : ∀ r ∈ s, r.Placed indirectPio
  before : s.Pairwise PioRange.Before

variable {s : List (PioRange ρ φ)} {r r' : PioRange ρ φ} {first : ℕ}

theorem Allotted.sublist {s' : List (PioRange ρ φ)} (h : Allotted indirectPio s)
    (hs : s'.Sublist s) : Allotted indirectPio s' :=
  ⟨fun r hr => h.placed r (hs.subset hr), h.before.sublist hs⟩

theorem ioEnd_le (h : r.Placed indirectPio) : r.ioEnd ≤ ioSpaceLimit.toNat + 1 := by
  rcases h.flags with hm | hi
  · exact (h.mmio hm).trans (Nat.succ_le_succ (mmioUpperLimit_le indirectPio))
  · exact (h.indirect hi).2

theorem toNat_ioEnd (h : r.Placed indirectPio) : (r.ioStart + r.size).toNat = r.ioEnd := by
  rw [toNat_add]
  exact Nat.mod_eq_of_lt ((ioEnd_le h).trans_lt ioSpaceLimit_lt)

theorem disjoint_of_le (h : r.ioEnd ≤ r'.ioStart.toNat) : Disjoint r.tokens r'.tokens :=
  Set.disjoint_left.mpr fun _ hx hx' => absurd (hx.2.trans_le h) (not_lt.mpr hx'.1)

theorem ioEnd_le_mmioTop (hr : r ∈ s) (hflags : r.flags = mmioFlag) : r.ioEnd ≤ mmioTop s := by
  induction s with
  | nil => cases hr
  | cons r' s ih =>
    rw [mmioTop]
    rcases List.mem_cons.mp hr with rfl | hr
    · rw [if_pos hflags]
      exact le_max_left _ _
    · split_ifs
      · exact (ih hr).trans (le_max_right _ _)
      · exact ih hr

theorem mmioTop_le (h : ∀ r ∈ s, r.Placed indirectPio) :
    mmioTop s ≤ (mmioUpperLimit indirectPio).toNat + 1 := by
  induction s with
  | nil => exact Nat.zero_le _
  | cons r s ih =>
    have hs := ih fun r hr => h r (List.mem_cons_of_mem _ hr)
    rw [mmioTop]
    split_ifs with hflags
    · exact max_le ((h r List.mem_cons_self).mmio hflags) hs
    · exact hs

/-- Without a gap the indirect ranges end before their sizes are used up. -/
theorem NoGap.ioEnd_le (h : NoGap first s) (hr : r ∈ s)
    (hflags : r.flags = indirectFlag) : r.ioEnd ≤ first + indirectTotal s := by
  induction s generalizing first with
  | nil => cases hr
  | cons r' s ih =>
    rw [NoGap] at h
    rw [indirectTotal]
    rcases List.mem_cons.mp hr with rfl | hr
    · rw [if_pos hflags] at h ⊢
      rw [PioRange.ioEnd, h.1]
      omega
    split_ifs at h ⊢
    · have := ih h.2 hr
      omega
    · exact ih h hr

theorem NoGap.total_le (h : NoGap first s) (hs : ∀ r ∈ s, r.Placed indirectPio)
    (hfirst : first ≤ ioSpaceLimit.toNat + 1) :
    first + indirectTotal s ≤ ioSpaceLimit.toNat + 1 := by
  induction s generalizing first with
  | nil => exact hfirst
  | cons r s ih =>
    have hs' : ∀ r ∈ s, r.Placed indirectPio := fun r hr => hs r (List.mem_cons_of_mem _ hr)
    rw [NoGap] at h
    rw [indirectTotal]
    split_ifs at h ⊢ with hflags
    · have hend := ((hs r List.mem_cons_self).indirect hflags).2
      rw [PioRange.ioEnd, h.1] at hend
      rw [← Nat.add_assoc]
      exact ih h.2 hs' hend
    · exact ih h hs' hfirst

variable {ends : ResourceSize × ResourceSize} {new : PioRequest φ} {fwnode : φ}
  {mmioEnd iioSz : ResourceSize} {n : PioRange ρ φ}

/-- For a memory-mapped range the loop finds the end of the last one, which is the highest. -/
theorem scan_mmio (hnew : new.flags = mmioFlag)
    (h : Allotted indirectPio s)
    (hstart : ∀ r ∈ s, r.flags = mmioFlag → mmioEnd.toNat ≤ r.ioStart.toNat)
    (hscan : scan fwnode new s mmioEnd iioSz = .ok ends) :
    ends.1.toNat = max mmioEnd.toNat (mmioTop s) := by
  induction s generalizing mmioEnd iioSz with
  | nil =>
    cases hscan
    simp [mmioTop]
  | cons r s ih =>
    have hs := h.sublist (List.sublist_cons_self r s)
    have hr := h.placed r List.mem_cons_self
    have hstart' : ∀ r ∈ s, r.flags = mmioFlag → mmioEnd.toNat ≤ r.ioStart.toNat :=
      fun r hr => hstart r (List.mem_cons_of_mem _ hr)
    rw [scan] at hscan
    rw [mmioTop]
    split_ifs at hscan with hfw hmm hok hii
    · have hend := toNat_ioEnd hr
      rw [ih hs (fun r' hr' hf => ?_) hscan, hend, if_pos hmm.1]
      · have := hstart r List.mem_cons_self hmm.1
        have hle : r.ioStart.toNat ≤ r.ioEnd := Nat.le_add_right _ _
        omega
      · rw [hend]
        exact (List.rel_of_pairwise_cons h.before hr').ascending hmm.1 hf
    · rw [hnew] at hii
      exact absurd hii.2 (by decide)
    · rw [if_neg fun hf => hmm ⟨hf, hnew⟩]
      exact ih hs hstart' hscan

/-- For an indirect range it adds up the sizes. -/
theorem scan_indirect (hnew : new.flags = indirectFlag)
    (hscan : scan fwnode new s mmioEnd iioSz = .ok ends) :
    ends.2.toNat = (iioSz.toNat + indirectTotal s) % 2 ^ 32 := by
  induction s generalizing mmioEnd iioSz with
  | nil =>
    cases hscan
    rw [indirectTotal, Nat.add_zero, Nat.mod_eq_of_lt iioSz.isLt]
  | cons r s ih =>
    rw [scan] at hscan
    rw [indirectTotal]
    split_ifs at hscan with hfw hmm hok hii
    · rw [hnew] at hmm
      exact absurd hmm.2 (by decide)
    · rw [ih hscan, if_pos hii.1, toNat_add, Nat.mod_add_mod, Nat.add_assoc]
    · rw [if_neg fun hf => hii ⟨hf, hnew⟩]
      exact ih hscan

/-- The test for space, if the size does not wrap around. -/
theorem lt_add_sub_one_iff {limit first size : ResourceSize} (hsize : size ≠ 0)
    (hfirst : first.toNat ≤ ioSpaceLimit.toNat + 1)
    (hwrap : ioSpaceLimit.toNat + size.toNat < 2 ^ 32) :
    limit < first + size - 1 ↔ limit.toNat + 1 < first.toNat + size.toNat := by
  have hpos : size.toNat ≠ 0 := fun hc => hsize (eq_of_toNat_eq hc)
  have hone : (1 : ResourceSize).toNat = 1 := by decide
  have hsum : (first + size - 1).toNat = first.toNat + size.toNat - 1 := by
    rw [toNat_sub, toNat_add, hone]
    omega
  rw [lt_def, hsum]
  omega

/-- What a successful check for space says. -/
theorem place_cases {mmioEnd iioSz ioStart size : ResourceSize}
    (h : place indirectPio new mmioEnd iioSz = .ok (ioStart, size)) :
    (new.flags = mmioFlag ∧ ioStart = mmioEnd ∧
      (size = new.size ∧ ¬mmioUpperLimit indirectPio < mmioEnd + new.size - 1 ∨
        size = sz64K ∧ mmioUpperLimit indirectPio < mmioEnd + new.size - 1 ∧
          ¬mmioUpperLimit indirectPio < mmioEnd + sz64K - 1)) ∨
    (new.flags = indirectFlag ∧ ioStart = iioSz ∧ size = new.size ∧
      ¬ioSpaceLimit < iioSz + new.size - 1) := by
  rw [place] at h
  split_ifs at h with hm hbig hbig' hi hfull
  · cases h
    exact .inl ⟨hm, rfl, .inr ⟨rfl, hbig, hbig'⟩⟩
  · cases h
    exact .inl ⟨hm, rfl, .inl ⟨rfl, hbig⟩⟩
  · cases h
    exact .inr ⟨hi, rfl, rfl, hfull⟩

theorem registerRange_cases (id : ρ) (new : PioRequest φ) (s : List (PioRange ρ φ)) :
    (registerRange indirectPio id new s).1 = s ∨ ∃ fwnode ends ioStart size, new.size ≠ 0 ∧
        scan fwnode new s 0 (mmioUpperLimit indirectPio) = .ok ends ∧
        place indirectPio new ends.1 ends.2 = .ok (ioStart, size) ∧
        (registerRange indirectPio id new s).1 =
          s ++ [⟨id, fwnode, new.hwStart, ioStart, size, new.flags⟩] := by
  cases hfw : new.fwnode with
  | none => exact .inl (by simp [registerRange, hfw])
  | some fwnode =>
    by_cases hsize : new.size = 0
    · exact .inl (by simp [registerRange, hfw, hsize])
    cases hscan : scan fwnode new s 0 (mmioUpperLimit indirectPio) with
    | error ret =>
      exact .inl (by simp only [registerRange, hfw, if_neg hsize, hscan, Except.bind])
    | ok ends =>
      cases hplace : place indirectPio new ends.1 ends.2 with
      | error ret =>
        exact .inl (by simp only [registerRange, hfw, if_neg hsize, hscan, hplace, Except.bind])
      | ok found =>
        exact .inr ⟨fwnode, ends, found.1, found.2, hsize, hscan, hplace,
          by simp only [registerRange, hfw, if_neg hsize, hscan, hplace, Except.bind]⟩

variable (h : Allotted indirectPio s) {id : ρ}
include h

/-- A new memory-mapped range. -/
theorem Allotted.place_mmio {size : ResourceSize}
    (hm : (PioCall.register id new).Meets indirectPio s) (hnew : new.flags = mmioFlag)
    (hsize : new.size ≠ 0) (hscan : scan fwnode new s 0 (mmioUpperLimit indirectPio) = .ok ends)
    (hfit : size = new.size ∧ ¬mmioUpperLimit indirectPio < ends.1 + new.size - 1 ∨
      size = sz64K ∧ mmioUpperLimit indirectPio < ends.1 + new.size - 1 ∧
        ¬mmioUpperLimit indirectPio < ends.1 + sz64K - 1)
    (hn : n = ⟨id, fwnode, new.hwStart, ends.1, size, new.flags⟩) :
    n.Placed indirectPio ∧ ∀ r ∈ s, r.Before n := by
  obtain ⟨hwrap, hmmio, -⟩ := hm
  have hstart : ends.1.toNat = mmioTop s := by
    have := scan_mmio hnew h (fun r _ _ => Nat.zero_le _) hscan
    rw [this]
    exact Nat.zero_max _
  have htop := mmioTop_le h.placed
  have hlimit := mmioUpperLimit_le indirectPio
  rw [lt_add_sub_one_iff hsize (by omega) hwrap,
    lt_add_sub_one_iff (by decide) (by omega) (by decide), hstart] at hfit
  have hend : mmioTop s + size.toNat ≤ (mmioUpperLimit indirectPio).toNat + 1 := by
    rcases hfit with ⟨rfl, hfit⟩ | ⟨rfl, -, hfit⟩ <;> omega
  have hnend : n.ioEnd = mmioTop s + size.toNat := by rw [hn, PioRange.ioEnd, hstart]
  have hnstart : n.ioStart.toNat = mmioTop s := by rw [hn, hstart]
  have hnflags : n.flags = mmioFlag := by rw [hn, hnew]
  refine ⟨⟨.inl hnflags, fun _ => hnend.trans_le hend, fun hf => ?_⟩, fun r hr => ⟨?_, ?_⟩⟩
  · rw [hnflags] at hf
    exact absurd hf (by decide)
  · rcases (h.placed r hr).flags with hf | hf
    · exact disjoint_of_le ((ioEnd_le_mmioTop hr hf).trans_eq hnstart.symm)
    · -- An indirect range shares no token, unless it is the one between the halves.
      refine (disjoint_of_le ?_).symm
      rw [hnend]
      have hlow := ((h.placed r hr).indirect hf).1
      rcases hmmio hnew with hfree | hfits | ⟨hlarge, hlarge'⟩
      · have := hfree r hr hf
        omega
      · rcases hfit with ⟨rfl, -⟩ | ⟨-, hover, -⟩ <;> omega
      · rcases hfit with ⟨-, hfit⟩ | ⟨-, -, hfit⟩ <;> omega
  · intro hf _
    exact (ioEnd_le_mmioTop hr hf).trans_eq hnstart.symm

/-- A new indirect range. -/
theorem Allotted.place_indirect
    (hm : (PioCall.register id new).Meets indirectPio s) (hnew : new.flags = indirectFlag)
    (hsize : new.size ≠ 0) (hscan : scan fwnode new s 0 (mmioUpperLimit indirectPio) = .ok ends)
    (hfit : ¬ioSpaceLimit < ends.2 + new.size - 1)
    (hn : n = ⟨id, fwnode, new.hwStart, ends.2, new.size, new.flags⟩) :
    n.Placed indirectPio ∧ ∀ r ∈ s, r.Before n := by
  obtain ⟨hwrap, -, hindirect⟩ := hm
  obtain ⟨hgap, hboundary⟩ := hindirect hnew
  have hlimit := mmioUpperLimit_le indirectPio
  have htotal := hgap.total_le h.placed (by omega)
  have hstart : ends.2.toNat = (mmioUpperLimit indirectPio).toNat + indirectTotal s := by
    rw [scan_indirect hnew hscan, Nat.mod_eq_of_lt (htotal.trans_lt ioSpaceLimit_lt)]
  rw [lt_add_sub_one_iff hsize (by omega) hwrap, hstart] at hfit
  have hnend : n.ioEnd = (mmioUpperLimit indirectPio).toNat + indirectTotal s + new.size.toNat := by
    rw [hn, PioRange.ioEnd, hstart]
  have hnstart : n.ioStart.toNat = (mmioUpperLimit indirectPio).toNat + indirectTotal s := by
    rw [hn, hstart]
  have hnflags : n.flags = indirectFlag := by rw [hn, hnew]
  refine ⟨⟨.inr hnflags, fun hf => ?_, fun _ => ⟨by omega, by omega⟩⟩, fun r hr => ⟨?_, ?_⟩⟩
  · rw [hnflags] at hf
    exact absurd hf (by decide)
  · refine disjoint_of_le ?_
    rw [hnstart]
    rcases (h.placed r hr).flags with hf | hf
    · have htop := mmioTop_le h.placed
      have := ioEnd_le_mmioTop hr hf
      omega
    · exact hgap.ioEnd_le hr hf
  · intro _ hf
    rw [hnflags] at hf
    exact absurd hf (by decide)

theorem Allotted.concat
    (hn : n.Placed indirectPio ∧ ∀ r ∈ s, r.Before n) : Allotted indirectPio (s ++ [n]) := by
  refine ⟨fun r hr => ?_, List.pairwise_append.mpr ⟨h.before, List.pairwise_singleton _ _, ?_⟩⟩
  · rcases List.mem_append.mp hr with hr | hr
    · exact h.placed r hr
    · rw [List.mem_singleton.mp hr]
      exact hn.1
  · intro r hr n' hn'
    rw [List.mem_singleton.mp hn']
    exact hn.2 r hr

/-- One call. -/
theorem Allotted.step {o : PioCall ρ φ} (hm : o.Meets indirectPio s) :
    ∃ r, o.step indirectPio s = some r ∧ Allotted indirectPio r.1 := by
  cases o with
  | register id new =>
    refine ⟨_, rfl, ?_⟩
    rcases registerRange_cases id new s with
      heq | ⟨fwnode, ends, io, size, hsize, hscan, hplace, heq⟩
    · rw [heq]
      exact h
    rw [heq]
    refine h.concat ?_
    rcases place_cases hplace with ⟨hnew, rfl, hfit⟩ | ⟨hnew, rfl, rfl, hfit⟩
    · exact h.place_mmio hm hnew hsize hscan hfit rfl
    · exact h.place_indirect hm hnew hsize hscan hfit rfl
  | unregister id => exact ⟨_, rfl, h.sublist List.eraseP_sublist⟩

/-! ## Looking a token up -/

omit h in
theorem mem_tokens_iff (h : r.Placed indirectPio) (pio : BitVec 64) : pio.toNat ∈ r.tokens ↔
    r.ioStart.setWidth 64 ≤ pio ∧ pio < (r.ioStart + r.size).setWidth 64 := by
  rw [le_def, lt_def, toNat_setWidth_of_le (by decide), toNat_setWidth_of_le (by decide),
    toNat_ioEnd h]
  rfl

theorem Allotted.findIoRange_eq (hr : r ∈ s) {pio : BitVec 64} (hmem : pio.toNat ∈ r.tokens) :
    findIoRange s pio = some r := by
  have hsymm : Std.Symm fun a b : PioRange ρ φ => Disjoint a.tokens b.tokens :=
    ⟨fun _ _ hd => hd.symm⟩
  cases hf : findIoRange s pio with
  | none =>
    have := List.find?_eq_none.mp hf r hr
    rw [decide_eq_true_eq] at this
    exact absurd ((mem_tokens_iff (h.placed r hr) _).mp hmem) this
  | some r' =>
    have hr' := List.mem_of_find?_eq_some hf
    have hin := List.find?_some hf
    rw [decide_eq_true_eq] at hin
    by_contra hne
    have hd := (h.before.imp fun hb => hb.disjoint).forall hr' hr fun heq => hne (by rw [heq])
    exact Set.disjoint_left.mp hd ((mem_tokens_iff (h.placed r' hr') _).mpr hin) hmem

theorem Allotted.logicPioToHwaddr_eq (hr : r ∈ s) {o : ResourceSize} (ho : o < r.size) :
    logicPioToHwaddr s ((r.ioStart + o).setWidth 64) = r.hwStart + o := by
  have hend := ioEnd_le (h.placed r hr)
  have hlt := ioSpaceLimit_lt
  rw [lt_def] at ho
  rw [PioRange.ioEnd] at hend
  have hsum : ((r.ioStart + o).setWidth 64).toNat = r.ioStart.toNat + o.toNat := by
    rw [toNat_setWidth_of_le (by decide), toNat_add, Nat.mod_eq_of_lt (by omega)]
  have hmem : ((r.ioStart + o).setWidth 64).toNat ∈ r.tokens := by
    rw [hsum]
    exact ⟨Nat.le_add_right _ _, Nat.add_lt_add_left ho _⟩
  rw [logicPioToHwaddr, h.findIoRange_eq hr hmem]
  apply eq_of_toNat_eq
  simp only [toNat_setWidth, toNat_sub, toNat_add]
  omega

omit h

end LogicPio

/-! ## Runs -/

open LogicPio

variable {ρ φ : Type} [DecidableEq ρ] [DecidableEq φ]

/-- After every run of calls that meet the condition, the tokens of the registered ranges are
disjoint and lead back to their addresses. -/
theorem pioRun_tokens (indirectPio : Bool) (ops : List (PioCall ρ φ))
    (hops : CallsMeet (PioCall.step indirectPio)
      (fun s o => o.Promised s ∧ o.Meets indirectPio s) [] ops) :
    ∃ s, runCalls (PioCall.step indirectPio) [] ops = some s ∧
      s.1.Pairwise (fun r r' => Disjoint r.tokens r'.tokens) ∧
      ∀ r ∈ s.1, ∀ o < r.size,
        logicPioToHwaddr s.1 ((r.ioStart + o).setWidth 64) = r.hwStart + o := by
  obtain ⟨s, hs, h⟩ := runCalls_invariant (Allotted indirectPio) _
    (fun s o h ho => h.step ho.2) ⟨fun r hr => absurd hr List.not_mem_nil, List.Pairwise.nil⟩ hops
  exact ⟨s, hs, h.before.imp fun hb => hb.disjoint, fun r hr o ho => h.logicPioToHwaddr_eq hr ho⟩

/-- A request with its own firmware node. -/
def pioRequest (node : ℕ) (flags : BitVec 64) (size : ResourceSize) : PioRequest ℕ :=
  ⟨some node, BitVec.ofNat 32 (0x100000 * node), size, flags⟩

/-- Ranges of both kinds come and go. -/
def pioRounds : List (PioCall ℕ ℕ) :=
  [.register 0 (pioRequest 0 mmioFlag 0x100), .register 1 (pioRequest 1 mmioFlag 0x200),
    .register 2 (pioRequest 2 indirectFlag 0x10), .unregister 0,
    .register 0 (pioRequest 3 mmioFlag 0x300), .register 4 (pioRequest 4 indirectFlag 0x20),
    .unregister 4, .register 4 (pioRequest 5 indirectFlag 0x40)]

theorem pioRun_tokens_rounds :
    CallsMeet (PioCall.step true) (fun s o => o.Promised s ∧ o.Meets true s) [] pioRounds ∧
    ∃ s, runCalls (PioCall.step true) [] pioRounds = some s ∧
      s.1.Pairwise (fun r r' => Disjoint r.tokens r'.tokens) ∧
      ∀ r ∈ s.1, ∀ o < r.size,
        logicPioToHwaddr s.1 ((r.ioStart + o).setWidth 64) = r.hwStart + o :=
  ⟨by decide +kernel, pioRun_tokens true pioRounds (by decide +kernel)⟩

/-- The first of two indirect ranges goes, and another one comes. -/
def pioGapCalls : List (PioCall ℕ ℕ) :=
  [.register 0 (pioRequest 0 indirectFlag 0x10), .register 1 (pioRequest 1 indirectFlag 0x10),
    .unregister 0, .register 2 (pioRequest 2 indirectFlag 0x10)]

/-- A memory-mapped range takes all tokens of its half, and the one behind them. -/
def pioEdgeCalls : List (PioCall ℕ ℕ) :=
  [.register 1 (pioRequest 1 mmioFlag 0xc000), .register 0 (pioRequest 0 indirectFlag 0x10)]

/-- A range whose size wraps around, and the next one. -/
def pioWrapCalls : List (PioCall ℕ ℕ) :=
  [.register 1 (pioRequest 1 mmioFlag 0x100), .register 2 (pioRequest 2 mmioFlag (-0xff)),
    .register 0 (pioRequest 8 mmioFlag 0x100)]

/-- The three runs end with two ranges that have a token in common. -/
theorem pioRun_shared :
    (∀ ops ∈ [pioGapCalls, pioEdgeCalls, pioWrapCalls],
      CallsMeet (PioCall.step true) (fun s o => o.Promised s) [] ops) ∧
    ([pioGapCalls, pioEdgeCalls, pioWrapCalls].map fun ops =>
        (runCalls (PioCall.step true) [] ops).map fun s =>
          (s.1.map fun r => (r.id, r.ioStart.toNat, r.ioEnd))) =
      [some [(1, 0xc00f, 0xc01f), (2, 0xc00f, 0xc01f)], some [(1, 0, 0xc000), (0, 0xbfff, 0xc00f)],
        some [(1, 0, 0x100), (2, 0x100, 2 ^ 32 + 1), (0, 1, 0x101)]] := by
  decide +kernel

end LinuxKernelTest
