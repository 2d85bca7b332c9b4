import LinuxKernelTest.RtBandwidth
import LinuxKernelTest.FiniteSum

/-!
# Borrowing of real-time runtime

A group has `rt_runtime` for its real-time tasks on every CPU. A run queue that has used up its
runtime borrows from those of the other CPUs of the root domain (`do_balance_runtime` of
`kernel/sched/rt.c`). A CPU that goes away must leave with exactly the runtime of the group :
`__disable_runtime` takes what is missing from its neighbours, or hands them what is too much, and
marks the run queue by an infinite runtime. `BUG_ON(want)` is `none`.

The three functions are those of a group, on the list `span` of the CPUs of its root domain. They
run with the scheduler up and under the group's `rt_runtime_lock`, so each is one step; `rt_time`
changes in between. The differences of times are signed, and the invariant `RtRuntimes.Conserved`
needs times and runtimes for which they have the right sign.
-/

set_option linter.unusedSectionVars false

open Finset

namespace LinuxKernelTest

open Function List Nat

/-! ## The model -/

/-- The fields of the run queues of a group that borrowing uses. `enabled` is whether the last of
`__enable_runtime` and `__disable_runtime` was the former. -/
structure RtRuntimes (κ : Type) where
  rtRuntime : κ → BitVec 64
  rtTime : κ → BitVec 64
  rtThrottled : κ → Bool
  enabled : κ → Bool

/-- `min_t(s64, ..)`. -/
def minS64 (x y : BitVec 64) : BitVec 64 := if x.toInt < y.toInt then x else y

section

variable {κ : Type} [DecidableEq κ]

namespace RtRuntimes

/-- Write `rt_runtime` of the run queue `i`. -/
def setRuntime (s : RtRuntimes κ) (i : κ) (v : BitVec 64) : RtRuntimes κ :=
  { s with rtRuntime := update s.rtRuntime i v }

/-- What a run queue takes from another one with spare time : the `weight`-th part of it, but no
more than the period. -/
def borrow (rtPeriod weight : BitVec 64) (rq i : κ) (s : RtRuntimes κ) : RtRuntimes κ :=
  let diff := (s.rtRuntime i - s.rtTime i) / weight
  let diff := if rtPeriod < s.rtRuntime rq + diff then rtPeriod - s.rtRuntime rq else diff
  let s := s.setRuntime i (s.rtRuntime i - diff)
  s.setRuntime rq (s.rtRuntime rq + diff)

/-- The loop of `do_balance_runtime`. -/
def balanceLoop (rtPeriod weight : BitVec 64) (rq : κ) : List κ → RtRuntimes κ → RtRuntimes κ
  | [], s => s
  | i :: is, s =>
    if i = rq then balanceLoop rtPeriod weight rq is s
    else if s.rtRuntime i = runtimeInf then balanceLoop rtPeriod weight rq is s
    else if 0 < (s.rtRuntime i - s.rtTime i).toInt then
      let s := s.borrow rtPeriod weight rq i
      if s.rtRuntime rq = rtPeriod then s else balanceLoop rtPeriod weight rq is s
    else balanceLoop rtPeriod weight rq is s

/-- `do_balance_runtime`. -/
def doBalanceRuntime (b : RtBandwidth) (span : List κ) (s : RtRuntimes κ) (rq : κ) :
    RtRuntimes κ :=
  balanceLoop b.rtPeriod ((BitVec.ofNat 32 span.length).setWidth 64) rq span s

/-- The loop of `__disable_runtime` : the rest of `want`, and the run queues. -/
def reclaimLoop (rq : κ) : List κ → BitVec 64 → RtRuntimes κ → BitVec 64 × RtRuntimes κ
  | [], want, s => (want, s)
  | i :: is, want, s =>
    if i = rq ∨ s.rtRuntime i = runtimeInf then reclaimLoop rq is want s
    else
      let diff := if 0 < want.toInt then minS64 (s.rtRuntime i) want else want
      let s := s.setRuntime i (s.rtRuntime i - diff)
      let want := want - diff
      if want = 0 then (want, s) else reclaimLoop rq is want s

/-- What `__disable_runtime` writes at the label `balanced`. -/
def disable (s : RtRuntimes κ) (rq : κ) : RtRuntimes κ :=
  { s.setRuntime rq runtimeInf with
    rtThrottled := update s.rtThrottled rq false
    enabled := update s.enabled rq false }

/-- `__disable_runtime`. -/
def disableRuntime (b : RtBandwidth) (span : List κ) (s : RtRuntimes κ) (rq : κ) :
    Option (RtRuntimes κ) :=
  if s.rtRuntime rq = runtimeInf ∨ s.rtRuntime rq = b.rtRuntime then some (s.disable rq)
  else
    let r := reclaimLoop rq span (b.rtRuntime - s.rtRuntime rq) s
    if r.1 = 0 then some (r.2.disable rq) else none

/-- `__enable_runtime`. -/
def enableRuntime (b : RtBandwidth) (s : RtRuntimes κ) (rq : κ) : RtRuntimes κ where
  rtRuntime := update s.rtRuntime rq b.rtRuntime
  rtTime := update s.rtTime rq 0
  rtThrottled := update s.rtThrottled rq false
  enabled := update s.enabled rq true

/-- The run queues of a new group. -/
def init (b : RtBandwidth) (rtTime : κ → BitVec 64) : RtRuntimes κ where
  rtRuntime _ := b.rtRuntime
  rtTime := rtTime
  rtThrottled _ := false
  enabled _ := true

end RtRuntimes

/-- A call, or a change of the run queues' `rt_time` in between. -/
inductive RtRuntimeCall (κ : Type)
  | account (rtTime : κ → BitVec 64)
  | balance (rq : κ)
  | disable (rq : κ)
  | enable (rq : κ)

/-- One call. -/
def RtRuntimeCall.step (b : RtBandwidth) (span : List κ) (s : RtRuntimes κ) :
    RtRuntimeCall κ → Option (RtRuntimes κ × Unit)
  | account rtTime => some ({ s with rtTime := rtTime }, ())
  | balance rq => some (s.doBalanceRuntime b span rq, ())
  | disable rq => (s.disableRuntime b span rq).map (·, ())
  | enable rq => some (s.enableRuntime b rq, ())

/-- Calls are made as their callers make them, and times are at most `2^63`. -/
def RtRuntimeCall.Orderly (s : RtRuntimes κ) : RtRuntimeCall κ → Prop
  | account rtTime => ∀ i, (rtTime i).toNat ≤ 2 ^ 63
  | balance rq => s.enabled rq = true
  | disable rq => s.enabled rq = true
  | enable rq => s.enabled rq = false

instance RtRuntimeCall.decidableOrderly [Fintype κ] (s : RtRuntimes κ) :
    ∀ call : RtRuntimeCall κ, Decidable (call.Orderly s)
  | .account rtTime => inferInstanceAs (Decidable (∀ i, (rtTime i).toNat ≤ 2 ^ 63))
  | .balance _ | .disable _ | .enable _ => inferInstanceAs (Decidable (_ = _))

namespace RtRuntimes

variable [Fintype κ]

/-- The runtime of a run queue that is enabled. -/
def held (s : RtRuntimes κ) (i : κ) : ℕ := if s.enabled i then (s.rtRuntime i).toNat else 0

/-- The number of enabled run queues. -/
def nrEnabled (s : RtRuntimes κ) : ℕ := #{i | s.enabled i = true}

/-- The enabled run queues have the runtime of the group between them. -/
structure Conserved (b : RtBandwidth) (s : RtRuntimes κ) : Prop where
  inf : ∀ i, s.enabled i = false → s.rtRuntime i = runtimeInf
  sum : ∑ i, s.held i = b.rtRuntime.toNat * s.nrEnabled

variable {b : RtBandwidth} {s : RtRuntimes κ} {i rq : κ} {v : BitVec 64}
  {rtPeriod weight : BitVec 64}

/-! ## The total -/

theorem held_of_enabled (h : s.enabled i = true) : s.held i = (s.rtRuntime i).toNat := if_pos h

/-- The total after a write to an enabled run queue. -/
theorem sum_held_setRuntime (h : s.enabled i = true) :
    ∑ j, (s.setRuntime i v).held j + (s.rtRuntime i).toNat = ∑ j, s.held j + v.toNat := by
  have hoff : ∀ j, j ≠ i → (s.setRuntime i v).held j = s.held j := fun j hj => by
    simp [held, setRuntime, update_of_ne hj]
  have hon : (s.setRuntime i v).held i = v.toNat := by
    simp [held, setRuntime, h]
  have := sum_add_eq_of_eq_off hoff
  rwa [hon, held_of_enabled h] at this

theorem held_le_sum (s : RtRuntimes κ) (i : κ) : s.held i ≤ ∑ j, s.held j :=
  single_le_sum (fun _ _ => zero_le _) (mem_univ i)

theorem held_add_held_le_sum (h : i ≠ rq) : s.held i + s.held rq ≤ ∑ j, s.held j := by
  rw [← sum_pair h]
  exact sum_le_sum_of_subset (subset_univ _)

/-- The total is below `2^63`. -/
theorem Conserved.sum_lt (h : s.Conserved b)
    (hsmall : b.rtRuntime.toNat * Fintype.card κ < 2 ^ 63) :
    ∑ i, s.held i < 2 ^ 63 :=
  h.sum ▸ (Nat.mul_le_mul_left _ (card_le_univ _)).trans_lt hsmall

/-- So an enabled run queue is not marked as a disabled one. -/
theorem ne_runtimeInf (hsum : ∑ j, s.held j < 2 ^ 63) (h : s.enabled i = true) :
    s.rtRuntime i ≠ runtimeInf := by
  intro hinf
  have hle := held_le_sum s i
  rw [held_of_enabled h, hinf] at hle
  exact absurd (hle.trans_lt hsum) (by decide)

/-! ## Borrowing -/

/-- Runtime that goes from one run queue to another. -/
theorem Conserved.move (h : s.Conserved b) (hne : i ≠ rq) (hi : s.enabled i = true)
    (hrq : s.enabled rq = true) {x y : BitVec 64}
    (hxy : x.toNat + y.toNat = (s.rtRuntime i).toNat + (s.rtRuntime rq).toNat) :
    ((s.setRuntime i x).setRuntime rq y).Conserved b := by
  have hfirst := sum_held_setRuntime (v := x) hi
  have hsecond := sum_held_setRuntime (s := s.setRuntime i x) (v := y) hrq
  have hkeep : (s.setRuntime i x).rtRuntime rq = s.rtRuntime rq := update_of_ne hne.symm _ _
  rw [hkeep] at hsecond
  constructor
  · intro j hj
    have hji : j ≠ i := by
      rintro rfl
      exact Bool.false_ne_true (hj.symm.trans hi)
    have hjrq : j ≠ rq := by
      rintro rfl
      exact Bool.false_ne_true (hj.symm.trans hrq)
    rw [setRuntime, setRuntime]
    simp only [update_of_ne hji, update_of_ne hjrq]
    exact h.inf j hj
  · have := h.sum
    change _ = b.rtRuntime.toNat * s.nrEnabled
    omega

/-- A spare time that the code sees is real if `rt_time` is at most `2^63`. -/
theorem toNat_spare {runtime time : BitVec 64} (htime : time.toNat ≤ 2 ^ 63)
    (h : 0 < (runtime - time).toInt) : (runtime - time).toNat ≤ runtime.toNat := by
  rw [BitVec.toInt_eq_toNat_cond] at h
  rw [BitVec.toNat_sub] at h ⊢
  split_ifs at h <;> omega

/-- What one round of borrowing moves : all of `diff`, or as much as takes the borrower to its
period. -/
theorem toNat_borrow {lender borrower diff rtPeriod : BitVec 64} (hdiff : diff.toNat ≤ lender.toNat)
    (hsum : lender.toNat + borrower.toNat < 2 ^ 63) :
    let d := if rtPeriod < borrower + diff then rtPeriod - borrower else diff
    (lender - d).toNat + (borrower + d).toNat = lender.toNat + borrower.toNat := by
  intro d
  have hadd : (borrower + diff).toNat = borrower.toNat + diff.toNat :=
    BitVec.toNat_add_of_lt (by omega)
  have hd : d = if rtPeriod < borrower + diff then rtPeriod - borrower else diff := rfl
  split_ifs at hd with hover
  · rw [BitVec.lt_def, hadd] at hover
    rw [hd, add_sub_cancel, BitVec.toNat_sub, BitVec.toNat_sub]
    omega
  · rw [hd, hadd, BitVec.toNat_sub_of_le (BitVec.le_def.mpr hdiff)]
    omega

theorem Conserved.borrow (hsmall : b.rtRuntime.toNat * Fintype.card κ < 2 ^ 63)
    (h : s.Conserved b) (hne : i ≠ rq) (hi : s.enabled i = true) (hrq : s.enabled rq = true)
    (htime : (s.rtTime i).toNat ≤ 2 ^ 63) (hspare : 0 < (s.rtRuntime i - s.rtTime i).toInt) :
    (s.borrow rtPeriod weight rq i).Conserved b := by
  have hsum := (held_add_held_le_sum hne).trans_lt (h.sum_lt hsmall)
  rw [held_of_enabled hi, held_of_enabled hrq] at hsum
  have hdiff : ((s.rtRuntime i - s.rtTime i) / weight).toNat ≤ (s.rtRuntime i).toNat := by
    rw [BitVec.toNat_udiv]
    exact (div_le_self _ _).trans (toNat_spare htime hspare)
  refine h.move hne hi hrq ?_
  have hkeep : ∀ v, (s.setRuntime i v).rtRuntime rq = s.rtRuntime rq :=
    fun v => update_of_ne hne.symm _ _
  rw [hkeep]
  exact toNat_borrow hdiff hsum

variable {is : List κ} {span : List κ}

/-- Borrowing keeps the total. -/
theorem Conserved.balanceLoop (hsmall : b.rtRuntime.toNat * Fintype.card κ < 2 ^ 63)
    (h : s.Conserved b) (hrq : s.enabled rq = true)
    (htime : ∀ i, (s.rtTime i).toNat ≤ 2 ^ 63) :
    (s.balanceLoop rtPeriod weight rq is).Conserved b ∧
      (s.balanceLoop rtPeriod weight rq is).rtTime = s.rtTime := by
  induction is generalizing s with
  | nil => exact ⟨h, rfl⟩
  | cons i is ih =>
    rw [RtRuntimes.balanceLoop]
    by_cases hself : i = rq
    · rw [if_pos hself]
      exact ih h hrq htime
    by_cases hinf : s.rtRuntime i = runtimeInf
    · rw [if_neg hself, if_pos hinf]
      exact ih h hrq htime
    by_cases hspare : 0 < (s.rtRuntime i - s.rtTime i).toInt
    case neg =>
      rw [if_neg hself, if_neg hinf, if_neg hspare]
      exact ih h hrq htime
    have hi : s.enabled i = true := by
      by_contra hoff
      exact hinf (h.inf i (by simpa using hoff))
    have hborrow : (s.borrow rtPeriod weight rq i).Conserved b :=
      h.borrow hsmall hself hi hrq (htime i) hspare
    rw [if_neg hself, if_neg hinf, if_pos hspare]
    simp only
    split_ifs
    · exact ⟨hborrow, rfl⟩
    · exact ih hborrow hrq htime

/-! ## Leaving and coming back -/

/-- Taking a run queue out of the total. -/
theorem sum_held_disable (s : RtRuntimes κ) (rq : κ) :
    ∑ i, (s.disable rq).held i + s.held rq = ∑ i, s.held i := by
  have hoff : ∀ j, j ≠ rq → (s.disable rq).held j = s.held j := fun j hj => by
    simp [held, disable, setRuntime, update_of_ne hj]
  have hself : (s.disable rq).held rq = 0 := by
    simp [held, disable]
  have := sum_add_eq_of_eq_off hoff
  rwa [hself, add_zero] at this

theorem nrEnabled_disable (h : s.enabled rq = true) :
    (s.disable rq).nrEnabled + 1 = s.nrEnabled := by
  have herase : ({i | (s.disable rq).enabled i = true} : Finset κ) =
      ({i | s.enabled i = true} : Finset κ).erase rq := by
    ext i
    simp only [mem_filter_univ, mem_erase]
    by_cases hi : i = rq <;> simp [disable, hi]
  rw [nrEnabled, herase, card_erase_add_one (by simpa using h), nrEnabled]

theorem nrEnabled_enableRuntime (h : s.enabled rq = false) :
    (s.enableRuntime b rq).nrEnabled = s.nrEnabled + 1 := by
  have hinsert : ({i | (s.enableRuntime b rq).enabled i = true} : Finset κ) =
      insert rq ({i | s.enabled i = true} : Finset κ) := by
    ext i
    simp only [mem_filter_univ, mem_insert]
    by_cases hi : i = rq <;> simp [enableRuntime, hi]
  rw [nrEnabled, hinsert, card_insert_of_notMem (by simpa using h), nrEnabled]

/-- A run queue leaves with the runtime of the group, after the others have given or taken what
makes that so. -/
theorem Conserved.disable {s0 : RtRuntimes κ} (h0 : s0.Conserved b) (hrq : s0.enabled rq = true)
    (henabled : s.enabled = s0.enabled)
    (hinf : ∀ i, s.enabled i = false → s.rtRuntime i = runtimeInf)
    (hsum : ∑ i, s.held i + b.rtRuntime.toNat = ∑ i, s0.held i + s.held rq) :
    (s.disable rq).Conserved b := by
  have hout := sum_held_disable s rq
  have hcount := nrEnabled_disable (s := s) (by rw [henabled]; exact hrq)
  have hnr : s.nrEnabled = s0.nrEnabled := by
    rw [nrEnabled, henabled, nrEnabled]
  constructor
  · intro i hi
    by_cases hirq : i = rq
    · subst hirq
      simp [RtRuntimes.disable, setRuntime]
    rw [RtRuntimes.disable, setRuntime]
    simp only [update_of_ne hirq]
    refine hinf i ?_
    simpa [RtRuntimes.disable, hirq] using hi
  · have := h0.sum
    rw [← hnr, ← hcount, mul_add, mul_one] at this
    omega

theorem Conserved.enableRuntime (h : s.Conserved b) (hrq : s.enabled rq = false) :
    (s.enableRuntime b rq).Conserved b := by
  have hoff : ∀ j, j ≠ rq → (s.enableRuntime b rq).held j = s.held j := fun j hj => by
    simp [held, RtRuntimes.enableRuntime, update_of_ne hj]
  have hself : (s.enableRuntime b rq).held rq = b.rtRuntime.toNat := by
    simp [held, RtRuntimes.enableRuntime]
  have hzero : s.held rq = 0 := by
    simp [held, hrq]
  have hsum := sum_add_eq_of_eq_off hoff
  constructor
  · intro i hi
    have hne : i ≠ rq := by
      rintro rfl
      simp [RtRuntimes.enableRuntime] at hi
    rw [RtRuntimes.enableRuntime] at hi ⊢
    simp only [update_of_ne hne] at hi ⊢
    exact h.inf i hi
  · rw [nrEnabled_enableRuntime hrq, mul_add, mul_one, ← h.sum]
    omega

/-! ## Reclaiming -/

/-- What the other run queues of a list have. -/
def heldBy (s : RtRuntimes κ) (rq : κ) (is : List κ) : ℕ :=
  (is.map fun i => if i = rq then 0 else s.held i).sum

theorem heldBy_setRuntime (hi : i ∉ is) :
    (s.setRuntime i v).heldBy rq is = s.heldBy rq is := by
  rw [heldBy, heldBy]
  refine congrArg sum (map_congr_left fun j hj => ?_)
  have hji : j ≠ i := fun hji => hi (hji ▸ hj)
  simp [held, setRuntime, update_of_ne hji]

/-- What the others have is what there is without `rq`. -/
theorem heldBy_add_held (hnodup : span.Nodup) (hall : ∀ i, i ∈ span) :
    s.heldBy rq span + s.held rq = ∑ i, s.held i := by
  have huniv : span.toFinset = univ := by
    ext i
    simp [hall i]
  have hoff : ∀ j, j ≠ rq → (if j = rq then 0 else s.held j) = s.held j := fun j hj => if_neg hj
  have := sum_add_eq_of_eq_off hoff
  rw [if_pos rfl, add_zero] at this
  rw [heldBy, ← sum_toFinset _ hnodup, huniv, this]

/-- What the loop of `__disable_runtime` has done when it leaves. -/
structure Reclaimed (rq : κ) (want : ℤ) (s s' : RtRuntimes κ) : Prop where
  enabled : s'.enabled = s.enabled
  rtTime : s'.rtTime = s.rtTime
  self : s'.rtRuntime rq = s.rtRuntime rq
  inf : ∀ i, s'.enabled i = false → s'.rtRuntime i = runtimeInf
  sum : (∑ i, s'.held i : ℤ) = ∑ i, (s.held i : ℤ) - want

/-- One write of the loop. -/
theorem reclaimed_setRuntime (hinf : ∀ i, s.enabled i = false → s.rtRuntime i = runtimeInf)
    (hi : s.enabled i = true) (hne : i ≠ rq) {w : ℤ}
    (hw : (v.toNat : ℤ) = (s.rtRuntime i).toNat - w) :
    Reclaimed rq w s (s.setRuntime i v) := by
  refine ⟨rfl, rfl, update_of_ne hne.symm _ _, fun j hj => ?_, ?_⟩
  · have hji : j ≠ i := by
      rintro rfl
      exact Bool.false_ne_true (hj.symm.trans hi)
    rw [setRuntime]
    simp only [update_of_ne hji]
    exact hinf j hj
  · have hsum := sum_held_setRuntime (v := v) hi
    have : (∑ j, (s.setRuntime i v).held j : ℤ) + (s.rtRuntime i).toNat =
        ∑ j, (s.held j : ℤ) + v.toNat := by
      exact_mod_cast hsum
    linarith

theorem Reclaimed.trans {w w' : ℤ} {s1 s2 : RtRuntimes κ} (h : Reclaimed rq w s s1)
    (h' : Reclaimed rq w' s1 s2) : Reclaimed rq (w + w') s s2 where
  enabled := h'.enabled.trans h.enabled
  rtTime := h'.rtTime.trans h.rtTime
  self := h'.self.trans h.self
  inf := h'.inf
  sum := by rw [h'.sum, h.sum, sub_sub]

theorem toInt_of_lt {x : BitVec 64} (h : x.toNat < 2 ^ 63) : x.toInt = x.toNat :=
  BitVec.toInt_eq_toNat_of_lt (by omega)

/-- A signed amount that is taken from a runtime, if the result is one. -/
theorem toNat_sub_toInt {x want : BitVec 64} (hle : want.toInt ≤ x.toNat)
    (hlt : x.toNat - want.toInt < 2 ^ 63) : ((x - want).toNat : ℤ) = x.toNat - want.toInt := by
  rw [BitVec.toInt_eq_toNat_cond] at hle hlt ⊢
  rw [BitVec.toNat_sub]
  split_ifs at hle hlt ⊢ <;> omega

/-- **Reclaiming succeeds.** If the others have what is wanted, or one of them is there to take what
is too much, the loop leaves with nothing wanted. -/
theorem reclaimLoop_spec (hnodup : is.Nodup) {want : BitVec 64} (hwant : want ≠ 0)
    (hinf : ∀ i, s.enabled i = false → s.rtRuntime i = runtimeInf)
    (hsum : ∑ i, s.held i < 2 ^ 63)
    (hlend : 0 < want.toInt → want.toNat ≤ s.heldBy rq is)
    (hgive : want.toInt ≤ 0 → (∃ i ∈ is, i ≠ rq ∧ s.enabled i = true) ∧ -want.toInt ≤ s.held rq) :
    (reclaimLoop rq is want s).1 = 0 ∧ Reclaimed rq want.toInt s (reclaimLoop rq is want s).2 := by
  induction is generalizing want s with
  | nil =>
    exfalso
    rcases lt_or_ge 0 want.toInt with hpos | hneg
    · have hzero : want.toNat = 0 := le_zero.mp (hlend hpos)
      exact hwant (BitVec.eq_of_toNat_eq hzero)
    · obtain ⟨⟨i, hi, -⟩, -⟩ := hgive hneg
      exact absurd hi not_mem_nil
  | cons i is ih =>
    rw [nodup_cons] at hnodup
    rw [reclaimLoop]
    by_cases hskip : i = rq ∨ s.rtRuntime i = runtimeInf
    · -- Such a run queue has nothing to give, and is not one that can take.
      have hnone : (if i = rq then 0 else s.held i) = 0 ∧ ¬(i ≠ rq ∧ s.enabled i = true) := by
        rcases hskip with hself | hmark
        · simp [hself]
        · have hoff : ¬s.enabled i = true := fun hon => ne_runtimeInf hsum hon hmark
          simp [held, hoff]
      rw [if_pos hskip]
      refine ih hnodup.2 hwant hinf hsum (fun hpos => ?_) fun hneg => ?_
      · have := hlend hpos
        rwa [heldBy, List.map_cons, List.sum_cons, hnone.1, zero_add] at this
      · obtain ⟨⟨j, hj, hjok⟩, hle⟩ := hgive hneg
        refine ⟨⟨j, ?_, hjok⟩, hle⟩
        rcases mem_cons.mp hj with rfl | hj
        · exact absurd hjok hnone.2
        · exact hj
    push Not at hskip
    obtain ⟨hself, hmark⟩ := hskip
    have hi : s.enabled i = true := by
      by_contra hoff
      exact hmark (hinf i (by simpa using hoff))
    have hrt : (s.rtRuntime i).toNat < 2 ^ 63 := by
      have := held_le_sum s i
      rw [held_of_enabled hi] at this
      omega
    have hint := toInt_of_lt hrt
    rw [if_neg (by simp [hself, hmark])]
    by_cases hpart : 0 < want.toInt ∧ (s.rtRuntime i).toInt < want.toInt
    · -- The run queue gives all that it has, and the rest is wanted from the others.
      obtain ⟨hpos, hless⟩ := hpart
      have hwantNat : want.toInt = want.toNat := by
        have := want.isLt
        rw [BitVec.toInt_eq_toNat_cond] at hpos ⊢
        split_ifs at hpos ⊢ <;> omega
      have hsub : (want - s.rtRuntime i).toNat = want.toNat - (s.rtRuntime i).toNat :=
        BitVec.toNat_sub_of_le (BitVec.le_def.mpr (by omega))
      have hint' : (want - s.rtRuntime i).toInt = want.toInt - (s.rtRuntime i).toNat := by
        rw [toInt_of_lt (by have := BitVec.toInt_lt (x := want); omega), hsub]
        omega
      have hwant' : want - s.rtRuntime i ≠ 0 := by
        intro hzero
        rw [hzero] at hint'
        simp at hint'
        omega
      have hstep : Reclaimed rq (s.rtRuntime i).toNat s (s.setRuntime i 0) :=
        reclaimed_setRuntime hinf hi hself (by simp)
      have hsum' := sum_held_setRuntime (v := 0) hi
      have hzero : (0 : BitVec 64).toNat = 0 := rfl
      simp only [if_pos hpos, minS64, if_pos hless, sub_self, if_neg hwant']
      have hrest := ih (s := s.setRuntime i 0) hnodup.2 hwant' hstep.inf (by omega) (fun _ => ?_)
        (fun hneg => by omega)
      · rw [show want.toInt = (s.rtRuntime i).toNat + (want - s.rtRuntime i).toInt by omega]
        exact ⟨hrest.1, hstep.trans hrest.2⟩
      · have := hlend hpos
        rw [heldBy, List.map_cons, List.sum_cons, if_neg hself, held_of_enabled hi] at this
        rw [heldBy_setRuntime hnodup.1, heldBy, hsub]
        omega
    · -- The run queue gives or takes all of it.
      have hall : (if 0 < want.toInt then minS64 (s.rtRuntime i) want else want) = want := by
        by_cases hpos : 0 < want.toInt
        · rw [if_pos hpos, minS64, if_neg (fun hless => hpart ⟨hpos, hless⟩)]
        · rw [if_neg hpos]
      simp only [hall, sub_self, if_true]
      refine ⟨trivial, reclaimed_setRuntime hinf hi hself (toNat_sub_toInt ?_ ?_)⟩
      · by_contra hlt
        exact hpart ⟨by omega, by omega⟩
      · by_cases hpos : 0 < want.toInt
        · omega
        · have hroom := (held_add_held_le_sum hself).trans_lt hsum
          have hle := (hgive (by omega)).2
          rw [held_of_enabled hi] at hroom
          omega

/-- Leaving keeps the total, and `BUG_ON(want)` does not fire. -/
theorem Conserved.disableRuntime (hsmall : b.rtRuntime.toNat * Fintype.card κ < 2 ^ 63)
    (hnodup : span.Nodup) (hall : ∀ i, i ∈ span) (h : s.Conserved b)
    (hrq : s.enabled rq = true) :
    ∃ s', s.disableRuntime b span rq = some s' ∧ s'.Conserved b ∧ s'.rtTime = s.rtTime := by
  have hsum := h.sum_lt hsmall
  rw [RtRuntimes.disableRuntime]
  by_cases hmark : s.rtRuntime rq = runtimeInf ∨ s.rtRuntime rq = b.rtRuntime
  · have heq := hmark.resolve_left (ne_runtimeInf hsum hrq)
    refine ⟨_, if_pos hmark, h.disable hrq rfl h.inf ?_, rfl⟩
    rw [held_of_enabled hrq, heq]
  rw [if_neg hmark]
  push Not at hmark
  have hself := held_le_sum s rq
  have hothers : s.heldBy rq span + s.held rq = ∑ i, s.held i := heldBy_add_held hnodup hall
  rw [held_of_enabled hrq] at hself hothers
  have hpos : 0 < s.nrEnabled := card_pos.mpr ⟨rq, by simpa using hrq⟩
  have hfull : b.rtRuntime.toNat ≤ ∑ i, s.held i := h.sum ▸ Nat.le_mul_of_pos_right _ hpos
  have hwant : b.rtRuntime - s.rtRuntime rq ≠ 0 := fun hzero =>
    hmark.2 (sub_eq_zero.mp hzero).symm
  have hint : (b.rtRuntime - s.rtRuntime rq).toInt =
      b.rtRuntime.toNat - (s.rtRuntime rq).toNat := by
    rw [BitVec.toInt_eq_toNat_cond, BitVec.toNat_sub]
    split_ifs <;> omega
  have hlend : 0 < (b.rtRuntime - s.rtRuntime rq).toInt →
      (b.rtRuntime - s.rtRuntime rq).toNat ≤ s.heldBy rq span := by
    intro hpos
    rw [BitVec.toNat_sub_of_le (BitVec.le_def.mpr (by omega))]
    omega
  -- Too much runtime here means too little elsewhere, so there is another run queue.
  have hgive : (b.rtRuntime - s.rtRuntime rq).toInt ≤ 0 →
      (∃ i ∈ span, i ≠ rq ∧ s.enabled i = true) ∧
      -(b.rtRuntime - s.rtRuntime rq).toInt ≤ s.held rq := by
    intro hneg
    have hne : (s.rtRuntime rq).toNat ≠ b.rtRuntime.toNat := fun heq =>
      hmark.2 (BitVec.eq_of_toNat_eq heq)
    have htwo : 1 < s.nrEnabled := by
      by_contra hle
      have hone : s.nrEnabled = 1 := by omega
      have := h.sum
      rw [hone, mul_one] at this
      omega
    obtain ⟨i, hi, hirq⟩ := exists_mem_ne htwo rq
    exact ⟨⟨i, hall i, hirq, by simpa using hi⟩, by rw [held_of_enabled hrq]; omega⟩
  obtain ⟨hdone, hreclaimed⟩ := reclaimLoop_spec hnodup hwant h.inf hsum hlend hgive
  refine ⟨_, if_pos hdone, h.disable hrq hreclaimed.enabled hreclaimed.inf ?_, hreclaimed.rtTime⟩
  have hheld : (reclaimLoop rq span (b.rtRuntime - s.rtRuntime rq) s).2.held rq =
      (s.rtRuntime rq).toNat := by
    rw [held_of_enabled (by rw [hreclaimed.enabled]; exact hrq), hreclaimed.self]
  have := hreclaimed.sum
  rw [hint] at this
  rw [hheld]
  zify
  linarith

end RtRuntimes

/-! ## Runs -/

namespace RtRuntimes

variable [Fintype κ] {b : RtBandwidth} {span : List κ}

theorem init_conserved (rtTime : κ → BitVec 64) : (init b rtTime).Conserved b := by
  refine ⟨fun i hi => ?_, ?_⟩
  · exact absurd hi (by simp [init])
  · simp [held, init, nrEnabled, mul_comm]

theorem step_conserved (hsmall : b.rtRuntime.toNat * Fintype.card κ < 2 ^ 63)
    (hnodup : span.Nodup) (hall : ∀ i, i ∈ span) (s : RtRuntimes κ) (call : RtRuntimeCall κ)
    (h : s.Conserved b ∧ ∀ i, (s.rtTime i).toNat ≤ 2 ^ 63) (hcall : call.Orderly s) :
    ∃ r, RtRuntimeCall.step b span s call = some r ∧
      r.1.Conserved b ∧ ∀ i, (r.1.rtTime i).toNat ≤ 2 ^ 63 := by
  cases call with
  | account rtTime => exact ⟨_, rfl, ⟨h.1.inf, h.1.sum⟩, hcall⟩
  | balance rq =>
    have hloop : (s.doBalanceRuntime b span rq).Conserved b ∧
        (s.doBalanceRuntime b span rq).rtTime = s.rtTime :=
      h.1.balanceLoop hsmall hcall h.2
    exact ⟨_, rfl, hloop.1, fun i => by rw [hloop.2]; exact h.2 i⟩
  | disable rq =>
    obtain ⟨s', hs', hconserved, htime⟩ := h.1.disableRuntime hsmall hnodup hall hcall
    refine ⟨(s', ()), ?_, hconserved, fun i => by rw [htime]; exact h.2 i⟩
    rw [RtRuntimeCall.step, hs', Option.map_some]
  | enable rq =>
    refine ⟨_, rfl, h.1.enableRuntime hcall, fun i => ?_⟩
    by_cases hi : i = rq
    · subst hi
      simp [RtRuntimes.enableRuntime]
    · simpa [RtRuntimes.enableRuntime, hi] using h.2 i

end RtRuntimes

/-- **Borrowing conserves the runtime.** After every sequence of calls, none of which fails, the
runtimes of the enabled run queues add up to the runtime of the group for each of them. -/
theorem rtRuntimeRun_conserved [Fintype κ] {b : RtBandwidth} {span : List κ}
    {rtTime : κ → BitVec 64} {calls : List (RtRuntimeCall κ)}
    (hsmall : b.rtRuntime.toNat * Fintype.card κ < 2 ^ 63) (hnodup : span.Nodup)
    (hall : ∀ i, i ∈ span) (htime : ∀ i, (rtTime i).toNat ≤ 2 ^ 63)
    (hcalls : CallsMeet (RtRuntimeCall.step b span) RtRuntimeCall.Orderly
      (RtRuntimes.init b rtTime) calls) :
    ∃ r, runCalls (RtRuntimeCall.step b span) (RtRuntimes.init b rtTime) calls = some r ∧
      ∑ i with r.1.enabled i = true, (r.1.rtRuntime i).toNat =
        b.rtRuntime.toNat * #{i | r.1.enabled i = true} ∧
      ∀ i, r.1.enabled i = true → (r.1.rtRuntime i).toNat ≤
        b.rtRuntime.toNat * #{i | r.1.enabled i = true} := by
  obtain ⟨r, hrun, hconserved, -⟩ := runCalls_invariant
    (fun s : RtRuntimes κ => s.Conserved b ∧ ∀ i, (s.rtTime i).toNat ≤ 2 ^ 63)
    RtRuntimeCall.Orderly (RtRuntimes.step_conserved hsmall hnodup hall)
    ⟨RtRuntimes.init_conserved rtTime, htime⟩ hcalls
  refine ⟨r, hrun, ?_, fun i hi => ?_⟩
  · rw [sum_filter]
    exact hconserved.sum
  · have := RtRuntimes.held_le_sum r.1 i
    rw [RtRuntimes.held_of_enabled hi, hconserved.sum] at this
    exact this

end

/-- Of two CPUs, one borrows from the other and leaves, comes back and borrows again, and the other
one leaves. -/
def rtBorrowing : List (RtRuntimeCall Bool) :=
  [.balance true, .disable true, .enable true, .account fun _ => 30, .balance true, .disable false]

theorem rtRuntimeRun_conserved_borrowing :
    ∃ r, runCalls (RtRuntimeCall.step ⟨120, 100⟩ [false, true])
      (RtRuntimes.init ⟨120, 100⟩ fun _ => 0) rtBorrowing = some r ∧
      ∑ i with r.1.enabled i = true, (r.1.rtRuntime i).toNat =
        100 * #{i | r.1.enabled i = true} := by
  have hcalls : CallsMeet (RtRuntimeCall.step ⟨120, 100⟩ [false, true]) RtRuntimeCall.Orderly
      (RtRuntimes.init ⟨120, 100⟩ fun _ => 0) rtBorrowing := by
    decide +kernel
  obtain ⟨r, hrun, hsum, -⟩ := rtRuntimeRun_conserved (by decide) (by decide) (by decide)
    (by decide) hcalls
  exact ⟨r, hrun, hsum⟩

/-- Two runs that wrap. In the first one a run queue has an `rt_time` so far above its runtime that
the difference counts as spare time, and gives more than it has. In the second one the runtime that
a leaving CPU finds at its neighbour is not positive as an `s64`, and `BUG_ON(want)` fires. -/
theorem rtRuntimeRun_wraps :
    (runCalls (RtRuntimeCall.step ⟨1000, 10⟩ [false, true])
      (RtRuntimes.init ⟨1000, 10⟩ fun i => if i then 0 else -1000) [.balance true]).map
      (fun r => (r.1.rtRuntime false, r.1.rtRuntime true)) = some (-495, 515) ∧
    runCalls (RtRuntimeCall.step ⟨6 * 2 ^ 61, 3 * 2 ^ 61⟩ [false, true])
      (RtRuntimes.init ⟨6 * 2 ^ 61, 3 * 2 ^ 61⟩ fun _ => 0) [.balance true, .disable false] =
      none := by
  decide +kernel

end LinuxKernelTest
