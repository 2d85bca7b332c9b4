import Mathlib.Tactic
import LinuxKernelTest.CompareExchange

/-!
# Saturating reference counts

`lib/refcount.c` : a counter of 32 bits that stays at `UINT_MAX` once it is there, and at 0. The
functions without a suffix are those with `_checked`, as `CONFIG_REFCOUNT_FULL` has them. The
repository never sets this option : as it is built, the names without a suffix are inline functions
of `refcount.h` that do not saturate, and this module is about those of `lib/refcount.c` only. Each
one is a loop over `atomic_try_cmpxchg`, but `refcount_dec_if_one`, which tries once. The functions
without a result only warn about that of another function, and are modelled with it.

Any number of threads make such calls on one counter. A call writes what it computed from the value
that it replaces, so it is enough to look at one value at a time (`RefcountCall.swaps_spec`). The
comparisons that detect an overflow or an underflow after the fact, on the wrapped value, are exact.
-/

set_option linter.unusedSectionVars false

namespace LinuxKernelTest

open BitVec CasCrew

/-- `UINT_MAX`. -/
def uintMax : BitVec 32 := BitVec.allOnes 32

namespace Refcount

/-- `refcount_add_not_zero_checked`. -/
def addNotZeroChecked (i : BitVec 32) : CasLoop (BitVec 32) Bool :=
  .retry fun val =>
    if val = 0 then .finish false
    else if val = uintMax then .finish true
    else
      let new := val + i
      .swap (if new < val then uintMax else new) true

/-- `refcount_inc_not_zero_checked`. -/
def incNotZeroChecked : CasLoop (BitVec 32) Bool :=
  .retry fun val =>
    let new := val + 1
    if val = 0 then .finish false
    else if new = 0 then .finish true
    else .swap new true

/-- `refcount_sub_and_test_checked`. -/
def subAndTestChecked (i : BitVec 32) : CasLoop (BitVec 32) Bool :=
  .retry fun val =>
    if val = uintMax then .finish false
    else
      let new := val - i
      if val < new then .finish false
      else .swap new (new = 0)

/-- `refcount_dec_and_test_checked`. -/
def decAndTestChecked : CasLoop (BitVec 32) Bool := subAndTestChecked 1

/-- `refcount_dec_if_one`. -/
def decIfOne : CasLoop (BitVec 32) Bool where
  guess := some 1
  attempt _ := .swap 0 true
  failed _ := .finish false

/-- `refcount_dec_not_one`. -/
def decNotOne : CasLoop (BitVec 32) Bool :=
  .retry fun val =>
    if val = uintMax then .finish true
    else if val = 1 then .finish false
    else
      let new := val - 1
      if val < new then .finish true
      else .swap new true

end Refcount

/-- The calls. -/
inductive RefcountCall
  | addNotZero (i : BitVec 32)
  | add (i : BitVec 32)
  | incNotZero
  | inc
  | subAndTest (i : BitVec 32)
  | decAndTest
  | dec
  | decIfOne
  | decNotOne
deriving DecidableEq, Repr

namespace RefcountCall

open Refcount

/-- The loop that a call runs. -/
def code : RefcountCall → CasLoop (BitVec 32) Bool
  | addNotZero i | add i => addNotZeroChecked i
  | incNotZero | inc => incNotZeroChecked
  | subAndTest i => subAndTestChecked i
  | decAndTest | dec => decAndTestChecked
  | decIfOne => Refcount.decIfOne
  | decNotOne => Refcount.decNotOne

/-- The references that a call is about. -/
def amount : RefcountCall → BitVec 32
  | addNotZero i | add i | subAndTest i => i
  | incNotZero | inc | decAndTest | dec | decIfOne | decNotOne => 1

/-- The call is for more references. -/
def adds : RefcountCall → Bool
  | addNotZero _ | add _ | incNotZero | inc => true
  | subAndTest _ | decAndTest | dec | decIfOne | decNotOne => false

/-- The result says whether this was the last reference. -/
def releases : RefcountCall → Bool
  | subAndTest _ | decAndTest | decIfOne => true
  | addNotZero _ | add _ | incNotZero | inc | dec | decNotOne => false

/-- What a call may do to the counter, in numbers. -/
def Changes (job : RefcountCall) (val new : BitVec 32) : Prop :=
  if job.adds then new.toNat = min (val.toNat + job.amount.toNat) uintMax.toNat
  else job.amount.toNat ≤ val.toNat ∧ new.toNat = val.toNat - job.amount.toNat

/-- A call that replaces the value of the counter. -/
structure SwapSpec (job : RefcountCall) (val new : BitVec 32) (r : Bool) : Prop where
  ne_zero : val ≠ 0
  ne_max : val ≠ uintMax
  changes : job.Changes val new
  released : job.releases = true → r = true → new = 0

variable {i val new : BitVec 32} {r : Bool} {job : RefcountCall}

theorem toNat_lt_uintMax (h : val ≠ uintMax) : val.toNat < uintMax.toNat := by
  have hne : val.toNat ≠ uintMax.toNat := fun hc => h (eq_of_toNat_eq hc)
  have hmax : uintMax.toNat = 2 ^ 32 - 1 := by decide
  have := val.isLt
  omega

/-- The sum has wrapped if it is below the first summand. -/
theorem toNat_saturate (h : val ≠ uintMax) :
    (if val + i < val then uintMax else val + i).toNat =
      min (val.toNat + i.toNat) uintMax.toNat := by
  have hmax : uintMax.toNat = 2 ^ 32 - 1 := by decide
  have hval := val.isLt
  have hi := i.isLt
  have hlt := toNat_lt_uintMax h
  split_ifs with hwrap
  · rw [lt_def, toNat_add] at hwrap
    omega
  · rw [lt_def, toNat_add] at hwrap
    rw [toNat_add]
    omega

/-- The difference has wrapped if it is above the minuend. -/
theorem toNat_sub_of_not_lt (h : ¬val < val - i) :
    i.toNat ≤ val.toNat ∧ (val - i).toNat = val.toNat - i.toNat := by
  have hval := val.isLt
  have hi := i.isLt
  rw [lt_def, toNat_sub] at h
  rw [toNat_sub]
  omega

theorem swaps_addNotZeroChecked (h : (addNotZeroChecked i).Swaps val new r) :
    val ≠ 0 ∧ val ≠ uintMax ∧ new.toNat = min (val.toNat + i.toNat) uintMax.toNat := by
  rw [addNotZeroChecked, CasLoop.swaps_retry] at h
  split_ifs at h with hzero hmax
  cases h
  exact ⟨hzero, hmax, toNat_saturate hmax⟩

theorem swaps_incNotZeroChecked (h : incNotZeroChecked.Swaps val new r) :
    val ≠ 0 ∧ val ≠ uintMax ∧ new.toNat = min (val.toNat + 1) uintMax.toNat := by
  rw [incNotZeroChecked, CasLoop.swaps_retry] at h
  dsimp only at h
  split_ifs at h with hzero hwrap
  cases h
  have hmax : val ≠ uintMax := by
    rintro rfl
    exact hwrap (by decide)
  have hlt := toNat_lt_uintMax hmax
  refine ⟨hzero, hmax, ?_⟩
  have h32 : uintMax.toNat = 2 ^ 32 - 1 := by decide
  have hone : (1 : BitVec 32).toNat = 1 := by decide
  rw [toNat_add, hone]
  omega

theorem swaps_subAndTestChecked (h : (subAndTestChecked i).Swaps val new r) :
    val ≠ uintMax ∧ (i.toNat ≤ val.toNat ∧ new.toNat = val.toNat - i.toNat) ∧
      r = decide (new = 0) := by
  rw [subAndTestChecked, CasLoop.swaps_retry] at h
  dsimp only at h
  split_ifs at h with hmax hwrap
  cases h
  exact ⟨hmax, toNat_sub_of_not_lt hwrap, rfl⟩

theorem swaps_decNotOne (h : Refcount.decNotOne.Swaps val new r) :
    val ≠ uintMax ∧ (1 : BitVec 32).toNat ≤ val.toNat ∧
      new.toNat = val.toNat - (1 : BitVec 32).toNat := by
  rw [Refcount.decNotOne, CasLoop.swaps_retry] at h
  dsimp only at h
  split_ifs at h with hmax hone hwrap
  cases h
  exact ⟨hmax, toNat_sub_of_not_lt hwrap⟩

theorem swaps_decIfOne (h : Refcount.decIfOne.Swaps val new r) : val = 1 ∧ new = 0 := by
  rcases h with ⟨hguess, hswap⟩ | hfailed
  · cases hswap
    rcases hguess with hnone | hsome
    · cases hnone
    · cases hsome
      exact ⟨rfl, rfl⟩
  · cases hfailed

theorem ne_zero_of_le (hi : 0 < i) (h : i.toNat ≤ val.toNat) : val ≠ 0 := by
  rintro rfl
  rw [lt_def] at hi
  exact absurd (hi.trans_le h) (lt_irrefl _)

/-- A call with a positive amount never replaces 0 or `UINT_MAX`, and does not wrap. -/
theorem swaps_spec (hpos : 0 < job.amount)
    (h : job.code.Swaps val new r) : SwapSpec job val new r := by
  cases job with
  | addNotZero i | add i =>
    obtain ⟨hzero, hmax, hnew⟩ := swaps_addNotZeroChecked h
    exact ⟨hzero, hmax, hnew, fun hrel => (by cases hrel)⟩
  | incNotZero | inc =>
    obtain ⟨hzero, hmax, hnew⟩ := swaps_incNotZeroChecked h
    exact ⟨hzero, hmax, hnew, fun hrel => (by cases hrel)⟩
  | subAndTest i | decAndTest | dec =>
    obtain ⟨hmax, hnew, hr⟩ := swaps_subAndTestChecked h
    exact ⟨ne_zero_of_le hpos hnew.1, hmax, hnew, fun _ hrel => by simpa [hr] using hrel⟩
  | decIfOne =>
    obtain ⟨rfl, rfl⟩ := swaps_decIfOne h
    exact ⟨by decide, by decide, ⟨le_rfl, rfl⟩, fun _ _ => rfl⟩
  | decNotOne =>
    obtain ⟨hmax, hnew⟩ := swaps_decNotOne h
    exact ⟨ne_zero_of_le hpos hnew.1, hmax, hnew, fun hrel => (by cases hrel)⟩

/-- A call that says it was for the last reference has exchanged the counter. -/
theorem eq_false_of_finishes (hrel : job.releases = true)
    (h : job.code.Finishes val r) : r = false := by
  have hsub : ∀ i, (subAndTestChecked i).Finishes val r → r = false := by
    intro i h
    rw [subAndTestChecked, CasLoop.finishes_retry] at h
    dsimp only at h
    split_ifs at h
    · cases h
      rfl
    · cases h
      rfl
  cases job with
  | subAndTest i => exact hsub i h
  | decAndTest => exact hsub 1 h
  | decIfOne =>
    rcases h with hattempt | hfailed
    · cases hattempt
    · cases hfailed
      rfl
  | addNotZero _ | add _ | incNotZero | inc | dec | decNotOne => cases hrel

end RefcountCall

namespace Refcount

open RefcountCall

variable {ι : Type} [DecidableEq ι]

/-- A counter with the value `n`, and the calls of any number of threads. -/
def run (n : BitVec 32) (evs : List (CasEvent ι RefcountCall)) :
    CasCrew ι RefcountCall (BitVec 32) Bool :=
  (CasCrew.start n).run code evs

/-- How many calls have been told that theirs was the last reference. -/
def released (c : CasCrew ι RefcountCall (BitVec 32) Bool) : ℕ :=
  c.returned.countP fun x => x.1.releases && x.2

/-- The last reference is given back once, and the counter is 0 from then on. -/
def ReleasedOnce (c : CasCrew ι RefcountCall (BitVec 32) Bool) : Prop :=
  released c = 0 ∨ released c = 1 ∧ c.mem = 0

variable {c c' : CasCrew ι RefcountCall (BitVec 32) Bool} {e : CasEvent ι RefcountCall}

theorem released_of_append {x : RefcountCall × Bool} (h : c'.returned = c.returned ++ [x]) :
    released c' = released c + if x.1.releases && x.2 then 1 else 0 := by
  rw [released, h, List.countP_append, List.countP_singleton, ← released]

/-- What a step does to the counter and to the number of releases. -/
theorem effect_cases (h : CasCrew.Effect code (fun job => 0 < job.amount) c c' e) :
    (c'.mem = c.mem ∧ released c' = released c) ∨
      ∃ i job r, e = .access i ∧ (c.place i).job = some job ∧ SwapSpec job c.mem c'.mem r ∧
        released c' = released c + if job.releases && r then 1 else 0 := by
  cases h with
  | quiet hmem hret => exact .inl ⟨hmem, by rw [released, released, hret]⟩
  | @finish _ job v r hok hfin hmem hret =>
    refine .inl ⟨hmem, ?_⟩
    rw [released_of_append hret]
    by_cases hrel : job.releases = true
    · simp [eq_false_of_finishes hrel hfin]
    · simp [hrel]
  | @swap i job r hok hplace hswap hret =>
    exact .inr ⟨i, job, r, rfl, hplace, swaps_spec hok hswap, released_of_append hret⟩

theorem mem_stays {v : BitVec 32} (hv : v = 0 ∨ v = uintMax) (hc : c.mem = v)
    (h : CasCrew.Effect code (fun job => 0 < job.amount) c c' e) : c'.mem = v := by
  rcases effect_cases h with ⟨hmem, -⟩ | ⟨i, job, r, -, -, hspec, -⟩
  · rw [hmem, hc]
  · rcases hv with rfl | rfl
    · exact absurd hc hspec.ne_zero
    · exact absurd hc hspec.ne_max

theorem ReleasedOnce.step (hc : ReleasedOnce c)
    (h : CasCrew.Effect code (fun job => 0 < job.amount) c c' e) : ReleasedOnce c' := by
  rcases effect_cases h with ⟨hmem, hrel⟩ | ⟨i, job, r, -, -, hspec, hrel⟩
  · rwa [ReleasedOnce, hmem, hrel]
  rcases hc with hnone | ⟨-, hzero⟩
  · rw [ReleasedOnce, hrel, hnone]
    by_cases hr : (job.releases && r) = true
    · rw [if_pos hr]
      rw [Bool.and_eq_true] at hr
      exact .inr ⟨rfl, hspec.released hr.1 hr.2⟩
    · rw [if_neg hr]
      exact .inl rfl
  · exact absurd hzero hspec.ne_zero

/-- Whatever the order of the accesses : a counter at 0 or at `UINT_MAX` stays there, every other
change is an addition that saturates or a subtraction of no more than the value, by the call that
makes it, and at most one call is told that it had the last reference. -/
theorem refcount_run (n : BitVec 32) (evs : List (CasEvent ι RefcountCall))
    (hpos : ∀ i job, .take i job ∈ evs → 0 < job.amount) :
    (∀ pre post, evs = pre ++ post → ∀ v, v = 0 ∨ v = uintMax → (run n pre).mem = v →
      (run n evs).mem = v) ∧
    (∀ pre e post, evs = pre ++ e :: post → (run n (pre ++ [e])).mem ≠ (run n pre).mem →
      ∃ i job, e = .access i ∧ ((run n pre).place i).job = some job ∧
        job.Changes (run n pre).mem (run n (pre ++ [e])).mem) ∧
    released (run n evs) ≤ 1 := by
  have hstart := sound_start code (fun job => 0 < job.amount) n (ι := ι)
  have hsound : ∀ pre post, evs = pre ++ post →
      CasCrew.Sound code (fun job => 0 < job.amount) (run n pre) := by
    rintro pre post rfl
    exact (run_induction (I := fun _ => True) (fun _ _ _ _ _ => trivial)
      (fun i job hmem => hpos i job (List.mem_append_left _ hmem)) hstart trivial).1
  refine ⟨?_, ?_, ?_⟩
  · rintro pre post rfl v hv hmem
    rw [run, run_append]
    exact (run_induction (I := fun c => c.mem = v) (fun _ _ _ hc h => mem_stays hv hc h)
      (fun i job hmem => hpos i job (List.mem_append_right _ hmem)) (hsound pre post rfl) hmem).2
  · rintro pre e post rfl hne
    have hstep := ((hsound pre _ rfl).step (e := e) fun i job he => hpos i job (by simp [he])).1
    have hrun : run n (pre ++ [e]) = (run n pre).step code e := run_append pre [e]
    rw [hrun] at hne ⊢
    rcases effect_cases hstep with ⟨hmem, -⟩ | ⟨i, job, r, he, hplace, hspec, -⟩
    · exact absurd hmem hne
    · exact ⟨i, job, he, hplace, hspec.changes⟩
  · obtain ⟨-, h⟩ := run_induction (fun _ _ _ hc h => ReleasedOnce.step hc h) hpos hstart
      (.inl rfl)
    rcases h with h | h
    · exact (h.trans_le (Nat.zero_le 1))
    · exact h.1.le

/-- A thread takes a reference while another gives one back, so that its exchange fails, and then
two threads try to give back the last one. -/
def refcountRace : List (CasEvent Bool RefcountCall) :=
  [.take false .inc, .access false, .take true .decAndTest, .access true, .access false,
    .access true, .access true, .take false .decIfOne, .take true .decAndTest, .access true,
    .access false, .access true, .access true]

theorem refcount_run_race :
    (∀ i job, .take i job ∈ refcountRace → 0 < job.amount) ∧
    (∀ pre post, refcountRace = pre ++ post → ∀ v, v = 0 ∨ v = uintMax → (run 1 pre).mem = v →
      (run 1 refcountRace).mem = v) ∧
    (∀ pre e post, refcountRace = pre ++ e :: post → (run 1 (pre ++ [e])).mem ≠ (run 1 pre).mem →
      ∃ i job, e = .access i ∧ ((run 1 pre).place i).job = some job ∧
        job.Changes (run 1 pre).mem (run 1 (pre ++ [e])).mem) ∧
    released (run 1 refcountRace) ≤ 1 := by
  have hpos : ∀ i job, .take i job ∈ refcountRace → 0 < job.amount := by
    intro i job h
    simp only [refcountRace, List.mem_cons, CasEvent.take.injEq, reduceCtorEq, List.not_mem_nil,
      or_false, false_or] at h
    rcases h with ⟨-, rfl⟩ | ⟨-, rfl⟩ | ⟨-, rfl⟩ | ⟨-, rfl⟩ <;> decide
  exact ⟨hpos, refcount_run 1 refcountRace hpos⟩

end Refcount

end LinuxKernelTest
