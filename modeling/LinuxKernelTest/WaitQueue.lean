import Mathlib.Data.BitVec
import Mathlib.Tactic
import LinuxKernelTest.Loop
import LinuxKernelTest.Machine
import LinuxKernelTest.ListSplice
import LinuxKernelTest.Rings

/-!
# Wake-ups with bookmarks

A model of the wait queues of `kernel/sched/wait.c`. A wait queue is a ring of entries behind a
head. `__wake_up` walks it and calls the function of each waiter. Behind 64 of them it plants its
bookmark in front of the next entry, drops the lock, and goes on from the bookmark later. Meanwhile
others may add and remove waiters and walk the queue with bookmarks of their own.

Each step of the model is one section under the lock. The callbacks are a parameter of a section :
each waiter is called at most once in it, so a function from waiters to the result of the callback,
and whether it removes its entry, says what they do.

`turn` counts how often a waiter has been queued. A waiter that is removed and queued again while a
walk is going on is another waiter for it.
-/

set_option linter.unusedSectionVars false

namespace LinuxKernelTest

open Function List ListHeads

/-- What a link of an entry points to. -/
inductive WaitLink (ω ι : Type*)
  | head
  | waiter (w : ω)
  | bookmark (j : ι)
  | poison
deriving DecidableEq

/-- A call of `__wake_up_common_lock` : `nr_exclusive`, and `WQ_FLAG_BOOKMARK` of its bookmark. -/
structure Waker where
  nrExclusive : BitVec 32
  marked : Bool
deriving DecidableEq

/-- A wait queue with the waiters `ω` and the wakers `ι`. -/
structure WaitQueue (ω ι : Type*) where
  links : ListHeads (WaitLink ω ι)
  exclusive : ω → Bool
  waker : ι → Option Waker
  queued : ω → Bool
  turn : ω → ℕ

/-- A call of the function of a waiter, with what it returned. -/
structure Invocation (ω : Type*) where
  waiter : ω
  turn : ℕ
  exclusive : Bool
  ret : ℤ
deriving DecidableEq

/-- The queueing of a waiter that a call is about. -/
def Invocation.key {ω : Type*} (c : Invocation ω) : ω × ℕ := (c.waiter, c.turn)

/-- The call is one that `nr_exclusive` is decremented for. -/
def Invocation.counts {ω : Type*} (c : Invocation ω) : Bool := decide (0 < c.ret) && c.exclusive

namespace WaitQueue

variable {ω ι : Type*} [DecidableEq ω] [DecidableEq ι]

/-! ## Waiters -/

variable (s : WaitQueue ω ι) {nr : BitVec 32} {wake : ω → ℤ × Bool}

/-- `add_wait_queue` and `add_wait_queue_exclusive`, and the other ways to add an entry with or
without `WQ_FLAG_EXCLUSIVE` at one of the ends. -/
def addWaiter (w : ω) (exclusive tail : Bool) : WaitQueue ω ι :=
  { s with
    links := if tail then s.links.addTail (.waiter w) .head else s.links.add (.waiter w) .head
    exclusive := update s.exclusive w exclusive
    queued := update s.queued w true
    turn := update s.turn w (s.turn w + 1) }

/-- `list_del`. -/
def listDel (m : ListHeads (WaitLink ω ι)) (x : WaitLink ω ι) : ListHeads (WaitLink ω ι) :=
  (m.delEntry x).set x .poison .poison

/-- `remove_wait_queue`. -/
def removeWaiter (w : ω) : WaitQueue ω ι :=
  { s with
    links := listDel s.links (.waiter w)
    queued := update s.queued w false }

/-! ## The walk -/

/-- `WAITQUEUE_WALK_BREAK_CNT`. -/
def walkBreakCnt : ℕ := 64

/-- The variables of the loop of `__wake_up_common`, with the calls that it has made. -/
structure Walk (ω ι : Type*) where
  links : ListHeads (WaitLink ω ι)
  queued : ω → Bool
  nrExclusive : BitVec 32
  marked : Bool
  cnt : ℕ
  curr : WaitLink ω ι
  next : WaitLink ω ι
  calls : List (Invocation ω)

/-- The step of `list_for_each_entry_safe_from`. -/
def Walk.forward (t : Walk ω ι) : Walk ω ι := { t with curr := t.next, next := t.links.next t.next }

/-- The call of the function of a waiter, that may remove the entry. -/
def Walk.call (t : Walk ω ι) (c : Invocation ω) (removes : Bool) : Walk ω ι :=
  { t with
    links := if removes then t.links.delInit (.waiter c.waiter) else t.links
    queued := if removes then update t.queued c.waiter false else t.queued
    calls := t.calls ++ [c] }

/-- What the call of the function of a waiter does, if it returns what `wake` says. -/
def invocation (wake : ω → ℤ × Bool) (w : ω) : Invocation ω :=
  ⟨w, s.turn w, s.exclusive w, (wake w).1⟩

/-- The end of a round : a long walk takes a break if there is a bookmark to plant. -/
def Walk.endRound (t : Walk ω ι) : Option ι → Round (Walk ω ι) (Option (Walk ω ι))
  | none => .again t.forward
  | some j =>
    if walkBreakCnt < t.cnt ∧ t.next ≠ .head then
      .done (some { t with links := t.links.addTail (.bookmark j) t.next, marked := true })
    else .again t.forward

/-- A round of the loop of `__wake_up_common`. -/
def walkRound (wake : ω → ℤ × Bool) (bookmark : Option ι) (t : Walk ω ι) :
    Round (Walk ω ι) (Option (Walk ω ι)) :=
  match t.curr with
  | .head => .done (some t)
  | .poison => .done none
  | .bookmark _ => .again t.forward
  | .waiter w =>
    let c := s.invocation wake w
    let t := t.call c (wake w).2
    if c.ret < 0 then .done (some t)
    else
      -- `ret && (flags & WQ_FLAG_EXCLUSIVE) && !--nr_exclusive`
      let nr := if c.counts then t.nrExclusive - 1 else t.nrExclusive
      let t := { t with nrExclusive := nr, cnt := t.cnt + 1 }
      if c.counts ∧ nr = 0 then .done (some t) else t.endRound bookmark

/-- The bookmark from which a waker goes on. -/
def resume (bookmark : Option ι) (k : Waker) : Option ι := if k.marked then bookmark else none

/-- `__wake_up_common`, with the bookmark of a waker or without one. -/
def wakeUpCommon (fuel : ℕ) (s : WaitQueue ω ι) (wake : ω → ℤ × Bool) (bookmark : Option ι)
    (k : Waker) : Option (Walk ω ι) :=
  let curr := s.links.next ((resume bookmark k).elim .head .bookmark)
  let links := (resume bookmark k).elim s.links fun j => listDel s.links (.bookmark j)
  let t : Walk ω ι := ⟨links, s.queued, k.nrExclusive, false, 0, curr, links.next curr, []⟩
  if curr = .head then some t else (runLoop (walkRound s wake bookmark) fuel t).join

/-- A section of `__wake_up_common_lock` : the call goes on if the bookmark is planted. -/
def wakeUpSection (fuel : ℕ) (s : WaitQueue ω ι) (wake : ω → ℤ × Bool) (j : ι) :
    Option (WaitQueue ω ι × List (Invocation ω)) :=
  (s.waker j).bind fun k => (wakeUpCommon fuel s wake (some j) k).map fun t =>
    ({ s with
      links := t.links
      queued := t.queued
      waker := update s.waker j (if t.marked then some ⟨t.nrExclusive, true⟩ else none) },
      t.calls)

/-- `__wake_up_locked`, in a section of its caller. -/
def wakeUpLocked (fuel : ℕ) (s : WaitQueue ω ι) (wake : ω → ℤ × Bool) (nrExclusive : BitVec 32) :
    Option (WaitQueue ω ι × List (Invocation ω)) :=
  (wakeUpCommon fuel s wake none ⟨nrExclusive, false⟩).map fun t =>
    ({ s with links := t.links, queued := t.queued }, t.calls)

/-- `__wake_up` begins. -/
def wakeUp (j : ι) (nrExclusive : BitVec 32) : WaitQueue ω ι :=
  { s with waker := update s.waker j (some ⟨nrExclusive, false⟩) }

/-! ## Steps -/

/-- What the threads may do. -/
inductive Step (ω ι : Type*)
  | add (w : ω) (exclusive tail : Bool)
  | remove (w : ω)
  | wakeUp (j : ι) (nrExclusive : BitVec 32)
  | walk (j : ι) (wake : ω → ℤ × Bool)
  | wakeUpLocked (nrExclusive : BitVec 32) (wake : ω → ℤ × Bool)

/-- A step, with the calls that it makes. -/
def step (fuel : ℕ) (s : WaitQueue ω ι) : Step ω ι → Option (WaitQueue ω ι × List (Invocation ω))
  | .add w exclusive tail => some (s.addWaiter w exclusive tail, [])
  | .remove w => some (s.removeWaiter w, [])
  | .wakeUp j n => some (s.wakeUp j n, [])
  | .walk j wake => wakeUpSection fuel s wake j
  | .wakeUpLocked n wake => wakeUpLocked fuel s wake n

/-- A waiter that is added is not queued, and one that is removed is. A waker has one call at a
time. -/
def StepOk : Step ω ι → Prop
  | .add w _ _ => s.queued w = false
  | .remove w => s.queued w = true
  | .wakeUp j _ => s.waker j = none
  | .walk j _ => s.waker j ≠ none
  | .wakeUpLocked _ _ => True

instance (s : WaitQueue ω ι) : (o : Step ω ι) → Decidable (s.StepOk o)
  | .add _ _ _ | .remove _ | .wakeUp _ _ => inferInstanceAs (Decidable (_ = _))
  | .walk _ _ => inferInstanceAs (Decidable (_ ≠ _))
  | .wakeUpLocked _ _ => inferInstanceAs (Decidable True)

/-- The empty queue. -/
def start : WaitQueue ω ι :=
  ⟨⟨id, id⟩, fun _ => false, fun _ => none, fun _ => false, fun _ => 0⟩

/-! ## The walk on a list -/

/-- Why a walk ends : the list ends, a callback has returned a negative value, `nr_exclusive` is
zero, or it has been long enough. -/
inductive Stop
  | finished
  | refused
  | satisfied
  | paused
deriving DecidableEq

/-- What a walk does. -/
structure Outcome (ω ι : Type*) where
  nrExclusive : BitVec 32
  calls : List (Invocation ω)
  walked : List (WaitLink ω ι)
  rest : List (WaitLink ω ι)
  stop : Stop

/-- Put an entry, and the call of its function, in front of a walk. -/
def Outcome.cons (x : WaitLink ω ι) (c : List (Invocation ω)) (r : Outcome ω ι) : Outcome ω ι :=
  { r with calls := c ++ r.calls, walked := x :: r.walked }

/-- The walk over the entries `B`. -/
def walkList (s : WaitQueue ω ι) (wake : ω → ℤ × Bool) (bookmark : Option ι) :
    ℕ → BitVec 32 → List (WaitLink ω ι) → Outcome ω ι
  | _, nr, [] => ⟨nr, [], [], [], .finished⟩
  | cnt, nr, .waiter w :: B =>
    let c := s.invocation wake w
    if c.ret < 0 then ⟨nr, [c], [.waiter w], B, .refused⟩
    else
      let nr := if c.counts then nr - 1 else nr
      if c.counts ∧ nr = 0 then ⟨nr, [c], [.waiter w], B, .satisfied⟩
      else if bookmark ≠ none ∧ walkBreakCnt < cnt + 1 ∧ B ≠ [] then
        ⟨nr, [c], [.waiter w], B, .paused⟩
      else (walkList s wake bookmark (cnt + 1) nr B).cons (.waiter w) [c]
  | cnt, nr, x :: B => (walkList s wake bookmark cnt nr B).cons x []

/-- The entry of a bookmark that is planted, if one is. -/
def marks (b : Option ι) : List (WaitLink ω ι) := b.toList.map .bookmark

/-- The bookmark that a walk has planted. -/
def Outcome.planted (o : Outcome ω ι) (bookmark : Option ι) : Option ι :=
  if o.stop = .paused then bookmark else none

/-- The callback leaves the entry where it is. -/
def stays (wake : ω → ℤ × Bool) : WaitLink ω ι → Bool
  | .waiter w => !(wake w).2
  | _ => true

/-- The number of exclusive wake-ups that `nr_exclusive` allows. Zero is not reached before the
counter has been around. -/
def allowance (nr : BitVec 32) : ℕ := if nr = 0 then 2 ^ 32 else nr.toNat

/-- The number of exclusive wake-ups among some calls. -/
def wakeUps (calls : List (Invocation ω)) : ℕ := calls.countP Invocation.counts

theorem allowance_pos (nr : BitVec 32) : 0 < allowance nr := by
  unfold allowance
  split
  · decide
  · have : nr.toNat ≠ 0 := fun h => ‹nr ≠ 0› (BitVec.eq_of_toNat_eq h)
    omega

theorem allowance_sub_one (h : nr - 1 ≠ 0) : allowance (nr - 1) + 1 = allowance nr := by
  have hnr : nr.toNat < 2 ^ 32 := nr.isLt
  have hsub : (nr - 1).toNat = (2 ^ 32 - 1 + nr.toNat) % 2 ^ 32 := by
    rw [BitVec.toNat_sub]
    rfl
  have hne : (nr - 1).toNat ≠ 0 := fun h0 => h (BitVec.eq_of_toNat_eq h0)
  rw [allowance, if_neg h, allowance]
  split
  · subst nr
    rfl
  · have : nr.toNat ≠ 0 := fun h0 => ‹nr ≠ 0› (BitVec.eq_of_toNat_eq h0)
    omega

theorem allowance_eq_one (h : nr - 1 = 0) : allowance nr = 1 := by
  obtain rfl : nr = 1 := by
    rw [← sub_eq_zero]
    exact h
  rfl

/-- What a walk over the entries `B` does. -/
structure Outcome.Sound (o : Outcome ω ι) (s : WaitQueue ω ι) (wake : ω → ℤ × Bool)
    (nr : BitVec 32) (B : List (WaitLink ω ι)) : Prop where
  split : B = o.walked ++ o.rest
  calls : o.calls = o.walked.filterMap fun
    | .waiter w => some (s.invocation wake w)
    | _ => none
  finished : o.stop = .finished → o.rest = []
  paused : o.stop = .paused → o.walked ≠ []
  refused : o.stop = .refused ↔ ∃ c ∈ o.calls, c.ret < 0
  count : o.stop ≠ .satisfied → allowance o.nrExclusive + wakeUps o.calls = allowance nr
  satisfied : o.stop = .satisfied → wakeUps o.calls = allowance nr ∧
    ∃ W w, o.walked = W ++ [.waiter w] ∧ (s.invocation wake w).counts

variable {B : List (WaitLink ω ι)} {o : Outcome ω ι}

/-- A walk with an entry more in front, that is not a waiter. -/
theorem Outcome.Sound.skip {s : WaitQueue ω ι} (h : o.Sound s wake nr B) {x : WaitLink ω ι}
    (hx : ∀ w, x ≠ .waiter w) : (o.cons x []).Sound s wake nr (x :: B) := by
  have hcons : (o.cons x []).walked = x :: o.walked := rfl
  refine ⟨?_, ?_, h.finished, fun _ => by simp [hcons], h.refused, h.count, fun hstop => ?_⟩
  · rw [hcons, cons_append]
    exact congrArg (x :: ·) h.split
  · rw [hcons, filterMap_cons_none]
    · exact h.calls
    · cases x with
      | waiter w => exact absurd rfl (hx w)
      | _ => rfl
  · obtain ⟨hcount, W, w, hW, hw⟩ := h.satisfied hstop
    exact ⟨hcount, x :: W, w, by rw [hcons, hW]; rfl, hw⟩

/-- A walk with a waiter more in front, that lets it go on. -/
theorem Outcome.Sound.call {s : WaitQueue ω ι}
    {nr' : BitVec 32} (h : o.Sound s wake nr' B) {w : ω}
    (hret : 0 ≤ (s.invocation wake w).ret)
    (hnr : allowance nr' + wakeUps [s.invocation wake w] = allowance nr) :
    (o.cons (.waiter w) [s.invocation wake w]).Sound s wake nr (.waiter w :: B) := by
  obtain ⟨o', ho'⟩ : ∃ o', o' = o.cons (.waiter w) [s.invocation wake w] := ⟨_, rfl⟩
  have hwalked : o'.walked = .waiter w :: o.walked := by rw [ho']; rfl
  have hcalls : o'.calls = s.invocation wake w :: o.calls := by rw [ho']; rfl
  have hrest : o'.rest = o.rest := by rw [ho']; rfl
  have hstop : o'.stop = o.stop := by rw [ho']; rfl
  have hnr' : o'.nrExclusive = o.nrExclusive := by rw [ho']; rfl
  have hups : wakeUps o'.calls = wakeUps [s.invocation wake w] + wakeUps o.calls := by
    rw [hcalls, wakeUps, wakeUps, wakeUps, ← countP_append]
    rfl
  rw [← ho']
  refine ⟨?_, ?_, ?_, ?_, ?_, ?_, ?_⟩
  · rw [hwalked, hrest, cons_append]
    exact congrArg (WaitLink.waiter w :: ·) h.split
  · rw [hwalked, hcalls, h.calls]
    rfl
  · rw [hstop, hrest]
    exact h.finished
  · rw [hwalked]
    simp
  · rw [hstop, h.refused, hcalls]
    simp only [mem_cons, exists_eq_or_imp]
    exact (or_iff_right (not_lt.mpr hret)).symm
  · rw [hstop, hnr', hups]
    intro hne
    have := h.count hne
    omega
  · rw [hstop, hups]
    intro hsat
    obtain ⟨hcount, W, v, hW, hv⟩ := h.satisfied hsat
    exact ⟨by omega, .waiter w :: W, v, by rw [hwalked, hW]; rfl, hv⟩

theorem walkList_sound (s : WaitQueue ω ι) (wake : ω → ℤ × Bool) (b : Option ι) :
    ∀ (B : List (WaitLink ω ι)) (cnt : ℕ) (nr : BitVec 32),
      (walkList s wake b cnt nr B).Sound s wake nr B
  | [], cnt, nr => by
    refine ⟨rfl, rfl, fun _ => rfl, ?_, ?_, fun _ => rfl, ?_⟩ <;> simp [walkList]
  | .head :: B, cnt, nr => (walkList_sound s wake b B cnt nr).skip (by simp)
  | .bookmark _ :: B, cnt, nr => (walkList_sound s wake b B cnt nr).skip (by simp)
  | .poison :: B, cnt, nr => (walkList_sound s wake b B cnt nr).skip (by simp)
  | .waiter w :: B, cnt, nr => by
    obtain ⟨c, hc⟩ : ∃ c, c = s.invocation wake w := ⟨_, rfl⟩
    rw [walkList]
    simp only [← hc]
    by_cases hneg : c.ret < 0
    · have hcounts : c.counts = false := by
        have : ¬ 0 < c.ret := by omega
        simp [Invocation.counts, this]
      rw [if_pos hneg]
      refine ⟨rfl, by rw [hc]; rfl, by simp, by simp, by simpa using hneg, fun _ => ?_, by simp⟩
      simp [wakeUps, hcounts]
    rw [if_neg hneg]
    obtain ⟨nr', hnr'⟩ : ∃ nr', nr' = if c.counts then nr - 1 else nr := ⟨_, rfl⟩
    simp only [← hnr']
    by_cases hzero : c.counts ∧ nr' = 0
    · rw [if_pos hzero]
      refine ⟨rfl, by rw [hc]; rfl, by simp, by simp, by simpa using hneg, by simp,
        fun _ => ⟨?_, ?_⟩⟩
      · have h1 : nr - 1 = 0 := by
          rw [← hzero.2, hnr', if_pos hzero.1]
        rw [allowance_eq_one h1]
        simp [wakeUps, hzero.1]
      · exact ⟨[], w, rfl, by rw [← hc]; exact hzero.1⟩
    rw [if_neg hzero]
    have hcount : allowance nr' + wakeUps [c] = allowance nr := by
      rw [hnr']
      cases hcounts : c.counts with
      | false => simp [wakeUps, hcounts]
      | true =>
        rw [if_pos rfl]
        have hone : wakeUps [c] = 1 := by simp [wakeUps, hcounts]
        rw [hone]
        refine allowance_sub_one fun h0 => hzero ⟨hcounts, ?_⟩
        rw [hnr', if_pos hcounts, h0]
    by_cases hpause : b ≠ none ∧ walkBreakCnt < cnt + 1 ∧ B ≠ []
    · rw [if_pos hpause]
      exact ⟨rfl, by rw [hc]; rfl, by simp, by simp, by simpa using hneg, fun _ => hcount, by simp⟩
    · rw [if_neg hpause, hc]
      rw [hc] at hneg hcount
      exact (walkList_sound s wake b B (cnt + 1) nr').call (not_lt.mp hneg) hcount

/-! ## The invariant -/

/-- The ring holds the entries `l`. -/
structure Holds (s : WaitQueue ω ι) (l : List (WaitLink ω ι)) : Prop where
  ring : s.links.Ring (.head :: l)
  waiter : ∀ w, .waiter w ∈ l ↔ s.queued w = true
  bookmark : ∀ j, .bookmark j ∈ l ↔ ∃ n, s.waker j = some ⟨n, true⟩
  poison : .poison ∉ l

variable {s s' : WaitQueue ω ι} {l l' A B : List (WaitLink ω ι)} {w : ω} {j : ι} {fuel : ℕ}
  {wake : ω → ℤ × Bool} {b : Option ι} {m : ListHeads (WaitLink ω ι)} {x : WaitLink ω ι}
  {t : Walk ω ι}

theorem Holds.nodup (h : s.Holds l) : l.Nodup := (nodup_cons.mp h.ring.nodup).2

/-- What points to the first entry of a part of the queue. -/
def linkTo (B : List (WaitLink ω ι)) : WaitLink ω ι := B.head?.getD .head

theorem next_head (h : m.Ring (.head :: l)) : m.next .head = linkTo l := by
  cases l with
  | nil => exact h.adj_ends.1
  | cons x l => exact (Ring.adj (a := []) h).1

theorem next_entry (h : m.Ring (.head :: (A ++ x :: B))) : m.next x = linkTo B := by
  cases B with
  | nil =>
    have hlast := h.adj_ends.1
    show m.next x = .head
    simpa using hlast
  | cons y B =>
    have hring : m.Ring ((.head :: A) ++ x :: y :: B) := h
    exact hring.adj.1

theorem linkTo_ne_head (hB : .head ∉ B) : linkTo B ≠ .head ↔ B ≠ [] := by
  cases B with
  | nil => simp [linkTo]
  | cons x B =>
    have hx : x ≠ .head := by
      rintro rfl
      simp at hB
    simpa [linkTo] using hx

/-! ## The walk on the ring -/

/-- The entries of a ring at which a walk stands : those in front of it, and those that it has still
to walk over. -/
structure Walk.At (t : Walk ω ι) (A B : List (WaitLink ω ι)) : Prop where
  ring : t.links.Ring (.head :: (A ++ B))
  curr : t.curr = linkTo B
  next : t.next = t.links.next t.curr
  waiter : ∀ w, .waiter w ∈ A ++ B ↔ t.queued w = true
  poison : .poison ∉ B
  unmarked : t.marked = false

theorem Walk.At.next_eq (h : t.At A (x :: B)) : t.next = linkTo B := by
  rw [h.next, h.curr]
  exact next_entry h.ring

/-- A step over an entry. -/
theorem Walk.At.forward (h : t.At A (x :: B)) : t.forward.At (A ++ [x]) B where
  ring := by simpa [Walk.forward] using h.ring
  curr := h.next_eq
  next := rfl
  waiter w := by simpa [Walk.forward] using h.waiter w
  poison hB := h.poison (mem_cons_of_mem _ hB)
  unmarked := h.unmarked

/-- The call of the function of a waiter. -/
theorem Walk.At.call (h : t.At A (.waiter w :: B)) (wake : ω → ℤ × Bool)
    (c : Invocation ω) (hc : c.waiter = w) :
    (t.call c (wake w).2).links.Ring (.head :: (A ++ [.waiter w].filter (stays wake) ++ B)) ∧
      ∀ v, .waiter v ∈ A ++ [.waiter w].filter (stays wake) ++ B ↔
        (t.call c (wake w).2).queued v = true := by
  have hring : t.links.Ring ((.head :: A) ++ .waiter w :: B) := h.ring
  have hnot := hring.not_mem_delEntry
  cases hr : (wake w).2 with
  | false =>
    have hfilter : ([.waiter w] : List (WaitLink ω ι)).filter (stays wake) = [.waiter w] := by
      simp [stays, hr]
    rw [hfilter]
    refine ⟨by simpa [Walk.call] using h.ring, fun v => ?_⟩
    simpa [Walk.call] using h.waiter v
  | true =>
    have hfilter : ([.waiter w] : List (WaitLink ω ι)).filter (stays wake) = [] := by
      simp [stays, hr]
    rw [hfilter, append_nil]
    refine ⟨?_, fun v => ?_⟩
    · simpa [Walk.call, hc, delInit, initHead] using
        (hring.delEntry.set hnot (.waiter w) (.waiter w))
    · have hv := h.waiter v
      by_cases hvw : v = w
      · subst hvw
        have hmem : .waiter v ∉ A ++ B := fun hmem => hnot (mem_cons_of_mem _ hmem)
        simp only [Walk.call, hc, if_true, update_self, hmem]
        simp
      · simp only [Walk.call, hc, if_true, update_of_ne hvw]
        simpa [hvw] using hv

/-- What the walk on the ring has done at its end. -/
structure WalkDone (t t' : Walk ω ι) (A : List (WaitLink ω ι)) (o : Outcome ω ι)
    (wake : ω → ℤ × Bool) (b : Option ι) : Prop where
  ring : t'.links.Ring (.head :: (A ++ o.walked.filter (stays wake) ++
    (marks (o.planted b) ++ o.rest)))
  waiter : ∀ w, .waiter w ∈ A ++ o.walked.filter (stays wake) ++ o.rest ↔ t'.queued w = true
  nr : t'.nrExclusive = o.nrExclusive
  marked : t'.marked = decide (o.stop = .paused)
  calls : t'.calls = t.calls ++ o.calls

/-- A walk over nothing. -/
theorem Walk.At.done (h : t.At A []) :
    WalkDone t t A (walkList s wake b t.cnt t.nrExclusive []) wake b := by
  refine ⟨?_, fun w => ?_, rfl, h.unmarked, (append_nil _).symm⟩
  · simpa [walkList, Outcome.planted, marks] using h.ring
  · simpa [walkList] using h.waiter w

/-- A walk with an entry more in front. -/
theorem WalkDone.cons {t1 t' : Walk ω ι} {r : Outcome ω ι} {c : List (Invocation ω)}
    (h : WalkDone t1 t' (A ++ [x].filter (stays wake)) r wake b) (hc : t1.calls = t.calls ++ c) :
    WalkDone t t' A (r.cons x c) wake b := by
  have hwalked : A ++ (x :: r.walked).filter (stays wake) =
      A ++ [x].filter (stays wake) ++ r.walked.filter (stays wake) := by
    rw [append_assoc, ← filter_append]
    rfl
  refine ⟨?_, fun w => ?_, h.nr, h.marked, ?_⟩
  · rw [Outcome.cons, hwalked]
    exact h.ring
  · rw [Outcome.cons, hwalked]
    exact h.waiter w
  · rw [h.calls, hc, append_assoc]
    rfl

/-- A walk that ends with the call of a function. -/
theorem WalkDone.last {t' : Walk ω ι} (h : t.At A (.waiter w :: B)) {c : Invocation ω}
    (hc : c.waiter = w) (hlinks : t'.links = (t.call c (wake w).2).links)
    (hqueued : t'.queued = (t.call c (wake w).2).queued)
    (hnr : t'.nrExclusive = nr) (hmarked : t'.marked = false) (hcalls : t'.calls = t.calls ++ [c])
    {stop : Stop} (hstop : stop ≠ .paused) :
    WalkDone t t' A ⟨nr, [c], [.waiter w], B, stop⟩ wake b := by
  obtain ⟨hring, hwaiter⟩ := h.call wake c hc
  refine ⟨?_, fun v => ?_, hnr, ?_, hcalls⟩
  · rw [hlinks, Outcome.planted, if_neg hstop]
    exact hring
  · rw [hqueued]
    exact hwaiter v
  · rw [hmarked, decide_eq_false hstop]

/-- The loop does what `walkList` says. -/
theorem walk_spec (s : WaitQueue ω ι) (wake : ω → ℤ × Bool) (b : Option ι) :
    ∀ (B A : List (WaitLink ω ι)) (t : Walk ω ι) (fuel : ℕ), t.At A B →
      (∀ j, b = some j → .bookmark j ∉ A ++ B) → B.length < fuel →
      ∃ t', runLoop (walkRound s wake b) fuel t = some (some t') ∧
        WalkDone t t' A (walkList s wake b t.cnt t.nrExclusive B) wake b := by
  intro B
  induction B with
  | nil =>
    intro A t fuel hat hb hfuel
    refine ⟨t, runLoop_of_done ?_ (by omega), hat.done⟩
    have hcurr : t.curr = .head := hat.curr
    simp only [walkRound, hcurr]
  | cons x B ih =>
    intro A t fuel hat hb hfuel
    obtain ⟨fuel, rfl⟩ : ∃ k, fuel = k + 1 := ⟨fuel - 1, by omega⟩
    have hlen : B.length < fuel := by simpa using hfuel
    have hcurr : t.curr = x := hat.curr
    cases x with
    | head => exact absurd hat.ring.nodup (by simp)
    | poison => exact absurd mem_cons_self hat.poison
    | bookmark i =>
      have hround : walkRound s wake b t = .again t.forward := by simp only [walkRound, hcurr]
      obtain ⟨t', hrun, hdone⟩ := ih (A ++ [.bookmark i]) t.forward fuel hat.forward
        (by simpa using hb) hlen
      have hkeep : ([.bookmark i] : List (WaitLink ω ι)).filter (stays wake) = [.bookmark i] := rfl
      rw [← hkeep] at hdone
      exact ⟨t', by rw [runLoop_again hround, hrun], hdone.cons (append_nil _).symm⟩
    | waiter w =>
      obtain ⟨c, hc⟩ : ∃ c, c = s.invocation wake w := ⟨_, rfl⟩
      have hcw : c.waiter = w := by rw [hc]; rfl
      obtain ⟨nr, hnr⟩ : ∃ nr, nr = if c.counts then t.nrExclusive - 1 else t.nrExclusive :=
        ⟨_, rfl⟩
      let t1 : Walk ω ι := { t.call c (wake w).2 with nrExclusive := nr, cnt := t.cnt + 1 }
      obtain ⟨hring, hwaiter⟩ := hat.call wake c hcw
      have hhead : .head ∉ B := fun hmem => by
        have := (nodup_cons.mp hat.ring.nodup).1
        exact this (by simp [hmem])
      have hnext : t.next ≠ .head ↔ B ≠ [] := by
        rw [hat.next_eq]
        exact linkTo_ne_head hhead
      have hround : walkRound s wake b t =
          if c.ret < 0 then .done (some (t.call c (wake w).2))
          else if c.counts ∧ nr = 0 then .done (some t1) else t1.endRound b := by
        simp only [walkRound, hcurr, t1, hnr, hc]
        rfl
      have hlist : walkList s wake b t.cnt t.nrExclusive (.waiter w :: B) =
          if c.ret < 0 then ⟨t.nrExclusive, [c], [.waiter w], B, .refused⟩
          else if c.counts ∧ nr = 0 then ⟨nr, [c], [.waiter w], B, .satisfied⟩
          else if b ≠ none ∧ walkBreakCnt < t.cnt + 1 ∧ B ≠ [] then
            ⟨nr, [c], [.waiter w], B, .paused⟩
          else (walkList s wake b (t.cnt + 1) nr B).cons (.waiter w) [c] := by
        simp only [walkList, hnr, hc]
      rw [hlist]
      by_cases hneg : c.ret < 0
      · rw [if_pos hneg] at hround ⊢
        exact ⟨_, runLoop_done hround fuel, WalkDone.last hat hcw rfl rfl rfl hat.unmarked rfl
          (show Stop.refused ≠ .paused by decide)⟩
      rw [if_neg hneg] at hround ⊢
      by_cases hzero : c.counts ∧ nr = 0
      · rw [if_pos hzero] at hround ⊢
        exact ⟨t1, runLoop_done hround fuel, WalkDone.last hat hcw (show t1.links = _ from rfl) rfl
          rfl hat.unmarked rfl (show Stop.satisfied ≠ .paused by decide)⟩
      rw [if_neg hzero] at hround ⊢
      obtain ⟨A', hA'⟩ : ∃ A', A' = A ++ [WaitLink.waiter w].filter (stays wake) := ⟨_, rfl⟩
      rw [← hA'] at hring hwaiter
      have hb' : ∀ j, b = some j → .bookmark j ∉ A' ++ B := fun j hj => by
        obtain ⟨hjA, hjB⟩ : .bookmark j ∉ A ∧ .bookmark j ∉ B := by simpa using hb j hj
        simp [hA', hjA, hjB]
      by_cases hpause : b ≠ none ∧ walkBreakCnt < t.cnt + 1 ∧ B ≠ []
      · obtain ⟨j, rfl⟩ := Option.ne_none_iff_exists'.mp hpause.1
        rw [Walk.endRound, if_pos (show walkBreakCnt < t1.cnt ∧ t1.next ≠ .head from
          ⟨hpause.2.1, hnext.mpr hpause.2.2⟩)] at hround
        rw [if_pos hpause]
        refine ⟨_, runLoop_done hround fuel, ?_, fun v => ?_, rfl, rfl, rfl⟩
        · have hfirst : (B ++ .head :: A').head? = some t.next := by
            rw [hat.next_eq]
            cases B with
            | nil => exact absurd rfl hpause.2.2
            | cons y B => rfl
          have hring' : t1.links.Ring ((.head :: A') ++ B) := hring
          have hnew : .bookmark j ∉ (.head :: A') ++ B := by simpa using hb' j rfl
          have hins := hring'.insert hfirst hnew
          rw [hA'] at hins
          exact hins
        · rw [← hA']
          exact hwaiter v
      · have hagain : walkRound s wake b t = .again t1.forward := by
          rw [hround]
          cases b with
          | none => rfl
          | some j =>
            exact if_neg fun h => hpause ⟨by simp, h.1, hnext.mp h.2⟩
        rw [if_neg hpause]
        have hat1 : t1.forward.At A' B := ⟨hring, hat.next_eq, rfl, hwaiter,
          fun hB => hat.poison (mem_cons_of_mem _ hB), hat.unmarked⟩
        obtain ⟨t', hrun, hdone⟩ := ih A' t1.forward fuel hat1 hb' hlen
        rw [hA'] at hdone
        exact ⟨t', by rw [runLoop_again hagain, hrun], hdone.cons rfl⟩

/-! ## A section -/

/-- The entries that a walk from the bookmark `r` has to pass, or all. -/
def pending (r : Option ι) (l : List (WaitLink ω ι)) : List (WaitLink ω ι) :=
  behind (r.map .bookmark) l

theorem exists_eq_marks_append {r : Option ι} (h : ∀ j, r = some j → .bookmark j ∈ l) :
    ∃ A, l = A ++ (marks r ++ pending r l) := by
  cases r with
  | none => exact ⟨[], rfl⟩
  | some j =>
    obtain ⟨A, B, rfl, hj⟩ := eq_append_cons_of_mem (h j rfl)
    refine ⟨A, ?_⟩
    rw [pending, Option.map_some, behind_append hj]
    rfl

/-- The entries behind a walk, with those in front of it and the bookmark that it has planted. -/
def Outcome.after (o : Outcome ω ι) (wake : ω → ℤ × Bool) (b : Option ι)
    (A : List (WaitLink ω ι)) : List (WaitLink ω ι) :=
  A ++ o.walked.filter (stays wake) ++ (marks (o.planted b) ++ o.rest)

/-- What `__wake_up_common` does to the entries `l` : it walks over those behind the bookmark. -/
structure CommonDone (s : WaitQueue ω ι) (l : List (WaitLink ω ι)) (wake : ω → ℤ × Bool)
    (b : Option ι) (k : Waker) (A : List (WaitLink ω ι)) (o : Outcome ω ι) : Prop where
  before : l = A ++ (marks (resume b k) ++ pending (resume b k) l)
  outcome : o = walkList s wake b 0 k.nrExclusive (pending (resume b k) l)
  unmarked : ∀ j, b = some j → .bookmark j ∉ A ++ pending (resume b k) l

theorem Holds.wakeUpCommon (h : s.Holds l) {k : Waker}
    (hb : ∀ j, b = some j → (.bookmark j ∈ l ↔ k.marked = true)) (hfuel : l.length < fuel)
    (wake : ω → ℤ × Bool) :
    ∃ A o t, CommonDone s l wake b k A o ∧ wakeUpCommon fuel s wake b k = some t ∧
      t.links.Ring (.head :: o.after wake b A) ∧
      (∀ w, .waiter w ∈ o.after wake b A ↔ t.queued w = true) ∧
      t.nrExclusive = o.nrExclusive ∧ t.marked = decide (o.stop = .paused) ∧ t.calls = o.calls := by
  have hr : ∀ j, resume b k = some j → b = some j ∧ k.marked = true := fun j hj => by
    unfold resume at hj
    split at hj
    · exact ⟨hj, ‹_›⟩
    · cases hj
  obtain ⟨A, hA⟩ := exists_eq_marks_append
    fun j hj => (hb j (hr j hj).1).mpr (hr j hj).2
  obtain ⟨B, hB⟩ : ∃ B, B = pending (resume b k) l := ⟨_, rfl⟩
  rw [← hB] at hA
  obtain ⟨curr, hcurr⟩ : ∃ curr, curr = s.links.next ((resume b k).elim .head .bookmark) := ⟨_, rfl⟩
  obtain ⟨links, hlinks⟩ : ∃ links, links = (resume b k).elim s.links fun j =>
    listDel s.links (.bookmark j) := ⟨_, rfl⟩
  have hring : links.Ring (.head :: (A ++ B)) ∧ curr = linkTo B := by
    have hs := h.ring
    rw [hA] at hs
    cases hres : resume b k with
    | none =>
      rw [hres] at hs hcurr hlinks hA hB
      obtain rfl : A = [] := by
        have hl : B = A ++ B := hB.trans hA
        simpa using hl
      rw [hlinks]
      exact ⟨hs, hcurr.trans (next_head hs)⟩
    | some j =>
      rw [hres] at hs hcurr hlinks
      have hs' : s.links.Ring ((.head :: A) ++ .bookmark j :: B) := hs
      rw [hlinks]
      exact ⟨hs'.delEntry.set hs'.not_mem_delEntry _ _, hcurr.trans (next_entry hs)⟩
  have hmem : ∀ x, (∀ j, x ≠ .bookmark j) → (x ∈ A ++ B ↔ x ∈ l) := fun x hx => by
    have hmarks : x ∉ marks (resume b k) := fun hmem => by
      obtain ⟨j, -, rfl⟩ := mem_map.mp hmem
      exact hx j rfl
    rw [hA]
    simp [hmarks]
  obtain ⟨t0, ht0⟩ : ∃ t0 : Walk ω ι,
    t0 = ⟨links, s.queued, k.nrExclusive, false, 0, curr, links.next curr, []⟩ := ⟨_, rfl⟩
  have hat : t0.At A B := by
    rw [ht0]
    refine ⟨hring.1, hring.2, rfl, fun w => ?_, fun hp => ?_, rfl⟩
    · rw [hmem _ (by simp)]
      exact h.waiter w
    · exact h.poison ((hmem _ (by simp)).mp (mem_append_right A hp))
  have hnot : ∀ j, b = some j → .bookmark j ∉ A ++ B := fun j hj hj' => by
    have hl : .bookmark j ∈ l := by
      rw [hA]
      simp only [mem_append] at hj' ⊢
      tauto
    have hnd := h.nodup
    rw [hA, resume, if_pos ((hb j hj).mp hl), hj] at hnd
    exact (nodup_cons.mp (perm_middle.nodup_iff.mp hnd)).1 hj'
  have hlen : B.length ≤ l.length := by
    rw [hA]
    simp only [length_append]
    omega
  obtain ⟨t', hrun, hdone⟩ := walk_spec s wake b B A t0 fuel hat hnot (by omega)
  rw [ht0] at hdone
  refine ⟨A, _, t', ⟨by rw [← hB]; exact hA, by rw [← hB], by rw [← hB]; exact hnot⟩, ?_,
    hdone.ring, fun w => ?_, hdone.nr, hdone.marked, hdone.calls⟩
  · rw [WaitQueue.wakeUpCommon]
    simp only [← hcurr, ← hlinks, ← ht0]
    split
    · -- The loop would not do anything either.
      have hround : walkRound s wake b t0 = .done (some t0) := by
        have hhead : t0.curr = .head := by rw [ht0]; assumption
        simp only [walkRound, hhead]
      exact Option.some_inj.mp ((runLoop_of_done hround (by omega)).symm.trans hrun)
    · rw [hrun]
      rfl
  · rw [← hdone.waiter w, Outcome.after]
    simp [marks]

end WaitQueue

end LinuxKernelTest
