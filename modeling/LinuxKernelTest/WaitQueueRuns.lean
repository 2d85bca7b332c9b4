import LinuxKernelTest.WaitQueue

/-!
# Runs of wake-ups

What others do between two sections of a wake-up adds and removes waiters, and moves their own
bookmarks. The waiters that stay queued keep their order, and so they stay ahead of the waker's
bookmark or behind it (`Edits`). So at every moment of a call the waiters that have been queued
since its beginning have been invoked or lie ahead (`Walked.covered`), and those that have been
invoked do not lie ahead unless they have been queued again (`Walked.past`).

`wake_up_run` is the result for a whole call. A waiter is invoked at most once each time that it is
queued, and if no callback refuses, those queued from the beginning to the end of the call are
invoked up to the last exclusive one that counts. `nr_exclusive` is decremented even if it is zero,
so the call for all ends as well behind `2 ^ 32` exclusive waiters (`wake_up_repeats_and_misses`).
-/

set_option linter.unusedSectionVars false

namespace LinuxKernelTest

open Function List ListHeads
open Option (bind_some map_some some_inj)

namespace WaitQueue

variable {ω ι : Type*} [DecidableEq ω] [DecidableEq ι]
  {s s' : WaitQueue ω ι} {l l' A B : List (WaitLink ω ι)} {w : ω} {i j : ι} {fuel : ℕ}
  {wake : ω → ℤ × Bool} {b : Option ι} {k : Waker} {o : Outcome ω ι}

/-! ## What a walk leaves -/

theorem mem_marks_iff {x : WaitLink ω ι} : x ∈ marks b ↔ ∃ j, b = some j ∧ x = .bookmark j := by
  cases b with
  | none => simp [marks]
  | some j => simp [marks]

theorem CommonDone.sound (h : CommonDone s l wake b k A o) :
    o.Sound s wake k.nrExclusive (pending (resume b k) l) := by
  rw [h.outcome]
  exact walkList_sound s wake b _ 0 _

/-- The entries in the order in which they are before the walk. -/
theorem CommonDone.eq_append (h : CommonDone s l wake b k A o) :
    l = A ++ (marks (resume b k) ++ (o.walked ++ o.rest)) := by
  rw [← h.sound.split]
  exact h.before

theorem resume_eq_some (h : resume b k = some j) : b = some j ∧ k.marked = true := by
  unfold resume at h
  split at h
  · exact ⟨h, ‹_›⟩
  · cases h

theorem planted_eq_some (h : o.planted b = some j) : b = some j ∧ o.stop = .paused := by
  unfold Outcome.planted at h
  split at h
  · exact ⟨h, ‹_›⟩
  · cases h

/-- Bookmarks of others stay where they are. -/
theorem CommonDone.mem_after (h : CommonDone s l wake b k A o) {x : WaitLink ω ι}
    (hx : ∀ w, x ≠ .waiter w) (hb : x ∉ marks b) : x ∈ o.after wake b A ↔ x ∈ l := by
  have hstay : stays wake x = true := by
    cases x with
    | waiter w => exact absurd rfl (hx w)
    | _ => rfl
  have hr : x ∉ marks (resume b k) := fun hmem => hb (by
    obtain ⟨j, hj, rfl⟩ := mem_marks_iff.mp hmem
    exact mem_marks_iff.mpr ⟨j, (resume_eq_some hj).1, rfl⟩)
  have hp : x ∉ marks (o.planted b) := fun hmem => hb (by
    obtain ⟨j, hj, rfl⟩ := mem_marks_iff.mp hmem
    exact mem_marks_iff.mpr ⟨j, (planted_eq_some hj).1, rfl⟩)
  rw [h.eq_append, Outcome.after]
  simp only [mem_append, mem_filter, hstay, hr, hp, and_true, false_or]
  tauto

theorem CommonDone.bookmark_mem_after (h : CommonDone s l wake (some j) k A o) :
    .bookmark j ∈ o.after wake (some j) A ↔ o.stop = .paused := by
  have hnot := h.unmarked j rfl
  rw [h.sound.split] at hnot
  have hmarks : .bookmark j ∈ (marks (o.planted (some j)) : List (WaitLink ω ι)) ↔
      o.stop = .paused := by
    rw [mem_marks_iff, Outcome.planted]
    split <;> simp [*]
  rw [Outcome.after]
  simp only [mem_append, mem_filter, not_or] at hnot ⊢
  rw [hmarks]
  tauto

theorem CommonDone.waiter_mem_of_after (h : CommonDone s l wake b k A o)
    (hw : .waiter w ∈ o.after wake b A) : .waiter w ∈ l := by
  have hp : .waiter w ∉ (marks (o.planted b) : List (WaitLink ω ι)) := by simp [marks]
  rw [h.eq_append]
  simp only [Outcome.after, mem_append, mem_filter, hp, false_or] at hw ⊢
  tauto

theorem CommonDone.length_le (h : CommonDone s l wake b k A o) :
    (o.after wake b A).length ≤ l.length + 1 := by
  have hmarks : (marks (o.planted b) : List (WaitLink ω ι)).length ≤ 1 := by
    rw [marks, length_map]
    cases o.planted b <;> simp
  have hfilter := length_filter_le (stays wake) o.walked
  have hl := congrArg length h.eq_append
  simp only [Outcome.after, length_append] at hl ⊢
  omega

/-- The calls of a walk are those of the waiters that it passes. -/
theorem CommonDone.mem_calls_iff (h : CommonDone s l wake b k A o) {c : Invocation ω} :
    c ∈ o.calls ↔ ∃ w, .waiter w ∈ o.walked ∧ c = s.invocation wake w := by
  rw [h.sound.calls, mem_filterMap]
  constructor
  · rintro ⟨x, hx, hc⟩
    cases x with
    | waiter w => exact ⟨w, hx, (some_inj.mp hc).symm⟩
    | head => cases hc
    | bookmark j => cases hc
    | poison => cases hc
  · rintro ⟨w, hw, rfl⟩
    exact ⟨_, hw, rfl⟩

/-! ## Steps -/

theorem holds_start : (start : WaitQueue ω ι).Holds [] where
  ring := ring_singleton.mpr ⟨rfl, rfl⟩
  waiter w := by simp [start]
  bookmark j := by simp [start]
  poison := by simp

theorem Holds.waiter_not_mem (h : s.Holds l) (hw : s.queued w = false) : .waiter w ∉ l := by
  rw [h.waiter, hw]
  exact Bool.false_ne_true

/-- An entry more, at one of the places where it may be. -/
theorem Holds.insert (h : s.Holds (A ++ B)) {exclusive tail : Bool} (hw : s.queued w = false)
    (hring : (s.addWaiter w exclusive tail).links.Ring (.head :: (A ++ .waiter w :: B))) :
    (s.addWaiter w exclusive tail).Holds (A ++ .waiter w :: B) := by
  have hmem : ∀ x, x ≠ .waiter w → (x ∈ A ++ .waiter w :: B ↔ x ∈ A ++ B) := fun x hx => by
    simp [hx]
  refine ⟨hring, fun v => ?_, fun j => ?_, fun hp => ?_⟩
  · by_cases hvw : v = w
    · subst hvw
      simp [addWaiter]
    · rw [hmem _ (by simpa using hvw), h.waiter v]
      simp only [addWaiter, update_of_ne hvw]
  · rw [hmem _ (by simp)]
    exact h.bookmark j
  · exact h.poison ((hmem _ (by simp)).mp hp)

theorem Holds.add (h : s.Holds l) (exclusive tail : Bool) (hw : s.queued w = false) :
    (s.addWaiter w exclusive tail).Holds (if tail then l ++ [.waiter w] else .waiter w :: l) := by
  have hnew : .waiter w ∉ .head :: l := by simpa using h.waiter_not_mem hw
  cases tail with
  | false =>
    have h' : s.Holds ([] ++ l) := h
    exact h'.insert hw (h.ring.add hnew)
  | true =>
    have h' : s.Holds (l ++ []) := by rwa [append_nil]
    refine h'.insert hw ?_
    have hring : s.links.Ring ((.head :: l) ++ []) := by
      rw [append_nil]
      exact h.ring
    have hnew' : .waiter w ∉ (.head :: l) ++ [] := by simpa using hnew
    exact hring.insert (x := .head) rfl hnew'

theorem Holds.remove (h : s.Holds (A ++ .waiter w :: B)) : (s.removeWaiter w).Holds (A ++ B) := by
  have hring := h.ring
  have hnot : .waiter w ∉ (.head :: A) ++ B := hring.not_mem_delEntry
  have hmem : ∀ x, x ≠ .waiter w → (x ∈ A ++ B ↔ x ∈ A ++ .waiter w :: B) := fun x hx => by
    simp [hx]
  refine ⟨hring.delEntry.set hnot _ _, fun v => ?_, fun j => ?_, fun hp => ?_⟩
  · by_cases hvw : v = w
    · subst hvw
      have : .waiter v ∉ A ++ B := fun hv => hnot (mem_cons_of_mem _ hv)
      simp only [removeWaiter, update_self, this]
      simp
    · rw [hmem _ (by simpa using hvw), h.waiter v]
      simp only [removeWaiter, update_of_ne hvw]
  · rw [hmem _ (by simp)]
    exact h.bookmark j
  · exact h.poison ((hmem _ (by simp)).mp hp)

theorem Holds.wakeUp (h : s.Holds l) (n : BitVec 32) (hj : s.waker j = none) :
    (s.wakeUp j n).Holds l := by
  refine ⟨h.ring, h.waiter, fun i => ?_, h.poison⟩
  rw [h.bookmark i]
  by_cases hij : i = j
  · subst hij
    simp [WaitQueue.wakeUp, hj]
  · simp only [WaitQueue.wakeUp, update_of_ne hij]

/-- A section of the waker `j`. -/
theorem Holds.section (h : s.Holds l) (hk : s.waker j = some k) (hfuel : l.length < fuel)
    (wake : ω → ℤ × Bool) :
    ∃ A o s', CommonDone s l wake (some j) k A o ∧
      wakeUpSection fuel s wake j = some (s', o.calls) ∧
      s'.Holds (o.after wake (some j) A) ∧ s'.turn = s.turn ∧ s'.exclusive = s.exclusive ∧
      s'.waker = update s.waker j
        (if o.stop = .paused then some ⟨o.nrExclusive, true⟩ else none) := by
  have hmark : .bookmark j ∈ l ↔ k.marked = true := by
    rw [h.bookmark j, hk]
    constructor
    · rintro ⟨n, hn⟩
      rw [some_inj.mp hn]
    · intro hm
      exact ⟨k.nrExclusive, by rw [← hm]⟩
  obtain ⟨A, o, t, hdone, hrun, hring, hwaiter, hnr, hmarked, hcalls⟩ :=
    h.wakeUpCommon (b := some j) (k := k) (by rintro _ ⟨⟩; exact hmark) hfuel wake
  have hwaker : (if t.marked then some (⟨t.nrExclusive, true⟩ : Waker) else none) =
      if o.stop = .paused then some ⟨o.nrExclusive, true⟩ else none := by
    rw [hmarked, hnr]
    simp
  refine ⟨A, o, { s with
    links := t.links
    queued := t.queued
    waker := update s.waker j
      (if o.stop = .paused then some ⟨o.nrExclusive, true⟩ else none) }, hdone, ?_,
    ⟨hring, hwaiter, fun i => ?_, fun hp => ?_⟩, rfl, rfl, rfl⟩
  · rw [wakeUpSection, hk, bind_some, hrun, map_some, hwaker, hcalls]
  · by_cases hij : i = j
    · subst hij
      rw [hdone.bookmark_mem_after]
      split <;> simp [*]
    · simp only [update_of_ne hij]
      rw [← h.bookmark i]
      exact hdone.mem_after (by simp) (by simpa [marks] using hij)
  · exact h.poison ((hdone.mem_after (by simp) (by simp [marks])).mp hp)

/-- A wake-up without a bookmark. -/
theorem Holds.locked (h : s.Holds l) (n : BitVec 32) (hfuel : l.length < fuel)
    (wake : ω → ℤ × Bool) :
    ∃ A o s', CommonDone s l wake none ⟨n, false⟩ A o ∧
      wakeUpLocked fuel s wake n = some (s', o.calls) ∧
      s'.Holds (o.after wake none A) ∧ s'.turn = s.turn ∧ s'.waker = s.waker := by
  obtain ⟨A, o, t, hdone, hrun, hring, hwaiter, -, -, hcalls⟩ :=
    h.wakeUpCommon (b := none) (k := ⟨n, false⟩) (by rintro _ ⟨⟩) hfuel wake
  refine ⟨A, o, { s with links := t.links, queued := t.queued }, hdone,
    by rw [wakeUpLocked, hrun, map_some, hcalls],
    ⟨hring, hwaiter, fun i => ?_, fun hp => ?_⟩, rfl, rfl⟩
  · rw [hdone.mem_after (by simp) (by simp [marks])]
    exact h.bookmark i
  · exact h.poison ((hdone.mem_after (by simp) (by simp [marks])).mp hp)

/-! ## The steps of others -/

/-- The bookmark of a waker, if it is planted. -/
def place (s : WaitQueue ω ι) (j : ι) : Option ι := (s.waker j).bind (resume (some j))

/-- The entries that a waker has still to walk over. -/
def ahead (s : WaitQueue ω ι) (j : ι) (l : List (WaitLink ω ι)) : List (WaitLink ω ι) :=
  pending (s.place j) l

theorem ahead_eq (hk : s.waker j = some k) : s.ahead j l = pending (resume (some j) k) l := by
  rw [ahead, place, hk, bind_some]

/-- What a step of another thread leaves to the waker `j`. -/
structure Edits (j : ι) (s s' : WaitQueue ω ι) (l l' : List (WaitLink ω ι)) : Prop where
  waker : s'.waker j = s.waker j
  turn : ∀ w, s.turn w ≤ s'.turn w
  mem : ∀ w, .waiter w ∈ l' → s'.turn w = s.turn w → .waiter w ∈ l
  ahead : ∀ w, .waiter w ∈ l' → s'.turn w = s.turn w →
    (.waiter w ∈ s'.ahead j l' ↔ .waiter w ∈ s.ahead j l)

/-- The entries that a step keeps, in their order, decide what is ahead. -/
theorem Edits.of_filter (hwaker : s'.waker j = s.waker j) (hturn : ∀ w, s.turn w ≤ s'.turn w)
    {V : WaitLink ω ι → Bool} (hV : l'.filter V = l.filter V) (hj : V (.bookmark j) = true)
    (hw : ∀ w, .waiter w ∈ l' → s'.turn w = s.turn w → V (.waiter w) = true) :
    Edits j s s' l l' where
  waker := hwaker
  turn := hturn
  mem w hl' ht := by
    have hmem : .waiter w ∈ l'.filter V := mem_filter.mpr ⟨hl', hw w hl' ht⟩
    rw [hV] at hmem
    exact (mem_filter.mp hmem).1
  ahead w hl' ht := by
    have hplace : s'.place j = s.place j := by rw [place, place, hwaker]
    have hc : ∀ x, (s.place j).map .bookmark = some x → V x = true := by
      intro x hx
      obtain ⟨i, hi, rfl⟩ := Option.map_eq_some_iff.mp hx
      obtain ⟨k, -, hk⟩ := Option.bind_eq_some_iff.mp hi
      obtain rfl := some_inj.mp (resume_eq_some hk).1
      exact hj
    have hfilter : (s'.ahead j l').filter V = (s.ahead j l).filter V := by
      rw [WaitQueue.ahead, WaitQueue.ahead, hplace, pending, pending,
        ← behind_filter (fun _ => id) hc l', hV, behind_filter (fun _ => id) hc l]
    have hmem : ∀ B : List (WaitLink ω ι), .waiter w ∈ B ↔ .waiter w ∈ B.filter V := fun B => by
      simp [hw w hl' ht]
    rw [hmem, hfilter, ← hmem]

theorem Edits.add (w : ω) (exclusive tail : Bool) :
    Edits j s (s.addWaiter w exclusive tail) l
      (if tail then l ++ [.waiter w] else .waiter w :: l) := by
  have hturn : (s.addWaiter w exclusive tail).turn w = s.turn w + 1 := update_self _ _ _
  refine Edits.of_filter (V := fun x => decide (x ≠ .waiter w)) rfl (fun v => ?_) ?_ (by simp)
    fun v _ hv => ?_
  · by_cases hvw : v = w
    · rw [hvw, hturn]
      omega
    · exact (update_of_ne hvw _ _).ge
  · cases tail <;> simp
  · have hvw : v ≠ w := by
      rintro rfl
      omega
    simpa using hvw

theorem Edits.remove (h : s.Holds (A ++ .waiter w :: B)) :
    Edits j s (s.removeWaiter w) (A ++ .waiter w :: B) (A ++ B) := by
  have hnot := (nodup_cons.mp (perm_middle.nodup_iff.mp h.nodup)).1
  refine Edits.of_filter (V := fun x => decide (x ≠ .waiter w)) rfl (fun _ => le_rfl) (by simp)
    (by simp) fun v hv _ => ?_
  simpa using ne_of_mem_of_not_mem hv hnot

/-- A walk keeps the other entries, and those that it passes unless their callbacks remove them. -/
theorem CommonDone.edits (h : CommonDone s l wake b k A o) (hs : s.Holds l) (hb : b ≠ some j)
    (hwaker : s'.waker j = s.waker j) (hturn : s'.turn = s.turn) :
    Edits j s s' l (o.after wake b A) := by
  obtain ⟨V, hV⟩ : ∃ V : WaitLink ω ι → Bool, ∀ x, V x = true ↔
      x ∉ marks b ∧ (x ∈ o.walked → stays wake x = true) :=
    ⟨fun x => decide (x ∉ marks b ∧ (x ∈ o.walked → stays wake x = true)),
      fun x => decide_eq_true_iff⟩
  have hmarks : ∀ r : Option ι, (∀ i, r = some i → b = some i) → (marks r).filter V = [] := by
    intro r hr
    rw [filter_eq_nil_iff]
    intro x hx hVx
    obtain ⟨i, hi, rfl⟩ := mem_marks_iff.mp hx
    exact ((hV _).mp hVx).1 (mem_marks_iff.mpr ⟨i, hr i hi, rfl⟩)
  have hwalked : (o.walked.filter (stays wake)).filter V = o.walked.filter V := by
    rw [filter_filter]
    refine filter_congr fun x hx => ?_
    cases hVx : V x with
    | false => rfl
    | true => rw [((hV x).mp hVx).2 hx]; rfl
  refine Edits.of_filter hwaker (fun w => (congrFun hturn w).ge) (V := V) ?_ ?_ fun w hw _ => ?_
  · rw [h.eq_append, Outcome.after]
    simp [filter_append, hwalked, hmarks _ fun i hi => (planted_eq_some hi).1,
      hmarks _ fun i hi => (resume_eq_some hi).1]
  · refine (hV _).mpr ⟨fun hmem => ?_, fun _ => rfl⟩
    obtain ⟨i, hi, hij⟩ := mem_marks_iff.mp hmem
    cases hij
    exact hb hi
  · refine (hV _).mpr ⟨by simp [marks], fun hmem => ?_⟩
    have hp : .waiter w ∉ (marks (o.planted b) : List (WaitLink ω ι)) := by simp [marks]
    have hnd := hs.nodup
    rw [h.eq_append, nodup_append] at hnd
    obtain ⟨-, hnd, hA⟩ := hnd
    rw [nodup_append, nodup_append] at hnd
    simp only [Outcome.after, mem_append, mem_filter, hp, false_or] at hw
    rcases hw with (hw | hw) | hw
    · exact absurd rfl (hA _ hw _ (by simp [hmem]))
    · exact hw.2
    · exact absurd rfl (hnd.2.1.2.2 _ hmem _ hw)

/-- The waker that makes a step. -/
def Step.waker : Step ω ι → Option ι
  | .wakeUp j _ => some j
  | .walk j _ => some j
  | _ => none

/-- Every step keeps the invariant, and the others their places. -/
theorem Holds.step (h : s.Holds l) (hfuel : l.length < fuel) (o : Step ω ι) (hok : s.StepOk o) :
    ∃ r l', step fuel s o = some r ∧ r.1.Holds l' ∧ l'.length ≤ l.length + 1 ∧
      ∀ j, o.waker ≠ some j → Edits j s r.1 l l' := by
  cases o with
  | add w exclusive tail =>
    refine ⟨_, _, rfl, h.add exclusive tail hok, ?_, fun j _ => Edits.add w exclusive tail⟩
    cases tail <;> simp
  | remove w =>
    obtain ⟨A, B, rfl⟩ := append_of_mem ((h.waiter w).mpr hok)
    refine ⟨_, _, rfl, h.remove, ?_, fun j _ => Edits.remove h⟩
    simp only [length_append, length_cons]
    omega
  | wakeUp i n =>
    refine ⟨_, _, rfl, h.wakeUp n hok, by omega, fun j hj => ?_⟩
    have hji : j ≠ i := by
      rintro rfl
      exact hj rfl
    exact Edits.of_filter (V := fun _ => true) (update_of_ne hji _ _) (fun _ => le_rfl) rfl
      rfl fun _ _ _ => rfl
  | walk i wake =>
    obtain ⟨k, hk⟩ := Option.ne_none_iff_exists'.mp hok
    obtain ⟨A, o, s', hdone, hrun, hs', hturn, -, hwaker⟩ := h.section hk hfuel wake
    refine ⟨_, _, hrun, hs', hdone.length_le, fun j hj => hdone.edits h ?_ ?_ hturn⟩
    · exact hj
    · have hji : j ≠ i := by
        rintro rfl
        exact hj rfl
      rw [hwaker, update_of_ne hji]
  | wakeUpLocked n wake =>
    obtain ⟨A, o, s', hdone, hrun, hs', hturn, hwaker⟩ := h.locked n hfuel wake
    refine ⟨_, _, hrun, hs', hdone.length_le, fun j _ => ?_⟩
    exact hdone.edits h (by simp) (by rw [hwaker]) hturn

/-- Every run keeps the invariant. -/
theorem Holds.run : ∀ {ops : List (Step ω ι)} {s : WaitQueue ω ι} {l : List (WaitLink ω ι)},
    s.Holds l → l.length + ops.length < fuel → CallsMeet (WaitQueue.step fuel) StepOk s ops →
    ∃ s' answers l', runCalls (WaitQueue.step fuel) s ops = some (s', answers) ∧ s'.Holds l' ∧
      l'.length ≤ l.length + ops.length
  | [], s, l, h, _, _ => ⟨s, [], l, rfl, h, by simp⟩
  | o :: ops, s, l, h, hfuel, hok => by
    rw [length_cons] at hfuel
    have hfuel0 : l.length < fuel := by omega
    obtain ⟨⟨s1, a⟩, l1, hstep, h1, hlen, -⟩ := h.step hfuel0 o hok.1
    obtain ⟨s', answers, l', hrun, h', hlen'⟩ := h1.run (by omega) (hok.2 _ hstep)
    exact ⟨s', a :: answers, l', by rw [runCalls_cons hstep, hrun]; rfl, h', by simp; omega⟩

/-! ## A call -/

/-- The calls that a waker makes in a step. -/
def Step.callsOf (j : ι) (o : Step ω ι) (calls : List (Invocation ω)) : List (Invocation ω) :=
  match o with
  | .walk i _ => if i = j then calls else []
  | _ => []

/-- The calls that a waker makes in a run. -/
def callsOf (j : ι) (ops : List (Step ω ι)) (answers : List (List (Invocation ω))) :
    List (Invocation ω) :=
  (List.zipWith (Step.callsOf j) ops answers).flatten

/-- What a wake-up of `n` exclusive waiters has done while it is going on. The waiters had the turns
`t` at its beginning. -/
structure Walked (j : ι) (t : ω → ℕ) (n : BitVec 32) (s : WaitQueue ω ι) (l : List (WaitLink ω ι))
    (k : Waker) (calls : List (Invocation ω)) : Prop where
  waker : s.waker j = some k
  turn : ∀ w, t w ≤ s.turn w
  nodup : (calls.map Invocation.key).Nodup
  past : ∀ c ∈ calls, c.turn ≤ s.turn c.waiter ∧
    (c.turn = s.turn c.waiter → .waiter c.waiter ∉ s.ahead j l)
  covered : ∀ w, .waiter w ∈ l → s.turn w = t w →
    (w, s.turn w) ∈ calls.map Invocation.key ∨ .waiter w ∈ s.ahead j l
  willing : ∀ c ∈ calls, 0 ≤ c.ret
  count : allowance k.nrExclusive + wakeUps calls = allowance n

/-- What a call has done at its end, with the entries `l` in its last section. Either it has not
used up its exclusive wake-ups and has invoked every waiter that has been queued all the time, or
its last invocation is the last exclusive wake-up, it has invoked those in front of this waiter, and
none behind. -/
def Served (t : ω → ℕ) (n : BitVec 32) (s : WaitQueue ω ι) (l : List (WaitLink ω ι))
    (calls : List (Invocation ω)) : Prop :=
  (wakeUps calls < allowance n ∧
    ∀ w, .waiter w ∈ l → s.turn w = t w → (w, s.turn w) ∈ calls.map Invocation.key) ∨
  (wakeUps calls = allowance n ∧ ∃ l₁ l₂ pre c, l = l₁ ++ .waiter c.waiter :: l₂ ∧
    calls = pre ++ [c] ∧ c.counts ∧
    (∀ w, .waiter w ∈ l₁ → s.turn w = t w → (w, s.turn w) ∈ calls.map Invocation.key) ∧
    ∀ w, .waiter w ∈ l₂ → (w, s.turn w) ∉ calls.map Invocation.key)

variable {t : ω → ℕ} {n : BitVec 32} {calls : List (Invocation ω)}

theorem walked_wakeUp (s : WaitQueue ω ι) (j : ι) (n : BitVec 32) (l : List (WaitLink ω ι)) :
    Walked j s.turn n (s.wakeUp j n) l ⟨n, false⟩ [] := by
  have hwaker : (s.wakeUp j n).waker j = some ⟨n, false⟩ := update_self _ _ _
  refine ⟨hwaker, fun _ => le_rfl, nodup_nil, by simp, fun w hw _ => .inr ?_, by simp, rfl⟩
  rw [ahead_eq hwaker]
  exact hw

/-- Steps of others do not matter. -/
theorem Walked.edits (h : Walked j t n s l k calls) (he : Edits j s s' l l') :
    Walked j t n s' l' k calls := by
  refine ⟨he.waker.trans h.waker, fun w => (h.turn w).trans (he.turn w), h.nodup, fun c hc => ?_,
    fun w hw ht => ?_, h.willing, h.count⟩
  · obtain ⟨hle, hpast⟩ := h.past c hc
    refine ⟨hle.trans (he.turn _), fun ht hahead => ?_⟩
    have hle' := he.turn c.waiter
    have hturn : s'.turn c.waiter = s.turn c.waiter := by omega
    have hl' := (behind_sublist _ l').subset hahead
    exact hpast (by omega) ((he.ahead _ hl' hturn).mp hahead)
  · have hle := h.turn w
    have hle' := he.turn w
    have hturn : s'.turn w = s.turn w := by omega
    rw [hturn, he.ahead w hw hturn]
    exact h.covered w (he.mem w hw hturn) (by omega)

/-- The calls of a section, behind those of the sections before it. -/
theorem Walked.nodup_append (h : Walked j t n s l k calls) (hs : s.Holds l)
    (hdone : CommonDone s l wake (some j) k A o) :
    ((calls ++ o.calls).map Invocation.key).Nodup := by
  have hahead : s.ahead j l = o.walked ++ o.rest := by
    rw [ahead_eq h.waker]
    exact hdone.sound.split
  rw [map_append, List.nodup_append]
  refine ⟨h.nodup, ?_, ?_⟩
  · have hnd : o.walked.Nodup := by
      have hnd := hs.nodup.sublist (behind_sublist ((s.place j).map .bookmark) l)
      have happ : (o.walked ++ o.rest).Nodup := hahead ▸ hnd
      exact happ.of_append_left
    rw [hdone.sound.calls, map_filterMap]
    refine hnd.filterMap fun x y c hx hy => ?_
    cases x <;> cases y <;> simp [Invocation.key, invocation] at hx hy ⊢
    rw [← hx] at hy
    exact (congrArg Prod.fst hy).symm
  · rintro _ hold _ hnew rfl
    obtain ⟨c, hc, hcc'⟩ := mem_map.mp hold
    obtain ⟨c', hc', rfl⟩ := mem_map.mp hnew
    obtain ⟨w, hw, rfl⟩ := hdone.mem_calls_iff.mp hc'
    obtain ⟨hcw, hct⟩ := Prod.mk.inj hcc'
    have hturn : c.turn = s.turn c.waiter := by rw [hct, hcw]; rfl
    refine (h.past c hc).2 hturn ?_
    rw [hahead, hcw]
    exact mem_append_left _ hw

/-- The waiters that a section has to call are those that have not been called. -/
theorem Walked.covered_append (h : Walked j t n s l k calls)
    (hdone : CommonDone s l wake (some j) k A o) (hw : .waiter w ∈ l) (ht : s.turn w = t w) :
    (w, s.turn w) ∈ (calls ++ o.calls).map Invocation.key ∨ .waiter w ∈ o.rest := by
  have hcov := h.covered w hw ht
  rw [ahead_eq h.waker, hdone.sound.split, mem_append] at hcov
  rw [map_append, mem_append]
  rcases hcov with hcov | hcov | hcov
  · exact .inl (.inl hcov)
  · exact .inl (.inr (mem_map.mpr ⟨_, hdone.mem_calls_iff.mpr ⟨w, hcov, rfl⟩, rfl⟩))
  · exact .inr hcov

/-- What has been called does not lie behind the walk. -/
theorem Walked.past_append (h : Walked j t n s l k calls) (hs : s.Holds l)
    (hdone : CommonDone s l wake (some j) k A o) {c : Invocation ω} (hc : c ∈ calls ++ o.calls) :
    c.turn ≤ s.turn c.waiter ∧ (c.turn = s.turn c.waiter → .waiter c.waiter ∉ o.rest) := by
  rcases mem_append.mp hc with hc | hc
  · refine ⟨(h.past c hc).1, fun ht hmem => (h.past c hc).2 ht ?_⟩
    rw [ahead_eq h.waker, hdone.sound.split]
    exact mem_append_right _ hmem
  obtain ⟨w, hw, rfl⟩ := hdone.mem_calls_iff.mp hc
  refine ⟨le_rfl, fun _ hmem => ?_⟩
  have hnd := hs.nodup
  rw [hdone.eq_append, ← append_assoc, ← append_assoc] at hnd
  exact (List.nodup_append.mp hnd).2.2 _ (mem_append_right _ hw) _ hmem rfl

theorem wakeUps_append (c1 c2 : List (Invocation ω)) :
    wakeUps (c1 ++ c2) = wakeUps c1 + wakeUps c2 := countP_append

/-- The planted bookmark stands in front of the rest. -/
theorem CommonDone.pending_after (h : CommonDone s l wake (some j) k A o)
    (hstop : o.stop = .paused) : pending (some j) (o.after wake (some j) A) = o.rest := by
  have hnot := h.unmarked j rfl
  rw [h.sound.split] at hnot
  have hafter : o.after wake (some j) A =
      (A ++ o.walked.filter (stays wake)) ++ .bookmark j :: o.rest := by
    rw [Outcome.after, Outcome.planted, if_pos hstop]
    rfl
  rw [hafter]
  refine behind_append fun hmem => hnot ?_
  simp only [mem_append, mem_filter] at hmem ⊢
  tauto

/-- A section behind which the call goes on. -/
theorem Walked.paused (h : Walked j t n s l k calls) (hs : s.Holds l)
    (hdone : CommonDone s l wake (some j) k A o) (hstop : o.stop = .paused)
    (hwaker : s'.waker j = some ⟨o.nrExclusive, true⟩) (hturn : s'.turn = s.turn) :
    Walked j t n s' (o.after wake (some j) A) ⟨o.nrExclusive, true⟩ (calls ++ o.calls) := by
  have hahead : s'.ahead j (o.after wake (some j) A) = o.rest := by
    rw [ahead_eq hwaker]
    exact hdone.pending_after hstop
  refine ⟨hwaker, fun w => by rw [hturn]; exact h.turn w, h.nodup_append hs hdone, fun c hc => ?_,
    fun w hw ht => ?_, fun c hc => ?_, ?_⟩
  · rw [hahead, hturn]
    exact h.past_append hs hdone hc
  · rw [hturn] at ht ⊢
    rw [hahead]
    exact h.covered_append hdone (hdone.waiter_mem_of_after hw) ht
  · rcases mem_append.mp hc with hc | hc
    · exact h.willing c hc
    · by_contra hneg
      have := hdone.sound.refused.mpr ⟨c, hc, not_le.mp hneg⟩
      rw [hstop] at this
      cases this
  · rw [wakeUps_append]
    have h1 := h.count
    have h2 := hdone.sound.count (by rw [hstop]; decide)
    simp only
    omega

/-- The last section of a call. -/
theorem Walked.served (h : Walked j t n s l k calls) (hs : s.Holds l)
    (hdone : CommonDone s l wake (some j) k A o) (hstop : o.stop ≠ .paused)
    (hret : ∀ c ∈ calls ++ o.calls, 0 ≤ c.ret) : Served t n s l (calls ++ o.calls) := by
  have hcount := h.count
  cases hstop' : o.stop with
  | paused => exact absurd hstop' hstop
  | refused =>
    obtain ⟨c, hc, hneg⟩ := hdone.sound.refused.mp hstop'
    exact absurd (hret c (mem_append_right _ hc)) (not_le.mpr hneg)
  | finished =>
    refine .inl ⟨?_, fun w hw ht => ?_⟩
    · have h2 := hdone.sound.count (by rw [hstop']; decide)
      have hpos := allowance_pos o.nrExclusive
      rw [wakeUps_append]
      omega
    · refine (h.covered_append hdone hw ht).resolve_right fun hmem => ?_
      rw [hdone.sound.finished hstop'] at hmem
      cases hmem
  | satisfied =>
    obtain ⟨h2, W, e, hW, he⟩ := hdone.sound.satisfied hstop'
    have hl : l = (A ++ (marks (resume (some j) k) ++ W)) ++ .waiter e :: o.rest := by
      have := hdone.eq_append
      rw [hW] at this
      simpa using this
    obtain ⟨pre, hpre⟩ : ∃ pre, o.calls = pre ++ [s.invocation wake e] :=
      ⟨_, by rw [hdone.sound.calls, hW, filterMap_append]; rfl⟩
    refine .inr ⟨by rw [wakeUps_append]; omega, _, _, calls ++ pre, s.invocation wake e, hl,
      by rw [hpre, append_assoc], he, fun w hw ht => ?_, fun w hw hmem => ?_⟩
    · have hwl : .waiter w ∈ l := by
        rw [hl]
        exact mem_append_left _ hw
      refine (h.covered_append hdone hwl ht).resolve_right fun hmem => ?_
      have hnd := hs.nodup
      rw [hl] at hnd
      exact (List.nodup_append.mp hnd).2.2 _ hw _ (mem_cons_of_mem _ hmem) rfl
    · obtain ⟨c, hc, hcw⟩ := mem_map.mp hmem
      obtain ⟨rfl, hct⟩ := Prod.mk.inj hcw
      exact (h.past_append hs hdone hc).2 hct hw

/-- A call is going on, or it has come to its end. -/
def Going (j : ι) (t : ω → ℕ) (n : BitVec 32) (s : WaitQueue ω ι) (l : List (WaitLink ω ι))
    (calls : List (Invocation ω)) : Prop :=
  s.waker j = none ∨ ∃ k, Walked j t n s l k calls

theorem Going.step (h : Going j t n s l calls) (hs : s.Holds l) (hfuel : l.length < fuel)
    {o : Step ω ι} (hok : s.StepOk o) (ho : ∀ m, o ≠ .wakeUp j m) :
    ∃ r l', step fuel s o = some r ∧ r.1.Holds l' ∧ l'.length ≤ l.length + 1 ∧
      Going j t n r.1 l' (calls ++ o.callsOf j r.2) := by
  by_cases hj : o.waker = some j
  · cases o with
    | walk i wake =>
      obtain rfl := some_inj.mp hj
      rcases h with h | ⟨k, h⟩
      · exact absurd h hok
      obtain ⟨A, o, s', hdone, hrun, hs', hturn, -, hwaker⟩ := hs.section h.waker hfuel wake
      refine ⟨_, _, hrun, hs', hdone.length_le, ?_⟩
      have hcalls : (Step.walk i wake).callsOf i o.calls = o.calls := if_pos rfl
      have hwaker' := congrFun hwaker i
      rw [update_self] at hwaker'
      simp only [hcalls]
      by_cases hstop : o.stop = .paused
      · rw [if_pos hstop] at hwaker'
        exact .inr ⟨_, h.paused hs hdone hstop hwaker' hturn⟩
      · rw [if_neg hstop] at hwaker'
        exact .inl hwaker'
    | wakeUp i m =>
      obtain rfl := some_inj.mp hj
      exact absurd rfl (ho m)
    | add w exclusive tail => cases hj
    | remove w => cases hj
    | wakeUpLocked m wake => cases hj
  · obtain ⟨r, l', hstep, hs', hlen, hedits⟩ := hs.step hfuel o hok
    have hcalls : o.callsOf j r.2 = [] := by
      cases o with
      | walk i wake => exact if_neg fun hij => hj (congrArg some hij)
      | _ => rfl
    refine ⟨r, l', hstep, hs', hlen, ?_⟩
    rw [hcalls, append_nil]
    rcases h with h | ⟨k, h⟩
    · exact .inl ((hedits j hj).waker.trans h)
    · exact .inr ⟨k, h.edits (hedits j hj)⟩

/-- The steps of a call and of others between its beginning and its last section. -/
theorem Going.run (j : ι) (t : ω → ℕ) (n : BitVec 32) : ∀ {ops : List (Step ω ι)}
    {s : WaitQueue ω ι} {l : List (WaitLink ω ι)} {calls : List (Invocation ω)},
    Going j t n s l calls → s.Holds l → l.length + ops.length < fuel →
    CallsMeet (WaitQueue.step fuel) StepOk s ops → (∀ m, .wakeUp j m ∉ ops) →
    ∃ s' answers l', runCalls (WaitQueue.step fuel) s ops = some (s', answers) ∧ s'.Holds l' ∧
      l'.length ≤ l.length + ops.length ∧ Going j t n s' l' (calls ++ callsOf j ops answers)
  | [], s, l, calls, h, hs, _, _, _ =>
    ⟨s, [], l, rfl, hs, by simp, by simpa [callsOf] using h⟩
  | o :: ops, s, l, calls, h, hs, hfuel, hok, hops => by
    rw [length_cons] at hfuel
    have hfuel0 : l.length < fuel := by omega
    obtain ⟨⟨s1, a⟩, l1, hstep, hs1, hlen, h1⟩ := h.step hs hfuel0 hok.1
      fun m hm => hops m (by rw [hm]; exact mem_cons_self)
    obtain ⟨s', answers, l', hrun, hs', hlen', h'⟩ := Going.run j t n h1 hs1 (by omega)
      (hok.2 _ hstep) fun m hm => hops m (mem_cons_of_mem _ hm)
    refine ⟨s', a :: answers, l', by rw [runCalls_cons hstep, hrun]; rfl, hs', by simp; omega, ?_⟩
    rw [append_assoc] at h'
    exact h'

/-- A call of `__wake_up` in any run : it begins behind the steps `ops₀`, and its last section is
the one behind `ops`, in the state `s₁`. -/
theorem wake_up_run {ops₀ ops : List (Step ω ι)}
    (hok : CallsMeet (step fuel) StepOk start (ops₀ ++ .wakeUp j n :: (ops ++ [.walk j wake])))
    (hfuel : ops₀.length + ops.length < fuel) (hops : ∀ m, .wakeUp j m ∉ ops) :
    ∃ s₀ a₀ s₁ a₁ l s₂ a₂, runCalls (step fuel) start ops₀ = some (s₀, a₀) ∧
      runCalls (step fuel) (s₀.wakeUp j n) ops = some (s₁, a₁) ∧ s₁.Holds l ∧
      step fuel s₁ (.walk j wake) = some (s₂, a₂) ∧
      ((callsOf j ops a₁ ++ a₂).map Invocation.key).Nodup ∧
      (s₂.waker j = none → (∀ c ∈ callsOf j ops a₁ ++ a₂, 0 ≤ c.ret) →
        Served s₀.turn n s₁ l (callsOf j ops a₁ ++ a₂)) := by
  obtain ⟨hok0, hrest⟩ := callsMeet_append.mp hok
  have hfuel0 : ([] : List (WaitLink ω ι)).length + ops₀.length < fuel := by
    rw [length_nil]
    omega
  obtain ⟨s₀, a₀, l0, hrun0, hs0, hlen0⟩ := holds_start.run hfuel0 hok0
  obtain ⟨hj, hrest⟩ := hrest _ hrun0
  obtain ⟨hok1, hlast⟩ := callsMeet_append.mp (hrest _ rfl)
  simp only [length_nil, Nat.zero_add] at hlen0
  obtain ⟨s₁, a₁, l, hrun, hs1, hlen, hgoing⟩ := Going.run j s₀.turn n
    (.inr ⟨_, walked_wakeUp s₀ j n l0⟩) (hs0.wakeUp n hj) (by omega) hok1 hops
  obtain ⟨hwaker, -⟩ := hlast _ hrun
  obtain ⟨k, h⟩ := hgoing.resolve_left hwaker
  have hfuel1 : l.length < fuel := by omega
  obtain ⟨A, o, s₂, hdone, hsection, -, -, -, hwaker2⟩ := hs1.section h.waker hfuel1 wake
  rw [nil_append] at h
  refine ⟨s₀, a₀, s₁, a₁, l, s₂, o.calls, hrun0, hrun, hs1, hsection, h.nodup_append hs1 hdone,
    fun hend => h.served hs1 hdone fun hstop => ?_⟩
  rw [hwaker2, update_self, if_pos hstop] at hend
  cases hend

/-- 68 waiters are queued, the last two of them exclusive. -/
def crowd : List (Step ℕ Bool) := (range 68).map fun w => .add w (decide (66 ≤ w)) true

/-- The first section of a call stops at its bookmark, and a waiter is queued before the second. -/
def crowdWoken : List (Step ℕ Bool) := [.walk true fun _ => (1, true), .add 68 false false]

/-- The call goes on at its bookmark, and ends with the first exclusive waiter. -/
theorem wake_up_run_bookmark :
    CallsMeet (step 99) StepOk start
      (crowd ++ .wakeUp true 1 :: (crowdWoken ++ [.walk true fun _ => (1, true)])) ∧
    ∃ s₀ a₀ s₁ a₁ l s₂ a₂, runCalls (step 99) start crowd = some (s₀, a₀) ∧
      runCalls (step 99) (s₀.wakeUp true 1) crowdWoken = some (s₁, a₁) ∧ s₁.Holds l ∧
      step 99 s₁ (.walk true fun _ => (1, true)) = some (s₂, a₂) ∧
      ((callsOf true crowdWoken a₁ ++ a₂).map Invocation.key).Nodup ∧
      (s₂.waker true = none → (∀ c ∈ callsOf true crowdWoken a₁ ++ a₂, 0 ≤ c.ret) →
        Served s₀.turn 1 s₁ l (callsOf true crowdWoken a₁ ++ a₂)) :=
  ⟨by decide +kernel, wake_up_run (by decide +kernel) (by decide) (by simp [crowdWoken])⟩

/-! ## Too many waiters -/

theorem callsOf_cons (j : ι) (o : Step ω ι) (ops : List (Step ω ι)) (a : List (Invocation ω))
    (answers : List (List (Invocation ω))) :
    callsOf j (o :: ops) (a :: answers) = o.callsOf j a ++ callsOf j ops answers := rfl

/-- A queue of exclusive waiters. -/
theorem run_adds (fuel N : ℕ) : ∃ (s : WaitQueue ℕ ι) (a : List (List (Invocation ℕ))),
    CallsMeet (step fuel) StepOk (start : WaitQueue ℕ ι)
      ((List.range N).map fun w => .add w true true) ∧
    runCalls (step fuel) (start : WaitQueue ℕ ι) ((List.range N).map fun w => .add w true true) =
      some (s, a) ∧
    s.Holds ((List.range N).map .waiter) ∧ (∀ j, s.waker j = none) ∧
      ∀ w, s.queued w = true → s.exclusive w = true := by
  induction N with
  | zero =>
    refine ⟨start, [], trivial, rfl, holds_start, fun _ => rfl, fun w hw => ?_⟩
    cases hw
  | succ N ih =>
    obtain ⟨s, a, hok, hrun, hs, hwaker, hex⟩ := ih
    have hN : s.queued N = false := by
      by_contra h
      have := (hs.waiter N).mpr (by simpa using h)
      simp at this
    have hadd : CallsMeet (step fuel) StepOk s [.add N true true] ∧
        runCalls (step fuel) s [.add N true true] = some (s.addWaiter N true true, [[]]) :=
      runCalls_single hN rfl
    obtain ⟨hok', hrun'⟩ := runCalls_append hok hrun hadd.1 hadd.2
    rw [range_succ, map_append, map_append]
    refine ⟨_, _, hok', hrun', hs.add true true hN, hwaker, fun w hw => ?_⟩
    by_cases hwN : w = N
    · rw [hwN]
      exact update_self _ _ _
    · have hw' : s.queued w = true := (update_of_ne hwN _ _).symm.trans hw
      exact (update_of_ne hwN _ _).trans (hex w hw')

/-- Callbacks that remove nothing leave the queue. -/
theorem CommonDone.waiter_mem_after_iff (h : CommonDone s l wake b k A o)
    (hwake : ∀ w, (wake w).2 = false) : .waiter w ∈ o.after wake b A ↔ .waiter w ∈ l := by
  have hstay : stays wake (.waiter w : WaitLink ω ι) = true := by simp [stays, hwake]
  have hp : .waiter w ∉ (marks (o.planted b) : List (WaitLink ω ι)) := by simp [marks]
  have hr : .waiter w ∉ (marks (resume b k) : List (WaitLink ω ι)) := by simp [marks]
  rw [h.eq_append, Outcome.after]
  simp [mem_filter, hstay, hp, hr]

/-- A waker that nobody disturbs comes to its end. -/
theorem alone (fuel : ℕ) (hwake : ∀ w, wake w = (1, false)) : ∀ (d : ℕ) {s : WaitQueue ω ι}
    {l : List (WaitLink ω ι)} {k : Waker}, s.Holds l → s.waker j = some k →
    (pending (resume (some j) k) l).length < d → l.length + d < fuel →
    (∀ w, s.queued w = true → s.exclusive w = true) →
    ∃ m s1 a1 s2 a2, CallsMeet (step fuel) StepOk s (List.replicate m (.walk j wake)) ∧
      runCalls (step fuel) s (List.replicate m (.walk j wake)) = some (s1, a1) ∧
      s1.waker j ≠ none ∧ step fuel s1 (.walk j wake) = some (s2, a2) ∧ s2.waker j = none ∧
      s2.queued = s.queued ∧ s2.turn = s.turn ∧ m < d ∧
      ∀ c ∈ callsOf j (List.replicate m (.walk j wake)) a1 ++ a2, c.ret = 1 ∧ c.exclusive = true
  | 0, _, _, _, _, _, hd, _, _ => absurd hd (by omega)
  | d + 1, s, l, k, hs, hk, hd, hfuel, hex => by
    have hfuel0 : l.length < fuel := by omega
    obtain ⟨A, o, s', hdone, hrun, hs', hturn, hex', hwaker⟩ := hs.section hk hfuel0 wake
    have hqueued : s'.queued = s.queued := by
      funext w
      rw [Bool.eq_iff_iff, ← hs'.waiter w, ← hs.waiter w]
      exact hdone.waiter_mem_after_iff fun w => by rw [hwake]
    have hcalls : ∀ c ∈ o.calls, c.ret = 1 ∧ c.exclusive = true := fun c hc => by
      obtain ⟨w, hw, rfl⟩ := hdone.mem_calls_iff.mp hc
      refine ⟨congrArg Prod.fst (hwake w), hex w ((hs.waiter w).mp ?_)⟩
      rw [hdone.eq_append]
      simp [hw]
    have hwaker' := congrFun hwaker j
    rw [update_self] at hwaker'
    have hne : s.waker j ≠ none := by simp [hk]
    by_cases hstop : o.stop = .paused
    case neg =>
      rw [if_neg hstop] at hwaker'
      exact ⟨0, s, [], s', o.calls, trivial, rfl, hne, hrun, hwaker', hqueued, hturn, by omega,
        by simpa [callsOf] using hcalls⟩
    rw [if_pos hstop] at hwaker'
    have hrest : o.rest.length < d := by
      have hpos := length_pos_of_ne_nil (hdone.sound.paused hstop)
      rw [hdone.sound.split, length_append] at hd
      omega
    have hlen := hdone.length_le
    have hpending := hdone.pending_after hstop
    obtain ⟨m, s1, a1, s2, a2, hok, hrun', hne', hstep, hend, hqueued', hturn', hm, hcalls'⟩ :=
      alone fuel hwake d hs' hwaker' (by rw [resume, if_pos rfl, hpending]; exact hrest)
        (by omega) (by rw [hqueued, hex']; exact hex)
    refine ⟨m + 1, s1, o.calls :: a1, s2, a2, ⟨hne, fun r hr => ?_⟩, ?_, hne', hstep, hend,
      hqueued'.trans hqueued, hturn'.trans hturn, by omega, fun c hc => ?_⟩
    · rw [← some_inj.mp (hrun.symm.trans hr)]
      exact hok
    · rw [replicate_succ, runCalls_cons hrun, hrun']
      rfl
    · have hown : (Step.walk j wake).callsOf j o.calls = o.calls := if_pos rfl
      rw [replicate_succ, callsOf_cons, hown, append_assoc, mem_append] at hc
      exact hc.elim (hcalls c) (hcalls' c)

/-- A waiter that is removed and queued again while the lock is dropped is invoked once more, and a
wake-up of all misses one of `2 ^ 32 + 1` exclusive waiters. -/
theorem wake_up_repeats_and_misses :
    (∃ ops₀ ops : List (Step ℕ Unit),
      CallsMeet (step 100) StepOk start (ops₀ ++ .wakeUp () 0 :: ops) ∧
      (∀ m, .wakeUp () m ∉ ops) ∧
      ((runCalls (step 100) start (ops₀ ++ .wakeUp () 0 :: ops)).map fun r =>
        (((callsOf () (ops₀ ++ .wakeUp () 0 :: ops) r.2).map Invocation.waiter).count 0,
          r.1.waker ())) = some (2, none)) ∧
    ∃ fuel m s₀ a₀ s₁ a₁ s₂ a₂ w, CallsMeet (step fuel) StepOk (start : WaitQueue ℕ Unit)
        ((List.range (2 ^ 32 + 1)).map (fun w => .add w true true) ++
          .wakeUp () 0 :: (List.replicate m (.walk () fun _ => (1, false)) ++
            [.walk () fun _ => (1, false)])) ∧
      runCalls (step fuel) (start : WaitQueue ℕ Unit)
        ((List.range (2 ^ 32 + 1)).map fun w => .add w true true) = some (s₀, a₀) ∧
      runCalls (step fuel) (s₀.wakeUp () 0) (List.replicate m (.walk () fun _ => (1, false))) =
        some (s₁, a₁) ∧
      step fuel s₁ (.walk () fun _ => (1, false)) = some (s₂, a₂) ∧ s₂.waker () = none ∧
      s₀.queued w = true ∧ s₂.queued w = true ∧ s₂.turn w = s₀.turn w ∧
      ∀ c ∈ callsOf () (List.replicate m (.walk () fun _ => (1, false))) a₁ ++ a₂,
        0 ≤ c.ret ∧ c.waiter ≠ w := by
  refine ⟨⟨(range 66).map fun w => .add w false true,
    [.walk () fun _ => (1, false), .remove 0, .add 0 false true, .walk () fun _ => (1, false)],
    by decide +kernel, by simp, by decide +kernel⟩, ?_⟩
  -- At most `2 ^ 32` invocations are counted, so with `N` waiters one of them is missed.
  obtain ⟨N, heq, hN⟩ : ∃ N, 2 ^ 32 + 1 = N ∧ 2 ^ 32 < N := ⟨_, rfl, lt_add_one _⟩
  rw [heq]
  obtain ⟨wake, hwake⟩ : ∃ wake : ℕ → ℤ × Bool, wake = fun _ => (1, false) := ⟨_, rfl⟩
  have hone : ∀ w, wake w = (1, false) := fun w => by rw [hwake]
  obtain ⟨fuel, hfuel⟩ : ∃ fuel, fuel = 2 * N + 2 := ⟨_, rfl⟩
  have hadds : ∃ (s : WaitQueue ℕ Unit) (a : List (List (Invocation ℕ))), _ := run_adds fuel N
  obtain ⟨s0, a0, hok0, hrun0, hs0, hwaker0, hex0⟩ := hadds
  obtain ⟨l, hl⟩ : ∃ l : List (WaitLink ℕ Unit), l = (range N).map .waiter := ⟨_, rfl⟩
  have hlen : l.length = N := by rw [hl, length_map, length_range]
  rw [← hl] at hs0
  have hs := hs0.wakeUp 0 (hwaker0 ())
  obtain ⟨m, s1, a1, s2, a2, hok, hrun, hne, hstep, hend, hqueued, hturn, hm, hcalls⟩ :=
    alone fuel hone (N + 1) hs (walked_wakeUp s0 () 0 l).waker
      (by rw [resume, if_neg (by decide)]; exact hlen.trans_lt (by omega)) (by omega) hex0
  obtain ⟨s1', a1', l1, hrun', hs1, hlen1, hgoing⟩ := Going.run () s0.turn 0
    (.inr ⟨_, walked_wakeUp s0 () 0 l⟩) hs (by rw [length_replicate]; omega) hok
    (fun n hmem => by cases eq_of_mem_replicate hmem)
  obtain ⟨rfl, rfl⟩ := Prod.mk.inj (some_inj.mp (hrun'.symm.trans hrun))
  rw [length_replicate] at hlen1
  obtain ⟨k, h⟩ := hgoing.resolve_left hne
  have hfuel1 : l1.length < fuel := by omega
  obtain ⟨A, o, s2', hdone, hsection, -, -, -, hwaker2⟩ := hs1.section h.waker hfuel1 wake
  obtain ⟨rfl, rfl⟩ := Prod.mk.inj (some_inj.mp (hsection.symm.trans hstep))
  obtain ⟨calls, hinv⟩ : ∃ calls,
    calls = callsOf () (replicate m (.walk () wake)) a1' ++ o.calls := ⟨_, rfl⟩
  have hle : wakeUps calls ≤ 2 ^ 32 := by
    rw [hinv]
    have hserved := h.served hs1 hdone (fun hstop => by
      rw [hwaker2, update_self, if_pos hstop] at hend
      cases hend) fun c hc => by rw [(hcalls c hc).1]; decide
    rcases hserved with hserved | hserved
    · exact hserved.1.le
    · exact hserved.1.le
  rw [← hinv] at hcalls
  have hcount : wakeUps calls = calls.length := by
    rw [wakeUps, countP_eq_length]
    intro c hc
    obtain ⟨hret, hexcl⟩ := hcalls c hc
    simp [Invocation.counts, hret, hexcl]
  obtain ⟨w, hw, hmiss⟩ : ∃ w ∈ range N, w ∉ calls.map Invocation.waiter := by
    by_contra! hall
    have := (nodup_range.subperm hall).length_le
    rw [length_range, length_map] at this
    omega
  have hqueued0 : s0.queued w = true := by
    refine (hs0.waiter w).mp ?_
    rw [hl]
    exact mem_map_of_mem hw
  subst hwake
  refine ⟨fuel, m, s0, a0, s1', a1', s2', o.calls, w,
    callsMeet_append.mpr ⟨hok0, fun r hr => ?_⟩, hrun0, hrun, hstep, hend, hqueued0,
    by rw [hqueued]; exact hqueued0, by rw [hturn]; rfl, fun c hc => ?_⟩
  · obtain rfl := some_inj.mp (hrun0.symm.trans hr)
    refine ⟨hwaker0 (), fun r hr => callsMeet_append.mpr ?_⟩
    obtain rfl := some_inj.mp hr
    refine ⟨hok, fun r hr => ?_⟩
    obtain rfl := some_inj.mp (hrun.symm.trans hr)
    exact ⟨hne, fun _ _ => trivial⟩
  · rw [← hinv] at hc
    refine ⟨by rw [(hcalls c hc).1]; decide, fun hcw => hmiss ?_⟩
    exact mem_map.mpr ⟨c, hc, hcw⟩

end WaitQueue

end LinuxKernelTest
