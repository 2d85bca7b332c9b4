import LinuxKernelTest.CpudlHeap
import LinuxKernelTest.RbtreeCached

/-!
# The earliest deadlines of a run queue

A `dl_rq` of `kernel/sched/deadline.c` has its entities in a tree by deadline, and the tasks that
may be pushed to another CPU in a second one. What the scheduler asks for most is cached :
`earliest_dl.curr` for the first entity, `earliest_dl.next` for the first task that may be pushed,
and the deadline of the CPU in the heap of the root domain. `inc_dl_deadline` and `dec_dl_deadline`
keep the caches, with 0 for an empty tree.

`dec_dl_deadline` of the last entity sets both caches to 0, whether or not there are tasks to push
(`earliestNext_lost`). So `earliest_dl.next` is right only while there are entities, and only if no
entity is enqueued before the tasks that were left behind are taken off. The callers do so :
`__dequeue_task_dl` takes the entity and the task off under one lock.

An entity and its task are one pointer, and `RB_EMPTY_NODE` of the nodes are two flags. The part of
`enqueue_dl_entity` that sets a new deadline is left out : the deadline is a value of the call. The
other CPUs use the same heap (`DlCall.remote`).
-/

namespace LinuxKernelTest

open Function List Option

/-! ## The model -/

/-- `struct dl_rq`, with its tasks, its CPU and the heap of the root domain. -/
structure DlRq (nr : ℕ) where
  deadline : RbPtr → BitVec 64
  special : RbPtr → Bool
  root : RbCached Unit
  onRq : RbPtr → Bool
  pushable : RbCached Unit
  onPushable : RbPtr → Bool
  nrRunning : ℕ
  curr : BitVec 64
  next : BitVec 64
  cpu : ℕ
  cpudl : Cpudl nr

section

variable {nr : ℕ}
variable (q : DlRq nr)

/-- `inc_dl_deadline`. -/
def incDlDeadline (deadline : BitVec 64) : Option (DlRq nr) :=
  if q.curr = 0 ∨ dlTimeBefore deadline q.curr = true then
    (cpudlSet q.cpudl q.cpu deadline).map fun cp => { q with curr := deadline, cpudl := cp }
  else some q

/-- `dec_dl_deadline`. -/
def decDlDeadline : Option (DlRq nr) :=
  if q.nrRunning = 0 then
    (cpudlClear q.cpudl q.cpu).map fun cp => { q with curr := 0, next := 0, cpudl := cp }
  else if q.root.leftmost = 0 then none
  else
    let deadline := q.deadline q.root.leftmost
    (cpudlSet q.cpudl q.cpu deadline).map fun cp => { q with curr := deadline, cpudl := cp }

/-- `enqueue_dl_entity` of an entity that gets `deadline`. -/
def enqueueDlEntity (dlSe : RbPtr) (deadline : BitVec 64) : Option (DlRq nr) :=
  -- `BUG_ON`
  if q.onRq dlSe then none
  else
    let q := { q with deadline := update q.deadline dlSe deadline }
    (rbAddCached (fun entry => dlTimeBefore deadline (q.deadline entry)) q.root dlSe).bind fun r =>
      incDlDeadline { q with
        root := r.1
        onRq := update q.onRq dlSe true
        nrRunning := q.nrRunning + 1 } deadline

/-- `dequeue_dl_entity`. -/
def dequeueDlEntity (dlSe : RbPtr) : Option (DlRq nr) :=
  if q.onRq dlSe then
    (rbEraseCached q.root dlSe).bind fun r =>
      decDlDeadline { q with
        root := r.1
        onRq := update q.onRq dlSe false
        nrRunning := q.nrRunning - 1 }
  else some q

/-- `enqueue_pushable_dl_task`. -/
def enqueuePushableDlTask (p : RbPtr) : Option (DlRq nr) :=
  -- `BUG_ON`
  if q.onPushable p then none
  else
    -- `dl_entity_preempt`
    let less := fun entry => q.special p || dlTimeBefore (q.deadline p) (q.deadline entry)
    (rbAddCached less q.pushable p).map fun r =>
      { q with
        pushable := r.1
        onPushable := update q.onPushable p true
        next := if r.2 = (0 : RbPtr) then q.next else q.deadline p }

/-- `dequeue_pushable_dl_task`. -/
def dequeuePushableDlTask (p : RbPtr) : Option (DlRq nr) :=
  if q.onPushable p then
    (if q.pushable.leftmost = p then
      (rbNext q.pushable.mem p).map fun node =>
        if node = 0 then q.next else q.deadline node
    else some q.next).bind fun next =>
      (rbEraseCached q.pushable p).map fun r =>
        { q with
          pushable := r.1
          onPushable := update q.onPushable p false
          next := next }
  else some q

/-- The calls on a run queue, and those of the other CPUs on the heap. -/
inductive DlCall
  | enqueue (dlSe : RbPtr) (deadline : BitVec 64)
  | dequeue (dlSe : RbPtr)
  | enqueuePushable (p : RbPtr)
  | dequeuePushable (p : RbPtr)
  | remote (o : CpudlOp)

/-- Run one call. -/
def DlCall.run : DlCall → Option (DlRq nr × Unit)
  | .enqueue dlSe deadline => (enqueueDlEntity q dlSe deadline).map (·, ())
  | .dequeue dlSe => (dequeueDlEntity q dlSe).map (·, ())
  | .enqueuePushable p => (enqueuePushableDlTask q p).map (·, ())
  | .dequeuePushable p => (dequeuePushableDlTask q p).map (·, ())
  | .remote o => (o.run q.cpudl).map fun cp => ({ q with cpudl := cp }, ())

/-! ## What the calls may be given -/

/-- The deadlines of the entities that are enqueued and of the CPUs in the heap. -/
def DlRq.Live (d : BitVec 64) : Prop :=
  (∃ x, q.onRq x = true ∧ q.deadline x = d) ∨
    ∃ i < q.cpudl.size, (q.cpudl.elements i).dl = d

/-- The deadline `d` is less than `2 ^ 63` from all that are live. -/
def DlRq.Apart (d : BitVec 64) : Prop :=
  ∀ a, q.Live a → d.toNat < a.toNat + 2 ^ 63 ∧ a.toNat < d.toNat + 2 ^ 63

/-- What a call is given : nodes that are not in the tree yet, deadlines that are not 0 and close to
the others. When an entity is enqueued, every task that may be pushed is enqueued. -/
def DlCall.Issued (possible : BitVec nr) (q : DlRq nr) : DlCall → Prop
  | .enqueue dlSe deadline => dlSe ≠ 0 ∧ Aligned dlSe ∧ q.onRq dlSe = false ∧ deadline ≠ 0 ∧
      q.Apart deadline ∧ ∀ x, q.onPushable x = true → q.onRq x = true
  | .dequeue _ => True
  | .enqueuePushable p => p ≠ 0 ∧ Aligned p ∧ q.onPushable p = false
  | .dequeuePushable _ => True
  | .remote o => possible.getLsbD o.cpu = true ∧ o.cpu ≠ q.cpu ∧
      ∀ cpu d, o = .set cpu d → q.Apart d

/-! ## What is kept -/

/-- The trees have the sequences `list` and `tasks`, the heap has the map `m`, and the caches are
right. -/
structure DlRq.Keeps (possible : BitVec nr) (q : DlRq nr) (list tasks : List RbPtr)
    (m : ℕ → Option (BitVec 64)) : Prop where
  root : q.root.Represents list
  onRq : ∀ x, q.onRq x = true ↔ x ∈ list
  pushable : q.pushable.Represents tasks
  onPushable : ∀ x, q.onPushable x = true ↔ x ∈ tasks
  nrRunning : q.nrRunning = list.length
  sorted : list.Pairwise fun a b => (q.deadline a).toNat ≤ (q.deadline b).toNat
  nonzero : ∀ x ∈ list, q.deadline x ≠ 0
  curr : q.curr = (list.head?.map q.deadline).getD 0
  next : list ≠ [] → ∀ p ∈ tasks.head?, q.next = q.deadline p
  cpudl : q.cpudl.Holds (fun c => possible.getLsbD c = true) m
  cpu : possible.getLsbD q.cpu = true
  entry : m q.cpu = list.head?.map q.deadline
  close : ∀ a b, q.Live a → q.Live b → a.toNat < b.toNat + 2 ^ 63

namespace DlRq.Keeps

variable {possible : BitVec nr} {q : DlRq nr} {list tasks : List RbPtr}
  {m : ℕ → Option (BitVec 64)} {d : BitVec 64} {c : ℕ} {x p : RbPtr}

theorem lt_of_possible (h : possible.getLsbD c = true) : c < nr := BitVec.lt_of_getLsbD h

section

variable (h : q.Keeps possible list tasks m)
include h

theorem live_of_mem (hx : x ∈ list) : q.Live (q.deadline x) :=
  .inl ⟨x, (h.onRq x).mpr hx, rfl⟩

theorem live_of_entry (hc : m c = some d) : q.Live d := by
  obtain ⟨-, j, hj, hcell⟩ := h.cpudl.indexed.covers c d hc
  exact .inr ⟨j, hj, congrArg Prod.snd hcell⟩

theorem apart_of_live (hd : q.Live d) : q.Apart d :=
  fun a ha => ⟨h.close d a hd ha, h.close a d ha hd⟩

/-- One more deadline, close to the others. -/
theorem close_insert (hd : q.Apart d) {a b : BitVec 64}
    (ha : a = d ∨ q.Live a) (hb : b = d ∨ q.Live b) : a.toNat < b.toNat + 2 ^ 63 := by
  rcases ha with rfl | ha <;> rcases hb with rfl | hb
  · omega
  · exact (hd b hb).1
  · exact (hd a ha).2
  · exact h.close a b ha hb

theorem close_of_live (hd : q.Apart d) {q' : DlRq nr}
    (hlive : ∀ a, q'.Live a → a = d ∨ q.Live a) (a b : BitVec 64) (ha : q'.Live a)
    (hb : q'.Live b) : a.toNat < b.toNat + 2 ^ 63 :=
  h.close_insert hd (hlive a ha) (hlive b hb)

theorem close_entries : Close m := fun _ _ _ _ ha hb =>
  h.close _ _ (h.live_of_entry ha) (h.live_of_entry hb)

/-- The entries of the heap after `cpudl_set`. -/
theorem entry_update {c' : ℕ} {a : BitVec 64}
    (ha : update m c (some d) c' = some a) : a = d ∨ q.Live a := by
  by_cases heq : c' = c
  · rw [heq, update_self] at ha
    exact .inl (some.inj ha).symm
  · rw [update_of_ne heq] at ha
    exact .inr (h.live_of_entry ha)

/-- `cpudl_set` with a deadline close to the others. -/
theorem cpudlSet (hc : possible.getLsbD c = true)
    (hd : q.Apart d) :
    ∃ cp, cpudlSet q.cpudl c d = some cp ∧
      cp.Holds (fun c => possible.getLsbD c = true) (update m c (some d)) ∧
      ∀ i < cp.size, (cp.elements i).dl = d ∨ q.Live (cp.elements i).dl := by
  obtain ⟨cp, hrun, hcp⟩ := cpudlSet_spec (fun c => lt_of_possible) h.cpudl hc d
    fun _ _ _ _ ha hb => h.close_insert hd (h.entry_update ha) (h.entry_update hb)
  exact ⟨cp, hrun, hcp, fun i hi => h.entry_update (hcp.indexed.mem i hi)⟩

/-- `cpudl_clear`. -/
theorem cpudlClear (hc : possible.getLsbD c = true) :
    ∃ cp, cpudlClear q.cpudl c = some cp ∧
      cp.Holds (fun c => possible.getLsbD c = true) (update m c none) ∧
      ∀ i < cp.size, q.Live (cp.elements i).dl := by
  obtain ⟨cp, hrun, hcp⟩ := cpudlClear_spec (fun c => lt_of_possible) h.cpudl hc h.close_entries
  refine ⟨cp, hrun, hcp, fun i hi => ?_⟩
  have hmem := hcp.indexed.mem i hi
  by_cases hcpu : (heapCell cp.elements i).1 = c
  · rw [hcpu, update_self] at hmem
    cases hmem
  · rw [update_of_ne hcpu] at hmem
    exact h.live_of_entry hmem

/-- An entity is enqueued in its place, and is cached if it is the first. -/
theorem enqueue
    (hissued : (DlCall.enqueue x d).Issued possible q) :
    ∃ q' list' m', enqueueDlEntity q x d = some q' ∧ q'.Keeps possible list' tasks m' := by
  obtain ⟨hne, haligned, hoff, hd0, hapart, hpush⟩ := hissued
  have hout : x ∉ list := fun hin => by simp [(h.onRq x).mpr hin] at hoff
  have htask : x ∉ tasks := fun hin => hout ((h.onRq x).mp (hpush x ((h.onPushable x).mpr hin)))
  have hsame : ∀ y, y ≠ x → update q.deadline x d y = q.deadline y :=
    fun y hy => update_of_ne hy _ _
  have hmem : ∀ y ∈ list, y ≠ x := fun y hy heq => hout (heq ▸ hy)
  obtain ⟨r, answer, pre, post, hrun, rfl, hr, hplace⟩ := rbAddCached_spec h.root hne haligned hout
    fun entry => dlTimeBefore d (update q.deadline x d entry)
  have hless : ∀ y ∈ pre ++ post,
      (dlTimeBefore d (update q.deadline x d y) = true ↔ d.toNat < (q.deadline y).toNat) :=
    fun y hy => by
      obtain ⟨hlt, hgt⟩ := hapart _ (h.live_of_mem hy)
      rw [hsame y (hmem y hy), dlTimeBefore_iff hlt hgt]
  obtain ⟨hpre, hpost⟩ := hplace <| h.sorted.imp_of_mem fun {a b} ha hb hab => by
    rw [hless a ha, hless b hb]
    omega
  have hsorted : (pre ++ x :: post).Pairwise fun a b =>
      (update q.deadline x d a).toNat ≤ (update q.deadline x d b).toNat := by
    have hold := h.sorted.imp_of_mem
      (S := fun a b => (update q.deadline x d a).toNat ≤ (update q.deadline x d b).toNat)
      fun {a b} ha hb hab => by rwa [hsame a (hmem a ha), hsame b (hmem b hb)]
    obtain ⟨hsortedPre, hsortedPost, hcross⟩ := pairwise_append.mp hold
    refine pairwise_append.mpr ⟨hsortedPre, pairwise_cons.mpr ⟨fun y hy => ?_,
      hsortedPost⟩, fun a ha b hb => ?_⟩
    · have hy' := mem_append_right pre hy
      have := (hless y hy').mp (hpost y hy)
      rw [update_self, hsame y (hmem y hy')]
      omega
    · rcases mem_cons.mp hb with rfl | hb
      · have ha' := mem_append_left post ha
        have := (hless a ha').not.mp (by rw [hpre a ha]; simp)
        rw [update_self, hsame a (hmem a ha')]
        omega
      · exact hcross a ha b hb
  have honRq : ∀ y, update q.onRq x true y = true ↔ y ∈ pre ++ x :: post := fun y => by
    by_cases hy : y = x
    · simp [hy]
    · rw [update_of_ne hy, h.onRq]
      simp [hy]
  have hnonzero : ∀ y ∈ pre ++ x :: post, update q.deadline x d y ≠ 0 := fun y hy => by
    by_cases hyx : y = x
    · rwa [hyx, update_self]
    · rw [hsame y hyx]
      exact h.nonzero y (by simpa [hyx] using hy)
  have hnext : ∀ t ∈ tasks.head?, q.next = update q.deadline x d t := fun t ht => by
    have htasks := mem_of_mem_head? ht
    rw [hsame t fun heq => htask (heq ▸ htasks)]
    exact h.next (ne_nil_of_mem ((h.onRq t).mp (hpush t ((h.onPushable t).mpr htasks)))) t ht
  have hlive : ∀ y, update q.onRq x true y = true →
      update q.deadline x d y = d ∨ q.Live (update q.deadline x d y) :=
    fun y hy => by
      by_cases hyx : y = x
      · exact .inl (by rw [hyx, update_self])
      · rw [update_of_ne hyx] at hy
        rw [hsame y hyx]
        exact .inr (.inl ⟨y, hy, rfl⟩)
  have hlength : q.nrRunning + 1 = (pre ++ x :: post).length := by
    rw [h.nrRunning, length_append, length_append, length_cons]
    omega
  rw [enqueueDlEntity, if_neg (by simp [hoff])]
  dsimp only
  rw [hrun, bind_some, incDlDeadline]
  dsimp only
  rcases pre with _ | ⟨y, pre⟩
  · -- The entity is the first one.
    obtain ⟨cp, hset, hcp, hentries⟩ := h.cpudlSet h.cpu hapart
    have hcond : q.curr = 0 ∨ dlTimeBefore d q.curr = true := by
      rw [h.curr]
      rcases post with _ | ⟨z, post⟩
      · exact .inl rfl
      · have hz := hpost z mem_cons_self
        rw [hsame z (hmem z mem_cons_self)] at hz
        exact .inr hz
    rw [if_pos hcond, hset]
    refine ⟨_, _, _, rfl, ⟨hr, honRq, h.pushable, h.onPushable, hlength, hsorted, hnonzero, ?_,
      fun _ => hnext, hcp, h.cpu, ?_, ?_⟩⟩
    · simp
    · simp
    · refine h.close_of_live hapart fun a ha => ?_
      rcases ha with ⟨y, hy, rfl⟩ | ⟨i, hi, rfl⟩
      exacts [hlive y hy, hentries i hi]
  -- Another one stays the first.
  have hy : y ∈ y :: pre ++ post := mem_cons_self
  have hcurr : q.curr = q.deadline y := h.curr
  have hcond : ¬(q.curr = 0 ∨ dlTimeBefore d q.curr = true) := by
    have hbefore := hpre y mem_cons_self
    rw [hsame y (hmem y hy)] at hbefore
    rw [hcurr, hbefore]
    rintro (h0 | h1)
    · exact h.nonzero y hy h0
    · cases h1
  have hhead : update q.deadline x d y = q.deadline y := hsame y (hmem y hy)
  rw [if_neg hcond]
  refine ⟨_, _, m, rfl, ⟨hr, honRq, h.pushable, h.onPushable, hlength, hsorted, hnonzero, ?_,
    fun _ => hnext, h.cpudl, h.cpu, ?_, ?_⟩⟩
  · rw [hcurr, ← hhead]
    rfl
  · rw [h.entry]
    exact congrArg some hhead.symm
  · refine h.close_of_live hapart fun a ha => ?_
    rcases ha with ⟨y, hy, rfl⟩ | ha
    exacts [hlive y hy, .inr (.inr ha)]

/-- An entity is taken out, and the next one is cached. -/
theorem dequeue (x : RbPtr) :
    ∃ q' list' m', dequeueDlEntity q x = some q' ∧ q'.Keeps possible list' tasks m' := by
  by_cases hon : q.onRq x = true
  swap
  · exact ⟨q, list, m, if_neg hon, h⟩
  have hx := (h.onRq x).mp hon
  obtain ⟨r, answer, hrun, hr⟩ := rbEraseCached_represents h.root hx
  have honRq : ∀ y, update q.onRq x false y = true ↔ y ∈ list.erase x := fun y => by
    rw [h.root.nodup.mem_erase_iff]
    by_cases hy : y = x
    · simp [hy]
    · rw [update_of_ne hy, h.onRq]
      simp [hy]
  have hlength : q.nrRunning - 1 = (list.erase x).length := by
    rw [length_erase_of_mem hx, h.nrRunning]
  have hsorted := h.sorted.sublist (erase_sublist (a := x))
  have hnonzero : ∀ y ∈ list.erase x, q.deadline y ≠ 0 := fun y hy =>
    h.nonzero y (mem_of_mem_erase hy)
  have hlive : ∀ y, update q.onRq x false y = true → q.Live (q.deadline y) := fun y hy =>
    h.live_of_mem (mem_of_mem_erase ((honRq y).mp hy))
  rw [dequeueDlEntity, if_pos hon, hrun, bind_some, decDlDeadline]
  dsimp only
  rw [hlength]
  cases hlist : list.erase x with
  | nil =>
    rw [hlist] at hr honRq
    obtain ⟨cp, hclear, hcp, hentries⟩ := h.cpudlClear h.cpu
    rw [if_pos length_nil, hclear]
    refine ⟨_, [], _, rfl, ⟨hr, honRq, h.pushable, h.onPushable, rfl, .nil, by simp, rfl,
      fun hne => absurd rfl hne, hcp, h.cpu, by simp, ?_⟩⟩
    refine h.close_of_live (h.apart_of_live (h.live_of_mem hx)) fun a ha => ?_
    rcases ha with ⟨y, hy, rfl⟩ | ⟨i, hi, rfl⟩
    exacts [.inr (hlive y hy), .inr (hentries i hi)]
  | cons y rest =>
    rw [hlist] at hr honRq hsorted hnonzero
    have hy : y ∈ list := mem_of_mem_erase (hlist ▸ mem_cons_self)
    have hleft : r.leftmost = y := hr.leftmost
    obtain ⟨cp, hset, hcp, hentries⟩ := h.cpudlSet h.cpu (h.apart_of_live (h.live_of_mem hy))
    rw [if_neg (by simp), hleft, if_neg (h.root.ne_zero hy), hset]
    refine ⟨_, y :: rest, _, rfl, ⟨hr, honRq, h.pushable, h.onPushable, rfl, hsorted, hnonzero, rfl,
      fun _ => h.next (ne_nil_of_mem hx), hcp, h.cpu, by simp, ?_⟩⟩
    refine h.close_of_live (h.apart_of_live (h.live_of_mem hy)) fun a ha => ?_
    rcases ha with ⟨z, hz, rfl⟩ | ⟨i, hi, rfl⟩
    exacts [.inr (hlive z hz), hentries i hi]

/-- A task goes to its place, and is cached if it is the first. -/
theorem enqueuePushable
    (hissued : (DlCall.enqueuePushable p).Issued possible q) :
    ∃ q' tasks', enqueuePushableDlTask q p = some q' ∧ q'.Keeps possible list tasks' m := by
  obtain ⟨hne, haligned, hoff⟩ := hissued
  have hout : p ∉ tasks := fun hin => by simp [(h.onPushable p).mpr hin] at hoff
  obtain ⟨r, answer, pre, post, hrun, rfl, hr, -⟩ := rbAddCached_spec h.pushable hne haligned hout
    fun entry => q.special p || dlTimeBefore (q.deadline p) (q.deadline entry)
  have honPushable : ∀ y, update q.onPushable p true y = true ↔ y ∈ pre ++ p :: post := fun y => by
      by_cases hy : y = p
      · simp [hy]
      · rw [update_of_ne hy, h.onPushable]
        simp [hy]
  rw [enqueuePushableDlTask, if_neg (by simp [hoff])]
  dsimp only
  rw [hrun]
  refine ⟨_, _, rfl, ⟨h.root, h.onRq, hr, honPushable, h.nrRunning, h.sorted, h.nonzero, h.curr,
    fun hlist t ht => ?_, h.cpudl, h.cpu, h.entry, h.close⟩⟩
  have hleft := hr.leftmost
  dsimp only
  rcases pre with _ | ⟨y, pre⟩
  · -- The task is the first one.
    obtain rfl : p = t := by simpa using ht
    have hanswer : answer = p := by
      rcases rbAddCached_answer hrun with ⟨ha, -⟩ | ⟨-, hl⟩
      · exact ha
      rw [hl, h.pushable.leftmost] at hleft
      cases post with
      | nil => exact absurd hleft.symm hne
      | cons z post =>
        have hz : z = p := hleft
        exact absurd (hz ▸ mem_cons_self) hout
    rw [hanswer, if_neg hne]
  · -- Another one stays the first.
    obtain rfl : y = t := by simpa using ht
    have hanswer : answer = 0 := by
      rcases rbAddCached_answer hrun with ⟨-, hl⟩ | ⟨ha, -⟩
      · have hy : p = y := hl.symm.trans hleft
        exact absurd (hy ▸ mem_cons_self) hout
      · exact ha
    rw [hanswer, if_pos rfl]
    exact h.next hlist y rfl

/-- A task is taken out, and the next one is cached. -/
theorem dequeuePushable (p : RbPtr) :
    ∃ q' tasks', dequeuePushableDlTask q p = some q' ∧ q'.Keeps possible list tasks' m := by
  by_cases hon : q.onPushable p = true
  swap
  · exact ⟨q, tasks, if_neg hon, h⟩
  have hp := (h.onPushable p).mp hon
  obtain ⟨r, answer, hrun, hr⟩ := rbEraseCached_represents h.pushable hp
  have honPushable : ∀ y, update q.onPushable p false y = true ↔ y ∈ tasks.erase p := fun y => by
      rw [h.pushable.nodup.mem_erase_iff]
      by_cases hy : y = p
      · simp [hy]
      · rw [update_of_ne hy, h.onPushable]
        simp [hy]
  rw [dequeuePushableDlTask, if_pos hon]
  by_cases hfirst : q.pushable.leftmost = p
  · rw [if_pos hfirst, rbEraseCached_leftmost hfirst hrun, map_some, bind_some, hrun]
    refine ⟨_, _, rfl, ⟨h.root, h.onRq, hr, honPushable, h.nrRunning, h.sorted, h.nonzero, h.curr,
      fun hlist t ht => ?_, h.cpudl, h.cpu, h.entry, h.close⟩⟩
    have hleft : r.leftmost = t := by
      rw [hr.leftmost, mem_def.mp ht]
      rfl
    rw [hleft, if_neg (hr.ne_zero (mem_of_mem_head? ht))]
  rw [if_neg hfirst, bind_some, hrun]
  refine ⟨_, _, rfl, ⟨h.root, h.onRq, hr, honPushable, h.nrRunning, h.sorted, h.nonzero, h.curr,
    fun hlist t ht => h.next hlist t ?_, h.cpudl, h.cpu, h.entry, h.close⟩⟩
  rw [h.pushable.leftmost] at hfirst
  cases tasks with
  | nil => cases hp
  | cons y tasks =>
    have hne : y ≠ p := hfirst
    rwa [erase_cons_tail (by simpa using hne)] at ht

/-- The other CPUs leave the entry of this one. -/
theorem remote {o : CpudlOp}
    (hissued : (DlCall.remote o).Issued possible q) :
    ∃ cp m', o.run q.cpudl = some cp ∧ { q with cpudl := cp }.Keeps possible list tasks m' := by
  obtain ⟨hcpu, hother, hset⟩ := hissued
  cases o with
  | set c d =>
    have hd := hset c d rfl
    obtain ⟨cp, hrun, hcp, hentries⟩ := h.cpudlSet hcpu hd
    refine ⟨cp, _, hrun, ⟨h.root, h.onRq, h.pushable, h.onPushable, h.nrRunning, h.sorted,
      h.nonzero, h.curr, h.next, hcp, h.cpu, ?_, ?_⟩⟩
    · rw [update_of_ne hother.symm]
      exact h.entry
    · refine h.close_of_live hd fun a ha => ?_
      rcases ha with ha | ⟨i, hi, rfl⟩
      exacts [.inr (.inl ha), hentries i hi]
  | clear c =>
    obtain ⟨cp, hrun, hcp, hentries⟩ := h.cpudlClear hcpu
    have hlive : ∀ a, { q with cpudl := cp }.Live a → q.Live a := fun a ha => by
      rcases ha with ha | ⟨i, hi, rfl⟩
      exacts [.inl ha, hentries i hi]
    refine ⟨cp, _, hrun, ⟨h.root, h.onRq, h.pushable, h.onPushable, h.nrRunning, h.sorted,
      h.nonzero, h.curr, h.next, hcp, h.cpu, ?_, fun a b ha hb => h.close a b (hlive a ha)
        (hlive b hb)⟩⟩
    rw [update_of_ne hother.symm]
    exact h.entry
  | setFreecpu c =>
    exact ⟨_, m, rfl, ⟨h.root, h.onRq, h.pushable, h.onPushable, h.nrRunning, h.sorted, h.nonzero,
      h.curr, h.next, ⟨h.cpudl.indexed, h.cpudl.isHeap, h.cpudl.size_le⟩, h.cpu, h.entry, h.close⟩⟩
  | clearFreecpu c =>
    exact ⟨_, m, rfl, ⟨h.root, h.onRq, h.pushable, h.onPushable, h.nrRunning, h.sorted, h.nonzero,
      h.curr, h.next, ⟨h.cpudl.indexed, h.cpudl.isHeap, h.cpudl.size_le⟩, h.cpu, h.entry, h.close⟩⟩

end

end DlRq.Keeps

/-! ## Runs -/

/-- A run queue as it is initialised. -/
structure DlRq.Fresh (possible : BitVec nr) (q : DlRq nr) : Prop where
  root : q.root.Represents []
  pushable : q.pushable.Represents []
  onRq : ∀ x, q.onRq x = false
  onPushable : ∀ x, q.onPushable x = false
  nrRunning : q.nrRunning = 0
  curr : q.curr = 0
  cpu : possible.getLsbD q.cpu = true
  cpudl : q.cpudl = cpudlInit nr possible

variable {possible : BitVec nr}

variable {q : DlRq nr}

theorem DlRq.Fresh.keeps (h : q.Fresh possible) :
    q.Keeps possible [] [] fun _ => none where
  root := h.root
  onRq x := by simp [h.onRq x]
  pushable := h.pushable
  onPushable x := by simp [h.onPushable x]
  nrRunning := h.nrRunning
  sorted := .nil
  nonzero x hx := absurd hx not_mem_nil
  curr := h.curr
  next hne := absurd rfl hne
  cpudl := h.cpudl ▸ cpudlInit_holds possible
  cpu := h.cpu
  entry := rfl
  close a b ha hb := by
    rcases ha with ⟨x, hx, -⟩ | ⟨i, hi, -⟩
    · simp [h.onRq x] at hx
    · rw [h.cpudl] at hi
      exact absurd hi (Nat.not_lt_zero i)

theorem DlCall.run_keeps {o : DlCall}
    (h : ∃ list tasks m, q.Keeps possible list tasks m) (hissued : o.Issued possible q) :
    ∃ r, o.run q = some r ∧ ∃ list tasks m, r.1.Keeps possible list tasks m := by
  obtain ⟨list, tasks, m, h⟩ := h
  cases o with
  | enqueue x d =>
    obtain ⟨q', list', m', hrun, h'⟩ := h.enqueue hissued
    exact ⟨(q', ()), by rw [DlCall.run, hrun]; rfl, list', tasks, m', h'⟩
  | dequeue x =>
    obtain ⟨q', list', m', hrun, h'⟩ := h.dequeue x
    exact ⟨(q', ()), by rw [DlCall.run, hrun]; rfl, list', tasks, m', h'⟩
  | enqueuePushable p =>
    obtain ⟨q', tasks', hrun, h'⟩ := h.enqueuePushable hissued
    exact ⟨(q', ()), by rw [DlCall.run, hrun]; rfl, list, tasks', m, h'⟩
  | dequeuePushable p =>
    obtain ⟨q', tasks', hrun, h'⟩ := h.dequeuePushable p
    exact ⟨(q', ()), by rw [DlCall.run, hrun]; rfl, list, tasks', m, h'⟩
  | remote o =>
    obtain ⟨cp, m', hrun, h'⟩ := h.remote hissued
    exact ⟨({ q with cpudl := cp }, ()), by rw [DlCall.run, hrun]; rfl, list, tasks, m', h'⟩

/-- The entry of a CPU in the heap, or `none`. -/
def Cpudl.Entry (cp : Cpudl nr) (cpu : ℕ) : Option (BitVec 64) → Prop
  | none => (cp.elements cpu).idx = idxInvalid
  | some d => ∃ i < cp.size, (cp.elements cpu).idx = i ∧ (cp.elements i).cpu = cpu ∧
      (cp.elements i).dl = d

theorem Cpudl.Holds.entry {V : ℕ → Prop} {cp : Cpudl nr} {m : ℕ → Option (BitVec 64)}
    (h : cp.Holds V m) {cpu : ℕ} (hcpu : V cpu) : cp.Entry cpu (m cpu) := by
  cases hm : m cpu with
  | none => exact h.indexed.absent cpu hcpu hm
  | some d =>
    obtain ⟨i, hi, hpos, hcell⟩ := h.indexed.position hm
    exact ⟨i, hi, hpos, congrArg Prod.fst hcell, congrArg Prod.snd hcell⟩

/-- In every state of every run the trees are in order and the caches are right. -/
theorem dlRun_caches (hq : q.Fresh possible)
    (ops : List DlCall) (h : CallsMeet DlCall.run (fun q o => o.Issued possible q) q ops) :
    ∃ r list tasks, runCalls DlCall.run q ops = some r ∧
      r.1.root.Represents list ∧ r.1.pushable.Represents tasks ∧
      (list.Pairwise fun a b => (r.1.deadline a).toNat ≤ (r.1.deadline b).toNat) ∧
      r.1.nrRunning = list.length ∧
      r.1.curr = (list.head?.map r.1.deadline).getD 0 ∧
      (list ≠ [] → ∀ p ∈ tasks.head?, r.1.next = r.1.deadline p) ∧
      r.1.cpudl.Entry r.1.cpu (if list = [] then none else some r.1.curr) := by
  obtain ⟨r, hrun, list, tasks, m, hkeeps⟩ := runCalls_invariant
    (fun q : DlRq nr => ∃ list tasks m, q.Keeps possible list tasks m) _
    (fun q o hk ho => DlCall.run_keeps hk ho) ⟨[], [], _, hq.keeps⟩ h
  refine ⟨r, list, tasks, hrun, hkeeps.root, hkeeps.pushable, hkeeps.sorted, hkeeps.nrRunning,
    hkeeps.curr, hkeeps.next, ?_⟩
  have hentry := hkeeps.cpudl.entry hkeeps.cpu
  rw [hkeeps.entry] at hentry
  cases list with
  | nil => exact hentry
  | cons x list =>
    rw [hkeeps.curr]
    exact hentry

/-- A run queue of CPU 0 of two, with nothing on it. -/
def idleDlRq : DlRq 2 where
  deadline _ := 0
  special _ := false
  root := ⟨⟨fun _ => 0, fun _ => 0, fun _ => (), []⟩, 0⟩
  onRq _ := false
  pushable := ⟨⟨fun _ => 0, fun _ => 0, fun _ => (), []⟩, 0⟩
  onPushable _ := false
  nrRunning := 0
  curr := 0
  next := 0
  cpu := 0
  cpudl := cpudlInit 2 3#2

theorem idleDlRq_fresh : idleDlRq.Fresh 3#2 := by
  have hempty : (⟨⟨fun _ => 0, fun _ => 0, fun _ => (), []⟩, 0⟩ : RbCached Unit).Represents [] := by
    have hholds : (⟨fun _ => 0, fun _ => 0, fun _ => (), []⟩ : RbMem Unit).Holds .nil :=
      ⟨⟨rfl, trivial⟩, trivial, ColorTree.distinct_nil⟩
    exact ⟨⟨.nil, ⟨hholds, fun _ _ => trivial, by simp [Traced], trivial⟩,
      ColorTree.redBlack_iff.mpr ⟨0, .nil⟩, rfl⟩, rfl⟩
  exact ⟨hempty, hempty, fun _ => rfl, fun _ => rfl, rfl, rfl, by decide, rfl⟩

/-- While the task of one entity may be pushed, one with an earlier deadline comes and goes. -/
theorem dlRun_caches_pair :
    ∃ r list tasks, runCalls DlCall.run idleDlRq
        [.enqueue 8 20, .enqueuePushable 8, .enqueue 16 10, .dequeue 16] = some r ∧
      r.1.root.Represents list ∧ r.1.pushable.Represents tasks ∧
      (list.Pairwise fun a b => (r.1.deadline a).toNat ≤ (r.1.deadline b).toNat) ∧
      r.1.nrRunning = list.length ∧
      r.1.curr = (list.head?.map r.1.deadline).getD 0 ∧
      (list ≠ [] → ∀ p ∈ tasks.head?, r.1.next = r.1.deadline p) ∧
      r.1.cpudl.Entry r.1.cpu (if list = [] then none else some r.1.curr) := by
  have hflags : (runCalls DlCall.run idleDlRq [.enqueue 8 20, .enqueuePushable 8]).map
      (fun r => (r.1.onRq, r.1.onPushable)) =
        some (update (fun _ => false) 8 true, update (fun _ => false) 8 true) := by
    rfl
  have hheap : ∀ r ∈ runCalls DlCall.run idleDlRq [.enqueue 8 20, .enqueuePushable 8],
      r.1.deadline 8 = 20 ∧ r.1.cpudl.size = 1 ∧ (r.1.cpudl.elements 0).dl = 20 := by
    decide +kernel
  refine dlRun_caches idleDlRq_fresh _ ⟨⟨by decide, by decide, rfl, by decide, fun a ha => ?_,
    nofun⟩, fun r₁ h₁ => ⟨⟨by decide, by decide, ?_⟩, fun r₂ h₂ => ⟨?_, fun _ _ =>
      ⟨trivial, fun _ _ => trivial⟩⟩⟩⟩
  · rcases ha with ⟨x, hx, -⟩ | ⟨i, hi, -⟩
    · cases hx
    · exact absurd hi (Nat.not_lt_zero i)
  · have hoff : ((DlCall.enqueue 8 20).run idleDlRq).map (·.1.onPushable 8) = some false := by
      decide +kernel
    rw [h₁] at hoff
    exact some.inj hoff
  · rw [runCalls_cons h₁, runCalls_cons h₂] at hflags hheap
    obtain ⟨hon, hpush⟩ := Prod.mk.inj (some.inj hflags)
    obtain ⟨hdeadline, hsize, hdl⟩ := hheap _ rfl
    refine ⟨by decide, by decide, by rw [hon]; rfl, by decide, fun a ha => ?_, fun x hx => ?_⟩
    · have hlive : a = 20 := by
        rcases ha with ⟨x, hx, rfl⟩ | ⟨i, hi, rfl⟩
        · obtain rfl : x = 8 := by
            by_contra hne
            rw [hon, update_of_ne hne] at hx
            cases hx
          exact hdeadline
        · rw [hsize, Nat.lt_one_iff] at hi
          rw [hi]
          exact hdl
      rw [hlive]
      decide
    · rwa [hon, ← hpush]

/-- With the last entity, `earliest_dl.next` is set to 0 although a task is left, and it stays so
when there are entities again. -/
theorem earliestNext_lost :
    ((runCalls DlCall.run idleDlRq [.enqueue 8 10, .enqueuePushable 8, .dequeue 8]).map fun r =>
        (r.1.pushable.leftmost, r.1.deadline 8, r.1.next)) = some (8, 10, 0) ∧
      ((runCalls DlCall.run idleDlRq
        [.enqueue 8 10, .enqueuePushable 8, .dequeue 8, .enqueue 16 20]).map fun r =>
        (r.1.root.leftmost, r.1.pushable.leftmost, r.1.deadline 8, r.1.next)) =
          some (16, 8, 10, 0) := by
  decide +kernel

end

end LinuxKernelTest
