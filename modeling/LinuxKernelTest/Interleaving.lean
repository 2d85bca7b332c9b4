import Mathlib.Tactic

/-!
# Interleaved threads, and amounts they owe

A program that shares a memory `σ` with others is a `Thread σ α` : it is finished with a result, or
its next access updates the memory and goes on with what it has read. Threads are a monad, so that
the model of a function is written access by access in its own order; `Thread.exec` runs it without
interruption, and `Crew.run` runs the threads of several workers in any order of their accesses. An
update by a load and a store is two accesses (`Thread.modify`), and what another worker writes
between them is lost.

Let `q` be an amount recorded in the memory. A thread that takes something out of one place and
puts it in another later leaves `q` short in between. `Owes q post t s d` says that the thread `t`
owes `d` in the memory `s` : whatever the others do to the memory, its accesses put back `d`, up to
`post a` when it ends with `a`; only between a load and its store the memory must stay `s`. If every
job ends owing nothing and no update is disturbed (`Crew.Undisturbed`), `q` plus what the workers
owe never changes (`Crew.run_owes`), and `q` itself is back whenever nobody is at work.
-/

namespace LinuxKernelTest

open Finset

/-- A program over a shared memory `σ`, as its next access and the rest. The access may be the store
that belongs to a load just before it. -/
inductive Thread (σ α : Type)
  | ret (a : α)
  | act (stores : Bool) (next : σ → σ) (rest : σ → Thread σ α)

namespace Thread

variable {σ α β : Type}

/-- One thread, and then another one. -/
protected def bind : Thread σ α → (α → Thread σ β) → Thread σ β
  | ret a, k => k a
  | act stores next rest, k => act stores next fun s => (rest s).bind k

instance : Monad (Thread σ) where
  pure := ret
  bind := Thread.bind

/-- One access that reads. -/
def read (f : σ → α) : Thread σ α := act false id fun s => ret (f s)

/-- One access that updates. -/
def update (f : σ → σ) : Thread σ Unit := act false f fun _ => ret ()

/-- One access that reads and updates. -/
def exchange (f : σ → α) (g : σ → σ) : Thread σ α := act false g fun s => ret (f s)

/-- A load, and a store of what is made of the value. -/
def modify (f : σ → α) (g : α → σ → σ) : Thread σ α :=
  act false id fun s => act true (g (f s)) fun _ => ret (f s)

/-- Run to the end without interruption. -/
def exec : Thread σ α → σ → σ × α
  | ret a, s => (s, a)
  | act _ next rest, s => (rest s).exec (next s)

/-- The thread has finished. -/
def idle : Thread σ α → Bool
  | ret _ => true
  | act _ _ _ => false

/-- The thread is between a load and its store. -/
def pending : Thread σ α → Bool
  | ret _ => false
  | act stores _ _ => stores

/-- The next access of a thread, if it has one. -/
def advance : Thread σ α → σ → σ × Thread σ α
  | ret a, s => (s, ret a)
  | act _ next rest, s => (next s, rest s)

end Thread

/-! ## What a thread owes -/

section Owes

variable {σ α β A : Type} [AddCommGroup A] {q : σ → A} {post : α → A}

/-- The accesses of the thread put `d` back into `q`, less `post a` when it ends with `a`, whatever
the memory is at each of them; a store comes to the memory that its load has left. -/
def Owes (q : σ → A) (post : α → A) : Thread σ α → σ → A → Prop
  | .ret a, _, d => d = post a
  | .act stores next rest, s₀, d => ∀ s, (stores = true → s = s₀) →
    Owes q post (rest s) (next s) (q s + d - q (next s))

theorem Owes.bind {post' : β → A} {k : α → Thread σ β}
    (hk : ∀ a s, Owes q post' (k a) s (post a)) : ∀ {t : Thread σ α} {s : σ} {d : A},
      Owes q post t s d → Owes q post' (t >>= k) s d
  | .ret a, s, d, h => by
    have hd : d = post a := h
    rw [hd]
    exact hk a s
  | .act _ next rest, _, _, h => fun s hs => Owes.bind hk (h s hs)

variable {d : A} {t : Thread σ α} {g : σ → σ}

theorem owes_pure {a : α} {s : σ} (h : d = post a) : Owes q post (pure a : Thread σ α) s d := h

/-- An access that takes what it reads. -/
theorem owes_exchange {f : σ → α} (h : ∀ s, q (g s) + post (f s) = q s + d) (s : σ) :
    Owes q post (Thread.exchange f g) s d := by
  intro s _
  change q s + d - q (g s) = post (f s)
  rw [← h s]
  abel

/-- An access that leaves `q` alone. -/
theorem owes_read (f : σ → α) (d : A) (s : σ) : Owes q (fun _ => d) (Thread.read f) s d :=
  owes_exchange (f := f) (g := id) (fun _ => rfl) s

/-- A load and a store that take what they read. -/
theorem owes_modify {f : σ → α} {g : α → σ → σ}
    (h : ∀ s, q (g (f s) s) + post (f s) = q s + d) (s : σ) :
    Owes q post (Thread.modify f g) s d := by
  intro s _ s' hs'
  obtain rfl : s' = s := hs' rfl
  change q s' + (q s' + d - q s') - q (g (f s') s') = post (f s')
  rw [← h s']
  abel

/-- A load and a store that pay `d`. -/
theorem owes_pay {f : σ → α} {g : α → σ → σ} (h : ∀ s, q (g (f s) s) = q s + d) (s : σ) :
    Owes q (fun _ => 0) (Thread.modify f g) s d :=
  owes_modify (fun s => by rw [h s, add_zero]) s

/-- Outside of an update the others may change the memory. -/
theorem Owes.of_not_pending {s s' : σ} (h : Owes q post t s d) (ht : t.pending = false) :
    Owes q post t s' d := by
  cases t with
  | ret a => exact h
  | act stores next rest => exact fun s hs => h s fun hc => absurd (hc.symm.trans ht) (by decide)

theorem Owes.advance {s : σ} (h : Owes q post t s d) :
    ∃ e, Owes q post (t.advance s).2 (t.advance s).1 e ∧ q (t.advance s).1 + e = q s + d := by
  cases t with
  | ret a => exact ⟨d, h, rfl⟩
  | act _ next rest => exact ⟨_, h s fun _ => rfl, by simp only [Thread.advance]; abel⟩

theorem Owes.eq_zero_of_idle {s : σ} (h : Owes q (fun _ => 0) t s d)
    (hidle : t.idle = true) : d = 0 := by
  cases t with
  | ret a => exact h
  | act _ next rest => exact absurd hidle (by simp [Thread.idle])

theorem Owes.exec : ∀ {t : Thread σ α} {s : σ} {d : A}, Owes q post t s d →
    q (t.exec s).1 + post (t.exec s).2 = q s + d
  | .ret a, s, d, h => by
    have hd : d = post a := h
    rw [hd, Thread.exec]
  | .act _ next rest, s, d, h => by
    rw [Thread.exec, Owes.exec (h s fun _ => rfl)]
    abel

end Owes

/-! ## Workers -/

/-- The shared memory, and what each worker is at. -/
structure Crew (ι σ : Type) where
  mem : σ
  thread : ι → Thread σ Unit

/-- A step of an interleaving : a worker that has finished takes a job, or a worker makes its next
access. -/
inductive CrewEvent (ι ω : Type)
  | take (i : ι) (job : ω)
  | access (i : ι)
deriving DecidableEq, Repr

namespace Crew

variable {ι σ ω A : Type} [DecidableEq ι]

/-- Nobody is at work. -/
def start (s : σ) : Crew ι σ := ⟨s, fun _ => .ret ()⟩

/-- Every worker has finished. -/
def Idle (c : Crew ι σ) : Prop := ∀ i, (c.thread i).idle = true

/-- A step, where `code i job` is what the worker `i` runs for a job. -/
def step (code : ι → ω → Thread σ Unit) (c : Crew ι σ) : CrewEvent ι ω → Crew ι σ
  | .take i job =>
    if (c.thread i).idle then { c with thread := Function.update c.thread i (code i job) } else c
  | .access i =>
    let r := (c.thread i).advance c.mem
    ⟨r.1, Function.update c.thread i r.2⟩

/-- An interleaving. -/
def run (code : ι → ω → Thread σ Unit) (c : Crew ι σ) (evs : List (CrewEvent ι ω)) : Crew ι σ :=
  evs.foldl (step code) c

/-- Nobody else makes an access between the load and the store of an update. -/
def Undisturbed (code : ι → ω → Thread σ Unit) : Crew ι σ → List (CrewEvent ι ω) → Prop
  | _, [] => True
  | c, e :: evs => (∀ i, e = .access i → ∀ j, j ≠ i → (c.thread j).pending = false) ∧
    Undisturbed code (c.step code e) evs

variable [Fintype ι] [AddCommGroup A]

/-- What the workers owe makes up for the difference of `q` from `total`. -/
def Balance (q : σ → A) (total : A) (owed : ι → A) (c : Crew ι σ) : Prop :=
  (∀ i, Owes q (fun _ => 0) (c.thread i) c.mem (owed i)) ∧ q c.mem + ∑ i, owed i = total

variable {q : σ → A} {total : A} {code : ι → ω → Thread σ Unit} {s : σ}

omit [DecidableEq ι] in
theorem balance_start (h : q s = total) :
    Balance q total 0 (start s : Crew ι σ) :=
  ⟨fun _ => rfl, by simpa [start] using h⟩

variable {owed : ι → A} {c : Crew ι σ}

omit [DecidableEq ι] in
/-- Between jobs the amount is there. -/
theorem Balance.of_idle (h : c.Balance q total owed) (hidle : c.Idle) : q c.mem = total := by
  rw [← h.2, sum_eq_zero fun i _ => (h.1 i).eq_zero_of_idle (hidle i), add_zero]

/-- A worker that changes the memory and its debt together. -/
theorem Balance.update (h : c.Balance q total owed) {i : ι}
    {t : Thread σ Unit} {e : A} (ht : Owes q (fun _ => 0) t s e) (hs : q s + e = q c.mem + owed i)
    (hothers : ∀ j, j ≠ i → Owes q (fun _ => 0) (c.thread j) s (owed j)) :
    Balance q total (Function.update owed i e) ⟨s, Function.update c.thread i t⟩ := by
  refine ⟨fun j => ?_, ?_⟩
  · by_cases hj : j = i
    · subst hj
      simpa using ht
    · simpa [Function.update_of_ne hj] using hothers j hj
  · have hsum := add_sum_erase univ owed (mem_univ i)
    rw [sum_update_of_mem (mem_univ i), ← erase_eq, ← h.2, ← hsum, ← add_assoc, ← add_assoc, hs]

theorem Balance.step (hcode : ∀ i job s, Owes q (fun _ => 0) (code i job) s 0)
    (h : c.Balance q total owed) (e : CrewEvent ι ω)
    (he : ∀ i, e = .access i → ∀ j, j ≠ i → (c.thread j).pending = false) :
    ∃ owed', (c.step code e).Balance q total owed' := by
  cases e with
  | take i job =>
    by_cases hi : (c.thread i).idle = true
    · have howed : owed i = 0 := (h.1 i).eq_zero_of_idle hi
      refine ⟨Function.update owed i 0, ?_⟩
      rw [Crew.step, if_pos hi]
      exact h.update (hcode i job c.mem) (by rw [howed]) fun j _ => h.1 j
    · exact ⟨owed, by rwa [Crew.step, if_neg hi]⟩
  | access i =>
    obtain ⟨d, hd, hq⟩ := (h.1 i).advance
    exact ⟨_, h.update hd hq fun j hj => (h.1 j).of_not_pending (he i rfl j hj)⟩

/-- In every state of an undisturbed interleaving the amount is there but for what the workers
owe. -/
theorem run_owes (hcode : ∀ i job s, Owes q (fun _ => 0) (code i job) s 0) :
    ∀ (evs : List (CrewEvent ι ω)) {c : Crew ι σ} {owed : ι → A}, c.Undisturbed code evs →
      c.Balance q total owed → ∃ owed', (c.run code evs).Balance q total owed'
  | [], _, owed, _, h => ⟨owed, h⟩
  | e :: evs, _, _, hevs, h => by
    obtain ⟨owed', h'⟩ := h.step hcode e hevs.1
    exact run_owes hcode evs hevs.2 h'

end Crew

end LinuxKernelTest
