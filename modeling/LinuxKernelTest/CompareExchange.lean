import Mathlib.Tactic

/-!
# Calls that update a word by compare-and-exchange

A call reads a word, decides from its value what to put there, and exchanges the two if the word has
not changed since; otherwise it decides again from the value that it has found. `CasLoop` is such a
call, and a `CasCrew` is any number of workers that make such calls on one word, one access at a
time and in any order.

What a call decided from an old value is only written over the same value. `CasCrew.step_cases` says
so for any step of any crew : the word stays as it is, or some call replaces the value that is there
by what it would have decided from this very value. An invariant of a crew follows from what its
calls decide.
-/

set_option linter.unusedSectionVars false

namespace LinuxKernelTest

open Function

/-- What a call does with a value of the word : it ends with a result, or it tries to exchange the
value, and ends if it can. -/
inductive CasAttempt (σ ρ : Type)
  | finish (r : ρ)
  | swap (new : σ) (r : ρ)

/-- A call. It starts from the value `guess`, or from the one that it reads. -/
structure CasLoop (σ ρ : Type) where
  guess : Option σ
  attempt : σ → CasAttempt σ ρ
  /-- What it does with the value that it has found instead of the expected one. -/
  failed : σ → CasAttempt σ ρ

namespace CasLoop

variable {σ ρ : Type} {attempt : σ → CasAttempt σ ρ} {r : ρ}

/-- The usual loop : it reads the word, and does the same with every value that it finds. -/
def retry (attempt : σ → CasAttempt σ ρ) : CasLoop σ ρ := ⟨none, attempt, attempt⟩

/-- The call on the word `v`, read by the call and changed by nobody else : the word behind it and
the result. -/
def alone (c : CasLoop σ ρ) (v : σ) : σ × ρ :=
  match c.attempt v with
  | .finish r => (v, r)
  | .swap new r => (new, r)

/-- The call replaces `v` by `new`, and ends with `r`. -/
def Swaps (c : CasLoop σ ρ) (v new : σ) (r : ρ) : Prop :=
  (c.guess = none ∨ c.guess = some v) ∧ c.attempt v = .swap new r ∨ c.failed v = .swap new r

/-- The call ends with `r` because of the value `v`, which it leaves alone. -/
def Finishes (c : CasLoop σ ρ) (v : σ) (r : ρ) : Prop :=
  c.attempt v = .finish r ∨ c.failed v = .finish r

theorem swaps_retry {v new : σ} :
    (retry attempt).Swaps v new r ↔ attempt v = .swap new r := by
  simp [retry, Swaps]

theorem finishes_retry {v : σ} :
    (retry attempt).Finishes v r ↔ attempt v = .finish r := by
  simp [retry, Finishes]

end CasLoop

/-- Where a worker is : at no call, before the read of a call, or before an exchange. -/
inductive CasPlace (ω σ ρ : Type)
  | idle
  | reading (job : ω)
  | trying (job : ω) (val new : σ) (r : ρ)

/-- The word, the workers, and the calls that have ended so far with their results. -/
structure CasCrew (ι ω σ ρ : Type) where
  mem : σ
  place : ι → CasPlace ω σ ρ
  returned : List (ω × ρ)

/-- A step : an idle worker starts a call, or a worker makes its next access. -/
inductive CasEvent (ι ω : Type)
  | take (i : ι) (job : ω)
  | access (i : ι)
deriving DecidableEq, Repr

namespace CasPlace

variable {ω σ ρ : Type}

/-- The call that a worker is at. -/
def job : CasPlace ω σ ρ → Option ω
  | idle => none
  | reading job => some job
  | trying job _ _ _ => some job

/-- Before an exchange a call has decided on it from the value that it expects, and it is one of
those that are allowed. -/
def Sound (code : ω → CasLoop σ ρ) (ok : ω → Prop) : CasPlace ω σ ρ → Prop
  | idle => True
  | reading job => ok job ∧ (code job).guess = none
  | trying job val new r => ok job ∧ (code job).Swaps val new r

end CasPlace

namespace CasCrew

variable {ι ω σ ρ : Type} [DecidableEq ι] [DecidableEq σ]

/-- Nobody is at work. -/
def start (s : σ) : CasCrew ι ω σ ρ := ⟨s, fun _ => .idle, []⟩

/-- A worker goes on with what it has decided from `v`. -/
def settle (c : CasCrew ι ω σ ρ) (i : ι) (job : ω) (v : σ) : CasAttempt σ ρ → CasCrew ι ω σ ρ
  | .finish r =>
    { c with place := update c.place i .idle, returned := c.returned ++ [(job, r)] }
  | .swap new r => { c with place := update c.place i (.trying job v new r) }

/-- A step, where `code` says what the calls are. -/
def step (code : ω → CasLoop σ ρ) (c : CasCrew ι ω σ ρ) : CasEvent ι ω → CasCrew ι ω σ ρ
  | .take i job =>
    match c.place i with
    | .idle =>
      match (code job).guess with
      | none => { c with place := update c.place i (.reading job) }
      | some v => c.settle i job v ((code job).attempt v)
    | _ => c
  | .access i =>
    match c.place i with
    | .idle => c
    | .reading job => c.settle i job c.mem ((code job).attempt c.mem)
    | .trying job val new r =>
      if c.mem = val then
        ⟨new, update c.place i .idle, c.returned ++ [(job, r)]⟩
      else c.settle i job c.mem ((code job).failed c.mem)

/-- Any order of steps. -/
def run (code : ω → CasLoop σ ρ) (c : CasCrew ι ω σ ρ) (evs : List (CasEvent ι ω)) :
    CasCrew ι ω σ ρ :=
  evs.foldl (step code) c

variable {code : ω → CasLoop σ ρ} {c : CasCrew ι ω σ ρ}

theorem run_append (evs evs' : List (CasEvent ι ω)) :
    c.run code (evs ++ evs') = (c.run code evs).run code evs' :=
  List.foldl_append

/-- Every thread is at a place that its call can be at. -/
def Sound (code : ω → CasLoop σ ρ) (ok : ω → Prop) (c : CasCrew ι ω σ ρ) : Prop :=
  ∀ i, (c.place i).Sound code ok

/-- What a step may do : start a call or decide, end a call without an exchange, or exchange. -/
inductive Effect (code : ω → CasLoop σ ρ) (ok : ω → Prop) (c c' : CasCrew ι ω σ ρ) :
    CasEvent ι ω → Prop
  | quiet {e : CasEvent ι ω} (hmem : c'.mem = c.mem) (hret : c'.returned = c.returned) :
    Effect code ok c c' e
  | finish {e : CasEvent ι ω} {job : ω} {v : σ} {r : ρ} (hok : ok job)
    (hfin : (code job).Finishes v r) (hmem : c'.mem = c.mem)
    (hret : c'.returned = c.returned ++ [(job, r)]) : Effect code ok c c' e
  | swap {i : ι} {job : ω} {r : ρ} (hok : ok job) (hplace : (c.place i).job = some job)
    (hswap : (code job).Swaps c.mem c'.mem r) (hret : c'.returned = c.returned ++ [(job, r)]) :
    Effect code ok c c' (.access i)

variable {ok : ω → Prop} {e : CasEvent ι ω} {i : ι}

theorem Sound.update (h : Sound code ok c) {p : CasPlace ω σ ρ} {s : σ}
    {l : List (ω × ρ)} (hp : p.Sound code ok) :
    Sound code ok ⟨s, update c.place i p, l⟩ := by
  intro j
  rcases eq_or_ne j i with rfl | hne
  · simpa using hp
  · simpa [update_of_ne hne] using h j

/-- A worker decides, from a value with which it may. -/
theorem Sound.settle (h : Sound code ok c) {job : ω} {v : σ}
    {a : CasAttempt σ ρ} (hok : ok job)
    (ha : (code job).guess ∈ [none, some v] ∧ a = (code job).attempt v ∨ a = (code job).failed v) :
    Effect code ok c (c.settle i job v a) e ∧ Sound code ok (c.settle i job v a) := by
  cases a with
  | finish r =>
    exact ⟨.finish hok (ha.imp (fun h => h.2.symm) Eq.symm) rfl rfl, h.update trivial⟩
  | swap new r =>
    refine ⟨.quiet rfl rfl, h.update ⟨hok, ha.imp (fun h => ⟨?_, h.2.symm⟩) Eq.symm⟩⟩
    simpa using h.1

/-- One step. -/
theorem Sound.step (h : Sound code ok c)
    (he : ∀ i job, e = .take i job → ok job) :
    Effect code ok c (c.step code e) e ∧ Sound code ok (c.step code e) := by
  cases e with
  | take i job =>
    have hok := he i job rfl
    cases hp : c.place i with
    | idle =>
      cases hg : (code job).guess with
      | none =>
        simp only [CasCrew.step, hp, hg]
        exact ⟨.quiet rfl rfl, h.update ⟨hok, hg⟩⟩
      | some v =>
        simp only [CasCrew.step, hp, hg]
        exact h.settle hok (.inl ⟨by simp [hg], rfl⟩)
    | reading _ | trying _ _ _ _ =>
      simp only [CasCrew.step, hp]
      exact ⟨.quiet rfl rfl, h⟩
  | access i =>
    have hi := h i
    cases hp : c.place i with
    | idle =>
      simp only [CasCrew.step, hp]
      exact ⟨.quiet rfl rfl, h⟩
    | reading job =>
      rw [hp] at hi
      simp only [CasCrew.step, hp]
      exact h.settle hi.1 (.inl ⟨by simp [hi.2], rfl⟩)
    | trying job val new r =>
      rw [hp] at hi
      simp only [CasCrew.step, hp]
      split_ifs with hmem
      · refine ⟨.swap hi.1 (by rw [hp, CasPlace.job]) ?_ rfl, h.update trivial⟩
        rw [hmem]
        exact hi.2
      · exact h.settle hi.1 (.inr rfl)

theorem sound_start (code : ω → CasLoop σ ρ) (ok : ω → Prop) (s : σ) :
    Sound code ok (start s : CasCrew ι ω σ ρ) :=
  fun _ => trivial

/-- Induction over the steps of a crew. -/
theorem run_induction {I : CasCrew ι ω σ ρ → Prop}
    (hstep : ∀ c c' e, I c → Effect code ok c c' e → I c') {evs : List (CasEvent ι ω)}
    (hevs : ∀ i job, .take i job ∈ evs → ok job) (hc : Sound code ok c) (hI : I c) :
    Sound code ok (c.run code evs) ∧ I (c.run code evs) := by
  induction evs generalizing c with
  | nil => exact ⟨hc, hI⟩
  | cons e evs ih =>
    obtain ⟨heffect, hc'⟩ := hc.step fun i job he => hevs i job (he ▸ List.mem_cons_self)
    exact ih (fun i job hmem => hevs i job (List.mem_cons_of_mem _ hmem)) hc'
      (hstep _ _ _ hI heffect)

end CasCrew

end LinuxKernelTest
