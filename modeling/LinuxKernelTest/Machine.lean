import Mathlib.Tactic

/-!
# Runs of a component, and refinement of an abstract one

A component answers calls : `step s o` is the state and the answer after the call `o` in the
state `s`, or `none` where the call goes wrong (a fault, a failed assertion, a loop that does
not end). `runCalls` makes a sequence of calls, one after the other.

An abstract component is a total function of the same kind (`runAbstract`). `runCalls_refines` says
that a relation which every single call keeps, answer included, is kept by every run : the component
then never goes wrong and answers as the abstract one does. The calls may have to meet a condition
in the abstract state they are made in (`SpecMeets`), or in the state of the component (`CallsMeet`,
`runCalls_refines_of_meets`).
-/

namespace LinuxKernelTest

open Option

section

variable {σ τ ω α : Type*}

/-- Make the calls `ops` from the state `s`, and list the answers. -/
def runCalls (step : σ → ω → Option (σ × α)) : σ → List ω → Option (σ × List α)
  | s, [] => some (s, [])
  | s, o :: ops =>
    (step s o).bind fun r => (runCalls step r.1 ops).map fun t => (t.1, r.2 :: t.2)

/-- The calls `ops` on an abstract component. -/
def runAbstract (step : τ → ω → τ × α) : τ → List ω → τ × List α
  | t, [] => (t, [])
  | t, o :: ops =>
    let r := runAbstract step (step t o).1 ops
    (r.1, (step t o).2 :: r.2)

/-- Every call of a run meets the condition `ok` in the state it is made in. -/
def CallsMeet (step : σ → ω → Option (σ × α)) (ok : σ → ω → Prop) : σ → List ω → Prop
  | _, [] => True
  | s, o :: ops => ok s o ∧ ∀ r, step s o = some r → CallsMeet step ok r.1 ops

/-- Every call of a run of an abstract component meets the condition `ok` in the state it is made
in. -/
def SpecMeets (spec : τ → ω → τ × α) (ok : τ → ω → Prop) : τ → List ω → Prop
  | _, [] => True
  | t, o :: ops => ok t o ∧ SpecMeets spec ok (spec t o).1 ops

variable {step : σ → ω → Option (σ × α)} {s s' : σ} {o : ω} {a : α}

theorem runCalls_cons (h : step s o = some (s', a)) (ops : List ω) :
    runCalls step s (o :: ops) = (runCalls step s' ops).map fun t => (t.1, a :: t.2) := by
  rw [runCalls, h, bind_some]

variable {ok : σ → ω → Prop} {ops' : List ω} {spec : τ → ω → τ × α}

/-- The calls of a run in two parts. -/
theorem callsMeet_append : ∀ {ops : List ω} {s : σ},
    CallsMeet step ok s (ops ++ ops') ↔ CallsMeet step ok s ops ∧
      ∀ r, runCalls step s ops = some r → CallsMeet step ok r.1 ops'
  | [], s => by
    refine ⟨fun h => ⟨trivial, fun r hr => ?_⟩, fun h => h.2 (s, []) rfl⟩
    rw [← some_inj.mp hr]
    exact h
  | o :: ops, s => by
    constructor
    · rintro ⟨ho, h⟩
      refine ⟨⟨ho, fun r hr => (callsMeet_append.mp (h r hr)).1⟩, fun r hr => ?_⟩
      obtain ⟨r1, hr1, hrest⟩ := bind_eq_some_iff.mp hr
      obtain ⟨r2, hr2, rfl⟩ := map_eq_some_iff.mp hrest
      exact (callsMeet_append.mp (h r1 hr1)).2 r2 hr2
    · rintro ⟨⟨ho, h⟩, h'⟩
      refine ⟨ho, fun r hr => callsMeet_append.mpr ⟨h r hr, fun r' hr' => ?_⟩⟩
      refine h' (r'.1, r.2 :: r'.2) ?_
      rw [runCalls, hr, bind_some, hr']
      rfl

/-- A run that goes on from where another has ended. -/
theorem runCalls_append {s2 s3 : σ} {ops : List ω} {answers answers' : List α}
    (hok : CallsMeet step ok s ops) (hrun : runCalls step s ops = some (s2, answers))
    (hok' : CallsMeet step ok s2 ops') (hrun' : runCalls step s2 ops' = some (s3, answers')) :
    CallsMeet step ok s (ops ++ ops') ∧
      runCalls step s (ops ++ ops') = some (s3, answers ++ answers') := by
  refine ⟨callsMeet_append.mpr ⟨hok, fun r hr => ?_⟩, ?_⟩
  · rw [← some_inj.mp (hrun.symm.trans hr)]
    exact hok'
  induction ops generalizing s answers with
  | nil =>
    obtain ⟨rfl, rfl⟩ := Prod.mk.inj (some_inj.mp hrun)
    exact hrun'
  | cons o ops ih =>
    obtain ⟨⟨s1, a⟩, hs1, hrest⟩ := bind_eq_some_iff.mp hrun
    obtain ⟨⟨t, bs⟩, ht, heq⟩ := map_eq_some_iff.mp hrest
    obtain ⟨rfl, rfl⟩ := Prod.mk.inj heq
    rw [List.cons_append, runCalls_cons hs1, ih (hok.2 _ hs1) ht]
    rfl

/-- A run of one call. -/
theorem runCalls_single (hok : ok s o)
    (h : step s o = some (s', a)) :
    CallsMeet step ok s [o] ∧ runCalls step s [o] = some (s', [a]) :=
  ⟨⟨hok, fun _ _ => trivial⟩, by rw [runCalls_cons h]; rfl⟩

/-- Refinement of single calls lifts to runs. -/
theorem runCalls_refines (R : σ → τ → Prop) (ok : τ → ω → Prop)
    (hstep : ∀ s t o, R s t → ok t o →
      ∃ s', step s o = some (s', (spec t o).2) ∧ R s' (spec t o).1) :
    ∀ {ops : List ω} {s : σ} {t : τ}, R s t → SpecMeets spec ok t ops →
      ∃ s', runCalls step s ops = some (s', (runAbstract spec t ops).2) ∧
        R s' (runAbstract spec t ops).1
  | [], s, t, h, _ => ⟨s, rfl, h⟩
  | o :: ops, s, t, h, hok => by
    obtain ⟨s1, hs1, h1⟩ := hstep s t o h hok.1
    obtain ⟨s', hrun, h'⟩ := runCalls_refines R ok hstep h1 hok.2
    exact ⟨s', by rw [runCalls_cons hs1, hrun]; rfl, h'⟩

/-- The same with a condition on the calls in the state of the component. -/
theorem runCalls_refines_of_meets (R : σ → τ → Prop) (ok : σ → ω → Prop)
    (hstep : ∀ s t o, R s t → ok s o →
      ∃ s', step s o = some (s', (spec t o).2) ∧ R s' (spec t o).1) :
    ∀ {ops : List ω} {s : σ} {t : τ}, R s t → CallsMeet step ok s ops →
      ∃ s', runCalls step s ops = some (s', (runAbstract spec t ops).2) ∧
        R s' (runAbstract spec t ops).1
  | [], s, t, h, _ => ⟨s, rfl, h⟩
  | o :: ops, s, t, h, hok => by
    obtain ⟨s1, hs1, h1⟩ := hstep s t o h hok.1
    obtain ⟨s', hrun, h'⟩ := runCalls_refines_of_meets R ok hstep h1 (hok.2 _ hs1)
    exact ⟨s', by rw [runCalls_cons hs1, hrun]; rfl, h'⟩

/-- A condition on the calls of an abstract component alone. -/
theorem specMeets_of_forall {ok : ω → Prop} :
    ∀ {ops : List ω} {t : τ}, (∀ o ∈ ops, ok o) → SpecMeets spec (fun _ o => ok o) t ops
  | [], _, _ => trivial
  | o :: _, _, h => ⟨h o List.mem_cons_self,
      specMeets_of_forall fun o' ho' => h o' (List.mem_cons_of_mem o ho')⟩

/-- A condition on the calls alone. -/
theorem callsMeet_of_forall {ok : ω → Prop} : ∀ {ops : List ω} {s : σ}, (∀ o ∈ ops, ok o) →
    CallsMeet step (fun _ o => ok o) s ops
  | [], _, _ => trivial
  | o :: _, _, h => ⟨h o List.mem_cons_self, fun _ _ =>
      callsMeet_of_forall fun o' ho' => h o' (List.mem_cons_of_mem o ho')⟩

/-- A condition on the calls may be replaced by one that is enough in the states of the run. -/
theorem CallsMeet.imp {ok ok' : σ → ω → Prop} (I : σ → Prop)
    (h : ∀ s o, I s → ok s o → ok' s o ∧ ∀ r, step s o = some r → I r.1) :
    ∀ {ops : List ω} {s : σ}, I s → CallsMeet step ok s ops → CallsMeet step ok' s ops
  | [], _, _, _ => trivial
  | o :: _, s, hs, hok => ⟨(h s o hs hok.1).1, fun r hr =>
      CallsMeet.imp I h ((h s o hs hok.1).2 r hr) (hok.2 r hr)⟩

/-- What every single call keeps, every run keeps, and it never goes wrong. -/
theorem runCalls_invariant (I : σ → Prop) (ok : σ → ω → Prop)
    (hstep : ∀ s o, I s → ok s o → ∃ r, step s o = some r ∧ I r.1) :
    ∀ {ops : List ω} {s : σ}, I s → CallsMeet step ok s ops →
      ∃ r, runCalls step s ops = some r ∧ I r.1
  | [], s, h, _ => ⟨(s, []), rfl, h⟩
  | o :: ops, s, h, hok => by
    obtain ⟨⟨s1, a⟩, hs1, h1⟩ := hstep s o h hok.1
    obtain ⟨r, hrun, h'⟩ := runCalls_invariant I ok hstep h1 (hok.2 _ hs1)
    exact ⟨(r.1, a :: r.2), by rw [runCalls_cons hs1, hrun]; rfl, h'⟩

/-- An amount `q` of which every single call takes out what it answers, by `w` : a run takes out
the sum of its answers. -/
theorem runCalls_conserves {A : Type*} [AddCommMonoid A] (I : σ → Prop) (ok : σ → ω → Prop)
    (q : σ → A) (w : α → A)
    (hstep : ∀ s o, I s → ok s o → ∃ r, step s o = some r ∧ I r.1 ∧ q r.1 + w r.2 = q s) :
    ∀ {ops : List ω} {s : σ}, I s → CallsMeet step ok s ops →
      ∃ r, runCalls step s ops = some r ∧ I r.1 ∧ q r.1 + (r.2.map w).sum = q s
  | [], s, h, _ => ⟨(s, []), rfl, h, add_zero _⟩
  | o :: ops, s, h, hok => by
    obtain ⟨⟨s1, a⟩, hs1, h1, hq1⟩ := hstep s o h hok.1
    obtain ⟨r, hrun, h', hq⟩ := runCalls_conserves I ok q w hstep h1 (hok.2 _ hs1)
    refine ⟨(r.1, a :: r.2), by rw [runCalls_cons hs1, hrun]; rfl, h', ?_⟩
    rw [List.map_cons, List.sum_cons, add_left_comm, hq, ← hq1, add_comm]

instance decidableCallsMeet {ok : σ → ω → Prop} [∀ s o, Decidable (ok s o)] :
    ∀ (s : σ) (ops : List ω), Decidable (CallsMeet step ok s ops)
  | _, [] => isTrue trivial
  | s, o :: ops =>
    match hr : step s o with
    | none => decidable_of_iff (ok s o)
        ⟨fun h => ⟨h, fun r h' => by rw [hr] at h'; cases h'⟩, fun h => h.1⟩
    | some r =>
      have : Decidable (CallsMeet step ok r.1 ops) := decidableCallsMeet r.1 ops
      decidable_of_iff (ok s o ∧ CallsMeet step ok r.1 ops)
        ⟨fun h => ⟨h.1, fun r' h' => by rw [hr] at h'; cases h'; exact h.2⟩,
          fun h => ⟨h.1, h.2 r hr⟩⟩

end

end LinuxKernelTest
