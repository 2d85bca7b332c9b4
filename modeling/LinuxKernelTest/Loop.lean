import Mathlib.Tactic

/-!
# Loops with a bound on their rounds

A loop of an imperative program is a function from the loop state to the outcome of
one round (`Round`) : go on with a new state, or leave the loop with a result.
`runLoop` takes a bound on the number of rounds and answers `none` when the bound is
used up before the loop leaves.

`runLoop_of_rank` is the rule for total correctness : an invariant that every round keeps at a rank
that every further round lowers, and a postcondition that holds when the loop leaves (`RoundKeeps`).
With a bound above the rank the loop leaves with a result that satisfies the postcondition.
-/

namespace LinuxKernelTest

/-- The outcome of one round of a loop with state `σ` and result `β`. -/
inductive Round (σ β : Type*)
  | again (s : σ)
  | done (b : β)

/-- An outcome, with the states and the results mapped. -/
def Round.map {σ β τ γ : Type*} (f : σ → τ) (g : β → γ) : Round σ β → Round τ γ
  | .again s => .again (f s)
  | .done b => .done (g b)

/-- Run rounds of `step` from `s` until one is `done`, at most `n` of them. -/
def runLoop {σ β : Type*} (step : σ → Round σ β) : ℕ → σ → Option β
  | 0, _ => none
  | n + 1, s =>
    match step s with
    | .again s' => runLoop step n s'
    | .done b => some b

section Rules

variable {σ β : Type*} {step : σ → Round σ β} {s : σ} {b : β}

theorem runLoop_again {s s' : σ} (h : step s = .again s') (n : ℕ) :
    runLoop step (n + 1) s = runLoop step n s' := by
  simp [runLoop, h]

theorem runLoop_done (h : step s = .done b) (n : ℕ) :
    runLoop step (n + 1) s = some b := by
  simp [runLoop, h]

theorem runLoop_of_done (h : step s = .done b) {n : ℕ} (hn : 0 < n) :
    runLoop step n s = some b := by
  obtain ⟨n, rfl⟩ : ∃ m, n = m + 1 := ⟨n - 1, by omega⟩
  exact runLoop_done h n

/-- What a round may come to : the invariant `I` at a rank below `v`, or the postcondition `Q`. -/
def Round.Keeps (I : ℕ → σ → Prop) (Q : β → Prop) (v : ℕ) (r : Round σ β) : Prop :=
  (∃ s v', r = .again s ∧ v' < v ∧ I v' s) ∨ ∃ b, r = .done b ∧ Q b

/-- Every round from a state with the invariant goes on with it at a smaller rank, or leaves with
the postcondition. -/
def RoundKeeps (step : σ → Round σ β) (I : ℕ → σ → Prop) (Q : β → Prop) : Prop :=
  ∀ v s, I v s → (step s).Keeps I Q v

/-- Total correctness of a loop, by induction on the number of rounds left. -/
theorem runLoop_of_rank {I : ℕ → σ → Prop} {Q : β → Prop} (h : RoundKeeps step I Q) :
    ∀ {n v : ℕ} {s : σ}, I v s → v < n → ∃ b, runLoop step n s = some b ∧ Q b
  | 0, _, _, _, hn => absurd hn (Nat.not_lt_zero _)
  | n + 1, v, s, hs, hn => by
    rcases h v s hs with ⟨s', v', hstep, hv, hs'⟩ | ⟨b, hstep, hQ⟩
    · obtain ⟨b, hb, hQ⟩ := runLoop_of_rank h hs' (show v' < n by omega)
      exact ⟨b, by rw [runLoop_again hstep, hb], hQ⟩
    · exact ⟨b, runLoop_done hstep n, hQ⟩

/-- A loop over a part of the state of another one runs in step with it. -/
theorem runLoop_map {τ γ : Type*} {step' : τ → Round τ γ} (f : σ → τ) (g : β → γ)
    (h : ∀ s, step' (f s) = (step s).map f g) :
    ∀ (n : ℕ) (s : σ), runLoop step' n (f s) = (runLoop step n s).map g
  | 0, _ => rfl
  | n + 1, s => by
    cases hstep : step s with
    | again s' =>
      have h' : step' (f s) = .again (f s') := by rw [h, hstep]; rfl
      rw [runLoop_again hstep, runLoop_again h', runLoop_map f g h n s']
    | done b =>
      have h' : step' (f s) = .done (g b) := by rw [h, hstep]; rfl
      rw [runLoop_done hstep, runLoop_done h', Option.map_some]

end Rules

end LinuxKernelTest
