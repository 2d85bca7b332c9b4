import LinuxKernelTest.Interleaving
import Mathlib.Data.BitVec
import Mathlib.Data.Nat.Dist

/-!
# The load average

`kernel/sched/loadavg.c` counts the active tasks of all CPUs in `calc_load_tasks`. A CPU folds the
change of its own count since the last time (`calc_load_fold_active`) into `calc_load_tasks` at its
tick, or, when it stops its tick, into one of two buckets `calc_load_nohz` : the one that
`calc_global_load` will drain next, or, once the sampling window is open, the other one.

The functions are threads : every access to what CPUs share is a step of its own, so that they
interleave as on real CPUs. The `atomic_long_add` and `atomic_long_xchg` of the repository are a
plain load and a plain store (`asm-generic/atomic64.h`), so they are two steps; two CPUs that add at
once lose a delta (`load_lost`). A CPU's own `calc_load_active` is written by that CPU alone, hence
`calc_load_fold_active` compares and stores in one step. `HZ` is a parameter.

The ledger `accounted` is what the counters record less what the CPUs believe to have recorded; a
delta on its way is an amount that the thread owes (`calcLoadFoldActive_owes`), and every call ends
without a debt (`LoadCall.owes`).
-/

set_option linter.unusedSectionVars false

namespace LinuxKernelTest

open Owes Finset

/-- `struct rq`, as far as the load average reads it. -/
structure LoadRq where
  nrRunning : BitVec 32
  nrUninterruptible : BitVec 64
  calcLoadActive : BitVec 64
  calcLoadUpdate : BitVec 64
deriving DecidableEq, Repr

/-- The shared data, for the CPUs `ι`. -/
structure LoadState (ι : Type) where
  rq : ι → LoadRq
  calcLoadTasks : BitVec 64
  calcLoadNohz : Fin 2 → BitVec 64
  calcLoadIdx : BitVec 32
  calcLoadUpdate : BitVec 64
  avenrun : BitVec 64 × BitVec 64 × BitVec 64
  jiffies : BitVec 64

/-- `time_before`. -/
def timeBefore (a b : BitVec 64) : Bool := (a - b).toInt < 0

variable (hz : ℕ)

/-- `LOAD_FREQ`. -/
def loadFreq : BitVec 64 := BitVec.ofNat 64 (5 * hz + 1)

/-! ## The averages -/

/-- `FSHIFT`. -/
def fshift : ℕ := 11

/-- `FIXED_1`. -/
def fixed1 : BitVec 64 := 1 <<< fshift

/-- `EXP_1`. -/
def exp1 : BitVec 64 := 1884

/-- `EXP_5`. -/
def exp5 : BitVec 64 := 2014

/-- `EXP_15`. -/
def exp15 : BitVec 64 := 2037

/-- `calc_load`. -/
def calcLoad (load exp active : BitVec 64) : BitVec 64 :=
  let newload := load * exp + active * (fixed1 - exp)
  let newload := if load ≤ active then newload + (fixed1 - 1) else newload
  newload / fixed1

/-- Round and drop the fraction of a product. -/
def fixedRound (fracBits : ℕ) (x : BitVec 64) : BitVec 64 :=
  (x + 1 <<< (fracBits - 1)) >>> fracBits

/-- The loop of `fixed_power_int`. -/
def fixedPowerLoop (fracBits : ℕ) (result x : BitVec 64) (n : BitVec 32) : BitVec 64 :=
  let result := if n.getLsbD 0 then fixedRound fracBits (result * x) else result
  if n >>> 1 = 0 then result
  else fixedPowerLoop fracBits result (fixedRound fracBits (x * x)) (n >>> 1)
termination_by n.toNat
decreasing_by
  have h : ¬ n >>> 1 = 0 := by assumption
  have h' : (n >>> 1).toNat ≠ 0 := fun h0 => h (BitVec.eq_of_toNat_eq h0)
  rw [BitVec.toNat_ushiftRight, Nat.shiftRight_eq_div_pow] at h' ⊢
  omega

/-- `fixed_power_int`. -/
def fixedPowerInt (x : BitVec 64) (fracBits : ℕ) (n : BitVec 32) : BitVec 64 :=
  if n ≠ 0 then fixedPowerLoop fracBits (1 <<< fracBits) x n else 1 <<< fracBits

/-- `calc_load_n`. -/
def calcLoadN (load exp active : BitVec 64) (n : BitVec 32) : BitVec 64 :=
  calcLoad load (fixedPowerInt exp fshift n) active

/-- `active * FIXED_1`, and 0 for a negative count. -/
def activeLoad (active : BitVec 64) : BitVec 64 := if 0 < active.toInt then active * fixed1 else 0

section Averages

open Function Nat BitVec

variable {load exp active : BitVec 64}

theorem toNat_fixed1 : fixed1.toNat = 2048 := by decide

/-- What `calc_load` divides, without wrapping. -/
def calcLoadSum (load exp active : ℕ) : ℕ :=
  load * exp + active * (2048 - exp) + if load ≤ active then 2047 else 0

/-- `calc_load` does not overflow. -/
def CalcLoadFits (load exp active : BitVec 64) : Prop :=
  calcLoadSum load.toNat exp.toNat active.toNat < 2 ^ 64

theorem toNat_calcLoad (hexp : exp ≤ fixed1) (h : CalcLoadFits load exp active) :
    (calcLoad load exp active).toNat = calcLoadSum load.toNat exp.toNat active.toNat / 2048 := by
  have hsub : (fixed1 - exp).toNat = 2048 - exp.toNat := toNat_sub_of_le hexp
  have hone : (fixed1 - 1).toNat = 2047 := by decide
  have hle : load ≤ active ↔ load.toNat ≤ active.toNat := BitVec.le_def
  rw [CalcLoadFits, calcLoadSum] at h
  rw [calcLoad, toNat_udiv, toNat_fixed1, calcLoadSum]
  refine congrArg (· / 2048) ?_
  simp only [hle]
  split_ifs at h ⊢ <;>
  · simp only [toNat_add, toNat_mul, hsub, hone, add_mod_mod, mod_add_mod]
    exact mod_eq_of_lt h

/-- The average comes nearer to the input by the factor `exp / FIXED_1`, on its side of it. -/
theorem calcLoadSum_div {l e a : ℕ} (he : e ≤ 2048) :
    calcLoadSum l e a / 2048 = a + (l - a) * e / 2048 - (a - l) * e / 2048 := by
  have hsplit : l * e + a * (2048 - e) + (a - l) * e = 2048 * a + (l - a) * e := calc
    _ = (l + (a - l)) * e + a * (2048 - e) := by ring
    _ = (a + (l - a)) * e + a * (2048 - e) := by rw [show l + (a - l) = a + (l - a) by omega]
    _ = (e + (2048 - e)) * a + (l - a) * e := by ring
    _ = _ := by rw [Nat.add_sub_cancel' he]
  rw [calcLoadSum]
  split_ifs with hle
  · rw [Nat.sub_eq_zero_of_le hle, Nat.zero_mul] at hsplit ⊢
    omega
  · rw [Nat.sub_eq_zero_of_le (Nat.le_of_not_le hle), Nat.zero_mul] at hsplit ⊢
    omega

theorem calcLoad_mem (hexp : exp ≤ fixed1) (h : CalcLoadFits load exp active) :
    (calcLoad load exp active).toNat ∈ Set.uIcc load.toNat active.toNat := by
  have he : exp.toNat ≤ 2048 := BitVec.le_def.mp hexp
  have hle : ∀ d, d * exp.toNat / 2048 ≤ d := fun d =>
    Nat.div_le_of_le_mul ((Nat.mul_le_mul_left d he).trans_eq (mul_comm d 2048))
  have habove := hle (load.toNat - active.toNat)
  have hbelow := hle (active.toNat - load.toNat)
  rw [toNat_calcLoad hexp h, calcLoadSum_div he, Set.mem_uIcc]
  omega

theorem fixedRound_le {x y : BitVec 64} (hx : x ≤ fixed1) (hy : y ≤ fixed1) :
    fixedRound fshift (x * y) ≤ fixed1 := by
  have hxy : x.toNat * y.toNat ≤ 2048 * 2048 :=
    Nat.mul_le_mul (BitVec.le_def.mp hx) (BitVec.le_def.mp hy)
  have hhalf : (1 <<< (fshift - 1) : BitVec 64).toNat = 1024 := by decide
  rw [BitVec.le_def, toNat_fixed1, fixedRound, toNat_ushiftRight, toNat_add, hhalf,
    toNat_mul, mod_eq_of_lt (by omega), mod_eq_of_lt (by omega),
    shiftRight_eq_div_pow]
  show _ / 2048 ≤ 2048
  omega

theorem fixedPowerLoop_le {result x : BitVec 64} {n : BitVec 32} (hresult : result ≤ fixed1)
    (hx : x ≤ fixed1) : fixedPowerLoop fshift result x n ≤ fixed1 := by
  have hround : ∀ {result x} {n : BitVec 32}, result ≤ fixed1 → x ≤ fixed1 →
      (if n.getLsbD 0 then fixedRound fshift (result * x) else result) ≤ fixed1 := by
    intro result x n hresult hx
    split_ifs
    exacts [fixedRound_le hresult hx, hresult]
  fun_induction fixedPowerLoop fshift result x n with
  | case1 => exact hround hresult hx
  | case2 result x n next hn ih => exact ih (hround hresult hx) (fixedRound_le hx hx)

theorem fixedPowerInt_le (hexp : exp ≤ fixed1) (n : BitVec 32) :
    fixedPowerInt exp fshift n ≤ fixed1 := by
  rw [fixedPowerInt]
  split_ifs
  exacts [fixedPowerLoop_le (by decide) hexp, by decide]

/-- Every step comes nearer to the input, unless it is reached. -/
theorem dist_iterate_calcLoad (hexp : exp < fixed1)
    (h : ∀ k, CalcLoadFits ((calcLoad · exp active)^[k] load) exp active) (k : ℕ) :
    Nat.dist ((calcLoad · exp active)^[k] load).toNat active.toNat ≤
      Nat.dist load.toNat active.toNat - k := by
  induction k with
  | zero => rfl
  | succ k ih =>
    have he : exp.toNat < 2048 := BitVec.lt_def.mp hexp
    have hlt : ∀ d, d * exp.toNat / 2048 ≤ d - 1 := fun d => by
      rcases d with _ | d
      · simp
      · have hmul : (d + 1) * exp.toNat < 2048 * (d + 1) := by nlinarith
        exact le_of_lt_succ (Nat.div_lt_of_lt_mul hmul)
    rw [iterate_succ_apply', toNat_calcLoad (BitVec.le_of_lt hexp) (h k), calcLoadSum_div he.le]
    have habove := hlt (((calcLoad · exp active)^[k] load).toNat - active.toNat)
    have hbelow := hlt (active.toNat - ((calcLoad · exp active)^[k] load).toNat)
    unfold Nat.dist at ih ⊢
    omega

/-- Without overflow the average lies between the old one and the input, for any number of periods
at once, and with a constant input it gets there. -/
theorem calcLoad_between (hexp : exp ≤ fixed1) :
    (CalcLoadFits load exp active →
      (calcLoad load exp active).toNat ∈ Set.uIcc load.toNat active.toNat) ∧
    (∀ n, CalcLoadFits load (fixedPowerInt exp fshift n) active →
      (calcLoadN load exp active n).toNat ∈ Set.uIcc load.toNat active.toNat) ∧
    (exp < fixed1 → (∀ k, CalcLoadFits ((calcLoad · exp active)^[k] load) exp active) →
      ∃ k, ∀ j ≥ k, (calcLoad · exp active)^[j] load = active) := by
  refine ⟨calcLoad_mem hexp, fun n => calcLoad_mem (fixedPowerInt_le hexp n), fun hlt hfits => ?_⟩
  refine ⟨Nat.dist load.toNat active.toNat, fun j hj => eq_of_toNat_eq ?_⟩
  have hdist := dist_iterate_calcLoad hlt hfits j
  rw [Nat.sub_eq_zero_of_le hj] at hdist
  exact eq_of_dist_eq_zero (Nat.le_zero.mp hdist)

/-- One active task, which is `FIXED_1`, after none : the average over three periods at once, and
the average that gets there period after period. -/
theorem calcLoad_between_one :
    (calcLoadN 0 exp1 fixed1 3).toNat ∈ Set.uIcc 0 2048 ∧
      ∃ k, ∀ j ≥ k, (calcLoad · exp1 fixed1)^[j] 0 = fixed1 := by
  have hfits : ∀ {load exp : BitVec 64}, load.toNat ≤ 2048 → exp.toNat ≤ 2048 →
      CalcLoadFits load exp fixed1 := fun {load exp} hl he => by
    have hload := Nat.mul_le_mul hl he
    rw [CalcLoadFits, calcLoadSum, toNat_fixed1]
    split_ifs
    all_goals omega
  obtain ⟨-, hpast, hreach⟩ := @calcLoad_between 0 exp1 fixed1 (by decide)
  have hpow := fixedPowerInt_le (show exp1 ≤ fixed1 by decide) 3
  refine ⟨hpast 3 (hfits (by decide) (BitVec.le_def.mp hpow)), hreach (by decide) fun k => ?_⟩
  refine hfits ?_ (by decide)
  induction k with
  | zero => decide
  | succ k ih =>
    rw [iterate_succ_apply']
    exact (Set.mem_uIcc.mp (calcLoad_mem (by decide) (hfits ih (by decide)))).elim
      (fun h => h.2) fun h => h.2.trans ih

end Averages

/-! ## The functions -/

section Functions

variable {ι : Type} [DecidableEq ι]

open Thread

/-- Replace the run queue of a CPU. -/
def LoadState.setRq (s : LoadState ι) (c : ι) (r : LoadRq) : LoadState ι :=
  { s with rq := Function.update s.rq c r }

variable (delta : BitVec 64)

/-- `atomic_long_add(delta, &calc_load_tasks)`. -/
def atomicAddTasks : Thread (LoadState ι) Unit := do
  let _ ← modify (·.calcLoadTasks) fun counter s => { s with calcLoadTasks := counter + delta }
  pure ()

/-- `if (delta) atomic_long_add(delta, &calc_load_tasks)`. -/
def addTasks : Thread (LoadState ι) Unit :=
  if delta ≠ 0 then atomicAddTasks delta else pure ()

/-- `atomic_long_add(delta, &calc_load_nohz[idx])`. -/
def atomicAddNohz (idx : Fin 2) : Thread (LoadState ι) Unit := do
  let _ ← modify (·.calcLoadNohz idx) fun counter s =>
    { s with calcLoadNohz := Function.update s.calcLoadNohz idx (counter + delta) }
  pure ()

/-- `calc_load_fold_active`. -/
def calcLoadFoldActive (c : ι) (adjust : BitVec 64) : Thread (LoadState ι) (BitVec 64) := do
  let nrRunning ← read fun s => (s.rq c).nrRunning
  let nrUninterruptible ← read fun s => (s.rq c).nrUninterruptible
  let nrActive := nrRunning.setWidth 64 - adjust + nrUninterruptible
  exchange
    (fun s =>
      if nrActive ≠ (s.rq c).calcLoadActive then nrActive - (s.rq c).calcLoadActive else 0)
    (fun s =>
      if nrActive ≠ (s.rq c).calcLoadActive then
        s.setRq c { s.rq c with calcLoadActive := nrActive }
      else s)

/-- `idx & 1`. -/
def bucketOf (idx : BitVec 32) : Fin 2 := if idx.getLsbD 0 then 1 else 0

/-- `calc_load_write_idx`. -/
def calcLoadWriteIdx : Thread (LoadState ι) (Fin 2) := do
  let idx ← read (·.calcLoadIdx)
  let now ← read (·.jiffies)
  let update ← read (·.calcLoadUpdate)
  pure (bucketOf (if !timeBefore now update then idx + 1 else idx))

/-- `calc_load_read_idx`. -/
def calcLoadReadIdx : Thread (LoadState ι) (Fin 2) := do
  let idx ← read (·.calcLoadIdx)
  pure (bucketOf idx)

/-- `calc_load_nohz_start`. -/
def calcLoadNohzStart (c : ι) : Thread (LoadState ι) Unit := do
  let delta ← calcLoadFoldActive c 0
  if delta ≠ 0 then
    let idx ← calcLoadWriteIdx
    atomicAddNohz delta idx
  else pure ()

/-- Set `this_rq->calc_load_update`. -/
def setRqUpdate (c : ι) (f : BitVec 64 → BitVec 64) : Thread (LoadState ι) Unit :=
  update fun s => s.setRq c { s.rq c with calcLoadUpdate := f (s.rq c).calcLoadUpdate }

/-- `calc_load_nohz_stop`. -/
def calcLoadNohzStop (c : ι) : Thread (LoadState ι) Unit := do
  let pending ← read (·.calcLoadUpdate)
  setRqUpdate c fun _ => pending
  let now ← read (·.jiffies)
  let rqUpdate ← read fun s => (s.rq c).calcLoadUpdate
  if timeBefore now rqUpdate then pure ()
  else
    let now ← read (·.jiffies)
    let rqUpdate ← read fun s => (s.rq c).calcLoadUpdate
    if timeBefore now (rqUpdate + 10) then setRqUpdate c (· + loadFreq hz) else pure ()

/-- `calc_load_nohz_fold`. -/
def calcLoadNohzFold : Thread (LoadState ι) (BitVec 64) := do
  let idx ← calcLoadReadIdx
  let pending ← read (·.calcLoadNohz idx)
  if pending ≠ 0 then
    modify (·.calcLoadNohz idx)
      fun _ s => { s with calcLoadNohz := Function.update s.calcLoadNohz idx 0 }
  else pure 0

/-- `WRITE_ONCE(calc_load_update, v)`. -/
def writeLoadUpdate (v : BitVec 64) : Thread (LoadState ι) Unit :=
  update fun s => { s with calcLoadUpdate := v }

/-- Step each of the three averages, with its own `EXP_n`. -/
def setAvenrun (f : BitVec 64 → BitVec 64 → BitVec 64) : Thread (LoadState ι) Unit :=
  update fun s =>
    let (a0, a1, a2) := s.avenrun
    { s with avenrun := (f a0 exp1, f a1 exp5, f a2 exp15) }

/-- The part of `calc_global_nohz` that catches up. -/
def catchUp : Thread (LoadState ι) Unit := do
  let sampleWindow ← read (·.calcLoadUpdate)
  let now ← read (·.jiffies)
  if !timeBefore now (sampleWindow + 10) then
    let now ← read (·.jiffies)
    let delta := now - sampleWindow - 10
    let n := 1 + delta.sdiv (loadFreq hz)
    let active ← read (·.calcLoadTasks)
    setAvenrun fun load exp => calcLoadN load exp (activeLoad active) (n.setWidth 32)
    writeLoadUpdate (sampleWindow + n * loadFreq hz)
  else pure ()

/-- `calc_global_nohz`. -/
def calcGlobalNohz : Thread (LoadState ι) Unit := do
  catchUp hz
  update fun s => { s with calcLoadIdx := s.calcLoadIdx + 1 }

/-- `calc_global_load`. -/
def calcGlobalLoad : Thread (LoadState ι) Unit := do
  let sampleWindow ← read (·.calcLoadUpdate)
  let now ← read (·.jiffies)
  if timeBefore now (sampleWindow + 10) then pure ()
  else
    let delta ← calcLoadNohzFold
    addTasks delta
    let active ← read (·.calcLoadTasks)
    setAvenrun fun load exp => calcLoad load exp (activeLoad active)
    writeLoadUpdate (sampleWindow + loadFreq hz)
    calcGlobalNohz hz

/-- `calc_global_load_tick`. -/
def calcGlobalLoadTick (c : ι) : Thread (LoadState ι) Unit := do
  let now ← read (·.jiffies)
  let rqUpdate ← read fun s => (s.rq c).calcLoadUpdate
  if timeBefore now rqUpdate then pure ()
  else
    let delta ← calcLoadFoldActive c 0
    addTasks delta
    setRqUpdate c (· + loadFreq hz)

/-- What happens on the CPUs : the calls, a change of a CPU's counts, and time that passes. -/
inductive LoadCall (ι : Type)
  | counts (c : ι) (nrRunning : BitVec 32) (nrUninterruptible : BitVec 64)
  | jiffies (now : BitVec 64)
  | tick (c : ι)
  | nohzStart (c : ι)
  | nohzStop (c : ι)
  | globalLoad
deriving DecidableEq, Repr

/-- What a CPU runs for a call. -/
def LoadCall.code : LoadCall ι → Thread (LoadState ι) Unit
  | .counts c nrRunning nrUninterruptible =>
    update fun s =>
      s.setRq c { s.rq c with nrRunning := nrRunning, nrUninterruptible := nrUninterruptible }
  | .jiffies now => update fun s => { s with jiffies := now }
  | .tick c => calcGlobalLoadTick hz c
  | .nohzStart c => calcLoadNohzStart c
  | .nohzStop c => calcLoadNohzStop hz c
  | .globalLoad => calcGlobalLoad hz

end Functions

/-! ## The ledger -/

section Ledger

variable {ι : Type} [DecidableEq ι] [Fintype ι]
variable (s : LoadState ι)

/-- What the counters record, less what the CPUs have set as recorded. -/
def accounted : BitVec 64 :=
  s.calcLoadTasks + s.calcLoadNohz 0 + s.calcLoadNohz 1 - ∑ c, (s.rq c).calcLoadActive

theorem accounted_eq_zero_iff {s : LoadState ι} : accounted s = 0 ↔
    s.calcLoadTasks + s.calcLoadNohz 0 + s.calcLoadNohz 1 = ∑ c, (s.rq c).calcLoadActive :=
  sub_eq_zero

variable (c : ι)

theorem sum_active_setRq (r : LoadRq) : ∑ i, ((s.setRq c r).rq i).calcLoadActive =
      ∑ i, (s.rq i).calcLoadActive + (r.calcLoadActive - (s.rq c).calcLoadActive) := by
  have hcomp : (fun i => ((s.setRq c r).rq i).calcLoadActive) =
      Function.update (fun i => (s.rq i).calcLoadActive) c r.calcLoadActive := by
    funext i
    by_cases hi : i = c
    · subst hi
      simp [LoadState.setRq]
    · simp [LoadState.setRq, hi]
  have hsum := add_sum_erase univ (fun i => (s.rq i).calcLoadActive)
    (mem_univ c)
  rw [hcomp, sum_update_of_mem (mem_univ c), ← erase_eq, ← hsum]
  abel

theorem accounted_setRq (r : LoadRq) :
    accounted (s.setRq c r) = accounted s - (r.calcLoadActive - (s.rq c).calcLoadActive) := by
  rw [accounted, sum_active_setRq, accounted]
  simp only [LoadState.setRq]
  abel

theorem accounted_addTasks (delta : BitVec 64) :
    accounted { s with calcLoadTasks := s.calcLoadTasks + delta } = accounted s + delta := by
  simp only [accounted]
  abel

theorem accounted_setNohz (idx : Fin 2) (v : BitVec 64) :
    accounted { s with calcLoadNohz := Function.update s.calcLoadNohz idx v } =
      accounted s + (v - s.calcLoadNohz idx) := by
  fin_cases idx <;> simp [accounted] <;> abel

/-! ## What the functions owe -/

/-- An update that keeps the ledger. -/
theorem owes_keep {g : LoadState ι → LoadState ι} (h : ∀ s, accounted (g s) = accounted s)
    (d : BitVec 64) (s : LoadState ι) : Owes accounted (fun _ => d) (Thread.update g) s d :=
  owes_exchange (fun s => by rw [h s]) s

theorem setRqUpdate_owes (f : BitVec 64 → BitVec 64) (d : BitVec 64) :
    Owes accounted (fun _ => d) (setRqUpdate c f) s d :=
  owes_keep (fun s => by rw [accounted_setRq, sub_self, sub_zero]) d s

theorem writeLoadUpdate_owes (v d : BitVec 64) :
    Owes accounted (fun _ => d) (writeLoadUpdate v) s d :=
  owes_keep (fun _ => rfl) d s

theorem setAvenrun_owes (f : BitVec 64 → BitVec 64 → BitVec 64) (d : BitVec 64) :
    Owes accounted (fun _ => d) (setAvenrun f) s d :=
  owes_keep (fun _ => rfl) d s

/-- The delta is owed to the counters. -/
theorem calcLoadFoldActive_owes (adjust : BitVec 64) :
    Owes accounted (fun delta => delta) (calcLoadFoldActive c adjust) s 0 := by
  refine bind (fun nrRunning s => ?_) (owes_read _ 0 s)
  refine bind (fun nrUninterruptible s => ?_) (owes_read _ 0 s)
  refine owes_exchange (fun s => ?_) s
  split_ifs with h
  · rw [accounted_setRq, sub_add_cancel, add_zero]
  · rfl

theorem atomicAddTasks_owes (delta : BitVec 64) :
    Owes accounted (fun _ => 0) (atomicAddTasks delta) s delta := by
  refine bind (fun _ _ => ?_) (owes_pay (fun s => ?_) s)
  · exact owes_pure rfl
  · exact accounted_addTasks s delta

theorem atomicAddNohz_owes (delta : BitVec 64) (idx : Fin 2) :
    Owes accounted (fun _ => 0) (atomicAddNohz delta idx) s delta := by
  refine bind (fun _ _ => ?_) (owes_pay (fun s => ?_) s)
  · exact owes_pure rfl
  · rw [accounted_setNohz, add_sub_cancel_left]

theorem addTasks_owes (delta : BitVec 64) :
    Owes accounted (fun _ => 0) (addTasks delta) s delta := by
  rw [addTasks]
  split_ifs with h
  · exact atomicAddTasks_owes s delta
  · exact owes_pure (not_not.mp h)

theorem calcLoadWriteIdx_owes (d : BitVec 64) :
    Owes accounted (fun _ => d) calcLoadWriteIdx s d := by
  refine bind (fun idx s => ?_) (owes_read _ d s)
  refine bind (fun now s => ?_) (owes_read _ d s)
  exact bind (fun update _ => owes_pure rfl) (owes_read _ d s)

/-- Whichever bucket the CPU sees, the delta goes into it. -/
theorem calcLoadNohzStart_owes : Owes accounted (fun _ => 0) (calcLoadNohzStart c) s 0 := by
  refine bind (fun delta s => ?_) (calcLoadFoldActive_owes s c 0)
  split_ifs with h
  · exact bind (fun idx s => atomicAddNohz_owes s delta idx) (calcLoadWriteIdx_owes s delta)
  · exact owes_pure (not_not.mp h)

theorem calcLoadNohzStop_owes : Owes accounted (fun _ => 0) (calcLoadNohzStop hz c) s 0 := by
  refine bind (fun pending s => ?_) (owes_read _ 0 s)
  refine bind (fun _ s => ?_) (setRqUpdate_owes s c _ 0)
  refine bind (fun now s => ?_) (owes_read _ 0 s)
  refine bind (fun rqUpdate s => ?_) (owes_read _ 0 s)
  split_ifs with h
  · exact owes_pure rfl
  · refine bind (fun now s => ?_) (owes_read _ 0 s)
    refine bind (fun rqUpdate s => ?_) (owes_read _ 0 s)
    split_ifs with h'
    · exact setRqUpdate_owes s c _ 0
    · exact owes_pure rfl

/-- What is drained from a bucket is owed, also when another CPU adds to it after the test. -/
theorem calcLoadNohzFold_owes :
    Owes accounted (fun delta => delta) calcLoadNohzFold s 0 := by
  have hidx : Owes accounted (fun _ => 0) calcLoadReadIdx s 0 :=
    Owes.bind (fun idx _ => owes_pure rfl) (owes_read _ 0 s)
  refine bind (fun idx s => ?_) hidx
  refine bind (fun pending s => ?_) (owes_read _ 0 s)
  split_ifs with h
  · exact owes_modify (fun s => by rw [accounted_setNohz]; abel) s
  · exact owes_pure rfl

theorem catchUp_owes : Owes accounted (fun _ => 0) (catchUp hz) s 0 := by
  refine bind (fun sampleWindow s => ?_) (owes_read _ 0 s)
  refine bind (fun now s => ?_) (owes_read _ 0 s)
  split_ifs with h
  · refine bind (fun now s => ?_) (owes_read _ 0 s)
    refine bind (fun active s => ?_) (owes_read _ 0 s)
    exact bind (fun _ s => writeLoadUpdate_owes s _ 0) (setAvenrun_owes s _ 0)
  · exact owes_pure rfl

theorem calcGlobalNohz_owes : Owes accounted (fun _ => 0) (calcGlobalNohz hz) s 0 := by
  refine bind (fun _ s => ?_) (catchUp_owes hz s)
  exact owes_keep (fun _ => rfl) 0 s

theorem calcGlobalLoad_owes : Owes accounted (fun _ => 0) (calcGlobalLoad hz) s 0 := by
  refine bind (fun sampleWindow s => ?_) (owes_read _ 0 s)
  refine bind (fun now s => ?_) (owes_read _ 0 s)
  split_ifs with h
  · exact owes_pure rfl
  · refine bind (fun delta s => ?_) (calcLoadNohzFold_owes s)
    refine bind (fun _ s => ?_) (addTasks_owes s delta)
    refine bind (fun active s => ?_) (owes_read _ 0 s)
    refine bind (fun _ s => ?_) (setAvenrun_owes s _ 0)
    exact bind (fun _ => calcGlobalNohz_owes hz) (writeLoadUpdate_owes s _ 0)

theorem calcGlobalLoadTick_owes :
    Owes accounted (fun _ => 0) (calcGlobalLoadTick hz c) s 0 := by
  refine bind (fun now s => ?_) (owes_read _ 0 s)
  refine bind (fun rqUpdate s => ?_) (owes_read _ 0 s)
  split_ifs with h
  · exact owes_pure rfl
  · refine bind (fun delta s => ?_) (calcLoadFoldActive_owes s c 0)
    exact bind (fun _ s => setRqUpdate_owes s c _ 0) (addTasks_owes s delta)

/-- No call ends with a debt. -/
theorem LoadCall.owes (call : LoadCall ι) : Owes accounted (fun _ => 0) (call.code hz) s 0 := by
  cases call with
  | counts c nrRunning nrUninterruptible =>
    exact owes_keep (fun s => by rw [accounted_setRq, sub_self, sub_zero]) 0 s
  | jiffies now => exact owes_keep (fun _ => rfl) 0 s
  | tick c => exact calcGlobalLoadTick_owes hz s c
  | nohzStart c => exact calcLoadNohzStart_owes s c
  | nohzStop c => exact calcLoadNohzStop_owes hz s c
  | globalLoad => exact calcGlobalLoad_owes hz s

/-! ## Runs -/

/-- No count is recorded anywhere yet. The times and the counts of the run queues are free. -/
structure LoadState.Fresh (s : LoadState ι) : Prop where
  tasks : s.calcLoadTasks = 0
  nohz : ∀ i, s.calcLoadNohz i = 0
  active : ∀ c, (s.rq c).calcLoadActive = 0

theorem LoadState.Fresh.accounted {s : LoadState ι} (h : s.Fresh) : accounted s = 0 := by
  rw [accounted_eq_zero_iff, h.tasks, h.nohz 0, h.nohz 1, sum_eq_zero fun c _ => h.active c]
  rfl

/-- The state after calls that are not interrupted. -/
def loadCallsRun (calls : List (LoadCall ι)) : LoadState ι :=
  calls.foldl (fun s call => ((call.code hz).exec s).1) s

theorem loadCallsRun_accounted (hz : ℕ) : ∀ (calls : List (LoadCall ι)) (s : LoadState ι),
    accounted (loadCallsRun hz s calls) = accounted s
  | [], _ => rfl
  | call :: calls, s => by
    have h := (LoadCall.owes hz s call).exec
    rw [add_zero, add_zero] at h
    rw [← h]
    exact loadCallsRun_accounted hz calls _

/-- No task is lost or counted twice. After any sequence of calls, each run as a whole, the counter
and the two buckets add up to the sum of the CPUs' `calc_load_active`. If the accesses of the calls
interleave, but for those between the load and the store of an `atomic_long_add` or
`atomic_long_xchg`, they add up in every state but for the deltas that calls under way still hold
and will add, and exactly whenever no call is under way. -/
theorem load_conserved {κ : Type} [DecidableEq κ] [Fintype κ] (hz : ℕ) {s : LoadState ι}
    (hs : s.Fresh) :
    (∀ calls, (loadCallsRun hz s calls).calcLoadTasks + (loadCallsRun hz s calls).calcLoadNohz 0 +
        (loadCallsRun hz s calls).calcLoadNohz 1 =
      ∑ c, ((loadCallsRun hz s calls).rq c).calcLoadActive) ∧
    ∀ evs : List (CrewEvent κ (LoadCall ι)), ∀ crew : Crew κ (LoadState ι),
      (Crew.start s).Undisturbed (fun _ call => LoadCall.code hz call) evs →
      (Crew.start s).run (fun _ call => LoadCall.code hz call) evs = crew →
      (∃ owed : κ → BitVec 64,
        (∀ i, Owes accounted (fun _ => 0) (crew.thread i) crew.mem (owed i)) ∧
        crew.mem.calcLoadTasks + crew.mem.calcLoadNohz 0 + crew.mem.calcLoadNohz 1 + ∑ i, owed i =
          ∑ c, (crew.mem.rq c).calcLoadActive) ∧
      (crew.Idle → crew.mem.calcLoadTasks + crew.mem.calcLoadNohz 0 + crew.mem.calcLoadNohz 1 =
          ∑ c, (crew.mem.rq c).calcLoadActive) := by
  refine ⟨fun calls => ?_, fun evs crew hevs hrun => ?_⟩
  · rw [← accounted_eq_zero_iff, loadCallsRun_accounted, hs.accounted]
  · obtain ⟨owed, hbal⟩ := Crew.run_owes (fun _ call s => LoadCall.owes hz s call) evs hevs
      (Crew.balance_start hs.accounted)
    rw [hrun] at hbal
    refine ⟨⟨owed, hbal.1, ?_⟩, fun hidle => accounted_eq_zero_iff.mp (hbal.of_idle hidle)⟩
    have hsum := hbal.2
    rw [accounted, sub_add_eq_add_sub, sub_eq_zero] at hsum
    exact hsum

end Ledger

/-- Two CPUs after `sched_init` at `HZ = 100`. -/
def loadTwo : LoadState (Fin 2) where
  rq _ := ⟨0, 0, 0, 501⟩
  calcLoadTasks := 0
  calcLoadNohz _ := 0
  calcLoadIdx := 0
  calcLoadUpdate := 501
  avenrun := (0, 0, 0)
  jiffies := 0

/-- CPU 1 stops its tick with three tasks before the window, CPU 0 ticks with two inside it; CPU 1
has lost one of its three by then and stops again. -/
def loadTwoCalls : List (LoadCall (Fin 2)) :=
  [.counts 1 3 0, .nohzStart 1, .jiffies 501, .counts 0 2 0, .tick 0, .counts 1 2 0, .nohzStart 1]

/-- The second delta of CPU 1 goes to the other bucket, and all three places together hold the four
tasks. -/
theorem load_conserved_two :
    (loadCallsRun 100 loadTwo loadTwoCalls).calcLoadTasks = 2 ∧
    (loadCallsRun 100 loadTwo loadTwoCalls).calcLoadNohz 0 = 3 ∧
    (loadCallsRun 100 loadTwo loadTwoCalls).calcLoadNohz 1 = -1 ∧
    ∑ c, ((loadCallsRun 100 loadTwo loadTwoCalls).rq c).calcLoadActive = 4 := by
  have hfresh : loadTwo.Fresh := ⟨rfl, fun _ => rfl, fun _ => rfl⟩
  have hsum := (load_conserved (κ := Fin 2) 100 hfresh).1 loadTwoCalls
  have htasks : (loadCallsRun 100 loadTwo loadTwoCalls).calcLoadTasks = 2 := by decide +kernel
  have hold : (loadCallsRun 100 loadTwo loadTwoCalls).calcLoadNohz 0 = 3 := by decide +kernel
  have hnew : (loadCallsRun 100 loadTwo loadTwoCalls).calcLoadNohz 1 = -1 := by decide +kernel
  refine ⟨htasks, hold, hnew, ?_⟩
  rw [← hsum, htasks, hold, hnew]
  rfl

/-- Both CPUs tick at once, with two and three tasks : each one makes six accesses, the last of them
the load of `calc_load_tasks`, and then the two that are left. -/
def loadTwoTicks : List (CrewEvent (Fin 2) (LoadCall (Fin 2))) :=
  [.take 0 (.counts 0 2 0), .access 0, .take 0 (.counts 1 3 0), .access 0,
    .take 0 (.jiffies 501), .access 0, .take 0 (.tick 0), .take 1 (.tick 1)] ++
  List.replicate 6 (.access 0) ++ List.replicate 6 (.access 1) ++
  List.replicate 2 (.access 0) ++ List.replicate 2 (.access 1)

/-- Both load zero, and the second store overwrites the first : nobody is at work, and two of the
five tasks are nowhere. -/
theorem load_lost :
    let crew := (Crew.start loadTwo).run (fun _ call => LoadCall.code 100 call) loadTwoTicks
    (∀ i, (crew.thread i).idle = true) ∧ crew.mem.calcLoadTasks = 3 ∧
      (∀ i, crew.mem.calcLoadNohz i = 0) ∧ ∑ c, (crew.mem.rq c).calcLoadActive = 5 := by
  decide +kernel

end LinuxKernelTest
