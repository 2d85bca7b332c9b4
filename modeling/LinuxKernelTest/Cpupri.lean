import LinuxKernelTest.Cpudl
import LinuxKernelTest.Machine

/-!
# The map of CPU priorities

`kernel/sched/cpupri.c` keeps the priority class of every CPU twice : `cpu_to_pri` has the class of
each CPU, and each class has a vector with the mask of its CPUs and their number. `cpupri_set` moves
a CPU from one vector to another in separate steps, `cpupri_find` walks the vectors upward, skips
those whose counter is 0, and takes the first whose mask meets the CPUs the task may run on.

A class that indexes outside `pri_to_cpu` and a failed `BUG_ON` are `none`. CPUs that are not
possible keep the 0 of `kcalloc` in `cpu_to_pri`; no call names them. The counters are integers
since a counter never leaves the range from 0 to the number of CPUs.

`Cpupri.Consistent` says that the vectors are the fibres of `cpu_to_pri`, counted; `cpupri_set`
keeps it, and under it `cpupri_find` is a search for the least class (`cpupriFind_spec`).
-/

namespace LinuxKernelTest

open Finset Function BitVec Option

/-! ## The model -/

/-- `MAX_RT_PRIO`. -/
def maxRtPrio : ℤ := 100

/-- `MAX_PRIO`. -/
def maxPrio : ℤ := 140

/-- `CPUPRI_INVALID`. -/
def cpupriInvalid : ℤ := -1

/-- `CPUPRI_NR_PRIORITIES`. -/
def cpupriNrPriorities : ℕ := 102

/-- `struct cpupri_vec`. -/
structure CpupriVec (nr : ℕ) where
  count : ℤ
  mask : BitVec nr
deriving DecidableEq, Repr

/-- `struct cpupri`, for `nr` CPUs. -/
structure Cpupri (nr : ℕ) where
  priToCpu : ℕ → CpupriVec nr
  cpuToPri : ℕ → ℤ

/-- `convert_prio`. -/
def convertPrio (prio : ℤ) : ℤ :=
  if prio = cpupriInvalid then cpupriInvalid
  else if prio = maxPrio then 0
  else if prio ≥ maxRtPrio then 1
  else maxRtPrio - prio + 1

/-- `cpumask_first` : the first CPU of a mask, and `nr` if there is none. -/
def cpumaskFirst {nr : ℕ} (mask : BitVec nr) : ℕ := (List.range nr).findIdx mask.getLsbD

section

variable {nr : ℕ}

/-- The index of a class in `pri_to_cpu`. -/
def vecIndex (pri : ℤ) : Option ℕ :=
  if 0 ≤ pri ∧ pri < cpupriNrPriorities then some pri.toNat else none

variable (cp : Cpupri nr) {prio : ℤ}

/-- Put a CPU into the vector of a class. -/
def Cpupri.addCpu (cpu : ℕ) (pri : ℤ) : Option (Cpupri nr) :=
  (vecIndex pri).map fun i =>
    let vec := cp.priToCpu i
    { cp with priToCpu := update cp.priToCpu i ⟨vec.count + 1, cpumaskSetCpu cpu vec.mask⟩ }

/-- Take a CPU out of the vector of a class. -/
def Cpupri.removeCpu (cpu : ℕ) (pri : ℤ) : Option (Cpupri nr) :=
  (vecIndex pri).map fun i =>
    let vec := cp.priToCpu i
    { cp with
      priToCpu := update cp.priToCpu i ⟨vec.count - 1, cpumaskClearCpu cpu vec.mask⟩ }

/-- `cpupri_set`. -/
def cpupriSet (cpu : ℕ) (newpri : ℤ) : Option (Cpupri nr) :=
  if cpu < nr then
    let oldpri := cp.cpuToPri cpu
    let newpri := convertPrio newpri
    if newpri ≥ cpupriNrPriorities then none
    else if newpri = oldpri then some cp
    else
      (if newpri ≠ cpupriInvalid then cp.addCpu cpu newpri else some cp).bind fun cp =>
        (if oldpri ≠ cpupriInvalid then cp.removeCpu cpu oldpri else some cp).map fun cp =>
          { cp with cpuToPri := update cp.cpuToPri cpu newpri }
  else none

/-- `cpupri_init` when its allocations succeed, with the mask of possible CPUs. -/
def cpupriInit (nr : ℕ) (possible : BitVec nr) : Cpupri nr where
  priToCpu _ := ⟨0, 0⟩
  cpuToPri i := if possible.getLsbD i then cpupriInvalid else 0

/-- What `cpupri_find` reads of a task : `prio` and `cpus_ptr`. -/
structure RtTask (nr : ℕ) where
  prio : ℤ
  cpus : BitVec nr

/-- A round of the loop of `cpupri_find`. -/
def findVecRound (p : RtTask nr) (taskPri : ℤ) : ℕ × Option (BitVec nr) →
      Round (ℕ × Option (BitVec nr)) (Option (ℤ × Option (BitVec nr)))
  | (idx, lowestMask) =>
    if idx < taskPri then
      match vecIndex idx with
      | none => .done none
      | some i =>
        let vec := cp.priToCpu i
        if vec.count = 0 then .again (idx + 1, lowestMask)
        else if cpumaskFirst (p.cpus &&& vec.mask) ≥ nr then .again (idx + 1, lowestMask)
        else
          match lowestMask with
          | none => .done (some (1, none))
          | some _ =>
            let mask := p.cpus &&& vec.mask
            if cpumaskFirst mask ≥ nr then .again (idx + 1, some mask)
            else .done (some (1, some mask))
    else .done (some (0, lowestMask))

/-- `cpupri_find` with a mask to fill in (or `NULL`) : the return value and the mask. -/
def cpupriFind (p : RtTask nr) (lowestMask : Option (BitVec nr)) :
    Option (ℤ × Option (BitVec nr)) :=
  let taskPri := convertPrio p.prio
  if taskPri ≥ cpupriNrPriorities then none
  else (runLoop (findVecRound cp p taskPri) (cpupriNrPriorities + 1) (0, lowestMask)).join

/-- A call `cpupri_set(cpu, prio)`. -/
def cpupriCall (o : ℕ × ℤ) : Option (Cpupri nr × Unit) :=
  (cpupriSet cp o.1 o.2).map fun cp => (cp, ())

/-- The calls `cpupri_set(cpu, prio)` after `cpupri_init`. -/
def cpupriRun (nr : ℕ) (possible : BitVec nr) (ops : List (ℕ × ℤ)) : Option (Cpupri nr) :=
  (runCalls cpupriCall (cpupriInit nr possible) ops).map Prod.fst

/-- The priorities that callers pass : `CPUPRI_INVALID` and those of tasks and of idle CPUs. -/
def ValidPrio (prio : ℤ) : Prop := prio = cpupriInvalid ∨ 0 ≤ prio ∧ prio ≤ maxPrio

instance (prio : ℤ) : Decidable (ValidPrio prio) := inferInstanceAs (Decidable (_ ∨ _))

/-- The classes. -/
def ValidPri (pri : ℤ) : Prop := pri = cpupriInvalid ∨ 0 ≤ pri ∧ pri < cpupriNrPriorities

theorem validPri_convertPrio (h : ValidPrio prio) : ValidPri (convertPrio prio) := by
  unfold ValidPrio cpupriInvalid maxPrio at h
  unfold ValidPri convertPrio cpupriInvalid maxPrio maxRtPrio cpupriNrPriorities
  split_ifs <;> omega

theorem vecIndex_natCast {i : ℕ} (h : i < cpupriNrPriorities) : vecIndex i = some i := by
  rw [vecIndex, if_pos ⟨by omega, by omega⟩, Int.toNat_natCast]

variable {pri : ℤ} {mask : BitVec nr} {c : ℕ} {cpu : ℕ}

theorem ValidPri.eq_natCast (h : ValidPri pri) (hinv : pri ≠ cpupriInvalid) :
    ∃ i : ℕ, i < cpupriNrPriorities ∧ pri = i := by
  obtain ⟨h0, hlt⟩ := h.resolve_left hinv
  exact ⟨pri.toNat, by omega, by omega⟩

/-! ## Masks as sets -/

/-- The CPUs of a mask. -/
def cpusOf (mask : BitVec nr) : Finset ℕ := (range nr).filter fun c => mask.getLsbD c

theorem mem_cpusOf : c ∈ cpusOf mask ↔ mask.getLsbD c = true := by
  rw [cpusOf, mem_filter, mem_range]
  exact ⟨fun h => h.2, fun h => ⟨lt_of_getLsbD h, h⟩⟩

theorem cpusOf_zero : cpusOf (0 : BitVec nr) = ∅ := by
  ext c
  rw [mem_cpusOf]
  simp

theorem cpusOf_and (m m' : BitVec nr) : cpusOf (m &&& m') = cpusOf m ∩ cpusOf m' := by
  ext c
  rw [mem_inter, mem_cpusOf, mem_cpusOf, mem_cpusOf, getLsbD_and, Bool.and_eq_true]

theorem cpusOf_setCpu (hcpu : cpu < nr) (mask : BitVec nr) :
    cpusOf (cpumaskSetCpu cpu mask) = insert cpu (cpusOf mask) := by
  ext c
  rw [mem_insert, mem_cpusOf, mem_cpusOf, cpumaskSetCpu, getLsbD_or, getLsbD_twoPow]
  simp only [Bool.or_eq_true, Bool.and_eq_true, decide_eq_true_eq]
  constructor
  · rintro (h | ⟨-, h⟩)
    · exact .inr h
    · exact .inl h.symm
  · rintro (h | h)
    · exact .inr ⟨hcpu, h.symm⟩
    · exact .inl h

theorem cpusOf_clearCpu (cpu : ℕ) (mask : BitVec nr) :
    cpusOf (cpumaskClearCpu cpu mask) = (cpusOf mask).erase cpu := by
  ext c
  rw [mem_erase, mem_cpusOf, mem_cpusOf, cpumaskClearCpu, getLsbD_and, getLsbD_not, getLsbD_twoPow]
  simp only [Bool.and_eq_true, Bool.not_eq_true', decide_eq_true_eq, Bool.and_eq_false_iff,
    decide_eq_false_iff_not]
  constructor
  · rintro ⟨hm, hlt, h⟩
    exact ⟨fun hc => by omega, hm⟩
  · rintro ⟨hne, hm⟩
    exact ⟨hm, lt_of_getLsbD hm, .inr fun h => hne h.symm⟩

theorem le_cpumaskFirst_iff : nr ≤ cpumaskFirst mask ↔ cpusOf mask = ∅ := by
  rw [eq_empty_iff_forall_notMem, cpumaskFirst]
  constructor
  · intro h c hc
    have hbit := mem_cpusOf.mp hc
    have hex : ∃ x ∈ List.range nr, mask.getLsbD x = true :=
      ⟨c, List.mem_range.mpr (lt_of_getLsbD hbit), hbit⟩
    have hlt := List.findIdx_lt_length_of_exists hex
    rw [List.length_range] at hlt
    omega
  · intro h
    rw [List.findIdx_eq_length_of_false, List.length_range]
    intro c hc
    exact Bool.eq_false_iff.mpr fun hbit => h c (mem_cpusOf.mpr hbit)

/-! ## Setting a class -/

/-- Every counter is the number of CPUs in its mask. -/
def Cpupri.Counted : Prop :=
  ∀ v, v < cpupriNrPriorities → (cp.priToCpu v).count = (cpusOf (cp.priToCpu v).mask).card

/-- The vectors hold the possible CPUs by their class, and are counted. -/
structure Cpupri.Consistent (possible : BitVec nr) (cp : Cpupri nr) : Prop where
  pri : ∀ c ∈ cpusOf possible, ValidPri (cp.cpuToPri c)
  mask : ∀ v : ℕ, v < cpupriNrPriorities → ∀ c,
    c ∈ cpusOf (cp.priToCpu v).mask ↔ c ∈ cpusOf possible ∧ cp.cpuToPri c = v
  counted : cp.Counted

theorem consistent_cpupriInit (possible : BitVec nr) :
    (cpupriInit nr possible).Consistent possible where
  pri c hc := .inl (if_pos (mem_cpusOf.mp hc))
  mask v hv c := by
    constructor
    · intro h
      have hmem : c ∈ cpusOf (0 : BitVec nr) := h
      rw [cpusOf_zero] at hmem
      exact absurd hmem (notMem_empty c)
    · rintro ⟨hc, hpri⟩
      have hinv : (cpupriInit nr possible).cpuToPri c = cpupriInvalid := if_pos (mem_cpusOf.mp hc)
      rw [hinv, cpupriInvalid] at hpri
      omega
  counted v hv := by
    have hcard : (cpusOf (0 : BitVec nr)).card = 0 := by rw [cpusOf_zero, card_empty]
    exact congrArg Nat.cast hcard.symm

variable {cp : Cpupri nr}

/-- Adding a CPU to the vector of a class, if it is one, puts it there and nowhere else. -/
theorem addCpu_spec (hcounted : cp.Counted) (hcpu : cpu < nr) (hpri : ValidPri pri)
    (hout : ∀ v : ℕ, v < cpupriNrPriorities → pri = v → cpu ∉ cpusOf (cp.priToCpu v).mask) :
    ∃ cp', (if pri ≠ cpupriInvalid then cp.addCpu cpu pri else some cp) = some cp' ∧
      cp'.cpuToPri = cp.cpuToPri ∧ cp'.Counted ∧
      ∀ v : ℕ, v < cpupriNrPriorities → ∀ c, c ∈ cpusOf (cp'.priToCpu v).mask ↔
        c ∈ cpusOf (cp.priToCpu v).mask ∨ c = cpu ∧ pri = v := by
  by_cases hinv : pri = cpupriInvalid
  · refine ⟨cp, if_neg (not_not.mpr hinv), rfl, hcounted, fun v hv c => ?_⟩
    refine ⟨.inl, fun h => h.resolve_right ?_⟩
    rintro ⟨-, hv'⟩
    rw [hinv, cpupriInvalid] at hv'
    omega
  obtain ⟨i, hi, rfl⟩ := hpri.eq_natCast hinv
  rw [if_pos hinv, Cpupri.addCpu, vecIndex_natCast hi, map_some]
  refine ⟨_, rfl, rfl, fun v hv => ?_, fun v hv c => ?_⟩
  · rcases eq_or_ne v i with rfl | hne
    · simp only [update_self, cpusOf_setCpu hcpu]
      rw [card_insert_of_notMem (hout v hv rfl), hcounted v hv]
      push_cast
      rfl
    · simp only [update_of_ne hne]
      exact hcounted v hv
  · rcases eq_or_ne v i with rfl | hne
    · simp only [update_self, cpusOf_setCpu hcpu, mem_insert, and_true]
      exact or_comm
    · simp only [update_of_ne hne]
      exact ⟨.inl, fun h => h.resolve_right fun h' => hne (by omega)⟩

/-- Removing a CPU from the vector of a class, if it is one, takes it out there and nowhere else. -/
theorem removeCpu_spec (hcounted : cp.Counted) (hpri : ValidPri pri)
    (hin : ∀ v : ℕ, v < cpupriNrPriorities → pri = v → cpu ∈ cpusOf (cp.priToCpu v).mask) :
    ∃ cp', (if pri ≠ cpupriInvalid then cp.removeCpu cpu pri else some cp) = some cp' ∧
      cp'.cpuToPri = cp.cpuToPri ∧ cp'.Counted ∧
      ∀ v : ℕ, v < cpupriNrPriorities → ∀ c, c ∈ cpusOf (cp'.priToCpu v).mask ↔
        c ∈ cpusOf (cp.priToCpu v).mask ∧ ¬ (c = cpu ∧ pri = v) := by
  by_cases hinv : pri = cpupriInvalid
  · refine ⟨cp, if_neg (not_not.mpr hinv), rfl, hcounted, fun v hv c => ?_⟩
    refine ⟨fun h => ⟨h, ?_⟩, And.left⟩
    rintro ⟨-, hv'⟩
    rw [hinv, cpupriInvalid] at hv'
    omega
  obtain ⟨i, hi, rfl⟩ := hpri.eq_natCast hinv
  rw [if_pos hinv, Cpupri.removeCpu, vecIndex_natCast hi, map_some]
  refine ⟨_, rfl, rfl, fun v hv => ?_, fun v hv c => ?_⟩
  · rcases eq_or_ne v i with rfl | hne
    · have hpos := card_pos.mpr ⟨cpu, hin v hv rfl⟩
      simp only [update_self, cpusOf_clearCpu]
      rw [card_erase_of_mem (hin v hv rfl), hcounted v hv]
      omega
    · simp only [update_of_ne hne]
      exact hcounted v hv
  · rcases eq_or_ne v i with rfl | hne
    · simp only [update_self, cpusOf_clearCpu, mem_erase, and_true]
      exact and_comm
    · simp only [update_of_ne hne]
      exact ⟨fun h => ⟨h, fun h' => hne (by omega)⟩, And.left⟩

variable {possible : BitVec nr} {v : ℕ}

/-- `cpupri_set` keeps the two sides together. -/
theorem cpupriSet_consistent (h : cp.Consistent possible) (hcpu : cpu ∈ cpusOf possible)
    (hprio : ValidPrio prio) :
    ∃ cp', cpupriSet cp cpu prio = some cp' ∧ cp'.Consistent possible := by
  have hlt : cpu < nr := lt_of_getLsbD (mem_cpusOf.mp hcpu)
  have hnew := validPri_convertPrio hprio
  have hbug : ¬ convertPrio prio ≥ cpupriNrPriorities := by
    unfold ValidPri cpupriInvalid at hnew
    omega
  rw [cpupriSet, if_pos hlt]
  dsimp only
  rw [if_neg hbug]
  by_cases hsame : convertPrio prio = cp.cpuToPri cpu
  · exact ⟨cp, if_pos hsame, h⟩
  obtain ⟨cp1, hadd, hpri1, hcounted1, hmask1⟩ := addCpu_spec h.counted hlt hnew
    (fun v hv hpri hmem => hsame (by rw [((h.mask v hv cpu).mp hmem).2, hpri]))
  -- The CPU is still in its old vector, which is another one.
  obtain ⟨cp2, hremove, hpri2, hcounted2, hmask2⟩ := removeCpu_spec hcounted1 (h.pri cpu hcpu)
    (fun v hv hpri => (hmask1 v hv cpu).mpr (.inl ((h.mask v hv cpu).mpr ⟨hcpu, hpri⟩)))
  rw [if_neg hsame, hadd, bind_some, hremove, map_some]
  refine ⟨_, rfl, fun c hc => ?_, fun v hv c => ?_, hcounted2⟩
  · dsimp only
    rcases eq_or_ne c cpu with rfl | hne
    · rwa [update_self]
    · rw [update_of_ne hne, hpri2, hpri1]
      exact h.pri c hc
  · dsimp only
    rw [hmask2 v hv, hmask1 v hv, h.mask v hv]
    rcases eq_or_ne c cpu with rfl | hne
    · rw [update_self]
      constructor
      · rintro ⟨⟨-, hold⟩ | ⟨-, hnew'⟩, hnot⟩
        · exact absurd ⟨rfl, hold⟩ hnot
        · exact ⟨hcpu, hnew'⟩
      · rintro ⟨-, hnew'⟩
        exact ⟨.inr ⟨rfl, hnew'⟩, fun hold => hsame (by rw [hnew', hold.2])⟩
    · rw [update_of_ne hne, hpri2, hpri1]
      simp [hne]

/-! ## The search -/

/-- `c` may run the task and has a class below `pri`. -/
def Cpupri.Below (possible : BitVec nr) (cp : Cpupri nr) (p : RtTask nr) (pri : ℤ) (c : ℕ) : Prop :=
  c ∈ cpusOf possible ∧ c ∈ cpusOf p.cpus ∧ 0 ≤ cp.cpuToPri c ∧ cp.cpuToPri c < pri

/-- The answer of a search : 1 if there is a CPU below the task's class, and then the mask, if one
is asked for, holds the CPUs of the least such class that the task may run on. -/
structure Cpupri.Answers (possible : BitVec nr) (cp : Cpupri nr) (p : RtTask nr)
    (lowestMask : Option (BitVec nr)) (r : ℤ × Option (BitVec nr)) : Prop where
  ret : r.1 = 1 ∨ r.1 = 0
  found : r.1 = 1 ↔ ∃ c, cp.Below possible p (convertPrio p.prio) c
  given : r.2.isSome = lowestMask.isSome
  lowest : r.1 = 1 → ∀ mask, r.2 = some mask → ∃ v,
    IsLeast {v | ∃ c, cp.Below possible p (convertPrio p.prio) c ∧ cp.cpuToPri c = v} v ∧
    ∀ c, c ∈ cpusOf mask ↔ c ∈ cpusOf possible ∧ c ∈ cpusOf p.cpus ∧ cp.cpuToPri c = v

/-- The CPUs of a vector that the task may run on. -/
theorem Cpupri.Consistent.mem_and
    (h : cp.Consistent possible) (p : RtTask nr) (hv : v < cpupriNrPriorities) :
    c ∈ cpusOf (p.cpus &&& (cp.priToCpu v).mask) ↔
      c ∈ cpusOf possible ∧ c ∈ cpusOf p.cpus ∧ cp.cpuToPri c = v := by
  rw [cpusOf_and, mem_inter, h.mask v hv]
  tauto

variable {p : RtTask nr}

variable {lowestMask : Option (BitVec nr)}

/-- The search stops at the least class. -/
theorem Cpupri.Consistent.answers
    (h : cp.Consistent possible) (hv : v < cpupriNrPriorities)
    (hpri : v < convertPrio p.prio) (hnone : ∀ c, ¬ cp.Below possible p v c)
    (hsome : cpusOf (p.cpus &&& (cp.priToCpu v).mask) ≠ ∅) :
    cp.Answers possible p lowestMask
      (1, lowestMask.map fun _ => p.cpus &&& (cp.priToCpu v).mask) := by
  obtain ⟨c, hc⟩ := nonempty_iff_ne_empty.mpr hsome
  obtain ⟨hc, hallowed, hclass⟩ := (h.mem_and p hv).mp hc
  have hbelow : cp.Below possible p (convertPrio p.prio) c := ⟨hc, hallowed, by omega, by omega⟩
  refine ⟨.inl rfl, ⟨fun _ => ⟨c, hbelow⟩, fun _ => rfl⟩, isSome_map, ?_⟩
  intro _ mask hmask
  obtain ⟨_, -, rfl⟩ := map_eq_some_iff.mp hmask
  refine ⟨v, ⟨⟨c, hbelow, hclass⟩, ?_⟩, fun c => h.mem_and p hv⟩
  rintro w ⟨d, ⟨hd, hd', hd0, -⟩, rfl⟩
  exact not_lt.mp fun hlt => hnone d ⟨hd, hd', hd0, hlt⟩

/-- A vector with no CPU for the task is passed. -/
theorem Cpupri.Consistent.below_succ
    (h : cp.Consistent possible) (hv : v < cpupriNrPriorities)
    (hnone : ∀ c, ¬ cp.Below possible p v c)
    (hempty : cpusOf (p.cpus &&& (cp.priToCpu v).mask) = ∅) :
    ∀ c, ¬ cp.Below possible p ((v + 1 : ℕ) : ℤ) c := by
  rintro c ⟨hc, hallowed, h0, hlt⟩
  rcases (show cp.cpuToPri c < v ∨ cp.cpuToPri c = v by omega) with hlt' | heq
  · exact hnone c ⟨hc, hallowed, h0, hlt'⟩
  · have hmem := (h.mem_and p hv).mpr ⟨hc, hallowed, heq⟩
    rw [hempty] at hmem
    exact notMem_empty c hmem

/-- The invariant of the search : no class below the index has a CPU for the task. -/
def FindVecInv (possible : BitVec nr) (cp : Cpupri nr) (p : RtTask nr)
    (lowestMask : Option (BitVec nr)) (rank : ℕ) (st : ℕ × Option (BitVec nr)) : Prop :=
  rank + st.1 = cpupriNrPriorities ∧ st.2 = lowestMask ∧ ∀ c, ¬ cp.Below possible p st.1 c

theorem findVecRound_spec (h : cp.Consistent possible)
    (hpri : convertPrio p.prio < cpupriNrPriorities) :
    RoundKeeps (findVecRound cp p (convertPrio p.prio)) (FindVecInv possible cp p lowestMask)
      fun b => ∃ r, b = some r ∧ cp.Answers possible p lowestMask r := by
  intro rank st hst
  obtain ⟨idx, mask⟩ := st
  obtain ⟨hrank, rfl, hnone⟩ := hst
  simp only at hrank hnone
  by_cases hidx : (idx : ℤ) < convertPrio p.prio
  case neg =>
    refine .inr ⟨some (0, mask), by simp only [findVecRound, if_neg hidx], _, rfl, .inr rfl,
      ⟨fun h1 => absurd h1 (by simp), ?_⟩, rfl, fun h1 => absurd h1 (by simp)⟩
    rintro ⟨c, hc, hc', h0, hlt⟩
    exact absurd ⟨hc, hc', h0, by omega⟩ (hnone c)
  have hlt : idx < cpupriNrPriorities := by omega
  by_cases hempty : cpusOf (p.cpus &&& (cp.priToCpu idx).mask) = ∅
  · refine .inl ⟨(idx + 1, mask), rank - 1, ?_, by omega, by simp only; omega, rfl,
      h.below_succ hlt hnone hempty⟩
    simp [findVecRound, if_pos hidx, vecIndex_natCast hlt, le_cpumaskFirst_iff.mpr hempty]
  -- The counter is not 0, since the mask is not empty.
  have hcount : (cp.priToCpu idx).count ≠ 0 := by
    intro h0
    rw [h.counted idx hlt, Nat.cast_eq_zero, card_eq_zero] at h0
    rw [cpusOf_and, h0, inter_empty] at hempty
    exact hempty rfl
  have hfirst : ¬ nr ≤ cpumaskFirst (p.cpus &&& (cp.priToCpu idx).mask) :=
    mt le_cpumaskFirst_iff.mp hempty
  refine .inr ⟨_, ?_, _, rfl, h.answers hlt hidx hnone hempty⟩
  simp only [findVecRound, if_pos hidx, vecIndex_natCast hlt, ge_iff_le, if_neg hcount,
    if_neg hfirst]
  cases mask <;> rfl

/-- `cpupri_find` returns, with the right answer. -/
theorem cpupriFind_spec (h : cp.Consistent possible) (hprio : ValidPrio p.prio)
    (lowestMask : Option (BitVec nr)) :
    ∃ r, cpupriFind cp p lowestMask = some r ∧ cp.Answers possible p lowestMask r := by
  have hpri : convertPrio p.prio < cpupriNrPriorities := by
    have hvalid := validPri_convertPrio hprio
    unfold ValidPri cpupriInvalid at hvalid
    unfold cpupriNrPriorities at hvalid ⊢
    omega
  have hstart : FindVecInv possible cp p lowestMask cpupriNrPriorities (0, lowestMask) := by
    refine ⟨rfl, rfl, ?_⟩
    rintro c ⟨-, -, h0, hlt⟩
    simp only [Nat.cast_zero] at hlt
    omega
  obtain ⟨b, hb, r, rfl, hr⟩ := runLoop_of_rank (findVecRound_spec h hpri) hstart
    (Nat.lt_succ_self _)
  refine ⟨r, ?_, hr⟩
  rw [cpupriFind, if_neg (by omega), hb]
  rfl

/-! ## Runs -/

/-- After every sequence of calls each CPU is in the mask of its class and in no other, and each
counter is the number of CPUs in its mask; a search then returns 1 exactly when a CPU that the task
may run on has a class below the task's, with the mask of all such CPUs of the lowest class. -/
theorem cpupriRun_consistent (possible : BitVec nr) (ops : List (ℕ × ℤ))
    (hops : ∀ o ∈ ops, possible.getLsbD o.1 ∧ ValidPrio o.2) :
    ∃ cp, cpupriRun nr possible ops = some cp ∧ cp.Consistent possible ∧
      ∀ p : RtTask nr, ValidPrio p.prio → ∀ lowestMask,
        ∃ r, cpupriFind cp p lowestMask = some r ∧ cp.Answers possible p lowestMask r := by
  have hstep : ∀ (cp : Cpupri nr) (o : ℕ × ℤ), cp.Consistent possible →
      possible.getLsbD o.1 ∧ ValidPrio o.2 → ∃ r, cpupriCall cp o = some r ∧
        r.1.Consistent possible := by
    rintro cp o h ⟨hcpu, hprio⟩
    obtain ⟨cp', hset, h'⟩ := cpupriSet_consistent h (mem_cpusOf.mpr hcpu) hprio
    exact ⟨(cp', ()), by rw [cpupriCall, hset]; rfl, h'⟩
  obtain ⟨r, hrun, hr⟩ := runCalls_invariant _ _ hstep (consistent_cpupriInit possible)
    (callsMeet_of_forall hops)
  exact ⟨r.1, by rw [cpupriRun, hrun]; rfl, hr, fun p hp => cpupriFind_spec hr hp⟩

end

/-- Four CPUs : CPU 0 idle, CPU 1 at a normal priority, CPU 2 at real-time priority 50, CPU 3 first
idle and then invalid. A task of real-time priority 10 that may run on the CPUs 1, 2 and 3 gets
CPU 1. -/
theorem cpupriRun_consistent_four :
    ∃ cp, cpupriRun 4 15#4 [(0, 140), (1, 120), (2, 50), (3, 140), (3, -1)] = some cp ∧
      cp.Consistent 15#4 ∧ cpupriFind cp ⟨10, 14#4⟩ (some 0) = some (1, some 2#4) := by
  obtain ⟨cp, hrun, hcons, -⟩ := cpupriRun_consistent 15#4
    [(0, 140), (1, 120), (2, 50), (3, 140), (3, -1)] (by decide)
  have hfind : ((cpupriRun 4 15#4 [(0, 140), (1, 120), (2, 50), (3, 140), (3, -1)]).bind fun cp =>
      cpupriFind cp ⟨10, 14#4⟩ (some 0)) = some (1, some 2#4) := by decide +kernel
  rw [hrun, bind_some] at hfind
  exact ⟨cp, hrun, hcons, hfind⟩

end LinuxKernelTest
