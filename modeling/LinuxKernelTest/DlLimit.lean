import LinuxKernelTest.DlAdmission

/-!
# The global limit of the deadline class

A new global runtime and period go through `sched_dl_global_validate`, which compares the ratio with
`total_bw` of the root domain of every CPU, and `sched_dl_do_global` then gives the ratio to every
root domain and every run queue. Runtimes and periods here are what `global_rt_runtime` and
`global_rt_period` return.

The comparison leaves out the number of CPUs that `__dl_overflow` multiplies by, and takes an
unlimited runtime for one CPU (`schedDlGlobalValidate_exact_iff`). A run queue gets the whole ratio
as its `extra_bw`, whatever has been admitted (`dlHistory_tracks_iff`).
-/

namespace LinuxKernelTest

/-! ## The model -/

/-- `-EBUSY`. -/
def dlBusy : ℤ := -16

/-- `sched_dl_global_validate` over the possible CPUs, where `totalBw cpu` is `total_bw` of
`dl_bw_of(cpu)`. -/
def schedDlGlobalValidate {κ : Type*} (period runtime : BitVec 64) (totalBw : κ → BitVec 64) :
    List κ → ℤ
  | [] => 0
  | cpu :: possible =>
    if toRatio period runtime < totalBw cpu then dlBusy
    else schedDlGlobalValidate period runtime totalBw possible

/-- `new_bw` of `sched_dl_do_global`, and `bw` of `init_dl_bw`. -/
def dlLimit (period runtime : BitVec 64) : BitVec 64 :=
  if runtime ≠ runtimeInf then toRatio period runtime else -1

/-- `extra_bw` of `init_dl_rq_bw_ratio`. -/
def initExtraBw (period runtime : BitVec 64) : BitVec 64 :=
  if runtime = runtimeInf then 1 <<< bwShift else toRatio period runtime

/-- `sched_dl_do_global` on one root domain. -/
def schedDlDoGlobal {cpus : ℕ} (b : DlBw cpus) (period runtime : BitVec 64) : DlBw cpus :=
  { b with bw := dlLimit period runtime, extraBw := fun _ => initExtraBw period runtime }

/-- The number of CPUs of a root domain. -/
def domainCpus {κ δ : Type*} [Fintype κ] [DecidableEq δ] (rd : κ → δ) (d : δ) : ℕ :=
  (Finset.univ.filter fun cpu => rd cpu = d).card

/-- The root domains of a system : the one of each CPU, and their bandwidths. -/
structure DlLayout (κ δ : Type*) [Fintype κ] [DecidableEq δ] where
  rd : κ → δ
  dlB : (d : δ) → DlBw (domainCpus rd d)

/-- The bandwidth of a task that `__checkparam_dl` lets through. -/
abbrev DlReservation : Type :=
  { attr : DlAttr // checkparamDl attr = true ∧ attr.schedFlags &&& schedFlagSugov = 0 }

/-- `dl_bw` of the task. -/
def DlReservation.bw (r : DlReservation) : BitVec 64 := toRatio r.1.period r.1.schedRuntime

/-- One root domain, the ratio of the current limit and what has been admitted. -/
structure DlHistory (cpus : ℕ) where
  dlB : DlBw cpus
  ratio : BitVec 64
  admitted : List DlReservation

/-- What happens to a root domain. -/
inductive DlEvent
  | reserve (r : DlReservation)
  | release (r : DlReservation)
  | setLimit (period runtime : BitVec 64)

section

variable {cpus : ℕ}

/-- `init_dl_bw` and `init_dl_rq`. -/
def DlHistory.start (cpus : ℕ) (period runtime : BitVec 64) : DlHistory cpus where
  dlB := ⟨dlLimit period runtime, 0, fun _ => initExtraBw period runtime⟩
  ratio := toRatio period runtime
  admitted := []

variable (s : DlHistory cpus)

/-- The limit passes `sched_dl_global_validate`. -/
def DlHistory.Passes (period runtime : BitVec 64) : Prop :=
  schedDlGlobalValidate period runtime (fun _ => s.dlB.totalBw) (List.finRange cpus) = 0

instance (s : DlHistory cpus) (period runtime : BitVec 64) : Decidable (s.Passes period runtime) :=
  inferInstanceAs (Decidable (_ = _))

/-- A task that does not fit is refused, only an admitted one is released, and only a limit that
passes is set. -/
def DlHistory.step : DlEvent → DlHistory cpus
  | .reserve r =>
    if dlOverflow s.dlB 0 r.bw then s
    else { s with dlB := dlAdd s.dlB r.bw, admitted := r :: s.admitted }
  | .release r =>
    if r ∈ s.admitted then { s with dlB := dlSub s.dlB r.bw, admitted := s.admitted.erase r }
    else s
  | .setLimit period runtime =>
    if s.Passes period runtime then
      { s with dlB := schedDlDoGlobal s.dlB period runtime, ratio := toRatio period runtime }
    else s

/-- `P` holds in every state of a run. -/
def DlHistory.Always (P : DlHistory cpus → Prop) : DlHistory cpus → List DlEvent → Prop
  | s, [] => P s
  | s, e :: events => P s ∧ Always P (s.step e) events

/-- The shares of the admitted tasks on one CPU. -/
def DlHistory.shares : BitVec 64 :=
  (s.admitted.map fun r => BitVec.ofNat 64 (r.bw.toNat / cpus)).sum

/-- `extra_bw` of each run queue is the ratio less the shares of the admitted tasks. -/
def DlHistory.Tracks : Prop := ∀ i, s.dlB.extraBw i = s.ratio - s.shares

/-- Every limit that is set is set where the shares are zero. -/
def DlHistory.SetsEmpty : DlHistory cpus → List DlEvent → Prop
  | _, [] => True
  | s, e :: events =>
    (∀ period runtime, e = .setLimit period runtime → s.Passes period runtime → s.shares = 0) ∧
      SetsEmpty (s.step e) events

end

/-! ## The limit and the admitted bandwidth -/

theorem schedDlGlobalValidate_eq_busy {κ : Type*} {period runtime : BitVec 64}
    {totalBw : κ → BitVec 64} : ∀ {possible : List κ},
    schedDlGlobalValidate period runtime totalBw possible = dlBusy ↔
      ∃ cpu ∈ possible, toRatio period runtime < totalBw cpu
  | [] => by simp [schedDlGlobalValidate, dlBusy]
  | cpu :: possible => by
    rw [schedDlGlobalValidate, List.exists_mem_cons_iff]
    split_ifs with h
    · exact ⟨fun _ => .inl h, fun _ => rfl⟩
    · rw [schedDlGlobalValidate_eq_busy, or_iff_right h]

section

variable {κ δ : Type*} [Fintype κ] [DecidableEq δ] (L : DlLayout κ δ)

/-- The domain admits more than the new limit times its number of CPUs. -/
def DlLayout.Exceeds (period runtime : BitVec 64) (d : δ) : Prop :=
  runtime ≠ runtimeInf ∧
    (toRatio period runtime).toNat * domainCpus L.rd d < (L.dlB d).totalBw.toNat

/-- The inputs at which `sched_dl_global_validate` is wrong. It compares the domain of a CPU with
the limit of this one CPU, has the limit `2 ^ 20` where there is none, and does not look at domains
without CPUs. -/
inductive DlLayout.Misjudged (period runtime : BitVec 64) : Prop
  | unlimited (cpu : κ) (hinf : runtime = runtimeInf)
      (hbw : 2 ^ 20 < (L.dlB (L.rd cpu)).totalBw.toNat)
  | shared (cpu : κ) (hlim : runtime ≠ runtimeInf)
      (hbw : (toRatio period runtime).toNat < (L.dlB (L.rd cpu)).totalBw.toNat)
      (hfits : ∀ d, (L.dlB d).totalBw.toNat ≤ (toRatio period runtime).toNat * domainCpus L.rd d)
  | empty (d : δ) (hlim : runtime ≠ runtimeInf) (hd : domainCpus L.rd d = 0)
      (hbw : 0 < (L.dlB d).totalBw.toNat)
      (hfits : ∀ cpu, (L.dlB (L.rd cpu)).totalBw.toNat ≤ (toRatio period runtime).toNat)

variable {L} {period runtime : BitVec 64}

/-- `__dl_overflow` with the new limit and no further task. -/
theorem dlOverflow_schedDlDoGlobal (hcpus : Fintype.card κ < 2 ^ 31)
    (h : runtime = runtimeInf ∨ runtime.toNat ≤ period.toNat ∧ runtime.toNat < 2 ^ 44) (d : δ) :
    dlOverflow (schedDlDoGlobal (L.dlB d) period runtime) 0 0 = true ↔
      L.Exceeds period runtime d := by
  rw [dlOverflow, decide_eq_true_iff, schedDlDoGlobal, dlLimit, DlLayout.Exceeds]
  rcases h with rfl | ⟨hle, hlt⟩
  · simp
  have hinf : runtime ≠ runtimeInf := by
    rintro rfl
    exact absurd hlt (by decide)
  have hratio := toNat_toRatio_le hle
  have hne : toRatio period runtime ≠ -1 := by
    intro heq
    rw [heq] at hratio
    exact absurd hratio (by decide)
  have hcard : domainCpus L.rd d < 2 ^ 31 := (Finset.card_le_univ _).trans_lt hcpus
  have hprod : (toRatio period runtime).toNat * domainCpus L.rd d < 2 ^ 64 :=
    calc (toRatio period runtime).toNat * domainCpus L.rd d
        ≤ 2 ^ bwShift * 2 ^ 31 := Nat.mul_le_mul hratio hcard.le
      _ < 2 ^ 64 := by decide
  rw [if_pos hinf, and_iff_right hne, and_iff_right hinf, sub_zero, add_zero, BitVec.lt_def,
    BitVec.toNat_mul, BitVec.toNat_ofNat,
    Nat.mod_eq_of_lt (show domainCpus L.rd d < 2 ^ 64 by omega), Nat.mod_eq_of_lt hprod]

/-- A domain with CPUs that admits more than its limit admits more than the limit of one CPU. -/
theorem DlLayout.Exceeds.lt {d : δ} (h : L.Exceeds period runtime d)
    (hpos : domainCpus L.rd d ≠ 0) :
    ∃ cpu, (toRatio period runtime).toNat < (L.dlB (L.rd cpu)).totalBw.toNat := by
  obtain ⟨cpu, hcpu⟩ := Finset.card_ne_zero.mp hpos
  obtain rfl := (Finset.mem_filter.mp hcpu).2
  exact ⟨cpu, (Nat.le_mul_of_pos_right _ (Nat.pos_of_ne_zero hpos)).trans_lt h.2⟩

/-- A limit is refused exactly where it is exceeded, but for the inputs that are misjudged. -/
theorem schedDlGlobalValidate_exact_iff (hcpus : Fintype.card κ < 2 ^ 31)
    (h : runtime = runtimeInf ∨ runtime.toNat ≤ period.toNat ∧ runtime.toNat < 2 ^ 44)
    {possible : List κ} (hall : ∀ cpu, cpu ∈ possible) :
    (schedDlGlobalValidate period runtime (fun cpu => (L.dlB (L.rd cpu)).totalBw) possible =
        dlBusy ↔
      ∃ d, dlOverflow (schedDlDoGlobal (L.dlB d) period runtime) 0 0 = true) ↔
    ¬L.Misjudged period runtime := by
  simp only [schedDlGlobalValidate_eq_busy, dlOverflow_schedDlDoGlobal hcpus h, hall, true_and,
    BitVec.lt_def]
  constructor
  · rintro hiff (⟨cpu, rfl, hbw⟩ | ⟨cpu, hlim, hbw, hfits⟩ | ⟨d, hlim, hd, hbw, hfits⟩)
    · obtain ⟨d, hne, -⟩ := hiff.mp ⟨cpu, hbw⟩
      exact hne rfl
    · obtain ⟨d, -, hd⟩ := hiff.mp ⟨cpu, hbw⟩
      exact (hfits d).not_gt hd
    · obtain ⟨cpu, hcpu⟩ := hiff.mpr ⟨d, hlim, (Nat.mul_eq_zero.mpr (.inr hd)).trans_lt hbw⟩
      exact (hfits cpu).not_gt hcpu
  · intro hjudged
    refine ⟨fun ⟨cpu, hcpu⟩ => ?_, fun ⟨d, hd⟩ => ?_⟩
    · by_contra! hno
      by_cases hinf : runtime = runtimeInf
      · subst hinf
        exact hjudged (.unlimited cpu rfl hcpu)
      · exact hjudged (.shared cpu hinf hcpu fun d => not_lt.mp fun hd => hno d ⟨hinf, hd⟩)
    · by_cases hpos : domainCpus L.rd d = 0
      · by_contra! hno
        exact hjudged (.empty d hd.1 hpos (Nat.zero_lt_of_lt hd.2) hno)
      · exact hd.lt hpos

end

/-- Two CPUs in one root domain that has admitted 1.43 CPUs. -/
def dlPair : DlLayout (Fin 2) Unit where
  rd _ := ()
  dlB _ := ⟨996147, 1500000, fun _ => 0⟩

/-- The limit of one CPU for each of them is refused, as the total is compared with one CPU. -/
theorem schedDlGlobalValidate_pair :
    schedDlGlobalValidate 1000000000 1000000000
        (fun cpu => (dlPair.dlB (dlPair.rd cpu)).totalBw) [0, 1] = dlBusy ∧
      ∀ d, dlOverflow (schedDlDoGlobal (dlPair.dlB d) 1000000000 1000000000) 0 0 = false := by
  decide +kernel

/-- A limit of half a CPU for each of them is refused, and exceeded. -/
theorem schedDlGlobalValidate_exact_pair :
    schedDlGlobalValidate 1000000000 500000000
        (fun cpu => (dlPair.dlB (dlPair.rd cpu)).totalBw) [0, 1] = dlBusy ↔
      ∃ d, dlOverflow (schedDlDoGlobal (dlPair.dlB d) 1000000000 500000000) 0 0 = true :=
  (schedDlGlobalValidate_exact_iff (by decide) (.inr (by decide)) (by decide)).mpr fun
    | .unlimited _ hinf _ => absurd hinf (by decide)
    | .shared _ _ _ hfits => absurd (hfits ()) (by decide +kernel)
    | .empty () _ hd _ _ => absurd hd (by decide)

/-! ## The shares of the admitted tasks -/

section

variable {cpus : ℕ} {s : DlHistory cpus}

theorem initExtraBw_eq (period runtime : BitVec 64) :
    initExtraBw period runtime = toRatio period runtime := by
  rw [initExtraBw, toRatio]
  split_ifs <;> rfl

/-- A task asks for at most a CPU, so the conversion to `s32` is exact. -/
theorem bwShare_bw (hpos : 0 < cpus) (hcpus : cpus < 2 ^ 31) (r : DlReservation) :
    bwShare cpus r.bw = BitVec.ofNat 64 (r.bw.toNat / cpus) := by
  have hle : r.bw.toNat ≤ 2 ^ 20 := toNat_toRatio_le (period_of_checkparamDl r.2.1 r.2.2).2
  have hbw : (r.bw.setWidth 32).toNat = r.bw.toNat := by
    rw [BitVec.toNat_setWidth, Nat.mod_eq_of_lt (by omega)]
  have hnum : (BitVec.ofNat 32 cpus).toNat = cpus := by
    rw [BitVec.toNat_ofNat, Nat.mod_eq_of_lt (by omega)]
  have hdiv : r.bw.toNat / cpus ≤ r.bw.toNat := Nat.div_le_self _ _
  have hquot : ((r.bw.setWidth 32).sdiv (BitVec.ofNat 32 cpus)).toNat = r.bw.toNat / cpus := by
    rw [BitVec.sdiv_eq, BitVec.msb_eq_false_iff_two_mul_lt.mpr (by omega),
      BitVec.msb_eq_false_iff_two_mul_lt.mpr (by omega), BitVec.udiv_eq, BitVec.toNat_udiv, hbw,
      hnum]
  apply BitVec.eq_of_toNat_eq
  rw [bwShare, BitVec.signExtend_eq_setWidth_of_msb_false
    (BitVec.msb_eq_false_iff_two_mul_lt.mpr (by omega)), BitVec.toNat_setWidth, hquot,
    BitVec.toNat_ofNat]

theorem tracks_step_iff (hpos : 0 < cpus) (hcpus : cpus < 2 ^ 31) (h : s.Tracks) (e : DlEvent) :
    (s.step e).Tracks ↔
      ∀ period runtime, e = .setLimit period runtime → s.Passes period runtime → s.shares = 0 := by
  cases e with
  | reserve r =>
    refine iff_of_true ?_ (by rintro _ _ ⟨⟩)
    rw [DlHistory.step]
    split_ifs
    · exact h
    · intro i
      simp only [dlAdd, dlUpdate, DlHistory.shares, List.map_cons, List.sum_cons,
        bwShare_bw hpos hcpus]
      rw [h i, DlHistory.shares]
      abel
  | release r =>
    refine iff_of_true ?_ (by rintro _ _ ⟨⟩)
    rw [DlHistory.step]
    split_ifs with hr
    · intro i
      have hsum := (List.perm_cons_erase hr).map fun r : DlReservation =>
        BitVec.ofNat 64 (r.bw.toNat / cpus)
      simp only [dlSub, dlUpdate, DlHistory.shares, bwShare_bw hpos hcpus]
      rw [h i, DlHistory.shares, hsum.sum_eq, List.map_cons, List.sum_cons]
      abel
    · exact h
  | setLimit period runtime =>
    rw [DlHistory.step]
    split_ifs with hpass
    · -- Each run queue has got the ratio itself.
      have hextra : ∀ i, (schedDlDoGlobal s.dlB period runtime).extraBw i =
          toRatio period runtime := fun _ => initExtraBw_eq period runtime
      constructor
      · rintro htracks _ _ ⟨⟩ -
        have heq := htracks ⟨0, hpos⟩
        rw [hextra, eq_comm, sub_eq_self] at heq
        exact heq
      · intro hzero i
        rw [hextra, eq_comm, sub_eq_self]
        exact hzero period runtime rfl hpass
    · refine iff_of_true h ?_
      rintro _ _ ⟨⟩ hpass'
      exact absurd hpass' hpass

theorem always_tracks_iff (hpos : 0 < cpus) (hcpus : cpus < 2 ^ 31) :
    ∀ {events : List DlEvent} {s : DlHistory cpus}, s.Tracks →
      (DlHistory.Always DlHistory.Tracks s events ↔ s.SetsEmpty events)
  | [], _, h => iff_of_true h trivial
  | e :: events, s, h => by
    rw [DlHistory.Always, DlHistory.SetsEmpty, and_iff_right h, ← tracks_step_iff hpos hcpus h e]
    constructor
    · intro halways
      have hstep : (s.step e).Tracks := by
        cases events with
        | nil => exact halways
        | cons => exact halways.1
      exact ⟨hstep, (always_tracks_iff hpos hcpus hstep).mp halways⟩
    · rintro ⟨hstep, hrest⟩
      exact (always_tracks_iff hpos hcpus hstep).mpr hrest

/-- `extra_bw` tracks the admitted tasks in every state of a run exactly if the limit is only set
where their shares are zero. -/
theorem dlHistory_tracks_iff (hpos : 0 < cpus) (hcpus : cpus < 2 ^ 31) (period runtime : BitVec 64)
    (events : List DlEvent) :
    DlHistory.Always DlHistory.Tracks (DlHistory.start cpus period runtime) events ↔
      (DlHistory.start cpus period runtime).SetsEmpty events := by
  refine always_tracks_iff hpos hcpus fun i => ?_
  exact (initExtraBw_eq period runtime).trans (sub_zero _).symm

end

/-- A task of 10% of a CPU. -/
def dlTenth : DlReservation := ⟨⟨0, 10000000, 100000000, 0⟩, by decide⟩

/-- Where the limit is set again after the task has been released, `extra_bw` stays right. -/
theorem dlHistory_tracks_released :
    DlHistory.Always DlHistory.Tracks (DlHistory.start 1 1000000000 950000000)
      [.reserve dlTenth, .release dlTenth, .setLimit 1000000000 900000000] := by
  refine (dlHistory_tracks_iff (by decide) (by decide) _ _ _).mpr ⟨?_, ?_, ?_, trivial⟩
  · rintro _ _ ⟨⟩
  · rintro _ _ ⟨⟩
  · rintro _ _ - -
    decide +kernel

/-- Setting the limit gives the bandwidth of an admitted task back to its CPU. -/
theorem dlHistory_forgets :
    ¬DlHistory.Always DlHistory.Tracks (DlHistory.start 1 1000000000 950000000)
      [.reserve dlTenth, .setLimit 1000000000 900000000] := by
  intro h
  have hlast := h.2.2
  exact absurd (hlast 0) (by decide +kernel)

end LinuxKernelTest
