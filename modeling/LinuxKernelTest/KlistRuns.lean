import LinuxKernelTest.Klist

/-!
# Runs of a klist and its iterators

Every step keeps the invariant of `Klist`, whatever the other threads have done before it
(`Holds.step`). `klist_prev` is `klist_next` on the ring followed along the other links, so there is
one proof for both (`klistPrev_eq`).

For an iterator that only calls `klist_next`, the nodes that it has returned and those behind its
place, restricted to the nodes that are never deleted, are always the same list : steps of others
only add nodes that were not there and remove deleted ones (`Edits`), and a call moves one node
from one part to the other (`iterate`). With this `klist_run` says that no node is missed or
repeated.

The counts are exact as long as they do not wrap, and as long as every iterator begins at the head
of the list. One that `klist_iter_init_node` puts on a node has no reference, and gives one back
that it does not own (`klist_iter_uncounted`).
-/

set_option linter.unusedSectionVars false

namespace LinuxKernelTest

open Function List ListHeads

namespace Klist

variable {ν ι : Type*} [DecidableEq ν] [DecidableEq ι] [Fintype ι]
  {s s' : Klist ν ι} {l l' l1 l2 : List ν} {extra : Option ν} {n pos : ν} {i : ι} {fuel : ℕ}
  {o : Step ν ι} {W : ν → Bool}

/-! ## The other direction -/

/-- The same list with the two directions exchanged. -/
def flip (s : Klist ν ι) : Klist ν ι := { s with links := ⟨s.links.prev, s.links.next⟩ }

theorem Holds.flip (h : s.Holds l extra) : s.flip.Holds l.reverse extra where
  ring := by
    rw [map_reverse]
    exact h.ring.flip
  mem_iff n := by
    rw [mem_reverse]
    exact h.mem_iff n
  count := h.count
  live := h.live
  dead n hn := h.dead n (mem_reverse.mp hn)
  stands j n hj := mem_reverse.mpr (h.stands j n hj)

theorem klistDecAndDel_flip (s : Klist ν ι) (n : ν) :
    s.flip.klistDecAndDel n = (s.klistDecAndDel n).flip := by
  symm
  exact apply_ite flip (s.ref n - 1 = 0) _ _

/-- `klist_prev` is `klist_next` in the other direction. -/
theorem klistPrev_eq (fuel : ℕ) (s : Klist ν ι) (i : ι) :
    klistPrev fuel s i = (klistNext fuel s.flip i).map fun r => (r.1.flip, r.2) := by
  have hleft : (s.cur i).elim s.flip s.flip.klistDecAndDel =
      ((s.cur i).elim s s.klistDecAndDel).flip := by
    cases s.cur i with
    | none => rfl
    | some n => exact klistDecAndDel_flip s n
  rw [klistPrev, klistNext, walk, walk]
  have hcur : s.flip.cur = s.cur := rfl
  simp only [hcur, hleft, Option.map_map]
  congr 1
  funext found
  cases found <;> rfl

/-! ## Steps of the callers -/

theorem Holds.not_mem (h : s.Holds l extra) (hn : ¬ s.Known n) : n ∉ l := fun hmem =>
  hn (h.known hmem)

theorem not_known_of_ready (hn : s.phase n = .ready) : ¬ s.Known n := by
  rintro (h | h) <;> rw [hn] at h <;> cases h

theorem not_known_of_fresh (hn : s.phase n = .fresh) : ¬ s.Known n := by
  rintro (h | h) <;> rw [hn] at h <;> cases h

theorem Holds.standing_eq_zero (h : s.Holds l extra) (hn : n ∉ l) : s.standing n = 0 :=
  standing_eq_zero_iff.mpr fun j hj => hn (h.stands j n hj)

/-- `klist_node_init` of a node that nobody has used. -/
theorem Holds.nodeInit (h : s.Holds l none) (hn : s.phase n = .fresh) :
    (s.klistNodeInit n).Holds l none := by
  have hnl := h.not_mem (not_known_of_fresh hn)
  have hphase : (s.klistNodeInit n).phase n = .ready := update_self _ _ _
  refine h.of_off (n := n) rfl (h.ring.set (by simpa using hnl) _ _) (fun m hm => ?_)
    (iff_of_false hnl fun hm => not_known_of_ready hphase hm.1) (fun _ => ?_)
    (fun _ => update_self _ _ _) (fun hm => absurd hm hnl) fun i => h.stands i n
  · simp [klistNodeInit, hm]
  · rw [own, hphase, h.standing_eq_zero hnl]
    simp [klistNodeInit]

/-- A section that links a node. -/
theorem Holds.link (h : s.Holds (l1 ++ l2) none) (hn : s.phase n = .ready)
    {links : ListHeads (KlistLink ν)} (hring : links.Ring (.list :: (l1 ++ n :: l2).map .node)) :
    (s.linkNode n links).Holds (l1 ++ n :: l2) none := by
  have hphase : (s.linkNode n links).phase n = .added := update_self _ _ _
  have hcount := h.count n (by rw [hn]; decide)
  have hin : n ∈ l1 ++ n :: l2 := by simp
  refine h.of_off rfl hring (fun m hm => ?_) (iff_of_true hin ⟨.inl hphase, fun hzero => ?_⟩)
    (fun _ => ?_) (fun _ => h.live n (.inl hn)) (fun _ hdel => ?_) fun _ _ => hin
  · simp [linkNode, hm]
  · have hzero' : s.ref n = 0 := hzero
    rw [own, hn, hzero', show (0 : BitVec 32).toNat = 0 by decide, if_neg (by decide)] at hcount
    omega
  · rw [show (s.linkNode n links).ref n = s.ref n from rfl, own, hphase, hcount, own, hn]
    simp
  · rw [hphase] at hdel
    cases hdel

theorem Holds.addHead (h : s.Holds l none) (hn : s.phase n = .ready) :
    (s.addHead n).Holds (n :: l) none := by
  have hnl := h.not_mem (not_known_of_ready hn)
  have h' : s.Holds ([] ++ l) none := h
  exact h'.link hn (h.ring.add (by simpa using hnl))

theorem Holds.addTail (h : s.Holds l none) (hn : s.phase n = .ready) :
    (s.addTail n).Holds (l ++ [n]) none := by
  have hnl := h.not_mem (not_known_of_ready hn)
  have hring : s.links.Ring ((.list :: l.map .node) ++ []) := by simpa using h.ring
  refine Holds.link (by simpa using h) hn ?_
  simpa using hring.insert (x := .list) (by rfl) (by simpa using hnl)

theorem Holds.addBehind (h : s.Holds (l1 ++ pos :: l2) none) (hn : s.phase n = .ready) :
    (s.klistAddBehind n pos).Holds (l1 ++ [pos] ++ n :: l2) none := by
  have hnl := h.not_mem (not_known_of_ready hn)
  refine Holds.link (by simpa using h) hn ?_
  simpa using h.ring_at.insertBehind (by simpa using hnl)

theorem Holds.addBefore (h : s.Holds (l1 ++ pos :: l2) none) (hn : s.phase n = .ready) :
    (s.klistAddBefore n pos).Holds (l1 ++ n :: pos :: l2) none := by
  have hnl := h.not_mem (not_known_of_ready hn)
  refine Holds.link (by simpa using h) hn ?_
  simpa using h.ring_at.insert (by rfl) (by simpa using hnl)

/-- `klist_del` of a node that is not deleted. -/
theorem Holds.del (h : s.Holds l none) (hn : s.phase n = .added) :
    ∃ l', (s.klistDel n).Holds l' none ∧ Edits s (s.klistDel n) l l' := by
  have hs : s.klistDel n = (s.kill n).klistDecAndDel n := by
    rw [klistDel, klistPut, if_pos rfl]
    exact apply_ite (fun t : Klist ν ι => { t with phase := update s.phase n .deleted })
      (s.ref n - 1 = 0) _ _
  have hne : s.phase n ≠ .fresh := by rw [hn]; decide
  have hnl : n ∈ l := by
    refine (h.mem_iff n).mpr ⟨.inl hn, fun h0 => ?_⟩
    have hcount := h.count n hne
    rw [own, hn, h0, show (0 : BitVec 32).toNat = 0 by decide, if_neg (by decide)] at hcount
    omega
  have hkill := h.kill hn
  have hphase : (s.klistDel n).phase n = .deleted := update_self _ _ _
  rw [hs] at hphase ⊢
  by_cases hlast : s.ref n - 1 = 0
  · obtain ⟨l1, l2, rfl⟩ := append_of_mem hnl
    exact ⟨l1 ++ l2, (hkill.dropLast hlast).1, .inr (.inr ⟨l1, l2, n, rfl, rfl, hphase⟩)⟩
  · exact ⟨l, hkill.dropSome hnl hlast, .inl rfl⟩

/-! ## One step -/

/-- The iterator that a step is about. -/
def Step.iter : Step ν ι → Option ι
  | .iterInit i => some i
  | .iterInitNode i _ _ => some i
  | .next i => some i
  | .prev i => some i
  | .iterExit i => some i
  | _ => none

/-- What a step does, from a state with the nodes `l` to `r` with the nodes `l'`. -/
structure Progress (s : Klist ν ι) (l : List ν) (o : Step ν ι) (r : Klist ν ι × Option ν)
    (l' : List ν) : Prop where
  holds : r.1.Holds l' none
  edits : Edits s r.1 l l'
  returned : ∀ n, r.2 = some n → s.phase n = .added ∧ r.1.phase n = .added
  known : ∀ n, s.Known n → r.1.Known n
  deleted : ∀ n, s.phase n = .deleted → r.1.phase n = .deleted
  others : ∀ i, o.iter ≠ some i → r.1.cur i = s.cur i

theorem Edits.length_le (h : Edits s s' l l') : l'.length ≤ l.length + 1 := by
  rcases h with rfl | ⟨l1, l2, n, rfl, rfl, -⟩ | ⟨l1, l2, n, rfl, rfl, -⟩ <;> simp <;> omega

/-- A step that changes the phase of no node. -/
theorem Progress.of_phase {r : Klist ν ι × Option ν} (hholds : r.1.Holds l' none)
    (hedits : Edits s r.1 l l') (hphase : r.1.phase = s.phase)
    (hret : ∀ n, r.2 = some n → s.phase n = .added)
    (hothers : ∀ i, o.iter ≠ some i → r.1.cur i = s.cur i) : Progress s l o r l' where
  holds := hholds
  edits := hedits
  returned n hn := ⟨hret n hn, by rw [hphase]; exact hret n hn⟩
  known n hn := by
    rw [Known, hphase]
    exact hn
  deleted n hn := by rw [hphase]; exact hn
  others := hothers

/-- A step that moves the node `n` on to the phase `p`. -/
theorem Progress.of_update {t : Klist ν ι} {p : KnodePhase}
    (hholds : t.Holds l' none) (hedits : Edits s t l l')
    (hphase : t.phase = update s.phase n p) (hcur : t.cur = s.cur)
    (hknown : s.Known n → p = .added ∨ p = .deleted) (hdel : s.phase n ≠ .deleted) :
    Progress s l o (t, none) l' where
  holds := hholds
  edits := hedits
  returned m hm := by cases hm
  known m hm := by
    have hknown' : update s.phase n p m = .added ∨ update s.phase n p m = .deleted := by
      by_cases hmn : m = n
      · rw [hmn, update_self]
        exact hknown (hmn ▸ hm)
      · rw [update_of_ne hmn]
        exact hm
    rw [← hphase] at hknown'
    exact hknown'
  deleted m hm := by
    have hmn : m ≠ n := by rintro rfl; exact hdel hm
    rw [hphase, update_of_ne hmn]
    exact hm
  others i _ := by rw [hcur]

/-- `klist_next` as a step. -/
theorem Holds.next (h : s.Holds l none) (hι : Fintype.card ι + 2 < 2 ^ 32) (hfuel : l.length < fuel)
    (i : ι) : ∃ s' l' found, klistNext fuel s i = some (s', found) ∧
      found = ((behind (s.cur i) l).find? fun n => s.phase n = .added) ∧
      s'.cur = update s.cur i found ∧ Progress s l (.next i) (s', found) l' ∧
      ∃ A', l' = A' ++ behind (s.cur i) l := by
  obtain ⟨s', l', found, hstep, hfound, hholds, hphase, hcur, A, A', hl, hl', hA⟩ :=
    klistNext_spec h hι hfuel i
  refine ⟨s', l', found, hstep, hfound, hcur, Progress.of_phase hholds ?_ hphase ?_ ?_, A', hl'⟩
  · rcases hA with rfl | ⟨A1, n, rfl, rfl, hdel⟩
    · exact .inl (hl'.trans hl.symm)
    · refine .inr (.inr ⟨A', behind (s.cur i) l, n, by simpa using hl, hl', ?_⟩)
      rw [hphase]
      exact hdel
  · exact fun n hn => by simpa using List.find?_some (hfound.symm.trans hn)
  · intro j hj
    have hji : j ≠ i := by rintro rfl; exact hj rfl
    rw [hcur, update_of_ne hji]

theorem Edits.flip (h : Edits s.flip s' l.reverse l') : Edits s s'.flip l l'.reverse := by
  rcases h with rfl | ⟨l1, l2, n, hl, rfl, hn⟩ | ⟨l1, l2, n, hl, rfl, hn⟩
  · exact .inl (reverse_reverse l)
  · refine .inr (.inl ⟨l2.reverse, l1.reverse, n, ?_, by simp, hn⟩)
    rw [← reverse_reverse l, hl, reverse_append]
  · refine .inr (.inr ⟨l2.reverse, l1.reverse, n, ?_, by simp, hn⟩)
    rw [← reverse_reverse l, hl]
    simp

/-- `klist_prev` as a step. -/
theorem Holds.prev (h : s.Holds l none) (hι : Fintype.card ι + 2 < 2 ^ 32) (hfuel : l.length < fuel)
    (i : ι) : ∃ r l', klistPrev fuel s i = some r ∧ Progress s l (.prev i) r l' := by
  obtain ⟨s', l', found, hstep, -, -, hp, -⟩ := h.flip.next hι (by simpa using hfuel) i
  refine ⟨(s'.flip, found), l'.reverse, by rw [klistPrev_eq, hstep]; rfl, ?_⟩
  exact ⟨hp.holds.flip, hp.edits.flip, hp.returned, hp.known, hp.deleted, hp.others⟩

/-- An iterator that stands on no node is initialised to stand on no node. -/
theorem Holds.initNone (h : s.Holds l none) (hc : s.cur i = none) :
    ∃ r l', some (s.setCur i none, none) = some r ∧ Progress s l o r l' := by
  have hcur : update s.cur i none = s.cur := by rw [← hc, update_eq_self]
  have hs : s.setCur i none = s := by simp only [setCur, hcur]
  refine ⟨_, l, rfl, Progress.of_phase (hs.symm ▸ h) (.inl rfl) rfl (fun n hn => (by cases hn)) ?_⟩
  intro j _
  rw [hs]

/-- Every step keeps the invariant. -/
theorem Holds.step (h : s.Holds l none) (hι : Fintype.card ι + 2 < 2 ^ 32) (hfuel : l.length < fuel)
    (ho : s.StepOk o) : ∃ r l', step fuel s o = some r ∧ Progress s l o r l' := by
  cases o with
  | nodeInit n =>
    have hn : s.phase n = .fresh := ho
    refine ⟨_, l, rfl, Progress.of_update (h.nodeInit hn) (.inl rfl) rfl rfl ?_ (by simp [hn])⟩
    exact fun hk => absurd hk (not_known_of_fresh hn)
  | addHead n =>
    have hn : s.phase n = .ready := ho
    exact ⟨_, _, rfl, Progress.of_update (h.addHead hn) (.inr (.inl ⟨[], l, n, rfl, rfl, hn⟩)) rfl
      rfl (fun _ => .inl rfl) (by simp [hn])⟩
  | addTail n =>
    have hn : s.phase n = .ready := ho
    exact ⟨_, _, rfl, Progress.of_update (h.addTail hn)
      (.inr (.inl ⟨l, [], n, (append_nil l).symm, rfl, hn⟩)) rfl rfl (fun _ => .inl rfl)
      (by simp [hn])⟩
  | addBehind n pos =>
    obtain ⟨hn, hpos⟩ : s.phase n = .ready ∧ s.Known pos ∧ s.ref pos ≠ 0 := ho
    obtain ⟨l1, l2, rfl⟩ := append_of_mem ((h.mem_iff pos).mpr hpos)
    exact ⟨_, _, rfl, Progress.of_update (h.addBehind hn)
      (.inr (.inl ⟨l1 ++ [pos], l2, n, by simp, rfl, hn⟩)) rfl rfl (fun _ => .inl rfl)
      (by simp [hn])⟩
  | addBefore n pos =>
    obtain ⟨hn, hpos⟩ : s.phase n = .ready ∧ s.Known pos ∧ s.ref pos ≠ 0 := ho
    obtain ⟨l1, l2, rfl⟩ := append_of_mem ((h.mem_iff pos).mpr hpos)
    exact ⟨_, _, rfl, Progress.of_update (h.addBefore hn)
      (.inr (.inl ⟨l1, pos :: l2, n, rfl, rfl, hn⟩)) rfl rfl (fun _ => .inl rfl) (by simp [hn])⟩
  | del n =>
    have hn : s.phase n = .added := ho
    obtain ⟨l', hl', hedits⟩ := h.del hn
    refine ⟨_, l', rfl, Progress.of_update hl' hedits rfl ?_ (fun _ => .inr rfl) (by simp [hn])⟩
    exact klistDecAndDel_cur _ n
  | iterInit i => exact h.initNone ho
  | iterInitNode i n got =>
    obtain ⟨hc, rfl⟩ : s.cur i = none ∧ got = false := ho
    exact h.initNone hc
  | next i =>
    obtain ⟨s', l', found, hstep, -, -, hp, -⟩ := h.next hι hfuel i
    exact ⟨(s', found), l', hstep, hp⟩
  | prev i => exact h.prev hι hfuel i
  | iterExit i =>
    have hothers : ∀ j, (Step.iterExit i : Step ν ι).iter ≠ some j →
        (s.klistIterExit i).cur j = s.cur j := fun j hj => by
      have hji : j ≠ i := by rintro rfl; exact hj rfl
      rw [klistIterExit_eq, leave_cur, update_of_ne hji]
    have hphase : (s.klistIterExit i).phase = s.phase := by rw [klistIterExit_eq, leave_phase]
    obtain ⟨l', A, A', hl', hl, hl'', -, hA⟩ := h.leave_behind i
    refine ⟨_, l', rfl, Progress.of_phase ?_ ?_ hphase (fun n hn => (by cases hn)) hothers⟩
    · rw [klistIterExit_eq]
      exact hl'
    · rcases hA with rfl | ⟨A1, n, rfl, rfl, hdel⟩
      · exact .inl (hl''.trans hl.symm)
      · refine .inr (.inr ⟨A', behind (s.cur i) l, n, by simpa using hl, hl'', ?_⟩)
        rw [hphase]
        exact hdel

/-! ## Runs -/

/-- What a run does. -/
theorem Holds.run (hι : Fintype.card ι + 2 < 2 ^ 32) : ∀ {ops : List (Step ν ι)} {s : Klist ν ι}
    {l : List ν}, s.Holds l none → l.length + ops.length < fuel →
      CallsMeet (Klist.step fuel) StepOk s ops →
      ∃ r l', runCalls (Klist.step fuel) s ops = some r ∧ r.1.Holds l' none ∧
        l'.length ≤ l.length + ops.length ∧ (∀ n, s.Known n → r.1.Known n) ∧
        ∀ n, s.phase n = .deleted → r.1.phase n = .deleted
  | [], s, l, h, _, _ => ⟨(s, []), l, rfl, h, le_rfl, fun _ => id, fun _ => id⟩
  | o :: ops, s, l, h, hfuel, hok => by
    rw [length_cons] at hfuel
    obtain ⟨r1, l1, hs1, hp⟩ := h.step hι (show l.length < fuel by omega) hok.1
    have hlen := hp.edits.length_le
    obtain ⟨r, l', hrun, hl', hlen', hknown, hdel⟩ := Holds.run hι hp.holds
      (show l1.length + ops.length < fuel by omega) (hok.2 _ hs1)
    refine ⟨(r.1, r1.2 :: r.2), l', by rw [runCalls_cons hs1, hrun]; rfl, hl', ?_,
      fun n hn => hknown n (hp.known n hn), fun n hn => hdel n (hp.deleted n hn)⟩
    rw [length_cons]
    omega

/-! ## An iteration -/

/-- An edit of the list by others does not change which of the nodes that stay are behind the
iterator. -/
theorem Edits.behind_eq (he : Edits s s' l l') (h : s.Holds l none) (h' : s'.Holds l' none)
    (hcur : s'.cur i = s.cur i)
    (hW : ∀ n, W n = true → s.phase n = .added ∧ s'.phase n = .added) :
    (behind (s'.cur i) l').filter W = (behind (s.cur i) l).filter W := by
  obtain ⟨V, hV⟩ : ∃ V : ν → Bool, ∀ n, V n = true ↔ W n = true ∨ s.cur i = some n :=
    ⟨fun n => W n || decide (s.cur i = some n), fun n => by simp⟩
  have hVW : ∀ n, W n = true → V n = true := fun n hn => (hV n).mpr (.inl hn)
  have hVc : ∀ n, s.cur i = some n → V n = true := fun n hn => (hV n).mpr (.inr hn)
  have hsame : l'.filter V = l.filter V := by
    rcases he with rfl | ⟨l1, l2, n, rfl, rfl, hn⟩ | ⟨l1, l2, n, rfl, rfl, hn⟩
    · rfl
    · have hno : ¬ V n = true := by
        rw [hV]
        rintro (hWn | hc)
        · rw [(hW n hWn).1] at hn
          cases hn
        · exact not_known_of_ready hn (h.known (h.stands i n hc))
      rw [filter_append, filter_cons_of_neg hno, filter_append]
    · have hno : ¬ V n = true := by
        rw [hV]
        rintro (hWn | hc)
        · rw [(hW n hWn).2] at hn
          cases hn
        · have hmem := h'.stands i n (hcur.trans hc)
          exact (nodup_cons.mp (nodup_middle.mp h.nodup)).1 hmem
      rw [filter_append, filter_append, filter_cons_of_neg hno]
  rw [hcur, ← behind_filter hVW hVc l', hsame, behind_filter hVW hVc l]

/-- `klist_next` returns the first node behind the iterator that is not deleted, and only deleted
nodes are between the places. -/
theorem Holds.next_behind (h : s.Holds l none) (hι : Fintype.card ι + 2 < 2 ^ 32)
    (hfuel : l.length < fuel) (i : ι) (hW : ∀ n, W n = true → s.phase n = .added) :
    ∃ r l', klistNext fuel s i = some r ∧ Progress s l (.next i) r l' ∧
      (r.2 = none → (behind (s.cur i) l).filter W = []) ∧
      ∀ n, r.2 = some n →
        (behind (s.cur i) l).filter W = [n].filter W ++ (behind (r.1.cur i) l').filter W := by
  obtain ⟨s', l', found, hstep, hfound, hcur, hp, A', hl'⟩ := h.next hι hfuel i
  refine ⟨(s', found), l', hstep, hp, fun hnone => ?_, fun n hsome => ?_⟩
  · refine filter_eq_nil_iff.mpr fun n hn hWn => ?_
    have := List.find?_eq_none.mp (hfound.symm.trans hnone) n hn
    exact this (decide_eq_true (hW n hWn))
  obtain ⟨-, B1, B2, hB, hskip⟩ := List.find?_eq_some_iff_append.mp (hfound.symm.trans hsome)
  have hnil : B1.filter W = [] := filter_eq_nil_iff.mpr fun m hm hWm => by
    have := hskip m hm
    simp [hW m hWm] at this
  have hbehind : behind (s'.cur i) l' = B2 := by
    have hnodup := hp.holds.nodup
    rw [hl', hB, ← append_assoc] at hnodup ⊢
    rw [hcur, update_self, show found = some n from hsome]
    refine behind_append fun hmem => ?_
    exact (nodup_cons.mp (nodup_middle.mp hnodup)).1 (mem_append_left _ hmem)
  show (behind (s.cur i) l).filter W = _
  rw [hbehind, hB, filter_append, hnil, nil_append, ← filter_append]
  rfl

/-- What the iterator has been given by its calls of `klist_next`. -/
def returned (i : ι) (ops : List (Step ν ι)) (answers : List (Option ν)) : List (Option ν) :=
  (ops.zip answers).filterMap fun x => if x.1 = .next i then some x.2 else none

/-- An iteration with `klist_next` to the end of the list, from any place, whatever the others do
meanwhile. -/
theorem iterate (hι : Fintype.card ι + 2 < 2 ^ 32) (i : ι) :
    ∀ {ops : List (Step ν ι)} {s s' : Klist ν ι} {l R : List ν} {answers : List (Option ν)},
      s.Holds l none → l.length + ops.length < fuel → CallsMeet (Klist.step fuel) StepOk s ops →
      (∀ o ∈ ops, o.iter = some i → o = .next i) →
      runCalls (Klist.step fuel) s ops = some (s', answers) →
      returned i ops answers = R.map some ++ [none] →
      (∀ n, W n = true → s.phase n = .added ∧ s'.phase n = .added) →
      R.filter W = (behind (s.cur i) l).filter W
  | [], s, s', l, R, answers, _, _, _, _, _, hret, _ => by
    have := congrArg List.length hret
    simp [returned] at this
  | o :: ops, s, s', l, R, answers, h, hfuel, hok, honly, hrun, hret, hW => by
    rw [length_cons] at hfuel
    have hlt : l.length < fuel := by omega
    -- The rest of the run, behind a step of any kind.
    have hrest : ∀ {r : Klist ν ι × Option ν} {l1 : List ν}, Klist.step fuel s o = some r →
        Progress s l o r l1 → ∃ bs, answers = r.2 :: bs ∧ (∀ n, W n = true → r.1.phase n = .added) ∧
          ∀ R1 : List ν, returned i ops bs = R1.map some ++ [none] →
            R1.filter W = (behind (r.1.cur i) l1).filter W := by
      intro r l1 hs1 hp
      have hlen := hp.edits.length_le
      have hok1 := hok.2 _ hs1
      obtain ⟨⟨t, bs⟩, -, ht, -, -, -, hdel⟩ := Holds.run hι hp.holds
        (show l1.length + ops.length < fuel by omega) hok1
      rw [runCalls_cons hs1, ht, Option.map_some, Option.some_inj, Prod.mk.injEq] at hrun
      obtain ⟨rfl, rfl⟩ := hrun
      have hW1 : ∀ n, W n = true → r.1.phase n = .added ∧ t.phase n = .added := fun n hn => by
        refine ⟨?_, (hW n hn).2⟩
        rcases hp.known n (.inl (hW n hn).1) with hadded | hdeleted
        · exact hadded
        · have hend := hdel n hdeleted
          rw [(hW n hn).2] at hend
          cases hend
      exact ⟨bs, rfl, fun n hn => (hW1 n hn).1, fun R1 hR1 => iterate hι i hp.holds
        (show l1.length + ops.length < fuel by omega) hok1
        (fun o ho => honly o (mem_cons_of_mem _ ho)) ht hR1 hW1⟩
    by_cases ho : o = .next i
    · subst ho
      obtain ⟨r, l1, hs1, hp, hnone, hsome⟩ := h.next_behind hι hlt i fun n hn => (hW n hn).1
      obtain ⟨bs, rfl, -, ih⟩ := hrest hs1 hp
      have hcons : returned i (.next i :: ops) (r.2 :: bs) = r.2 :: returned i ops bs := by
        simp [returned]
      rw [hcons] at hret
      cases R with
      | nil =>
        rw [hnone (List.cons.inj hret).1]
        rfl
      | cons n R =>
        obtain ⟨hn, hR⟩ := List.cons.inj hret
        rw [hsome n hn, ← ih R hR, ← filter_append]
        rfl
    · have hiter : o.iter ≠ some i := fun hi => ho (honly o mem_cons_self hi)
      obtain ⟨r, l1, hs1, hp⟩ := h.step hι hlt hok.1
      obtain ⟨bs, rfl, hW1, ih⟩ := hrest hs1 hp
      have hskip : returned i (o :: ops) (r.2 :: bs) = returned i ops bs := by
        simp [returned, ho]
      rw [ih R (hskip ▸ hret)]
      exact hp.edits.behind_eq h hp.holds (hp.others i hiter) fun n hn => ⟨(hW n hn).1, hW1 n hn⟩

/-! ## The list over any run -/

theorem holds_start : (start : Klist ν ι).Holds [] none where
  ring := by
    show (⟨id, id⟩ : ListHeads (KlistLink ν)).Ring [.list]
    exact ring_singleton.mpr ⟨rfl, rfl⟩
  mem_iff n := iff_of_false not_mem_nil fun h => not_known_of_fresh rfl h.1
  count n hn := absurd rfl hn
  live n hn := by rcases hn with h | h <;> cases h
  dead n hn := absurd hn not_mem_nil
  stands i n hi := by cases hi

/-- Every run of the callers from the empty list goes through, with any number of iterators that a
reference count can hold. At its end the ring is the list `l`; the count of a node that has been
added is one if it is not deleted, and one more for each iterator on it; the node is on the list
exactly if its count is positive. Each further step returns no deleted node. An iterator that goes
on with `klist_next` only, from the place that it has now to the end, returns of the nodes that stay
on the list all those behind its place, each once and in the order of the list; this is the whole
list after `klist_iter_init`. -/
theorem klist_run (hι : Fintype.card ι + 2 < 2 ^ 32) (fuel : ℕ) (ops : List (Step ν ι))
    (hfuel : ops.length < fuel) (hok : CallsMeet (step fuel) StepOk start ops) :
    ∃ s answers l, runCalls (step fuel) start ops = some (s, answers) ∧
      s.links.Ring (.list :: l.map .node) ∧
      (∀ n, s.Known n → (s.ref n).toNat = (if s.phase n = .deleted then 0 else 1) + s.standing n) ∧
      (∀ n, n ∈ l ↔ s.Known n ∧ 0 < (s.ref n).toNat) ∧
      (∀ o r n, s.StepOk o → step fuel s o = some r → r.2 = some n →
        s.phase n = .added ∧ r.1.phase n = .added) ∧
      ∀ i ops' s' answers' (R : List ν), ops.length + ops'.length < fuel →
        CallsMeet (step fuel) StepOk s ops' → (∀ o ∈ ops', o.iter = some i → o = .next i) →
        runCalls (step fuel) s ops' = some (s', answers') →
        returned i ops' answers' = R.map some ++ [none] →
        R.filter (fun n => s.phase n = .added ∧ s'.phase n = .added) =
          (behind (s.cur i) l).filter fun n => s.phase n = .added ∧ s'.phase n = .added := by
  have hrun := Holds.run hι (holds_start (ν := ν)) (by simpa using hfuel) hok
  obtain ⟨⟨s, answers⟩, l, hrun, h, hlen, -, -⟩ := hrun
  have hlen' : l.length ≤ ops.length := by simpa using hlen
  refine ⟨s, answers, l, hrun, h.ring, fun n hn => ?_, fun n => ?_, ?_, ?_⟩
  · exact h.count n hn.ne_fresh
  · rw [h.mem_iff n, Nat.pos_iff_ne_zero, ne_eq (s.ref n), BitVec.toNat_eq]
    rfl
  · intro o r n ho hs hr
    obtain ⟨r', l', hs', hp⟩ := h.step hι (show l.length < fuel by omega) ho
    cases hs.symm.trans hs'
    exact hp.returned n hr
  · intro i ops' s' answers' R hfuel' hok' honly hrun' hret
    exact iterate hι i h (by omega) hok' honly hrun' hret fun n hn => of_decide_eq_true hn

/-- Two iterators on three nodes : the first is deleted under one of them, and the other still
returns the second and the third. -/
theorem klist_run_two_iterators :
    ∃ s answers, ∃ l : List ℕ, runCalls (step 20) (start : Klist ℕ Bool) [.nodeInit 1, .addTail 1,
        .nodeInit 2, .addTail 2, .nodeInit 3, .addBehind 3 2, .iterInit true, .next true, .del 1,
        .iterInit false, .next false, .next true] = some (s, answers) ∧
      s.links.Ring (.list :: l.map .node) ∧ answers.drop 10 = [some 2, some 2] := by
  obtain ⟨s, answers, l, hrun, hring, -⟩ := klist_run (ν := ℕ) (ι := Bool) (by decide) 20
    [.nodeInit 1, .addTail 1, .nodeInit 2, .addTail 2, .nodeInit 3, .addBehind 3 2, .iterInit true,
      .next true, .del 1, .iterInit false, .next false, .next true] (by decide)
    (by decide +kernel)
  refine ⟨s, answers, l, hrun, hring, ?_⟩
  have hanswers := congrArg (Option.map Prod.snd) hrun
  exact Option.some_inj.mp (congrArg (Option.map (List.drop 10)) hanswers.symm)

/-- An iterator that `klist_iter_init_node` puts on a node has no reference there : the count stays
one, and with the next `klist_next` the node leaves the list, although nobody has deleted it. -/
theorem klist_iter_uncounted :
    (runCalls (step 9) (start : Klist ℕ Bool) [.nodeInit 1, .addTail 1,
        .iterInitNode true 1 true]).map (fun r => (r.1.phase 1, r.1.ref 1, r.1.standing 1)) =
      some (.added, 1, 1) ∧
    (runCalls (step 9) (start : Klist ℕ Bool) [.nodeInit 1, .addTail 1, .iterInitNode true 1 true,
        .next true]).map (fun r => (r.1.phase 1, r.1.ref 1, r.1.links.next .list)) =
      some (.added, 0, .list) := by
  decide +kernel

end Klist

end LinuxKernelTest
