import LinuxKernelTest.XArraySteps

/-!
# XArray : setting and clearing a mark

`xas_set_mark` and `xas_clear_mark` change the mark of one slot and walk towards the head
until the summary of a node is right again. `MarkHole xa T m o k b` is the state of such a
walk : the marks `m` are exact but at slot `k` of the node `o`, which has to become `b`
(without a node the flag of the array has to become `b`). Writing the slot moves the hole to
the parent (`MarkHole.write`) or closes it (`MarkHole.close`).

`xasSetMark_spec` and `xasClearMark_spec` : the marks are exact again, and of the entries
only the one at the slot has changed its mark.
-/

namespace LinuxKernelTest

/-- The marks and the flags of the array replaced. -/
@[simps -fullyApplied] def XArray.withMarking (xa : XArray)
    (marks : NodeId → XaMark → ℕ → Bool) (marked : XaMark → Bool) : XArray :=
  { xa with marks := marks, xaMarked := marked }

/-- The marks `m` are exact but at slot `k` of `o`, which has to become `b`. -/
structure MarkHole (xa : XArray) (T : Layout) (m : XaMark) (o : Option NodeId) (k : ℕ)
    (b : Bool) : Prop where
  interior : ∀ {l p n}, T (l + 1) p = some n → ∀ j < 4, ¬(o = some n ∧ j = k) →
    (xa.marks n m j = true ↔ ∃ c, xa.slots n j = .node c ∧ nodeAnyMark xa c m = true)
  leaf : ∀ {p n}, T 0 p = some n → ∀ j < 4, xa.marks n m j = true → xa.slots n j ≠ .null
  top : o ≠ none → ∀ {r}, xa.xaHead = .node r → xa.xaMarked m = nodeAnyMark xa r m
  bare : o ≠ none → xa.xaHead = .null → xa.xaMarked m = false
  hereInterior : ∀ {l p n}, o = some n → T (l + 1) p = some n →
    (b = true ↔ ∃ c, xa.slots n k = .node c ∧ nodeAnyMark xa c m = true)
  hereLeaf : ∀ {p n}, o = some n → T 0 p = some n → b = true → xa.slots n k ≠ .null
  hereTop : o = none → ∀ {r}, xa.xaHead = .node r → b = nodeAnyMark xa r m
  hereBare : o = none → xa.xaHead = .null → b = false

section

variable {xa xa' : XArray} {T : Layout} {l p k : ℕ} {n q : NodeId} {m : XaMark} {b : Bool}
  {o : Option NodeId}

theorem Body.withMarking (h : Body xa T) (f : NodeId → XaMark → ℕ → Bool) (g : XaMark → Bool) :
    Body (xa.withMarking f g) T where
  toIsTree := h.toIsTree.congr le_rfl (fun _ => Iff.rfl) (fun _ => ⟨rfl, rfl, rfl, rfl⟩)
    (fun _ _ _ _ => Iff.rfl)
  count := h.count
  nrValues := h.nrValues
  interior := h.interior
  leafSlot := h.leafSlot
  headSlot := h.headSlot

/-- A walk starts at the slot of a leaf with a hole there. -/
theorem MarkOk.hole (h : MarkOk xa T m) (hinj : IsTree xa T) (hn : T 0 p = some n)
    (hb : b = true → xa.slots n k ≠ .null) : MarkHole xa T m (some n) k b where
  interior hc j hj _ := h.interior hc j hj
  leaf := h.leaf
  top _ := h.top
  bare _ := h.bare
  hereInterior := by
    rintro l p n' ⟨⟩ hn'
    have := (hinj.inj hn hn').1
    omega
  hereLeaf := by
    rintro p n' ⟨⟩ -
    exact hb
  hereTop ho := by cases ho
  hereBare ho := by cases ho

/-- Without nodes the hole is the flag of the array. -/
theorem MarkOk.hole_head (h : MarkOk xa T m) (hhead : ∀ r, xa.xaHead ≠ .node r)
    (hb : b = true → xa.xaHead ≠ .null) : MarkHole xa T m none k b where
  interior hc j hj _ := h.interior hc j hj
  leaf := h.leaf
  top ho := absurd rfl ho
  bare ho := absurd rfl ho
  hereInterior ho := by cases ho
  hereLeaf ho := by cases ho
  hereTop _ _ hr := absurd hr (hhead _)
  hereBare _ hnull := by
    rw [Bool.eq_false_iff]
    exact fun hb' => hb hb' hnull

/-- The hole is closed where the slot has its value. -/
theorem MarkHole.done (h : MarkHole xa T m (some n) k b) (hk : xa.marks n m k = b) :
    MarkOk xa T m where
  interior {l p c} hc j hj := by
    by_cases hcj : c = n ∧ j = k
    · obtain ⟨rfl, rfl⟩ := hcj
      rw [hk]
      exact h.hereInterior rfl hc
    · exact h.interior hc j hj fun hcon => hcj ⟨(Option.some.inj hcon.1).symm, hcon.2⟩
  leaf := h.leaf
  top := h.top (by simp)
  bare := h.bare (by simp)

/-- At the head the flag closes the hole. -/
theorem MarkHole.done_head (h : MarkHole xa T m none k b) : MarkOk (xa.setMarked m b) T m where
  interior hc j hj := h.interior hc j hj (by simp)
  leaf := h.leaf
  top hr := by
    rw [XArray.setMarked_xaMarked, Function.update_self]
    exact h.hereTop rfl hr
  bare hnull := by
    rw [XArray.setMarked_xaMarked, Function.update_self]
    exact h.hereBare rfl hnull

theorem nodeAnyMark_setMark_of_ne {c : NodeId} (hc : c ≠ n) :
    nodeAnyMark (xa.setMark n m k b) c m = nodeAnyMark xa c m :=
  nodeAnyMark_congr (by simp [hc])

/-- Writing the slot moves the hole to the slot of the node in its parent. -/
theorem MarkHole.write (h : MarkHole xa T m (some n) k b) (htree : IsTree xa T)
    (hn : T l p = some n) (hk : k < 4) :
    MarkHole (xa.setMark n m k b) T m (xa.parent n) (xa.offset n)
      (nodeAnyMark (xa.setMark n m k b) n m) := by
  -- A slot that holds a child other than `n` says the same as before.
  have hsame : ∀ {l p c j}, T (l + 1) p = some c → j < 4 → xa.slots c j ≠ .node n →
      ((∃ d, xa.slots c j = .node d ∧ nodeAnyMark (xa.setMark n m k b) d m = true) ↔
        ∃ d, xa.slots c j = .node d ∧ nodeAnyMark xa d m = true) := by
    intro l p c j _ _ hne
    refine exists_congr fun d => and_congr_right fun hd => ?_
    have hdn : d ≠ n := by
      rintro rfl
      exact hne hd
    rw [nodeAnyMark_setMark_of_ne hdn]
  have hchild : ∀ {l p c j}, T (l + 1) p = some c → j < 4 → xa.slots c j = .node n →
      xa.parent n = some c ∧ xa.offset n = j := by
    intro l' p' c j hc hj hslot
    have hT := htree.slot_child hc hj hslot
    have hdiv : (4 * p' + j) / 4 = p' := by omega
    rw [htree.parent hT, hdiv, hc, htree.offset hT (by rw [hdiv]; exact hc)]
    exact ⟨rfl, by omega⟩
  have hmark : ∀ {c j}, ¬(c = n ∧ j = k) → (xa.setMark n m k b).marks c m j = xa.marks c m j := by
    intro c j hcj
    by_cases hcn : c = n
    · subst hcn
      have hjk : j ≠ k := fun hjk => hcj ⟨rfl, hjk⟩
      simp [hjk]
    · simp [hcn]
  have hhere : (xa.setMark n m k b).marks n m k = b := by simp
  constructor
  case interior =>
    intro l' p' c hc j hj hne
    rw [XArray.setMark_slots, hsame hc hj]
    · by_cases hcj : c = n ∧ j = k
      · obtain ⟨rfl, rfl⟩ := hcj
        rw [hhere]
        exact h.hereInterior rfl hc
      · rw [hmark hcj]
        exact h.interior hc j hj fun hcon => hcj ⟨(Option.some.inj hcon.1).symm, hcon.2⟩
    · intro hslot
      obtain ⟨hpar, hoff⟩ := hchild hc hj hslot
      exact hne ⟨hpar, hoff.symm⟩
  case leaf =>
    intro p' c hc j hj hmark'
    by_cases hcj : c = n ∧ j = k
    · obtain ⟨rfl, rfl⟩ := hcj
      rw [hhere] at hmark'
      exact h.hereLeaf rfl hc hmark'
    · rw [hmark hcj] at hmark'
      exact h.leaf hc j hj hmark'
  case top =>
    intro ho r hr
    have hrn : r ≠ n := by
      rintro rfl
      obtain ⟨L, htop⟩ := htree.exists_top hr
      rw [htree.parent htop.node, Nat.zero_div, htop.above] at ho
      exact ho rfl
    rw [nodeAnyMark_setMark_of_ne hrn]
    exact h.top (by simp) hr
  case bare => exact fun _ => h.bare (by simp)
  case hereInterior =>
    intro l' p' c hpar hc
    have hT : T (l + 1) (p / 4) = some c := by rw [← htree.parent hn, hpar]
    rw [XArray.setMark_slots, htree.offset hn hT, htree.parent_slot hn hT]
    simp
  case hereLeaf =>
    intro p' c hpar hc
    have hT : T (l + 1) (p / 4) = some c := by rw [← htree.parent hn, hpar]
    have := (htree.inj hT hc).1
    omega
  case hereTop =>
    intro ho r hr
    obtain ⟨rfl, hhead⟩ := htree.root hn (by rw [← htree.parent hn, ho])
    rw [XaEntry.node.inj (hhead.symm.trans hr)]
  case hereBare =>
    intro ho hnull
    obtain ⟨r, hr⟩ := htree.exists_head hn
    rw [XArray.setMark_xaHead, hr] at hnull
    cases hnull

/-- Where writing the slot leaves the summary of its node alone, the hole is closed. -/
theorem MarkHole.close (h : MarkHole xa T m (some n) k b) (htree : IsTree xa T)
    (hn : T l p = some n) (hk : k < 4)
    (hany : nodeAnyMark (xa.setMark n m k b) n m = nodeAnyMark xa n m) :
    MarkOk (xa.setMark n m k b) T m := by
  have hwrite := h.write htree hn hk
  cases hpar : xa.parent n with
  | none =>
    rw [hpar] at hwrite
    have hhead : xa.xaHead = .node n := (htree.root hn (by rw [← htree.parent hn, hpar])).2
    refine ⟨fun hc j hj => hwrite.interior hc j hj (by simp), hwrite.leaf, fun {r} hr => ?_,
      fun hnull => ?_⟩
    · obtain rfl : n = r := XaEntry.node.inj (hhead.symm.trans hr)
      rw [hany]
      exact h.top (by simp) hhead
    · rw [XArray.setMark_xaHead, hhead] at hnull
      cases hnull
  | some c =>
    rw [hpar] at hwrite
    have hT : T (l + 1) (p / 4) = some c := by rw [← htree.parent hn, hpar]
    have hk' : p % 4 < 4 := by omega
    have hcn : c ≠ n := by
      rintro rfl
      have := (htree.inj hT hn).1
      omega
    refine hwrite.done ?_
    rw [hany, htree.offset hn hT, Bool.eq_iff_iff]
    rw [show (xa.setMark n m k b).marks c m (p % 4) = xa.marks c m (p % 4) by simp [hcn],
      h.interior hT _ hk' (by simp [hcn.symm]), htree.parent_slot hn hT]
    simp

/-! ## The walks -/

/-- The marks of the leaves are those of `xa₀`, with `b` at slot `k` of the leaf `n`. -/
def LeafMarked (xa₀ xa : XArray) (T : Layout) (m : XaMark) (n : NodeId) (k : ℕ) (b : Bool) : Prop :=
  ∀ {p c}, T 0 p = some c → ∀ j < 4,
    xa.marks c m j = if c = n ∧ j = k then b else xa₀.marks c m j

/-- `xa` differs from `xa₀` in the mark `m` only. -/
def OnlyMark (xa₀ xa : XArray) (m : XaMark) : Prop :=
  xa = xa₀.withMarking xa.marks xa.xaMarked ∧
    ∀ m', m' ≠ m → xa.xaMarked m' = xa₀.xaMarked m' ∧ ∀ c, xa.marks c m' = xa₀.marks c m'

theorem OnlyMark.refl (xa : XArray) (m : XaMark) : OnlyMark xa xa m :=
  ⟨rfl, fun _ _ => ⟨rfl, fun _ => rfl⟩⟩

variable {xa₀ : XArray} {m' : XaMark}

theorem OnlyMark.setMark (h : OnlyMark xa₀ xa m) (n : NodeId) (k : ℕ) (b : Bool) :
    OnlyMark xa₀ (xa.setMark n m k b) m := by
  obtain ⟨heq, hother⟩ := h
  refine ⟨?_, fun m' hm => ⟨(hother m' hm).1, fun c => ?_⟩⟩
  · rw [heq]
    rfl
  · rw [← (hother m' hm).2 c]
    by_cases hc : c = n
    · subst hc
      simp [hm]
    · simp [hc]

/-- The other marks are as exact as before. -/
theorem OnlyMark.markOk (h : OnlyMark xa₀ xa m) (hm : m' ≠ m)
    (hok : MarkOk xa₀ T m') : MarkOk xa T m' := by
  obtain ⟨hmarked, hmarks⟩ := h.2 m' hm
  have hslots : xa.slots = xa₀.slots := by rw [h.1]; rfl
  have hhead : xa.xaHead = xa₀.xaHead := by rw [h.1]; rfl
  have hany : ∀ c, nodeAnyMark xa c m' = nodeAnyMark xa₀ c m' := fun c => by
    simp only [nodeAnyMark, hmarks]
  refine ⟨fun {l p c} hc j hj => ?_, fun {p c} hc j hj => ?_, fun {r} hr => ?_, fun hnull => ?_⟩
  · rw [hmarks, hslots, hok.interior hc j hj]
    simp only [hany]
  · rw [hmarks, hslots]
    exact hok.leaf hc j hj
  · rw [hmarked, hany]
    exact hok.top (hhead ▸ hr)
  · rw [hmarked]
    exact hok.bare (hhead ▸ hnull)

theorem OnlyMark.markAt_eq (h : OnlyMark xa₀ xa m) (hm : m' ≠ m)
    (j : ℕ) : markAt xa T m' j = markAt xa₀ T m' j := by
  obtain ⟨hmarked, hmarks⟩ := h.2 m' hm
  refine readAt_congr rfl ?_ (fun _ _ _ => by rw [hmarks]) hmarked
  rw [h.1]
  rfl

theorem OnlyMark.setMarked (h : OnlyMark xa₀ xa m) (b : Bool) :
    OnlyMark xa₀ (xa.setMarked m b) m := by
  obtain ⟨heq, hother⟩ := h
  refine ⟨?_, fun m' hm => ⟨?_, (hother m' hm).2⟩⟩
  · rw [heq]
    rfl
  · simp [hm, (hother m' hm).1]

/-- The state of a walk that writes `b` from slot `k₀` of the leaf `n₀` on : at that slot,
or above it. -/
inductive WalkAt (xa₀ : XArray) (T : Layout) (m : XaMark) (n₀ : NodeId) (k₀ : ℕ) (b : Bool) :
    ℕ → XArray × Option NodeId × ℕ → Prop
  | start : MarkHole xa₀ T m (some n₀) k₀ b → WalkAt xa₀ T m n₀ k₀ b 40 (xa₀, some n₀, k₀)
  | node {xa : XArray} {l p k : ℕ} {n : NodeId} : OnlyMark xa₀ xa m →
      LeafMarked xa₀ xa T m n₀ k₀ b → MarkHole xa T m (some n) k b →
      T (l + 1) p = some n → k < 4 → WalkAt xa₀ T m n₀ k₀ b (32 - l) (xa, some n, k)
  | head {xa : XArray} {k : ℕ} : OnlyMark xa₀ xa m → LeafMarked xa₀ xa T m n₀ k₀ b →
      MarkHole xa T m none k b → WalkAt xa₀ T m n₀ k₀ b 0 (xa, none, k)

/-- What a walk leaves. -/
def WalkDone (xa₀ : XArray) (T : Layout) (m : XaMark) (n₀ : NodeId) (k₀ : ℕ) (b : Bool)
    (xa : XArray) : Prop :=
  OnlyMark xa₀ xa m ∧ LeafMarked xa₀ xa T m n₀ k₀ b ∧ MarkOk xa T m

theorem OnlyMark.body (h : OnlyMark xa₀ xa m) (hbody : Body xa₀ T) : Body xa T := by
  rw [h.1]
  exact hbody.withMarking _ _

variable {xa₀ : XArray} {n₀ : NodeId} {k₀ p0 v : ℕ}

section

variable (hbody : Body xa₀ T) (hn0 : T 0 p0 = some n₀) (hk0 : k₀ < 4)
  (h : WalkAt xa₀ T m n₀ k₀ b v (xa, some n, k))
include hbody hn0 hk0 h

/-- What is known of a walk at a node, and what writing the slot does to the leaves. -/
theorem WalkAt.at_node :
    ∃ l p, T l p = some n ∧ k < 4 ∧ (v = 40 ∧ l = 0 ∨ v + l = 33) ∧ OnlyMark xa₀ xa m ∧
      MarkHole xa T m (some n) k b ∧ LeafMarked xa₀ (xa.setMark n m k b) T m n₀ k₀ b ∧
      (xa.marks n m k = b → LeafMarked xa₀ xa T m n₀ k₀ b) := by
  cases h with
  | start hhole =>
    refine ⟨0, p0, hn0, hk0, .inl ⟨rfl, rfl⟩, .refl _ _, hhole, fun {p c} hc j hj => ?_,
      fun hmark {p c} hc j hj => ?_⟩
    · by_cases hcj : c = n ∧ j = k
      · obtain ⟨rfl, rfl⟩ := hcj
        simp
      · rw [if_neg hcj]
        by_cases hcn : c = n
        · subst hcn
          have hjk : j ≠ k := fun hjk => hcj ⟨rfl, hjk⟩
          simp [hjk]
        · simp [hcn]
    · split
      · next hcj => rw [hcj.1, hcj.2, hmark]
      · rfl
  | @node _ l p _ _ honly hleaf hhole hn hk =>
    have hl := (hbody.bound hn).1
    refine ⟨l + 1, p, hn, hk, .inr (by omega), honly, hhole, fun {p' c} hc j hj => ?_,
      fun _ => hleaf⟩
    rw [← hleaf hc j hj]
    have hcn : c ≠ n := by
      rintro rfl
      have := (hbody.inj hc hn).1
      omega
    simp [hcn]

/-- The walk goes on at the parent when the summary of the node has become `b`. -/
theorem WalkAt.climb
    (hany : nodeAnyMark (xa.setMark n m k b) n m = b) :
    ∃ v' < v, WalkAt xa₀ T m n₀ k₀ b v' (xa.setMark n m k b, xa.parent n, xa.offset n) := by
  obtain ⟨l, p, hn, hk, hv, honly, hhole, hleaf, -⟩ := h.at_node hbody hn0 hk0
  have htree := (honly.body hbody).toIsTree
  have hl := (htree.bound hn).1
  have hwrite := hhole.write htree hn hk
  rw [hany] at hwrite
  cases hpar : T (l + 1) (p / 4) with
  | none =>
    rw [htree.parent hn, hpar] at hwrite ⊢
    exact ⟨0, by omega, .head (honly.setMark n k b) hleaf hwrite⟩
  | some q =>
    have hoff := htree.offset hn hpar
    rw [htree.parent hn, hpar] at hwrite ⊢
    refine ⟨32 - l, by omega, .node (honly.setMark n k b) hleaf hwrite hpar ?_⟩
    rw [hoff]
    exact by omega

theorem WalkAt.stop (hmark : xa.marks n m k = b) :
    WalkDone xa₀ T m n₀ k₀ b xa := by
  obtain ⟨l, p, hn, hk, -, honly, hhole, -, hleaf⟩ := h.at_node hbody hn0 hk0
  exact ⟨honly, hleaf hmark, hhole.done hmark⟩

theorem WalkAt.close
    (hany : nodeAnyMark (xa.setMark n m k b) n m = nodeAnyMark xa n m) :
    WalkDone xa₀ T m n₀ k₀ b (xa.setMark n m k b) := by
  obtain ⟨l, p, hn, hk, -, honly, hhole, hleaf, -⟩ := h.at_node hbody hn0 hk0
  exact ⟨honly.setMark n k b, hleaf, hhole.close (honly.body hbody).toIsTree hn hk hany⟩

end

theorem WalkAt.finish (h : WalkAt xa₀ T m n₀ k₀ b v (xa, none, k)) :
    WalkDone xa₀ T m n₀ k₀ b (xa.setMarked m b) := by
  cases h with
  | head honly hleaf hhole => exact ⟨honly.setMarked b, hleaf, hhole.done_head⟩

theorem setMarkRound_step (hbody : Body xa₀ T) (hn0 : T 0 p0 = some n₀) (hk0 : k₀ < 4) :
    RoundKeeps (setMarkRound m) (WalkAt xa₀ T m n₀ k₀ true) (WalkDone xa₀ T m n₀ k₀ true) := by
  intro v s hs
  obtain ⟨xa, _ | n, k⟩ := s
  · exact .inr ⟨_, rfl, hs.finish⟩
  by_cases hmark : xa.marks n m k = true
  · exact .inr ⟨xa, by simp [setMarkRound, hmark], hs.stop hbody hn0 hk0 hmark⟩
  obtain ⟨l, p, -, hk, -⟩ := hs.at_node hbody hn0 hk0
  obtain ⟨v', hv, hs'⟩ := hs.climb hbody hn0 hk0
    (nodeAnyMark_iff.mpr ⟨k, hk, by simp⟩)
  exact .inl ⟨_, v', by simp [setMarkRound, hmark], hv, hs'⟩

theorem clearMarkRound_step (hbody : Body xa₀ T) (hn0 : T 0 p0 = some n₀) (hk0 : k₀ < 4) :
    RoundKeeps (clearMarkRound m) (WalkAt xa₀ T m n₀ k₀ false) (WalkDone xa₀ T m n₀ k₀ false) := by
  intro v s hs
  obtain ⟨xa, _ | n, k⟩ := s
  · exact .inr ⟨_, rfl, hs.finish⟩
  by_cases hmark : xa.marks n m k = true
  · by_cases hany : nodeAnyMark (xa.setMark n m k false) n m = true
    · -- A mark is left in the node, so its summary has not changed.
      refine .inr ⟨_, by simp [clearMarkRound, hmark, hany], hs.close hbody hn0 hk0 ?_⟩
      obtain ⟨l, p, -, hk, -⟩ := hs.at_node hbody hn0 hk0
      rw [hany, eq_comm]
      exact nodeAnyMark_iff.mpr ⟨k, hk, hmark⟩
    · obtain ⟨v', hv, hs'⟩ := hs.climb hbody hn0 hk0 (Bool.eq_false_iff.mpr hany)
      exact .inl ⟨_, v', by simp [clearMarkRound, hmark, hany], hv, hs'⟩
  · exact .inr ⟨xa, by simp [clearMarkRound, hmark],
      hs.stop hbody hn0 hk0 (Bool.eq_false_iff.mpr hmark)⟩

end

/-! ## Marks at an index -/

section

variable {xa xa' : XArray} {T : Layout} {i : ℕ} {n : NodeId} {m : XaMark} {b : Bool}
  {xas : XaState}

/-- The slot of the index `i` where `xas` is : a slot of a leaf, or the head for index `0`. -/
def AtEntry (xa : XArray) (T : Layout) (i : ℕ) (xas : XaState) : Prop :=
  (∃ n, T 0 (i / 4) = some n ∧ xas.xaNode = .node n ∧ xas.xaOffset = i % 4) ∨
    i = 0 ∧ (∀ r, xa.xaHead ≠ .node r) ∧ xas.xaNode = .null

/-- `xa'` is `xa` with the mark `m` of the entry at `i` set to `b`. -/
structure MarkSet (xa xa' : XArray) (T : Layout) (m : XaMark) (i : ℕ) (b : Bool) : Prop where
  only : OnlyMark xa xa' m
  markOk : MarkOk xa' T m
  markAt : ∀ j, markAt xa' T m j = if j = i then b else markAt xa T m j

theorem WalkDone.markSet {k : ℕ} (hn : T 0 (i / 4) = some n) (hk : k = i % 4) (hbody : Body xa T)
    (h : WalkDone xa T m n k b xa') : MarkSet xa xa' T m i b := by
  obtain ⟨honly, hleaf, hok⟩ := h
  refine ⟨honly, hok, fun j => ?_⟩
  obtain ⟨r, hr⟩ := hbody.exists_head hn
  have hr' : xa'.xaHead = .node r := by rw [honly.1]; exact hr
  cases hc : T 0 (j / 4) with
  | none =>
    rw [if_neg (by rintro rfl; rw [hn] at hc; cases hc)]
    exact (readAt_none hc (.inr ⟨r, hr'⟩)).trans (readAt_none hc (.inr ⟨r, hr⟩)).symm
  | some c =>
    unfold markAt
    rw [readAt_leaf hc, readAt_leaf hc, hleaf hc _ (by omega), hk]
    by_cases hji : j = i
    · subst hji
      rw [if_pos rfl, if_pos ⟨Option.some.inj (hc.symm.trans hn), rfl⟩]
    rw [if_neg hji, if_neg]
    rintro ⟨rfl, hmod⟩
    have := (hbody.inj hc hn).2
    omega

/-- At the head the walks only write the flag. -/
theorem markSet_head (hbody : Body xa T) (hm : MarkOk xa T m) (hhead : ∀ r, xa.xaHead ≠ .node r)
    (hb : b = true → xa.xaHead ≠ .null) : MarkSet xa (xa.setMarked m b) T m 0 b := by
  refine ⟨(OnlyMark.refl xa m).setMarked b, (hm.hole_head (k := 0) hhead hb).done_head, fun j => ?_⟩
  have hnone : ∀ p, T 0 p = none := fun p => hbody.eq_none_of_head hhead
  unfold markAt
  by_cases hj : j = 0
  · subst hj
    rw [if_pos rfl, readAt, hnone]
    simp [xaIsNode_eq_false.mpr hhead]
  · rw [if_neg hj, readAt_none (hnone _) (.inl hj), readAt_none (hnone _) (.inl hj)]

/-- A walk that sets the mark of the entry to `b`. -/
theorem markWalk_spec
    {round : XArray × Option NodeId × ℕ → Round (XArray × Option NodeId × ℕ) XArray}
    (hstep : ∀ {n p k}, T 0 p = some n → k < 4 →
      RoundKeeps round (WalkAt xa T m n k b) (WalkDone xa T m n k b))
    (hround : ∀ k, round (xa, none, k) = .done (xa.setMarked m b)) (hbody : Body xa T)
    (hm : MarkOk xa T m) (hat : AtEntry xa T i xas) (hb : b = true → entryAt xa T i ≠ .null) :
    ∃ xa', (if xasInvalid xas then some xa
        else runLoop round xaFuel (xa, xas.xaNode.toPtr, xas.xaOffset)) = some xa' ∧
      MarkSet xa xa' T m i b := by
  rcases hat with ⟨n, hn, hnode, hoffset⟩ | ⟨rfl, hhead, hnode⟩
  · have hk : i % 4 < 4 := by omega
    rw [entryAt, readAt_leaf hn] at hb
    obtain ⟨xa', hrun, hdone⟩ := runLoop_of_rank (hstep hn hk)
      (.start (hm.hole hbody.toIsTree hn hb)) (n := xaFuel) (by unfold xaFuel; norm_num)
    refine ⟨xa', ?_, hdone.markSet hn rfl hbody⟩
    simp only [xasInvalid, hnode, XasNode.toPtr, hoffset, Bool.false_eq_true, if_false]
    exact hrun
  · rw [entryAt, readAt_head hbody.toIsTree hhead] at hb
    refine ⟨xa.setMarked m b, ?_, markSet_head hbody hm hhead hb⟩
    simp only [xasInvalid, hnode, XasNode.toPtr, Bool.false_eq_true, if_false]
    exact runLoop_of_done (hround _) xaFuel_pos

theorem xasSetMark_spec (hbody : Body xa T) (hm : MarkOk xa T m) (hat : AtEntry xa T i xas)
    (hpresent : entryAt xa T i ≠ .null) :
    ∃ xa', xasSetMark xa xas m = some xa' ∧ MarkSet xa xa' T m i true :=
  markWalk_spec (setMarkRound_step hbody) (fun _ => rfl) hbody hm hat fun _ => hpresent

theorem xasClearMark_spec (hbody : Body xa T) (hm : MarkOk xa T m) (hat : AtEntry xa T i xas) :
    ∃ xa', xasClearMark xa xas m = some xa' ∧ MarkSet xa xa' T m i false :=
  markWalk_spec (clearMarkRound_step hbody) (fun _ => rfl) hbody hm hat fun hf => by cases hf

end

end LinuxKernelTest
