import LinuxKernelTest.XArrayLeafList
import LinuxKernelTest.XArraySteps

/-!
# XArray : `xas_expand` and `xas_create` grow the tree

`XaInv xa T` is what holds between two calls : the body, exact marks, a linked leaf list,
no empty node and a root that cannot be shrunk. `Growing` is its form while the path to an
index `i` is being built : the nodes of the path may still be empty, and the leaf list may
have a gap at the prefix of `i`. It also fixes what the tree answers at every index, which
building a path does not change.

`xasExpand_spec` and `xasCreate_spec` follow the two loops : each round adds a root or attaches a
node on the path, and in the end the leaf of `i` is there.
-/

namespace LinuxKernelTest

open Layout Nat

/-- No flags, and every allocation succeeds. -/
structure DefaultFlags (xa : XArray) : Prop where
  trackFree : xa.trackFree = false
  zeroBusy : xa.zeroBusy = false
  kmemFails : ∀ n, xa.kmemFails n = false

theorem DefaultFlags.congr {xa xa' : XArray} (h : DefaultFlags xa) (hsame : SameFlags xa xa') :
    DefaultFlags xa' :=
  ⟨hsame.trackFree.trans h.trackFree, hsame.zeroBusy.trans h.zeroBusy, fun n => by
    rw [hsame.kmemFails]
    exact h.kmemFails n⟩

/-- What holds of an array of single-index entries between two calls. -/
structure XaInv (xa : XArray) (T : Layout) : Prop where
  body : Body xa T
  marks : ∀ m, MarkOk xa T m
  flags : DefaultFlags xa
  linked : Linked (T 0) xa.next xa.prev
  nonempty : ∀ {l p n}, T l p = some n → ∃ k < 4, xa.slots n k ≠ .null
  root : ∀ {L r}, IsTop xa T (L + 1) r → ∃ k < 4, k ≠ 0 ∧ xa.slots r k ≠ .null

/-- What holds while the path to `i` is being built in an array that answers the entries
`E` and the marks `M`, and of which no node of `U` is freed. -/
structure Growing (xa : XArray) (T : Layout) (i : ℕ) (E : ℕ → XaEntry)
    (M : XaMark → ℕ → Bool) (U : NodeId → Prop) : Prop where
  body : Body xa T
  marks : ∀ m, MarkOk xa T m
  flags : DefaultFlags xa
  gap : T 0 (i / 4) = none → LinkedExcept (T 0) xa.next xa.prev (i / 4)
  linked : T 0 (i / 4) ≠ none → Linked (T 0) xa.next xa.prev
  nonempty : ∀ {l p n}, T l p = some n → p = i / 4 ^ (l + 1) ∨ ∃ k < 4, xa.slots n k ≠ .null
  root : ∀ {L r}, IsTop xa T (L + 1) r →
    1 ≤ i / 4 ^ (L + 1) ∨ ∃ k < 4, k ≠ 0 ∧ xa.slots r k ≠ .null
  entries : ∀ j, entryAt xa T j = E j
  markAts : ∀ m j, markAt xa T m j = M m j
  unfreed : ∀ c, U c → xa.freed c = false

section

variable {xa xa' : XArray} {T : Layout} {i l p k L : ℕ} {n q r : NodeId} {e : XaEntry}
  {E : ℕ → XaEntry} {M : XaMark → ℕ → Bool} {U : NodeId → Prop} {xas : XaState}

theorem XaInv.growing (h : XaInv xa T) (i : ℕ) :
    Growing xa T i (entryAt xa T) (markAt xa T) (fun c => xa.freed c = false) where
  body := h.body
  marks := h.marks
  flags := h.flags
  gap _ := h.linked.except _
  linked _ := h.linked
  nonempty hn := .inr (h.nonempty hn)
  root htop := .inr (h.root htop)
  entries _ := rfl
  markAts _ _ := rfl
  unfreed _ := id

/-! ## Adding a node -/

/-- `kmem_cache_alloc` when it succeeds. -/
@[simps -fullyApplied] def kmemTaken (xa : XArray) : XArray :=
  { xa.zeroNode xa.kmemNext with kmemNext := xa.kmemNext + 1, kmemCalls := xa.kmemCalls + 1 }

theorem kmemCacheAlloc_ok (h : DefaultFlags xa) :
    kmemCacheAlloc xa = (kmemTaken xa, some xa.kmemNext) := by
  simp [kmemCacheAlloc, h.kmemFails, kmemTaken]

/-- The array in which `xas_alloc` looks for the neighbours of the new node. -/
@[simps! -fullyApplied] def childAllocated (xa : XArray) (q : NodeId) (k shift : ℕ) : XArray :=
  (((kmemTaken xa).setOffset xa.kmemNext k).setCount q
    (((kmemTaken xa).count q + 1) % 256)).initNode xa.kmemNext shift (some q)

theorem IsTree.childAllocated (h : IsTree xa T) (q : NodeId) (k shift : ℕ) :
    IsTree (childAllocated xa q k shift) T := by
  have hne : ∀ {l p m}, T l p = some m → m ≠ xa.kmemNext := fun hm => (h.lt hm).ne
  refine h.congr (by simp) (fun r => by simp) (fun {l p m} hm => ?_) (fun {l p m} hm k _ c => ?_)
  · constructor <;> simp [hne hm]
  · simp [hne hm]

/-- `xas_alloc` at the top of the tree. -/
theorem xasAlloc_root (h : DefaultFlags xa) (hnode : xas.xaNode = .null)
    (halloc : xas.xaAlloc = none) (shift : ℕ) :
    xasAlloc xa xas shift =
      some ((kmemTaken xa).initNode xa.kmemNext shift none, xas, some xa.kmemNext) := by
  simp [xasAlloc, xasInvalid, hnode, xasAllocNode, halloc, kmemCacheAlloc_ok h, XasNode.toPtr]

/-- `xas_alloc` below the node `q` : the new node is linked between the leaves next to its
place. -/
theorem xasAlloc_child (h : IsTree xa T) (hflags : DefaultFlags xa)
    (hq : T (l + 1) p = some q) (hk : k < 4) (hnone : T l (4 * p + k) = none)
    (hnode : xas.xaNode = .node q) (hoffset : xas.xaOffset = k) (halloc : xas.xaAlloc = none)
    {b : ℕ} (hb : b / 4 ^ l = 4 * p + k) :
    ∃ prev next, IsPred (T 0) b prev ∧ IsSucc (T 0) b next ∧
      xasAlloc xa xas (2 * l) = some (linkNode (childAllocated xa q k (2 * l)) q xa.kmemNext
        prev next, xas, some xa.kmemNext) := by
  obtain ⟨prev, next, hprev, hnext, hpred, hsucc⟩ :=
    exists_neighbours (h.childAllocated q k (2 * l)) hq hk hnone hb
  refine ⟨prev, next, hpred, hsucc, ?_⟩
  have hoff : (childAllocated xa q k (2 * l)).offset xa.kmemNext = k := by simp
  simp only [xasAlloc, xasInvalid, hnode, xasAllocNode, halloc, kmemCacheAlloc_ok hflags,
    XasNode.toPtr, Bool.false_eq_true, if_false, hoffset]
  change ((xasNodeFindPrev (childAllocated xa q k (2 * l)) q
      ((childAllocated xa q k (2 * l)).offset xa.kmemNext)).bind fun prev =>
    (xasNodeFindNext (childAllocated xa q k (2 * l)) q
      ((childAllocated xa q k (2 * l)).offset xa.kmemNext)).map fun next =>
        (linkNode (childAllocated xa q k (2 * l)) q xa.kmemNext prev next, xas,
          some xa.kmemNext)) = _
  rw [hoff, hprev, Option.bind_some, hnext, Option.map_some]

theorem attached_of_alloc (h : Body xa T) (hq : T (l + 1) p = some q)
    (k : ℕ) (prev next : Option NodeId) :
    Attached xa ((linkNode (childAllocated xa q k (2 * l)) q xa.kmemNext prev next).setSlot q k
      (.node xa.kmemNext)) l q k xa.kmemNext := by
  have hqn : q ≠ xa.kmemNext := (h.lt hq).ne
  have hcount : xa.count q < 255 := by
    have := slotSum_le (P := xaPresent) (f := xa.slots q)
    rw [← h.count hq] at this
    omega
  rw [linkNode_eq]
  constructor
  case keep =>
    intro m hm
    constructor <;> simp [hm]
  case content =>
    intro m hm hmq
    constructor <;> simp [hm, hmq]
  case flags => constructor <;> simp
  case marks =>
    intro c hc
    simp [hc]
  all_goals simp [hqn, hqn.symm]
  omega

/-- A tree keeps its root when a node is attached. -/
theorem IsTop.of_attached (h : Body xa T) (h' : Body xa' (T.set l (4 * p + k) (some n)))
    (hhead : xa'.xaHead = xa.xaHead) (hnone : T l (4 * p + k) = none)
    (htop : IsTop xa' (T.set l (4 * p + k) (some n)) L r) : IsTop xa T L r := by
  obtain ⟨L', htop'⟩ := h.exists_top (hhead.symm.trans htop.head)
  have hr : T.set l (4 * p + k) (some n) L' 0 = some r := by
    rw [set_of_ne]
    · exact htop'.node
    · rintro ⟨rfl, hp⟩
      have hT := htop'.node
      rw [hp, hnone] at hT
      cases hT
  obtain ⟨rfl, -⟩ := h'.inj hr htop.node
  exact htop'

theorem div_four_pow (i l : ℕ) : i / 4 / 4 ^ l = i / 4 ^ (l + 1) := by
  rw [Nat.div_div_eq_div_mul, pow_succ']

variable {prev next : Option NodeId}

/-- `xas_alloc` and the assignment of the slot put the next node of the path into the
tree. -/
theorem Growing.attach (h : Growing xa T i E M U) (hq : T (l + 1) p = some q) (hk : k < 4)
    (hpk : 4 * p + k = i / 4 ^ (l + 1)) (hnone : T l (4 * p + k) = none)
    (hpred : IsPred (T 0) (i / 4) prev)
    (hsucc : IsSucc (T 0) (i / 4) next) :
    Growing ((linkNode (childAllocated xa q k (2 * l)) q xa.kmemNext prev next).setSlot q k
      (.node xa.kmemNext)) (T.set l (4 * p + k) (some xa.kmemNext)) i E M U := by
  have hfresh := h.body.ne_some_of_le (le_refl xa.kmemNext)
  have hold := ne_of_fresh hfresh
  have hstep := attached_of_alloc h.body hq k prev next
  have hbody := h.body.attached hstep hq hk hnone hfresh
  have hleaf : T 0 (i / 4) = none := h.body.no_leaf_of_none hq hnone
      ((le_div_iff_mul_le (by positivity)).mp (by rw [div_four_pow, hpk]))
      ((div_lt_iff_lt_mul (by positivity)).mp (by rw [div_four_pow, hpk]; omega))
  have hqleaf : ∀ p, T 0 p ≠ some q := by
    intro p hp
    have := (h.body.inj hp hq).1
    omega
  -- The links of the old leaves are still the old ones when the new node is linked.
  have hgap : LinkedExcept (T 0) (childAllocated xa q k (2 * l)).next
      (childAllocated xa q k (2 * l)).prev (i / 4) :=
    (h.gap hleaf).congr (fun hm => .inl (by simp [hold hm])) (fun hm => .inl (by simp [hold hm]))
  refine ⟨hbody, fun m => (h.marks m).attached h.body hstep hq hk hnone hfresh,
    h.flags.congr hstep.flags, ?_, ?_, ?_, ?_, ?_, ?_, fun c hc => ?_⟩
  · intro hnew
    cases l with
    | zero =>
      rw [show 4 * p + k = i / 4 by simpa using hpk, set_self] at hnew
      cases hnew
    | succ l =>
      rw [set_level_of_ne (by omega)]
      exact linkNode_interior hgap (hfresh 0) hqleaf hpred hsucc
  · intro hnew
    cases l with
    | zero =>
      rw [set_level, show 4 * p + k = i / 4 by simpa using hpk]
      exact linkNode_leaf hgap (hfresh 0) hqleaf (hold hq).symm hpred hsucc (by simp) (by simp)
    | succ l =>
      rw [set_of_ne (by omega)] at hnew
      exact absurd hleaf hnew
  · intro l' p' m hm
    rcases set_cases hm with ⟨⟨rfl, rfl⟩, -⟩ | ⟨-, ho⟩
    · exact .inl hpk
    · rcases h.nonempty ho with hpath | ⟨j, hj, hne⟩
      · exact .inl hpath
      · exact .inr ⟨j, hj, hstep.slots_ne_null (hold ho) hne⟩
  · intro L r htop
    have htop' := IsTop.of_attached h.body hbody hstep.head hnone htop
    rcases h.root htop' with hpath | ⟨j, hj, hj0, hne⟩
    · exact .inl hpath
    · exact .inr ⟨j, hj, hj0, hstep.slots_ne_null (hold htop'.node) hne⟩
  · intro j
    rw [← h.entries j]
    refine hstep.readAt_eq h.body hq hnone hstep.slotsNew (fun {p' c} hc => ?_) j
    exact (hstep.content c (hold hc) fun hcq => hqleaf p' (hcq ▸ hc)).slots
  · intro m j
    rw [← h.markAts m j]
    exact hstep.readAt_eq h.body hq hnone (hstep.marksNew m)
      (fun hc => by rw [hstep.marks _ (hold hc)]) j
  · by_cases hcn : c = xa.kmemNext
    · rw [hcn, hstep.freed]
    · rw [(hstep.keep c hcn).freed, h.unfreed c hc]

theorem Growing.addRoot (h : Growing xa T i E M U) (hstep : RootAdded xa xa' l n)
    (hl : RootLevel xa T l) (hfresh : ∀ l p, T l p ≠ some n)
    (hnext : ∀ m, m ≠ n → xa'.next m = xa.next m) (hprev : ∀ m, m ≠ n → xa'.prev m = xa.prev m)
    (hnew : l = 0 → xa'.next n = none ∧ xa'.prev n = none)
    (hpath : xa.xaHead ≠ .null ∨ i / 4 ^ (l + 1) = 0) (hroot : l ≠ 0 → 1 ≤ i / 4 ^ l) :
    Growing xa' (T.set l 0 (some n)) i E M U := by
  have hold := ne_of_fresh hfresh
  have hbody := h.body.rootAdded hstep hl hfresh
  -- A leaf is only put on top of an array without nodes, where it is the whole list.
  have hleaf : l = 0 → Linked (T.set l 0 (some n) 0) xa'.next xa'.prev := by
    rintro rfl
    have hempty : ∀ p, T 0 p = none := by
      rcases hl.2 with ⟨hplain, -⟩ | ⟨L, r, -, hL⟩
      · exact fun p => h.body.eq_none_of_head (ne_node_of_isPlain hplain)
      · omega
    have hgap : LinkedExcept (T 0) xa.next xa.prev 0 :=
      ⟨fun hk => by simp [hempty] at hk, fun hk => by simp [hempty] at hk,
        fun hk => by simp [hempty] at hk⟩
    rw [set_level]
    exact hgap.insert (hfresh 0) (p := none) (q := none) (fun x _ => hempty x)
      (fun x _ => hempty x) (hnew rfl).1 (hnew rfl).2 (by simp) (by simp)
      (fun hm _ => hnext _ (hold hm)) (fun hm _ => hprev _ (hold hm))
  refine ⟨hbody, fun m => (h.marks m).rootAdded h.body hstep hl hfresh,
    h.flags.congr hstep.flags, fun hnone => ?_, fun hsome => ?_, ?_, ?_, ?_, ?_, fun c hc => ?_⟩
  · by_cases hl0 : l = 0
    · exact (hleaf hl0).except _
    · rw [set_level_of_ne (Ne.symm hl0)] at hnone ⊢
      exact (h.gap hnone).congr (fun hm => .inl (hnext _ (hold hm)))
        (fun hm => .inl (hprev _ (hold hm)))
  · by_cases hl0 : l = 0
    · exact hleaf hl0
    · rw [set_level_of_ne (Ne.symm hl0)] at hsome ⊢
      exact (h.linked hsome).congr (fun hm => hnext _ (hold hm)) (fun hm => hprev _ (hold hm))
  · intro l' p' m hm
    rcases set_cases hm with ⟨⟨rfl, rfl⟩, rfl⟩ | ⟨-, ho⟩
    · rcases hpath with hne | hz
      · exact .inr ⟨0, by norm_num, by rw [hstep.slotZero]; exact hne⟩
      · exact .inl hz.symm
    · rcases h.nonempty ho with hp | ⟨j, hj, hne⟩
      · exact .inl hp
      · exact .inr ⟨j, hj, by rw [(hstep.content m (hold ho)).slots]; exact hne⟩
  · intro L r htop
    obtain rfl : n = r := XaEntry.node.inj (hstep.head.symm.trans htop.head)
    obtain ⟨rfl, -⟩ := hbody.inj htop.node set_self
    exact .inl (hroot (by omega))
  · intro j
    rw [← h.entries j]
    exact hstep.readAt_eq h.body hl hstep.slotZero hstep.slotsNew id
      (fun hc => (hstep.content _ (hold hc)).slots) j
  · intro m j
    rw [← h.markAts m j]
    exact hstep.readAt_eq h.body hl (hstep.markZero m) (hstep.marksNew m) (h.marks m).bare
      (fun hc => by rw [hstep.marks _ (hold hc)]) j
  · by_cases hcn : c = n
    · rw [hcn, hstep.freed]
    by_cases hroot : xa.xaHead = .node c
    · rw [(hstep.oldRoot c hroot).2.1, h.unfreed c hc]
    · rw [(hstep.keep c hcn hroot).freed, h.unfreed c hc]

/-! ## `xas_expand` -/

/-- The marks of `xa` replaced. -/
@[simps -fullyApplied] def XArray.withMarks (xa : XArray) (marks : NodeId → XaMark → ℕ → Bool) :
    XArray :=
  { xa with marks := marks }

/-- Without `XA_FLAGS_TRACK_FREE` the mark loop of `xas_expand` copies the marks of the
array to slot `0` of the new root. -/
theorem expandMarks_eq (hflags : xa.trackFree = false) (n : NodeId) (ms : List XaMark) :
    ms.foldl (expandMark n) xa = xa.withMarks fun c m k =>
      if c = n ∧ k = 0 ∧ m ∈ ms ∧ xa.xaMarked m = true then true else xa.marks c m k := by
  induction ms using List.reverseRecOn with
  | nil => simp [XArray.withMarks]
  | append_singleton ms m ih =>
    rw [List.foldl_append, ih, List.foldl_cons, List.foldl_nil]
    unfold expandMark
    simp only [XArray.withMarks_trackFree, hflags, Bool.false_eq_true, false_and, if_false,
      XArray.withMarks_xaMarked]
    by_cases hm : xa.xaMarked m = true
    · rw [if_pos hm]
      simp only [XArray.setMark, XArray.withMarks]
      congr 1
      funext c m' k
      by_cases hc : c = n
      · subst hc
        by_cases hmm : m' = m
        · subst hmm
          by_cases hk : k = 0 <;> simp [hk, hm]
        · simp [hmm]
      · simp [hc]
    · rw [if_neg hm]
      congr 1
      funext c m' k
      by_cases hmm : m' = m
      · subst hmm
        simp [hm]
      · simp [hmm]

/-- The array after a round of `xas_expand` put the node `n` on top. -/
def expanded (xa : XArray) (shift : ℕ) : XArray :=
  expandRoot ((kmemTaken xa).initNode xa.kmemNext shift none) xa.kmemNext xa.xaHead

theorem mem_xaMarks : ∀ m : XaMark, m ∈ xaMarks := by decide

theorem rootAdded_of_expand (hflags : DefaultFlags xa) (hhead : xa.xaHead ≠ .null)
    (hold : ∀ r, xa.xaHead = .node r → r ≠ xa.kmemNext) (l : ℕ) :
    RootAdded xa (expanded xa (2 * l)) l xa.kmemNext := by
  unfold expanded expandRoot
  cases hh : xa.xaHead
  case null => exact absurd hh hhead
  all_goals
    simp only [xaIsValue, Bool.false_eq_true, if_false, if_true]
    rw [expandMarks_eq (by simp [hflags.trackFree])]
    constructor
    case flags => constructor <;> simp
    case content =>
      intro m hm
      constructor <;> simp [hm]
    case marks =>
      intro c hc
      funext m k
      simp [hc]
    case markZero =>
      intro m
      simp [mem_xaMarks]
    case marksNew =>
      intro m j hj
      simp [hj]
    case slotsNew =>
      intro j hj
      simp [hj]
  case node.keep r =>
    intro m hm hmr
    have hmr' : m ≠ r := fun h => hmr (by rw [h, hh])
    constructor <;> simp [hm, hmr']
  case node.oldRoot r =>
    intro r' hr'
    obtain rfl : r = r' := XaEntry.node.inj (hh.symm.trans hr')
    simp [hold r hh]
  case value.keep | pointer.keep | sibling.keep | retry.keep | zero.keep =>
    intro m hm _
    constructor <;> simp [hm]
  case node.parent r => simp [(hold r hh).symm]
  all_goals simp [xaPresent, xaIsValue, hh]

theorem expanded_next (hflags : DefaultFlags xa) (shift : ℕ) {m : NodeId} (hm : m ≠ xa.kmemNext) :
    (expanded xa shift).next m = xa.next m ∧ (expanded xa shift).prev m = xa.prev m := by
  unfold expanded expandRoot
  cases xa.xaHead <;> simp [xaIsValue, expandMarks_eq, hflags.trackFree, hm]

theorem expanded_bare (hflags : DefaultFlags xa) (shift : ℕ) (hhead : ∀ r, xa.xaHead ≠ .node r) :
    (expanded xa shift).next xa.kmemNext = none ∧ (expanded xa shift).prev xa.kmemNext = none := by
  unfold expanded expandRoot
  cases hh : xa.xaHead
  case node r => exact absurd hh (hhead r)
  all_goals simp [xaIsValue, expandMarks_eq, hflags.trackFree]

theorem maxIndex_top (h : IsTree xa T) (htop : IsTop xa T L r) :
    maxIndex xa (.node r) = 4 ^ (L + 1) - 1 := by
  have hL := (h.bound htop.node).1
  have hle : 4 ^ (L + 1) ≤ 4 ^ 32 := Nat.pow_le_pow_right (by norm_num) (by omega)
  have hpos : 0 < 4 ^ (L + 1) := by positivity
  simp only [maxIndex, h.shift htop.node, shiftLeft_two_mul]
  rw [← pow_succ']
  norm_num at hle ⊢
  omega

theorem xasMax_single (hshift : xas.xaShift = 0) (hsibs : xas.xaSibs = 0) :
    xasMax xas = xas.xaIndex := by
  simp [xasMax, hshift, hsibs]

/-- The state of the loop of `xas_expand` for the index `i` : the head is the bare entry of
the array `xa` it started from, or the root it has reached. -/
def ExpandAt (xa : XArray) (xas : XaState) (i : ℕ) (E : ℕ → XaEntry) (M : XaMark → ℕ → Bool)
    (U : NodeId → Prop) (v : ℕ) (s : ExpandState) : Prop :=
  s.xas = { xas with xaNode := .null } ∧ s.head = s.xa.xaHead ∧ s.head ≠ .null ∧
    ∃ T, Growing s.xa T i E M U ∧
      (xaIsPlain s.head = true ∧ s.xa = xa ∧ s.node = none ∧ s.shift = 0 ∧ v = 40 ∨
        ∃ L r, IsTop s.xa T L r ∧ s.node = some r ∧ s.shift = 2 * (L + 1) ∧ v = 32 - L)

/-- What `xas_expand` leaves : the bare entry for index `0`, or a root that covers `i`. -/
def ExpandDone (xa : XArray) (xas : XaState) (i : ℕ) (E : ℕ → XaEntry) (M : XaMark → ℕ → Bool)
    (U : NodeId → Prop) : Option (XArray × XaState × Option ℕ) → Prop
  | some (xa', xas', some shift) => ∃ T, Growing xa' T i E M U ∧
      (i = 0 ∧ xaIsPlain xa'.xaHead = true ∧ xa' = xa ∧
          xas' = { xas with xaNode := .null } ∧ shift = 0 ∨
        ∃ L r, IsTop xa' T L r ∧ i < 4 ^ (L + 1) ∧ xas' = { xas with xaNode := .node r } ∧
          shift = 2 * (L + 1))
  | _ => False

theorem expandRound_step {xa0 : XArray} (hi : i < 2 ^ 64) (halloc : xas.xaAlloc = none) :
    RoundKeeps (expandRound i) (ExpandAt xa0 xas i E M U) (ExpandDone xa0 xas i E M U) := by
  rintro v ⟨xa, xas', head, node, shift⟩ hs
  dsimp only [ExpandAt] at hs
  obtain ⟨rfl, rfl, hnull, T, h, hcase⟩ := hs
  have hfresh := h.body.ne_some_of_le (le_refl xa.kmemNext)
  have hold : ∀ r, xa.xaHead = .node r → r ≠ xa.kmemNext := by
    rintro r hr rfl
    obtain ⟨L, htop⟩ := h.body.exists_top hr
    exact hfresh _ _ htop.node
  -- A round that goes on puts a new root on top, at the level that `shift` stands for.
  have hagain : ∀ l, shift = 2 * l → maxIndex xa xa.xaHead < i →
      expandRound i ⟨xa, { xas with xaNode := .null }, xa.xaHead, node, shift⟩ =
        .again ⟨expanded xa (2 * l), { xas with xaNode := .null }, .node xa.kmemNext,
          some xa.kmemNext, 2 * l + 2⟩ := by
    rintro l rfl hlt
    have halloc' : ({ xas with xaNode := .null } : XaState).xaAlloc = none := halloc
    unfold expandRound expanded
    rw [if_pos hlt, xasAlloc_root h.flags rfl halloc']
  have hstop : ¬maxIndex xa xa.xaHead < i →
      expandRound i ⟨xa, { xas with xaNode := .null }, xa.xaHead, node, shift⟩ =
        .done (some (xa, { xas with xaNode := .ofPtr node }, some shift)) := fun hge => by
    unfold expandRound
    rw [if_neg hge]
  have hstep := rootAdded_of_expand h.flags hnull hold
  rcases hcase with ⟨hplain, rfl, rfl, rfl, rfl⟩ | ⟨L, r, htop, rfl, rfl, rfl⟩
  · have hmax : maxIndex xa xa.xaHead = 0 := by
      cases hh : xa.xaHead <;> first | (rw [hh] at hplain; cases hplain; done) | rfl
    by_cases hi0 : i = 0
    · right
      exact ⟨_, hstop (by omega), T, h, .inl ⟨hi0, hplain, rfl, rfl, rfl⟩⟩
    left
    have hl : RootLevel xa T 0 := ⟨by norm_num, .inl ⟨hplain, .inr rfl⟩⟩
    refine ⟨_, 32, hagain 0 rfl (by omega), by norm_num, rfl, (hstep 0).head.symm,
      XaEntry.noConfusion, T.set 0 0 (some xa.kmemNext), ?_,
      .inr ⟨0, xa.kmemNext, ?_, rfl, rfl, rfl⟩⟩
    · exact h.addRoot (hstep 0) hl hfresh (fun m hm => (expanded_next h.flags _ hm).1)
        (fun m hm => (expanded_next h.flags _ hm).2)
        (fun _ => expanded_bare h.flags _ (ne_node_of_isPlain hplain)) (.inl hnull)
        (fun h0 => absurd rfl h0)
    · refine ⟨(hstep 0).head, set_self, ?_⟩
      rw [set_of_ne (by omega)]
      exact h.body.eq_none_of_head (ne_node_of_isPlain hplain)
  have hL := (h.body.bound htop.node).1
  have hmax : maxIndex xa xa.xaHead = 4 ^ (L + 1) - 1 := by
    rw [htop.head]
    exact maxIndex_top h.body.toIsTree htop
  have hpos : 0 < 4 ^ (L + 1) := by positivity
  by_cases hiL : i < 4 ^ (L + 1)
  · right
    exact ⟨_, hstop (by omega), T, h, .inr ⟨L, r, htop, hiL, rfl, rfl⟩⟩
  left
  have hL' : L + 1 < 32 := by
    by_contra hge
    obtain rfl : L = 31 := by omega
    rw [two_pow_64] at hi
    exact hiL hi
  have hl : RootLevel xa T (L + 1) := ⟨hL', .inr ⟨L, r, htop, rfl⟩⟩
  refine ⟨_, 32 - (L + 1), hagain (L + 1) rfl (by omega), by omega, rfl,
    (hstep (L + 1)).head.symm, XaEntry.noConfusion, T.set (L + 1) 0 (some xa.kmemNext), ?_,
    .inr ⟨L + 1, xa.kmemNext, ?_, rfl, by ring, rfl⟩⟩
  · refine h.addRoot (hstep (L + 1)) hl hfresh (fun m hm => (expanded_next h.flags _ hm).1)
      (fun m hm => (expanded_next h.flags _ hm).2) (fun h0 => by omega) (.inl hnull)
      (fun _ => ?_)
    exact (one_le_div_iff hpos).mpr (by omega)
  · refine ⟨(hstep (L + 1)).head, set_self, ?_⟩
    rw [set_of_ne (by omega)]
    exact h.body.none_above htop (by omega)

/-- `xas_expand` on an array with a bare entry or a root. -/
theorem xasExpand_spec (h : Growing xa T i E M U) (hi : i < 2 ^ 64) (hhead : xa.xaHead ≠ .null)
    (hindex : xas.xaIndex = i) (hshift : xas.xaShift = 0) (hsibs : xas.xaSibs = 0)
    (halloc : xas.xaAlloc = none) :
    ExpandDone xa xas i E M U (xasExpand xa xas xa.xaHead) := by
  have hrun : ∀ s v, v < 100 → ExpandAt xa xas i E M U v s →
      ExpandDone xa xas i E M U (runLoop (expandRound i) xaFuel s).join := by
    intro s v hv hs
    obtain ⟨b, hb, hdone⟩ := runLoop_of_rank (expandRound_step hi halloc) hs (n := xaFuel)
      (by unfold xaFuel; omega)
    rw [hb]
    exact hdone
  have hmax : xasMax xas = i := (xasMax_single hshift hsibs).trans hindex
  rcases h.body.headSlot with hplain | ⟨r, hr⟩
  · have hgo : xasExpand xa xas xa.xaHead = (runLoop (expandRound i) xaFuel
        ⟨xa, { xas with xaNode := .null }, xa.xaHead, none, 0⟩).join := by
      unfold xasExpand
      rw [hmax]
      cases hh : xa.xaHead <;>
        first | rfl | exact absurd hh hhead | (rw [hh] at hplain; cases hplain)
    rw [hgo]
    exact hrun _ 40 (by norm_num) ⟨rfl, rfl, hhead, T, h, .inl ⟨hplain, rfl, rfl, rfl, rfl⟩⟩
  obtain ⟨L, htop⟩ := h.body.exists_top hr
  have hgo : xasExpand xa xas xa.xaHead = (runLoop (expandRound i) xaFuel
      ⟨xa, { xas with xaNode := .null }, xa.xaHead, some r, 2 * (L + 1)⟩).join := by
    unfold xasExpand
    rw [hmax, hr]
    dsimp only
    rw [h.body.shift htop.node]
    rfl
  rw [hgo]
  exact hrun _ (32 - L) (by omega) ⟨rfl, rfl, hhead, T, h, .inr ⟨L, r, htop, rfl, rfl, rfl⟩⟩

/-- On an empty array `xas_expand` only computes the level of the root to be made. -/
theorem expandShift_spec (hi : i < 2 ^ 64) :
    ∃ l < 32, expandShift i = some (2 * l) ∧ i / 4 ^ (l + 1) = 0 ∧ (l ≠ 0 → 1 ≤ i / 4 ^ l) := by
  have hround : RoundKeeps
      (fun s => if i >>> s ≥ xaChunkSize then Round.again (s + 2) else Round.done s)
      (fun v s => ∃ l, s = 2 * l ∧ v + l = 32 ∧ l < 32 ∧ (l ≠ 0 → 1 ≤ i / 4 ^ l))
      fun b => ∃ l, b = 2 * l ∧ l < 32 ∧ i / 4 ^ (l + 1) = 0 ∧ (l ≠ 0 → 1 ≤ i / 4 ^ l) := by
    rintro v s ⟨l, rfl, hv, hl, hone⟩
    simp only [shiftRight_two_mul]
    have hdiv := div_pow_succ i l
    by_cases hge : i / 4 ^ l ≥ 4
    case neg =>
      right
      rw [if_neg hge]
      exact ⟨_, rfl, l, rfl, hl, by rw [hdiv, div_eq_of_lt (by omega)], hone⟩
    left
    rw [if_pos hge]
    have hl' : l + 1 < 32 := by
      by_contra hcon
      obtain rfl : l = 31 := by omega
      have : i / 4 ^ 31 < 4 := by
        rw [div_lt_iff_lt_mul (by positivity)]
        norm_num at hi ⊢
        exact hi
      omega
    exact ⟨_, v - 1, rfl, by omega, l + 1, by ring, by omega, hl', fun _ => by omega⟩
  obtain ⟨b, hb, l, rfl, hl⟩ := runLoop_of_rank hround (n := xaFuel) (v := 32) (s := 0)
    ⟨0, rfl, rfl, by norm_num, fun h => absurd rfl h⟩ (by unfold xaFuel; norm_num)
  exact ⟨l, hl.1, hb, hl.2⟩

/-! ## `xas_create` -/

theorem getOffset_eq (h : IsTree xa T) (hn : T l p = some n) (i : ℕ) :
    getOffset xa i n = i / 4 ^ l % 4 := by
  simp only [getOffset, h.shift hn, shiftRight_two_mul, and_three]

theorem xaIsSibling_of_body (h : Body xa T) (hn : T l p = some n) (hk : k < 4) :
    xaIsSibling (xa.slots n k) = false := by
  cases l with
  | zero =>
    have := h.leafSlot hn k hk
    cases hs : xa.slots n k <;> first | rfl | (rw [hs] at this; cases this)
  | succ l =>
    rcases h.interior hn k hk with hs | ⟨c, hs⟩ <;> rw [hs] <;> rfl

/-- `xas_descend` steps to the slot of the index. -/
theorem xasDescend_eq (h : Body xa T) (hn : T l p = some n) (xas : XaState) :
    xasDescend xa xas n = (xa.slots n (xas.xaIndex / 4 ^ l % 4),
      { xas with xaNode := .node n, xaOffset := xas.xaIndex / 4 ^ l % 4 }) := by
  have hsib := xaIsSibling_of_body h hn (mod_lt (xas.xaIndex / 4 ^ l) (by norm_num : 0 < 4))
  unfold xasDescend
  rw [getOffset_eq h.toIsTree hn]
  dsimp only
  split
  · rw [if_neg (by rw [hsib]; exact Bool.false_ne_true)]
  · rfl

theorem rootAdded_of_create (h : Growing xa T i E M U) (hhead : xa.xaHead = .null) (l : ℕ) :
    RootAdded xa (((kmemTaken xa).initNode xa.kmemNext (2 * l) none).setHead
      (.node xa.kmemNext)) l xa.kmemNext := by
  constructor
  case flags => constructor <;> simp
  case keep =>
    intro m hm _
    constructor <;> simp [hm]
  case content =>
    intro m hm
    constructor <;> simp [hm]
  case markZero =>
    intro m
    simp [(h.marks m).bare hhead]
  case marks =>
    intro c hc
    simp [hc]
  all_goals simp [hhead, xaPresent, xaIsValue]

variable {s : CreateState}

/-- A round of `xas_create` at a node steps down. -/
theorem createRound_node (hshift : s.xas.xaShift < s.shift) (he : s.entry = .node n) :
    createRound s = .again ⟨s.xa, (xasDescend s.xa s.xas n).2, (xasDescend s.xa s.xas n).1,
      .slot n (xasDescend s.xa s.xas n).2.xaOffset, s.shift - 2⟩ := by
  unfold createRound
  rw [if_pos hshift, he]

/-- A round of `xas_create` at an empty slot makes a node and steps into it. -/
theorem createRound_null {xa' xa'' : XArray} {xas' : XaState}
    (hshift : s.xas.xaShift < s.shift) (he : s.entry = .null)
    (halloc : xasAlloc s.xa s.xas (s.shift - 2) = some (xa', xas', some n))
    (hfree : xa'.trackFree = false) (hassign : assignSlot xa' (.node n) s.slot = xa'') :
    createRound s = .again ⟨xa'', (xasDescend xa'' xas' n).2, (xasDescend xa'' xas' n).1,
      .slot n (xasDescend xa'' xas' n).2.xaOffset, s.shift - 2⟩ := by
  unfold createRound
  rw [if_pos hshift, he]
  rw [halloc]
  simp [hfree, hassign]

/-- A round of `xas_create` stops at the level asked for, and at an entry of the user. -/
theorem createRound_done
    (h : ¬s.xas.xaShift < s.shift ∨ xaIsPlain s.entry = true ∧ s.entry ≠ .null) :
    createRound s = .done (some (s.xa, s.xas, s.entry)) := by
  unfold createRound
  rcases h with hge | ⟨hplain, hnull⟩
  · rw [if_neg hge]
  split
  · cases he : s.entry <;> rw [he] at hplain hnull <;> 
      first | exact absurd rfl hnull | rfl | cases hplain
  · rfl

/-- The state of the loop of `xas_create` for the index `i` : at a slot of the path, at the
root, or at the head of an empty array with the level of the root to be made. -/
inductive CreateAt (xas : XaState) (i : ℕ) (E : ℕ → XaEntry) (M : XaMark → ℕ → Bool)
    (U : NodeId → Prop) : ℕ → CreateState → Prop
  | slot {xa : XArray} {T : Layout} {l : ℕ} {n : NodeId} (h : Growing xa T i E M U)
      (hn : T l (i / 4 ^ (l + 1)) = some n) :
      CreateAt xas i E M U l ⟨xa, { xas with xaNode := .node n, xaOffset := i / 4 ^ l % 4 },
        xa.slots n (i / 4 ^ l % 4), .slot n (i / 4 ^ l % 4), 2 * l⟩
  | root {xa : XArray} {T : Layout} {L : ℕ} {r : NodeId} (h : Growing xa T i E M U)
      (htop : IsTop xa T L r) (hi : i < 4 ^ (L + 1)) :
      CreateAt xas i E M U (L + 1) ⟨xa, { xas with xaNode := .node r }, .node r, .head, 2 * (L + 1)⟩
  | empty {xa : XArray} {T : Layout} {l : ℕ} (h : Growing xa T i E M U) (hhead : xa.xaHead = .null)
      (hl : l < 32) (hi : i / 4 ^ (l + 1) = 0) (hone : l ≠ 0 → 1 ≤ i / 4 ^ l) :
      CreateAt xas i E M U (l + 1) ⟨xa, { xas with xaNode := .null }, .null, .head, 2 * (l + 1)⟩

/-- What `xas_create` leaves : the leaf of `i` is there and `xas` is at its slot. -/
def CreateDone (xas : XaState) (i : ℕ) (E : ℕ → XaEntry) (M : XaMark → ℕ → Bool)
    (U : NodeId → Prop) : Option (XArray × XaState × XaEntry) → Prop
  | some (xa, xas', e) => ∃ T n, Growing xa T i E M U ∧ T 0 (i / 4) = some n ∧
      xas' = { xas with xaNode := .node n, xaOffset := i % 4 } ∧ e = E i
  | none => False

theorem createRound_step (hindex : xas.xaIndex = i) (hshift : xas.xaShift = 0)
    (halloc : xas.xaAlloc = none) :
    RoundKeeps createRound (CreateAt xas i E M U) (CreateDone xas i E M U) := by
  intro v s hs
  subst hindex
  -- One level down from a state that has made or found the node `n` of the path.
  have hdown : ∀ {xa : XArray} {T : Layout} {l : ℕ} {n : NodeId} {xas' : XaState},
      Growing xa T xas.xaIndex E M U → T l (xas.xaIndex / 4 ^ (l + 1)) = some n →
      { xas' with xaNode := XasNode.null, xaOffset := 0 } =
        { xas with xaNode := XasNode.null, xaOffset := 0 } →
      CreateAt xas xas.xaIndex E M U l ⟨xa, (xasDescend xa xas' n).2, (xasDescend xa xas' n).1,
        .slot n (xasDescend xa xas' n).2.xaOffset, 2 * l⟩ := by
    intro xa T l n xas' h hn hxas
    obtain ⟨index, shift, sibs, offset, node, alloc⟩ := xas'
    obtain ⟨rfl, rfl, rfl, rfl⟩ := hxas
    rw [xasDescend_eq h.body hn]
    exact .slot h hn
  cases hs with
  | @slot xa T _ n h hn =>
    have hk : xas.xaIndex / 4 ^ v % 4 < 4 := by omega
    cases v with
    | zero =>
      right
      have hn' : T 0 (xas.xaIndex / 4) = some n := by simpa using hn
      refine ⟨_, createRound_done (.inl (by simp)), T, n, h, hn', by simp, ?_⟩
      rw [← h.entries, entryAt, readAt_leaf hn', pow_zero, Nat.div_one]
    | succ l =>
      left
      have hpk := four_mul_div_add_mod xas.xaIndex (l + 1)
      rcases h.body.interior hn _ hk with hnull | ⟨c, hc⟩
      · have hnone : T l (4 * (xas.xaIndex / 4 ^ (l + 2)) + xas.xaIndex / 4 ^ (l + 1) % 4) =
            none := by
          cases hT : T l (4 * (xas.xaIndex / 4 ^ (l + 2)) + xas.xaIndex / 4 ^ (l + 1) % 4) with
          | none => rfl
          | some c =>
            rw [h.body.child_slot hn hk hT] at hnull
            cases hnull
        have halloc' : ({ xas with
            xaNode := .node n, xaOffset := xas.xaIndex / 4 ^ (l + 1) % 4 } : XaState).xaAlloc =
              none := halloc
        obtain ⟨prev, next, hpred, hsucc, hallocd⟩ := xasAlloc_child h.body.toIsTree h.flags hn hk
          hnone rfl rfl halloc' (b := xas.xaIndex / 4) (by rw [div_four_pow, hpk])
        have h' := h.attach hn hk hpk hnone hpred hsucc
        rw [hpk] at h'
        refine ⟨_, l, createRound_null (by simp [hshift]) hnull hallocd ?_ rfl, l.lt_succ_self,
          hdown h' set_self rfl⟩
        rw [linkNode_eq]
        exact h.flags.trackFree
      · refine ⟨_, l, createRound_node (by simp [hshift]) hc, l.lt_succ_self, hdown h ?_ rfl⟩
        rw [← hpk]
        exact h.body.slot_child hn hk hc
  | @root xa T L r h htop hi =>
    left
    refine ⟨_, L, createRound_node (by simp [hshift]) rfl, L.lt_succ_self, hdown h ?_ rfl⟩
    rw [div_eq_of_lt hi]
    exact htop.node
  | @empty xa T l h hhead hl hz hone =>
    left
    have halloc' : ({ xas with xaNode := .null } : XaState).xaAlloc = none := halloc
    have hfresh := h.body.ne_some_of_le (le_refl xa.kmemNext)
    have hlevel : RootLevel xa T l := ⟨hl, .inl ⟨by rw [hhead]; rfl, .inl hhead⟩⟩
    have h' := h.addRoot (rootAdded_of_create h hhead l) hlevel hfresh
      (fun m hm => by simp [hm]) (fun m hm => by simp [hm]) (fun _ => by simp) (.inr hz) hone
    refine ⟨_, l, createRound_null (by simp [hshift]) rfl
      (xasAlloc_root h.flags rfl halloc' (2 * l)) h.flags.trackFree rfl, l.lt_succ_self,
      hdown h' ?_ rfl⟩
    rw [hz]
    exact set_self

theorem createLoop_spec (hindex : xas.xaIndex = i) (hshift : xas.xaShift = 0)
    (halloc : xas.xaAlloc = none) {v : ℕ} (hv : v < 100)
    (hs : CreateAt xas i E M U v s) : CreateDone xas i E M U (createLoop s) := by
  obtain ⟨b, hb, hdone⟩ := runLoop_of_rank (createRound_step hindex hshift halloc) hs
    (n := xaFuel) (by unfold xaFuel; omega)
  rw [createLoop, hb]
  exact hdone

theorem createLoop_done
    (h : ¬s.xas.xaShift < s.shift ∨ xaIsPlain s.entry = true ∧ s.entry ≠ .null) :
    createLoop s = some (s.xa, s.xas, s.entry) := by
  rw [createLoop, runLoop_of_done (createRound_done h) xaFuel_pos]
  rfl

/-- The places from which `xas_create` may start for the index `i` : anywhere that is not a
node, or at a slot of the path. -/
def CreateFrom (T : Layout) (i : ℕ) (xas : XaState) : Prop :=
  xas.xaNode = .null ∨ xas.xaNode = .bounds ∨ xas.xaNode = .restart ∨
    ∃ l n, T l (i / 4 ^ (l + 1)) = some n ∧ xas.xaNode = .node n ∧ xas.xaOffset = i / 4 ^ l % 4

theorem xasCreate_head (h : Growing xa T i E M U) (hi : i < 2 ^ 64) (hindex : xas.xaIndex = i)
    (hshift : xas.xaShift = 0) (hsibs : xas.xaSibs = 0) (halloc : xas.xaAlloc = none)
    (allowRoot : Bool) :
    (i = 0 ∧ xaIsPlain xa.xaHead = true ∧ xasCreate xa { xas with xaNode := .null } allowRoot =
          some (xa, { xas with xaNode := .null }, xa.xaHead)) ∨
      CreateDone xas i E M U (xasCreate xa { xas with xaNode := .null } allowRoot) := by
  have hmax : xasMax { xas with xaNode := .null } = i := (xasMax_single hshift hsibs).trans hindex
  simp only [xasCreate, h.flags.zeroBusy, Bool.false_eq_true, and_false, if_false]
  by_cases hnull : xa.xaHead = .null
  · have hempty : ∀ {l}, l < 32 → i / 4 ^ (l + 1) = 0 → (l ≠ 0 → 1 ≤ i / 4 ^ l) →
        CreateDone xas i E M U (createLoop ⟨xa, { xas with xaNode := .null }, xa.xaHead, .head,
          2 * (l + 1)⟩) := by
      intro l hl hz hone
      rw [hnull]
      exact createLoop_spec hindex hshift halloc (by omega) (.empty h hnull hl hz hone)
    simp only [hnull, xasExpand, hmax]
    by_cases hi0 : i = 0
    case neg =>
      obtain ⟨l, hl, hshift', hz, hone⟩ := expandShift_spec hi
      rw [if_neg hi0, hshift', Option.map_some, Option.bind_some]
      right
      simp only [Nat.add_eq_zero_iff, OfNat.ofNat_ne_zero, and_false, false_and, if_false]
      exact hempty hl hz hone
    rw [if_pos hi0, Option.bind_some]
    cases allowRoot with
    | true =>
      left
      refine ⟨hi0, rfl, ?_⟩
      exact hnull ▸ createLoop_done (.inl (by simp))
    | false =>
      right
      exact hempty (l := 0) (by norm_num) (by simp [hi0]) (fun h0 => absurd rfl h0)
  · have hindex' : ({ xas with xaNode := .null } : XaState).xaIndex = i := hindex
    have hexpand := xasExpand_spec h hi hnull hindex' hshift hsibs halloc
    rcases hres : xasExpand xa { xas with xaNode := .null } xa.xaHead with
      _ | ⟨xa', xas', _ | shift⟩ <;> rw [hres] at hexpand
    · exact hexpand.elim
    · exact hexpand.elim
    · rw [Option.bind_some]
      obtain ⟨T', h', ⟨hi0, hplain, rfl, rfl, rfl⟩ | ⟨L, r, htop, hiL, rfl, rfl⟩⟩ := hexpand
      · exact .inl ⟨hi0, hplain, createLoop_done (.inr ⟨hplain, hnull⟩)⟩
      right
      have hL := (h'.body.bound htop.node).1
      simp only [Nat.mul_eq_zero, OfNat.ofNat_ne_zero, Nat.add_eq_zero_iff, Nat.one_ne_zero,
        and_false, or_false, false_and, if_false]
      rw [htop.head]
      exact createLoop_spec hindex hshift halloc (by omega) (.root h' htop hiL)

/-- `xas_create` for the single index `i` : the array is left alone and `xas` is at the
head, where the head itself is to hold the entry of index `0`, or the leaf of `i` is there
and `xas` is at its slot. -/
theorem xasCreate_spec (h : Growing xa T i E M U) (hi : i < 2 ^ 64) (hindex : xas.xaIndex = i)
    (hshift : xas.xaShift = 0) (hsibs : xas.xaSibs = 0) (halloc : xas.xaAlloc = none)
    (hfrom : CreateFrom T i xas) (allowRoot : Bool) :
    (i = 0 ∧ xaIsPlain xa.xaHead = true ∧
        xasCreate xa xas allowRoot = some (xa, { xas with xaNode := .null }, xa.xaHead)) ∨
      CreateDone xas i E M U (xasCreate xa xas allowRoot) := by
  have hcase : (xas.xaNode = .null ∨ xas.xaNode = .bounds ∨ xas.xaNode = .restart) ∨
      ∃ l n, T l (i / 4 ^ (l + 1)) = some n ∧ xas.xaNode = .node n ∧
        xas.xaOffset = i / 4 ^ l % 4 := by
    unfold CreateFrom at hfrom
    tauto
  rcases hcase with hnode | ⟨l, n, hn, hnode, hoffset⟩
  · -- Anywhere but at a node, `xas_create` starts at the head.
    have hgo : xasCreate xa xas allowRoot =
        xasCreate xa { xas with xaNode := .null } allowRoot := by
      unfold xasCreate
      rcases hnode with hnode | hnode | hnode <;> rw [hnode]
    rw [hgo]
    exact xasCreate_head h hi hindex hshift hsibs halloc allowRoot
  right
  have hxas : xas = { xas with xaNode := .node n, xaOffset := i / 4 ^ l % 4 } := by
    rw [← hnode, ← hoffset]
  have hl := (h.body.bound hn).1
  have hgo : xasCreate xa xas allowRoot = createLoop ⟨xa,
      { xas with xaNode := .node n, xaOffset := i / 4 ^ l % 4 }, xa.slots n (i / 4 ^ l % 4),
      .slot n (i / 4 ^ l % 4), 2 * l⟩ := by
    unfold xasCreate
    rw [hnode, ← h.body.shift hn]
    rw [hoffset, ← hxas]
  rw [hgo]
  exact createLoop_spec hindex hshift halloc (by omega) (.slot h hn)

end

end LinuxKernelTest
