import Mathlib.Data.Nat.Size
import LinuxKernelTest.LinkedLists
import LinuxKernelTest.Rings
import LinuxKernelTest.MergeRuns

/-!
# `list_sort`

A model of `lib/list_sort.c`. An address is `some x` for a list head `x` and `none` for `NULL`; to
follow `NULL` is a fault, the answer `none` of a function. `list_sort` opens the ring, takes one
element after the other from it, and keeps the elements taken so far in sorted runs. A run is a
null-terminated list along the `next` links; the first elements of the runs form a null-terminated
list along the `prev` links, the newest run first. Which two runs are merged is read off the bits
of the number of elements taken. A pointer to a link is a `Place`.

The number of runs is the number of binary digits of the count (`PushInv.size`), which is why the
two runs to merge always exist. That the result is sorted does not depend on the choice of the runs,
only on merging neighbours with the older one first (`Runs.merge`).
-/

set_option linter.unusedSectionVars false

namespace LinuxKernelTest

open Function ListHeads Option Nat
open List hiding next merge

namespace ListSort

variable {α : Type*} [DecidableEq α]

/-- The memory : the links of the list heads, and `NULL`. -/
abbrev Mem (α : Type*) := ListHeads (Option α)

variable (mem : Mem α)

/-- Write `next` of an element. -/
def setNext (x : α) (v : Option α) : Mem α :=
  { mem with next := update mem.next (some x) v }

/-- Write `prev` of an element. -/
def setPrev (x : α) (v : Option α) : Mem α :=
  { mem with prev := update mem.prev (some x) v }

/-- A variable and the `next` fields. -/
def nextLinks (v : Option α) : Place Unit α → Option α
  | .head _ => v
  | .next x => mem.next (some x)

/-- A variable and the `prev` fields. -/
def prevLinks (v : Option α) : Place Unit α → Option α
  | .head _ => v
  | .next x => mem.prev (some x)

/-- `*tail = p`, where `tail` points to the variable or to a `next` field. -/
def writeNext (v : Option α) : Place Unit α → Option α → Mem α × Option α
  | .head _, p => (mem, p)
  | .next x, p => (setNext mem x p, v)

/-- `*tail = p`, where `tail` points to the variable or to a `prev` field. -/
def writePrev (v : Option α) : Place Unit α → Option α → Mem α × Option α
  | .head _, p => (mem, p)
  | .next x, p => (setPrev mem x p, v)

variable (cmp : α → α → ℤ)

/-! ## `merge` -/

/-- The state of the loop of `merge`. -/
structure MergeState (α : Type*) where
  mem : Mem α
  head : Option α
  tail : Place Unit α
  a : α
  b : α

/-- A round of `merge`. It leaves with the memory and the first element. -/
def mergeRound (s : MergeState α) : Round (MergeState α) (Mem α × Option α) :=
  if cmp s.a s.b ≤ 0 then
    let w := writeNext s.mem s.head s.tail (some s.a)
    match w.1.next (some s.a) with
    | none => .done (writeNext w.1 w.2 (.next s.a) (some s.b))
    | some a => .again ⟨w.1, w.2, .next s.a, a, s.b⟩
  else
    let w := writeNext s.mem s.head s.tail (some s.b)
    match w.1.next (some s.b) with
    | none => .done (writeNext w.1 w.2 (.next s.b) (some s.a))
    | some b => .again ⟨w.1, w.2, .next s.b, s.a, b⟩

/-- The new memory and the first element of the merged list. -/
def merge (fuel : ℕ) (mem : Mem α) (a b : α) : Option (Mem α × Option α) :=
  runLoop (mergeRound cmp) fuel ⟨mem, none, .head (), a, b⟩

/-! ## `merge_final` -/

/-- The state of the first loop of `merge_final`. -/
structure FinalState (α : Type*) where
  mem : Mem α
  tail : α
  a : α
  b : α

/-- The first loop leaves with the memory, `tail` and the rest `b`. -/
def finalRound (s : FinalState α) : Round (FinalState α) (Mem α × α × α) :=
  if cmp s.a s.b ≤ 0 then
    let mem := setPrev (setNext s.mem s.tail (some s.a)) s.a (some s.tail)
    match mem.next (some s.a) with
    | none => .done (mem, s.a, s.b)
    | some a => .again ⟨mem, s.a, a, s.b⟩
  else
    let mem := setPrev (setNext s.mem s.tail (some s.b)) s.b (some s.tail)
    match mem.next (some s.b) with
    | none => .done (mem, s.b, s.a)
    | some b => .again ⟨mem, s.b, s.a, b⟩

/-- The loop over the rest of the list : it sets the `prev` links, and calls `cmp(priv, b, b)` from
time to time for its side effects only. -/
def relinkRound : Mem α × α × α → Round (Mem α × α × α) (Mem α × α)
  | (mem, tail, b) =>
    let mem := setPrev mem b (some tail)
    match mem.next (some b) with
    | none => .done (mem, b)
    | some b' => .again (mem, b, b')

/-- `merge_final`. -/
def mergeFinal (fuel : ℕ) (mem : Mem α) (head a b : α) : Option (Mem α) :=
  (runLoop (finalRound cmp) fuel ⟨mem, head, a, b⟩).bind fun (mem, tail, b) =>
    (runLoop relinkRound fuel (setNext mem tail (some b), tail, b)).map fun (mem, tail) =>
      setPrev (setNext mem tail (some head)) head (some tail)

/-! ## `list_sort` -/

/-- `for (bits = count; bits & 1; bits >>= 1) tail = &(*tail)->prev`. -/
def tailRound (pending : Option α) :
    Place Unit α × ℕ → Round (Place Unit α × ℕ) (Option (Place Unit α × ℕ))
  | (tail, bits) =>
    if bits % 2 = 1 then
      match prevLinks mem pending tail with
      | none => .done none
      | some x => .again (.next x, bits / 2)
    else .done (some (tail, bits))

/-- Merge the run at `*tail` with the next older one and install the result in place of both. -/
def mergePending (fuel : ℕ) (mem : Mem α) (pending : Option α) (tail : Place Unit α) :
    Option (Mem α × Option α) :=
  (prevLinks mem pending tail).bind fun a =>
    (mem.prev (some a)).bind fun b =>
      (merge cmp fuel mem b a).bind fun (mem', merged) =>
        merged.map fun a' => writePrev (setPrev mem' a' (mem'.prev (some b))) pending tail (some a')

/-- The state of the main loop of `list_sort`. -/
structure SortState (α : Type*) where
  mem : Mem α
  pending : Option α
  list : α
  count : ℕ

/-- The merge of a round : the memory and the new `pending`. -/
def selectMerge (fuel : ℕ) (s : SortState α) : Option (Mem α × Option α) :=
  (runLoop (tailRound s.mem s.pending) fuel (.head (), s.count)).join.bind fun (tail, bits) =>
    if bits ≠ 0 then mergePending cmp fuel s.mem s.pending tail else some (s.mem, s.pending)

/-- A round of the main loop. It leaves with the memory and `pending`. The count is that of list
heads in memory, which a `size_t` holds. -/
def pushRound (fuel : ℕ) (s : SortState α) :
    Round (SortState α) (Option (Mem α × Option α)) :=
  match selectMerge cmp fuel s with
  | none => .done none
  | some (mem, pending) =>
    let mem := setPrev mem s.list pending
    let next := mem.next (some s.list)
    let mem := setNext mem s.list none
    match next with
    | none => .done (some (mem, some s.list))
    | some list => .again ⟨mem, some s.list, list, s.count + 1⟩

/-- A round of the merges at the end of the input, with `pending` and `list`. -/
def collapseRound (fuel : ℕ) :
    Mem α × α × α → Round (Mem α × α × α) (Option (Mem α × α × α))
  | (mem, pending, list) =>
    match mem.prev (some pending) with
    | none => .done (some (mem, pending, list))
    | some next =>
      match merge cmp fuel mem pending list with
      | some (mem, some list) => .again (mem, next, list)
      | _ => .done none

/-- `list_sort`. -/
def listSort (fuel : ℕ) (mem : Mem α) (head : α) : Option (Mem α) :=
  if mem.next (some head) = mem.prev (some head) then some mem
  else
    (mem.next (some head)).bind fun list =>
      (mem.prev (some head)).bind fun last =>
        (runLoop (pushRound cmp fuel) fuel ⟨setNext mem last none, none, list, 0⟩).join.bind
          fun (mem, pending) =>
            pending.bind fun list =>
              (mem.prev (some list)).bind fun pending =>
                (runLoop (collapseRound cmp fuel) fuel (mem, pending, list)).join.bind
                  fun (mem, pending, list) => mergeFinal cmp fuel mem head pending list

/-! ## The links after a write -/

variable {cmp}
variable {mem mem' : Mem α} {v : Option α} {p : Place Unit α} {q : Option α} {x y : α}

theorem nextLinks_writeNext (mem : Mem α) (v : Option α) (p : Place Unit α) (q : Option α) :
    nextLinks (writeNext mem v p q).1 (writeNext mem v p q).2 = update (nextLinks mem v) p q := by
  funext r
  rcases p with ⟨⟨⟩⟩ | x <;> rcases r with ⟨⟨⟩⟩ | y <;>
    simp [writeNext, nextLinks, setNext, update_apply]

theorem prevLinks_writePrev (mem : Mem α) (v : Option α) (p : Place Unit α) (q : Option α) :
    prevLinks (writePrev mem v p q).1 (writePrev mem v p q).2 = update (prevLinks mem v) p q := by
  funext r
  rcases p with ⟨⟨⟩⟩ | x <;> rcases r with ⟨⟨⟩⟩ | y <;>
    simp [writePrev, prevLinks, setPrev, update_apply]

@[simp] theorem prev_writeNext : (writeNext mem v p q).1.prev = mem.prev := by
  rcases p with ⟨⟨⟩⟩ | x <;> rfl

@[simp] theorem next_writePrev : (writePrev mem v p q).1.next = mem.next := by
  rcases p with ⟨⟨⟩⟩ | x <;> rfl

theorem next_writeNext_of_ne (h : p ≠ .next y) :
    (writeNext mem v p q).1.next (some y) = mem.next (some y) := by
  rcases p with ⟨⟨⟩⟩ | x
  · rfl
  · refine update_of_ne (fun hxy => h ?_) _ _
    rw [Option.some.inj hxy]

/-! ## `merge` -/

/-- The order of the comparison function. -/
def le (cmp : α → α → ℤ) (a b : α) : Bool := cmp a b ≤ 0

/-- The output `D` of `merge` so far, behind `head`. The memory differs from `mem₀` in the `next`
links of elements of `T` only. -/
structure Output (mem₀ : Mem α) (T : List α) (mem : Mem α) (head : Option α) (D : List α) :
    Prop where
  out : LinkChain (nextLinks mem head) (.head ()) D (nextLinks mem head (lastPlace (.head ()) D))
  prev : mem.prev = mem₀.prev
  frame : ∀ z ∉ T, mem.next (some z) = mem₀.next (some z)

variable {mem₀ : Mem α} {head : Option α} {T D X Y : List α} {w : Mem α × Option α} {A B : List α}

/-- The element `x`, in front of `X`, moves to the output; `y` and `Y` are the other list. -/
theorem Output.push (h : Output mem₀ T mem head D) (hT : ∀ z ∈ D, z ∈ T)
    (hnd : (D ++ (x :: X ++ y :: Y)).Nodup)
    (hx : LinkChain (nextLinks mem head) (.next x) X none)
    (hy : LinkChain (nextLinks mem head) (.next y) Y none)
    (hw : w = writeNext mem head (lastPlace (.head ()) D) (some x)) :
    Output mem₀ T w.1 w.2 (D ++ [x]) ∧ LinkChain (nextLinks w.1 w.2) (.next x) X none ∧
      LinkChain (nextLinks w.1 w.2) (.next y) Y none := by
  obtain ⟨-, -, hdisj⟩ := nodup_append'.mp hnd
  have hlinks : nextLinks w.1 w.2 =
      update (nextLinks mem head) (lastPlace (.head ()) D) (some x) := by
    rw [hw, nextLinks_writeNext]
  have hoff : ∀ z ∈ x :: X ++ y :: Y,
      nextLinks w.1 w.2 (.next z) = nextLinks mem head (.next z) := fun z hz => by
    rw [hlinks]
    exact update_of_ne (lastPlace_ne_next fun hzD => hdisj hzD hz).symm _ _
  refine ⟨⟨?_, by rw [hw, prev_writeNext, h.prev], fun z hz => ?_⟩,
    hx.congr (hoff x (by simp)) fun z hz => hoff z (by simp [hz]),
    hy.congr (hoff y (by simp)) fun z hz => hoff z (by simp [hz])⟩
  · have hxD : (D ++ [x]).Nodup := hnd.sublist (List.Sublist.append_left (by simp) D)
    rw [lastPlace_concat, hoff x (by simp), hlinks]
    exact h.out.splice (show LinkChain (nextLinks mem head) (.next x) [] _ from rfl) hxD
  · rw [hw, next_writeNext_of_ne (lastPlace_ne_next fun hzD => hz (hT z hzD)), h.frame z hz]

/-- What `merge` leaves : the list `T` behind its result. -/
def Merged (mem₀ : Mem α) (T : List α) (r : Mem α × Option α) : Prop :=
  LinkChain (nextLinks r.1 r.2) (.head ()) T none ∧ r.1.prev = mem₀.prev ∧
    ∀ z ∉ T, r.1.next (some z) = mem₀.next (some z)

/-- A list has ended with `x`; the other one is put behind it. -/
theorem Output.finish (h : Output mem₀ T mem head (D ++ [x])) (hT : D ++ [x] ++ y :: Y = T)
    (hnd : T.Nodup) (hy : LinkChain (nextLinks mem head) (.next y) Y none) :
    Merged mem₀ T (writeNext mem head (.next x) (some y)) := by
  refine ⟨?_, by rw [prev_writeNext, h.prev], fun z hz => ?_⟩
  · rw [nextLinks_writeNext, ← lastPlace_concat (.head ()) D x, ← hT]
    exact h.out.splice hy (hT ▸ hnd)
  · have hxz : x ≠ z := by rintro rfl; exact hz (by rw [← hT]; simp)
    rw [next_writeNext_of_ne fun hxz' => hxz (Place.next.inj hxz'), h.frame z hz]

/-- The loop of `merge` has the output `D`, and the lists `A` and `B` are left behind `a` and `b`.
In the end the list is `T`. -/
structure MergeInv (cmp : α → α → ℤ) (mem₀ : Mem α) (T : List α) (s : MergeState α)
    (D A B : List α) : Prop where
  tail : s.tail = lastPlace (.head ()) D
  output : Output mem₀ T s.mem s.head D
  left : LinkChain (nextLinks s.mem s.head) (.next s.a) A none
  right : LinkChain (nextLinks s.mem s.head) (.next s.b) B none
  target : D ++ (s.a :: A).merge (s.b :: B) (le cmp) = T

theorem mergeRound_spec (cmp : α → α → ℤ) (mem₀ : Mem α) (hT : T.Nodup) :
    RoundKeeps (mergeRound cmp)
      (fun v s => ∃ D A B, MergeInv cmp mem₀ T s D A B ∧ A.length + B.length = v)
      (Merged mem₀ T) := by
  intro v s h
  obtain ⟨D, A, B, h, rfl⟩ := h
  have hperm : (D ++ (s.a :: A ++ s.b :: B)).Perm T := by
    rw [← h.target]
    exact (merge_perm_append _).symm.append_left D
  have hnd := hperm.nodup_iff.mpr hT
  have hDT : ∀ z ∈ D, z ∈ T := fun z hz => hperm.subset (mem_append_left _ hz)
  have htarget := h.target
  rw [cons_merge_cons] at htarget
  rw [mergeRound]
  by_cases hcmp : cmp s.a s.b ≤ 0
  · have hle : le cmp s.a s.b = true := decide_eq_true hcmp
    rw [if_pos hle, append_cons] at htarget
    rw [if_pos hcmp, h.tail]
    obtain ⟨w, hw⟩ : ∃ w, w = writeNext s.mem s.head (lastPlace (.head ()) D) (some s.a) := ⟨_, rfl⟩
    obtain ⟨hout, hA, hB⟩ := h.output.push hDT hnd h.left h.right hw
    have hhead : w.1.next (some s.a) = A.head? := hA.head_eq
    rw [← hw]
    cases A with
    | nil =>
      rw [nil_merge] at htarget
      refine Or.inr ⟨_, ?_, hout.finish htarget hT hB⟩
      simp [hhead]
    | cons a A =>
      refine Or.inl ⟨⟨w.1, w.2, .next s.a, a, s.b⟩, A.length + B.length, ?_, by simp,
        D ++ [s.a], A, B, ⟨(lastPlace_concat _ _ _).symm, hout, hA.2, hB, htarget⟩, rfl⟩
      simp [hhead]
  have hle : ¬ le cmp s.a s.b = true := by simpa [le] using hcmp
  rw [if_neg hle, append_cons] at htarget
  rw [if_neg hcmp, h.tail]
  have hnd' : (D ++ (s.b :: B ++ s.a :: A)).Nodup :=
    (perm_append_comm.append_left D).nodup_iff.mp hnd
  obtain ⟨w, hw⟩ : ∃ w, w = writeNext s.mem s.head (lastPlace (.head ()) D) (some s.b) := ⟨_, rfl⟩
  obtain ⟨hout, hB, hA⟩ := h.output.push hDT hnd' h.right h.left hw
  have hhead : w.1.next (some s.b) = B.head? := hB.head_eq
  rw [← hw]
  cases B with
  | nil =>
    rw [merge_right] at htarget
    refine Or.inr ⟨_, ?_, hout.finish htarget hT hA⟩
    simp [hhead]
  | cons b B =>
    refine Or.inl ⟨⟨w.1, w.2, .next s.b, s.a, b⟩, A.length + B.length, ?_, by simp,
      D ++ [s.b], A, B, ⟨(lastPlace_concat _ _ _).symm, hout, hA, hB.2, htarget⟩, rfl⟩
    simp [hhead]

variable {a b : α} {fuel : ℕ}

/-- `merge` merges two lists without an element in common. -/
theorem merge_spec (cmp : α → α → ℤ)
    (hnd : (a :: A ++ b :: B).Nodup)
    (ha : LinkChain (nextLinks mem none) (.next a) A none)
    (hb : LinkChain (nextLinks mem none) (.next b) B none) (hfuel : A.length + B.length < fuel) :
    ∃ mem' x X, merge cmp fuel mem a b = some (mem', some x) ∧
      x :: X = (a :: A).merge (b :: B) (le cmp) ∧
      LinkChain (nextLinks mem' none) (.next x) X none ∧ mem'.prev = mem.prev ∧
      ∀ z ∉ a :: A ++ b :: B, mem'.next (some z) = mem.next (some z) := by
  have hperm : ((a :: A).merge (b :: B) (le cmp)).Perm (a :: A ++ b :: B) := merge_perm_append _
  have hstart : MergeInv cmp mem ((a :: A).merge (b :: B) (le cmp)) ⟨mem, none, .head (), a, b⟩
      [] A B := ⟨rfl, ⟨rfl, rfl, fun _ _ => rfl⟩, ha, hb, rfl⟩
  obtain ⟨⟨mem', head⟩, hrun, hchain, hprev, hframe⟩ := runLoop_of_rank
    (mergeRound_spec cmp mem (hperm.nodup_iff.mpr hnd)) ⟨[], A, B, hstart, rfl⟩ hfuel
  cases hT : (a :: A).merge (b :: B) (le cmp) with
  | nil =>
    have := hperm.length_eq
    rw [hT] at this
    simp at this
  | cons x X =>
    rw [hT] at hchain hframe hperm
    obtain rfl : head = some x := hchain.1
    refine ⟨mem', x, X, hrun, rfl, hchain.2.congr rfl fun _ _ => rfl, hprev, fun z hz => ?_⟩
    exact hframe z fun hmem => hz (hperm.subset hmem)

/-! ## The pending runs -/

/-- The elements of a run, given by its first element and the others. -/
def run (r : α × List α) : List α := r.1 :: r.2

/-- The elements of all runs. -/
def elements (S : List (α × List α)) : List α := (S.map run).flatten

/-- The runs `S` hang on the variable `pending`, the newest one first. -/
structure Pending (mem : Mem α) (pending : Option α) (S : List (α × List α)) : Prop where
  heads : LinkChain (prevLinks mem pending) (.head ()) (S.map Prod.fst) none
  runs : ∀ r ∈ S, LinkChain (nextLinks mem none) (.next r.1) r.2 none
  nodup : (elements S).Nodup

variable {pending : Option α} {S U V : List (α × List α)} {r : α × List α}

theorem fst_mem_elements (hr : r ∈ S) : r.1 ∈ elements S :=
  mem_flatten.mpr ⟨run r, mem_map_of_mem hr, mem_cons_self⟩

theorem snd_mem_elements (hr : r ∈ S) (hx : x ∈ r.2) : x ∈ elements S :=
  mem_flatten.mpr ⟨run r, mem_map_of_mem hr, mem_cons_of_mem _ hx⟩

@[simp] theorem elements_append : elements (U ++ V) = elements U ++ elements V := by
  simp [elements]

@[simp] theorem elements_cons : elements (r :: S) = run r ++ elements S := by
  simp [elements]

/-- The runs do not notice changes of the `next` links of other elements. -/
theorem runs_congr (h : ∀ r ∈ S, LinkChain (nextLinks mem none) (.next r.1) r.2 none)
    (hnext : ∀ z ∈ elements S, mem'.next (some z) = mem.next (some z)) :
    ∀ r ∈ S, LinkChain (nextLinks mem' none) (.next r.1) r.2 none := fun r hr =>
  (h r hr).congr (hnext _ (fst_mem_elements hr)) fun z hz => hnext z (snd_mem_elements hr hz)

theorem heads_sublist (S : List (α × List α)) : (S.map Prod.fst).Sublist (elements S) := by
  induction S with
  | nil => exact List.Sublist.slnil
  | cons r S ih =>
    rw [elements_cons, run, cons_append, map_cons]
    exact (ih.trans (sublist_append_right r.2 _)).cons_cons r.1

theorem size_two_mul {n : ℕ} (hn : n ≠ 0) : (2 * n).size = n.size + 1 := by
  have := size_bit (b := false) (n := n) (by simpa [bit] using hn)
  simpa [bit] using this

theorem size_two_mul_add_one (n : ℕ) : (2 * n + 1).size = n.size + 1 := by
  have := size_bit (b := true) (n := n) (by simp [bit])
  simpa [bit] using this

/-- The walk along the low bits of the count that are set. The number of runs behind `tail` stays
the number of binary digits. -/
theorem tailLoop_spec {hs : List α} {p : Place Unit α} {bits fuel : ℕ}
    (h : LinkChain (prevLinks mem pending) p hs none) (hsize : bits.size = hs.length)
    (hfuel : hs.length < fuel) :
    ∃ hs1 hs2 bits', hs = hs1 ++ hs2 ∧ bits' % 2 = 0 ∧ bits'.size = hs2.length ∧
      runLoop (tailRound mem pending) fuel (p, bits) = some (some (lastPlace p hs1, bits')) ∧
      (bits + 1).size = if bits' = 0 then bits.size + 1 else bits.size := by
  induction hs generalizing p bits fuel with
  | nil =>
    obtain rfl : bits = 0 := size_eq_zero.mp hsize
    refine ⟨[], [], 0, rfl, rfl, rfl, ?_, by simp⟩
    exact runLoop_of_done (by simp [tailRound, lastPlace]) (by omega)
  | cons x hs ih =>
    have hpos : bits ≠ 0 := by rintro rfl; simp at hsize
    rcases even_or_odd' bits with ⟨c, rfl | rfl⟩
    · have hc : c ≠ 0 := by rintro rfl; simp at hpos
      refine ⟨[], x :: hs, 2 * c, rfl, by omega, hsize, ?_, ?_⟩
      · exact runLoop_of_done (by simp [tailRound, lastPlace]) (by omega)
      · rw [if_neg hpos, size_two_mul_add_one, size_two_mul hc]
    rw [size_two_mul_add_one, length_cons, succ_inj] at hsize
    obtain ⟨fuel, rfl⟩ : ∃ k, fuel = k + 1 := ⟨fuel - 1, by omega⟩
    obtain ⟨hs1, hs2, bits', rfl, heven, hsize', hrun, hnext⟩ :=
      ih h.2 hsize (show hs.length < fuel by simpa using hfuel)
    have hround : tailRound mem pending (p, 2 * c + 1) = .again (.next x, c) := by
      simp [tailRound, h.1, add_mod]
      omega
    refine ⟨x :: hs1, hs2, bits', rfl, heven, hsize', by rw [runLoop_again hround, hrun]; rfl, ?_⟩
    rw [show 2 * c + 1 + 1 = 2 * (c + 1) by omega, size_two_mul (succ_ne_zero c), hnext,
      size_two_mul_add_one]
    split <;> rfl

theorem prevLinks_setPrev (mem : Mem α) (v : Option α) (x : α) (q : Option α) :
    prevLinks (setPrev mem x q) v = update (prevLinks mem v) (.next x) q :=
  prevLinks_writePrev mem v (.next x) q

theorem elements_perm_append (U V : List (α × List α)) (r r' : α × List α) :
    (elements (U ++ r :: r' :: V)).Perm (run r' ++ run r ++ (elements U ++ elements V)) := by
  simp only [elements_append, elements_cons, perm_iff_count, count_append]
  intro z
  omega

/-- The heads of the runs after `a'->prev = b->prev; *tail = a'`, where `a'` is the first element of
the merge of two neighbours. -/
theorem Pending.replace_heads
    (h : Pending mem pending (U ++ (a, A) :: (b, B) :: V)) (hprev : mem'.prev = mem.prev)
    (hx : x ∉ elements U ++ elements V)
    (hnd : (U.map Prod.fst ++ x :: V.map Prod.fst).Nodup)
    (hw : w = writePrev (setPrev mem' x (mem.prev (some b))) pending
      (lastPlace (.head ()) (U.map Prod.fst)) (some x)) :
    LinkChain (prevLinks w.1 w.2) (.head ()) (U.map Prod.fst ++ x :: V.map Prod.fst) none := by
  have hheads := h.heads
  rw [map_append, map_cons, map_cons, linkChain_append] at hheads
  obtain ⟨hU, -, -, hV⟩ := hheads
  -- The links before the write to `*tail`.
  have hlinks : prevLinks (setPrev mem' x (mem.prev (some b))) pending =
      update (prevLinks mem pending) (.next x) (mem.prev (some b)) := by
    rw [prevLinks_setPrev]
    congr 1
    funext p
    cases p with
    | head => rfl
    | next z => exact congrFun hprev (some z)
  have hoff : ∀ z ∈ U.map Prod.fst ++ V.map Prod.fst,
      prevLinks (setPrev mem' x (mem.prev (some b))) pending (.next z) =
        prevLinks mem pending (.next z) := fun z hz => by
    have hzx : z ≠ x :=
      ne_of_mem_of_not_mem (((heads_sublist U).append (heads_sublist V)).subset hz) hx
    rw [hlinks]
    exact update_of_ne (fun h => hzx (Place.next.inj h)) _ _
  have hU' : LinkChain (prevLinks (setPrev mem' x (mem.prev (some b))) pending) (.head ())
      (U.map Prod.fst) (prevLinks mem pending (lastPlace (.head ()) (U.map Prod.fst))) :=
    hU.congr (by rw [hlinks]; rfl) fun z hz => hoff z (mem_append_left _ hz)
  rw [hw, prevLinks_writePrev]
  refine hU'.splice (hV.congr ?_ fun z hz => hoff z (mem_append_right _ hz)) hnd
  rw [hlinks, update_self]
  rfl

/-- Two runs next to each other are replaced by their merge. -/
theorem mergePending_spec (cmp : α → α → ℤ)
    (h : Pending mem pending (U ++ (a, A) :: (b, B) :: V)) (hfuel : A.length + B.length < fuel) :
    ∃ mem' pending' x X, mergePending cmp fuel mem pending (lastPlace (.head ()) (U.map Prod.fst)) =
        some (mem', pending') ∧ x :: X = (b :: B).merge (a :: A) (le cmp) ∧
      Pending mem' pending' (U ++ (x, X) :: V) ∧
      ∀ z ∉ b :: B ++ a :: A, mem'.next (some z) = mem.next (some z) := by
  have hperm := elements_perm_append U V (a, A) (b, B)
  obtain ⟨hab, -, hdisj⟩ := nodup_append'.mp (hperm.nodup_iff.mp h.nodup)
  obtain ⟨mem1, x, X, hmerge, hX, hchain, hprev, hframe⟩ := merge_spec cmp hab
    (h.runs (b, B) (by simp)) (h.runs (a, A) (by simp)) (show B.length + A.length < fuel by omega)
  have hXperm : (x :: X).Perm (b :: B ++ a :: A) := hX ▸ merge_perm_append _
  have hnd : (elements (U ++ (x, X) :: V)).Nodup := by
    have hperm' : (elements (U ++ (x, X) :: V)).Perm (x :: X ++ (elements U ++ elements V)) := by
      simp only [elements_append, elements_cons, run, perm_iff_count, count_append]
      intro z
      omega
    rw [hperm'.nodup_iff, (hXperm.append_right _).nodup_iff]
    exact hperm.nodup_iff.mp h.nodup
  have hxUV : x ∉ elements U ++ elements V := hdisj (hXperm.subset mem_cons_self)
  obtain ⟨w, hw⟩ : ∃ w, w = writePrev (setPrev mem1 x (mem.prev (some b))) pending
    (lastPlace (.head ()) (U.map Prod.fst)) (some x) := ⟨_, rfl⟩
  have hnext : w.1.next = mem1.next := by rw [hw, next_writePrev]; rfl
  refine ⟨w.1, w.2, x, X, ?_, hX, ⟨?_, ?_, hnd⟩, fun z hz => ?_⟩
  · have hheads := h.heads
    rw [map_append, map_cons, map_cons, linkChain_append] at hheads
    obtain ⟨-, ha, hb, -⟩ := hheads
    have hb' : mem.prev (some a) = some b := hb
    rw [mergePending, ha, bind_some, hb', bind_some, hmerge, bind_some]
    simp only [map_some, hprev, hw]
  · rw [map_append, map_cons]
    exact h.replace_heads hprev hxUV (by simpa using hnd.sublist (heads_sublist _)) hw
  · intro r hr
    have hr' : r = (x, X) ∨ r ∈ U ++ V := by
      simp only [mem_append, mem_cons] at hr ⊢
      tauto
    rcases hr' with rfl | hr'
    · exact hchain.congr (by simp [nextLinks, hnext]) fun z _ => by simp [nextLinks, hnext]
    refine runs_congr (S := U ++ V) (fun r hr => h.runs r ?_) (fun z hz => ?_) r hr'
    · rcases mem_append.mp hr with hr | hr <;> simp [hr]
    · rw [hnext]
      exact hframe z fun hmem => hdisj hmem (by simpa using hz)
  · rw [hnext]
    exact hframe z hz

/-- A new run of one element. -/
theorem Pending.push (h : Pending mem pending S) (hx : x ∉ elements S) :
    Pending (setNext (setPrev mem x pending) x none) (some x) ((x, []) :: S) := by
  have hne : ∀ z ∈ elements S, z ≠ x := fun z hz => ne_of_mem_of_not_mem hz hx
  refine ⟨⟨rfl, ?_⟩, ?_, ?_⟩
  · refine h.heads.congr ?_ fun z hz => ?_
    · simp [prevLinks, setNext, setPrev]
    · have := hne z ((heads_sublist S).subset hz)
      simp [prevLinks, setNext, setPrev, this]
  · intro r hr
    rcases mem_cons.mp hr with rfl | hr
    · simp [LinkChain, nextLinks, setNext]
    · refine runs_congr h.runs (fun z hz => ?_) r hr
      simp [setNext, setPrev, hne z hz]
  · simpa [run] using ⟨hx, h.nodup⟩

/-! ## The main loop -/

/-- The part `P` of the input `l` is in the runs `S`, and the elements `rest` are left behind
`list`. -/
structure PushInv (cmp : α → α → ℤ) (l : List α) (s : SortState α) (S : List (α × List α))
    (P rest : List α) : Prop where
  pend : Pending s.mem s.pending S
  input : LinkChain (nextLinks s.mem none) (.next s.list) rest none
  count : s.count = P.length
  size : s.count.size = S.length
  sorted : Runs (le cmp) (S.map run) P
  whole : P ++ s.list :: rest = l

/-- The comparison function describes a total preorder. -/
structure TotalPreorder (cmp : α → α → ℤ) : Prop where
  trans : ∀ a b c, cmp a b ≤ 0 → cmp b c ≤ 0 → cmp a c ≤ 0
  total : ∀ a b, cmp a b ≤ 0 ∨ cmp b a ≤ 0

theorem TotalPreorder.le_trans (h : TotalPreorder cmp) (a b c : α) (hab : le cmp a b = true)
    (hbc : le cmp b c = true) : le cmp a c = true := by
  rw [le, decide_eq_true_iff] at *
  exact h.trans a b c hab hbc

theorem TotalPreorder.le_total (h : TotalPreorder cmp) (a b : α) :
    (le cmp a b || le cmp b a) = true := by
  simpa [le] using h.total a b

variable {l P rest : List α} {s : SortState α} {fuel : ℕ} {h t : α}

theorem PushInv.elements_perm (h : PushInv cmp l s S P rest) : (elements S).Perm P :=
  h.sorted.flatten_perm

/-- The merge of a round. -/
theorem selectMerge_spec (hcmp : TotalPreorder cmp) (h : PushInv cmp l s S P rest)
    (hfuel : l.length < fuel) :
    ∃ mem' pending' S', selectMerge cmp fuel s = some (mem', pending') ∧
      Pending mem' pending' S' ∧ Runs (le cmp) (S'.map run) P ∧
      (s.count + 1).size = S'.length + 1 ∧
      ∀ z ∉ elements S, mem'.next (some z) = s.mem.next (some z) := by
  have hlen : P.length < fuel := by
    have := congrArg List.length h.whole
    rw [length_append] at this
    omega
  have hS : (S.map Prod.fst).length ≤ P.length := by
    rw [← h.elements_perm.length_eq]
    exact (heads_sublist S).length_le
  obtain ⟨hs1, hs2, bits, hsplit, heven, hsize, hrun, hnext⟩ :=
    tailLoop_spec h.pend.heads (by rw [h.size, length_map]) (show _ < fuel by omega)
  rw [selectMerge, hrun]
  simp only [join_some, bind_some]
  by_cases hbits : bits = 0
  · -- The count is one less than a power of two : no merge.
    refine ⟨s.mem, s.pending, S, by simp [hbits], h.pend, h.sorted, ?_, fun _ _ => rfl⟩
    rw [hnext, if_pos hbits, h.size]
  obtain ⟨U, S2, rfl, rfl, hS2⟩ := map_eq_append_iff.mp hsplit
  have htwo : 2 ≤ hs2.length := by
    rw [← hsize]
    exact lt_size.mpr (by omega)
  obtain ⟨a, b, V, rfl⟩ : ∃ a b V, S2 = a :: b :: V := by
    rw [← hS2, length_map] at htwo
    match S2, htwo with
    | a :: b :: V, _ => exact ⟨a, b, V, rfl⟩
  have hab : a.2.length + b.2.length < fuel := by
    have hsub := (elements_perm_append U V a b).length_eq
    rw [h.elements_perm.length_eq] at hsub
    simp only [run, length_append, length_cons] at hsub
    omega
  obtain ⟨mem', pending', x, X, hmerge, hX, hpend, hframe⟩ := mergePending_spec cmp h.pend hab
  refine ⟨mem', pending', U ++ (x, X) :: V, by simp [hbits, hmerge], hpend, ?_, ?_, ?_⟩
  · have hruns := h.sorted
    rw [map_append, map_cons, map_cons] at hruns
    rw [map_append, map_cons, run, hX]
    exact hruns.merge hcmp.le_trans hcmp.le_total
  · rw [hnext, if_neg hbits, h.size]
    simp only [length_append, length_cons]
    omega
  · intro z hz
    refine hframe z fun hmem => hz ?_
    exact (elements_perm_append U V a b).symm.subset (mem_append_left _ hmem)

theorem pushRound_spec (hcmp : TotalPreorder cmp) (hl : l.Nodup) (hfuel : l.length < fuel) :
    RoundKeeps (pushRound cmp fuel)
      (fun v s => ∃ S P rest, PushInv cmp l s S P rest ∧ rest.length = v)
      fun r => ∃ mem pending S, r = some (mem, pending) ∧ Pending mem pending S ∧
        Runs (le cmp) (S.map run) l ∧ S.length = l.length.size := by
  intro v s h
  obtain ⟨S, P, rest, h, rfl⟩ := h
  have hnd : (P ++ s.list :: rest).Nodup := h.whole ▸ hl
  obtain ⟨-, hrest, hdisj⟩ := nodup_append'.mp hnd
  have hS : ∀ z ∈ s.list :: rest, z ∉ elements S := fun z hz hmem =>
    hdisj (h.elements_perm.subset hmem) hz
  obtain ⟨mem', pending', S', hselect, hpend, hruns, hsize, hframe⟩ := selectMerge_spec hcmp h hfuel
  have hx : s.list ∉ elements S' := fun hmem =>
    hdisj (hruns.flatten_perm.subset hmem) mem_cons_self
  have hpush := hpend.push hx
  have hruns' := hruns.push s.list
  have hnext : (setPrev mem' s.list pending').next (some s.list) = rest.head? :=
    (hframe s.list (hS _ mem_cons_self)).trans h.input.head_eq
  rw [pushRound, hselect]
  cases rest with
  | nil =>
    refine Or.inr ⟨_, by simp only [hnext, List.head?_nil], _, _, _, rfl, hpush, ?_, ?_⟩
    · rw [← h.whole]
      exact hruns'
    · rw [← h.whole, length_append, length_singleton, ← h.count, hsize, length_cons]
  | cons y rest =>
    refine Or.inl ⟨⟨setNext (setPrev mem' s.list pending') s.list none, some s.list, y,
      s.count + 1⟩, rest.length, by simp only [hnext, List.head?_cons], by simp,
      (s.list, []) :: S', P ++ [s.list], rest, ⟨hpush, ?_, ?_, ?_, hruns', ?_⟩, rfl⟩
    · have hoff : ∀ z ∈ y :: rest, (setNext (setPrev mem' s.list pending') s.list none).next
          (some z) = s.mem.next (some z) := fun z hz => by
        have hzx : z ≠ s.list := ne_of_mem_of_not_mem hz (nodup_cons.mp hrest).1
        have hzS := hframe z (hS z (mem_cons_of_mem _ hz))
        simpa [setNext, setPrev, hzx] using hzS
      exact h.input.2.congr (hoff y mem_cons_self) fun z hz =>
        hoff z (mem_cons_of_mem _ hz)
    · rw [length_append, length_singleton, ← h.count]
    · rw [hsize, length_cons]
    · rw [← h.whole, append_assoc]
      rfl

/-! ## The merges at the end -/

/-- The last run `list` and the older ones, which hang on `pending`. -/
structure CollapseInv (cmp : α → α → ℤ) (l : List α) (s : Mem α × α × α) (S : List (α × List α))
    (P L : List α) : Prop where
  older : LinkChain (prevLinks s.1 none) (.next s.2.1) (S.map Prod.fst) none
  runs : ∀ r ∈ (s.2.2, L) :: (s.2.1, P) :: S, LinkChain (nextLinks s.1 none) (.next r.1) r.2 none
  sorted : Runs (le cmp) (((s.2.2, L) :: (s.2.1, P) :: S).map run) l

theorem collapseRound_spec (hcmp : TotalPreorder cmp) (hl : l.Nodup) (hfuel : l.length < fuel) :
    RoundKeeps (collapseRound cmp fuel)
      (fun v s => ∃ S P L, CollapseInv cmp l s S P L ∧ S.length = v)
      fun r => ∃ s' P L, r = some s' ∧ CollapseInv cmp l s' [] P L := by
  intro v s h
  obtain ⟨mem, pending, list⟩ := s
  obtain ⟨S, P, L, h, rfl⟩ := h
  have hprev : mem.prev (some pending) = (S.map Prod.fst).head? := h.older.head_eq
  rw [collapseRound]
  cases S with
  | nil => exact Or.inr ⟨_, by simp only [hprev, map_nil, List.head?_nil], _, P, L, rfl, h⟩
  | cons next S =>
    have hperm := (elements_perm_append [] (next :: S) (list, L) (pending, P)).symm.trans
      h.sorted.flatten_perm
    obtain ⟨hab, -, hdisj⟩ := nodup_append'.mp (hperm.nodup_iff.mpr hl)
    have hlen : P.length + L.length < fuel := by
      have := hperm.length_eq
      simp only [run, length_append, length_cons] at this
      omega
    obtain ⟨mem', x, X, hmerge, hX, hchain, hprev', hframe⟩ := merge_spec cmp hab
      (h.runs (pending, P) (by simp)) (h.runs (list, L) (by simp)) hlen
    refine Or.inl ⟨(mem', next.1, x), S.length, ?_, by simp, S, next.2, X, ⟨?_, ?_, ?_⟩, rfl⟩
    · simp [hprev, hmerge]
    · refine h.older.2.congr ?_ fun z _ => ?_ <;> simp [prevLinks, hprev']
    · intro r hr
      rcases mem_cons.mp hr with rfl | hr
      · exact hchain
      · refine runs_congr (S := next :: S) (fun r hr => h.runs r ?_) (fun z hz => ?_) r hr
        · exact mem_cons_of_mem _ (mem_cons_of_mem _ hr)
        · exact hframe z fun hmem => hdisj hmem (mem_append_right _ hz)
    · have hruns := Runs.merge (S := []) hcmp.le_trans hcmp.le_total h.sorted
      have hrun : run (x, X) = (run (pending, P)).merge (run (list, L)) (le cmp) := hX
      rw [map_cons, hrun]
      exact hruns

/-! ## `merge_final` -/

/-- Link `x` behind the elements `D` that follow the head, or close the ring. -/
theorem chain_push (hc : ((h :: D).map some).IsChain mem.Adj) (hnd : (h :: D).Nodup)
    (ht : (h :: D).getLast? = some t) (hx : x ∉ D) :
    ((h :: D).map some ++ [some x]).IsChain (mem.joinEnds (some t) (some x)).Adj := by
  have hlast : (some h :: D.map some).getLast? = some (some t) := by
    rw [← map_cons, List.getLast?_map, ht]
    rfl
  rw [List.getLast?_eq_some_getLast (by simp), Option.some.injEq] at hlast
  rw [← hlast]
  refine chain_joinEnds hc (hnd.map (some_injective α)) ?_
  simpa using hx

/-- The elements that `merge_final` has not yet linked. -/
theorem nextLinks_joinEnds {L : List α} (hL : LinkChain (nextLinks mem none) (.next y) L none)
    (ht : t ∉ y :: L) :
    LinkChain (nextLinks (mem.joinEnds (some t) (some x)) none) (.next y) L none := by
  have hoff : ∀ z ∈ y :: L, (mem.joinEnds (some t) (some x)).next (some z) = mem.next (some z) :=
    fun z hz => update_of_ne
      (fun hzt => ne_of_mem_of_not_mem hz ht (Option.some.inj hzt)) _ _
  exact hL.congr (hoff y mem_cons_self) fun z hz => hoff z (mem_cons_of_mem _ hz)

/-- The elements `D` are linked in both directions behind the head `h`, up to `tail`. -/
structure Linked (h : α) (mem : Mem α) (tail : α) (D : List α) : Prop where
  chain : ((h :: D).map some).IsChain mem.Adj
  last : (h :: D).getLast? = some tail

theorem Linked.push (hD : Linked h mem t D) (hnd : (h :: D).Nodup) (hx : x ∉ D) :
    Linked h (mem.joinEnds (some t) (some x)) x (D ++ [x]) := by
  refine ⟨?_, by rw [← cons_append, List.getLast?_concat]⟩
  simpa using chain_push hD.chain hnd hD.last hx

theorem Linked.tail_mem (hD : Linked h mem t D) : t ∈ h :: D := mem_of_getLast? hD.last

/-- The element `x`, in front of `X`, is linked; `y` and `Y` are the other list. -/
theorem Linked.push_chains (hD : Linked h mem t D) (hnd : (h :: D ++ (x :: X ++ y :: Y)).Nodup)
    (hx : LinkChain (nextLinks mem none) (.next x) X none)
    (hy : LinkChain (nextLinks mem none) (.next y) Y none) {mem' : Mem α}
    (hmem : mem' = mem.joinEnds (some t) (some x)) :
    Linked h mem' x (D ++ [x]) ∧ LinkChain (nextLinks mem' none) (.next x) X none ∧
      LinkChain (nextLinks mem' none) (.next y) Y none := by
  obtain ⟨hnd, -, hdisj⟩ := nodup_append'.mp hnd
  have ht : t ∉ x :: X ++ y :: Y := hdisj hD.tail_mem
  rw [mem_append, not_or] at ht
  subst hmem
  refine ⟨hD.push hnd fun hxD => hdisj (mem_cons_of_mem _ hxD) (by simp),
    nextLinks_joinEnds hx ht.1, nextLinks_joinEnds hy ht.2⟩

/-- What holds in the first loop : `D` is linked, `A` and `B` are still to be merged. -/
structure FinalInv (cmp : α → α → ℤ) (h : α) (T : List α) (s : FinalState α) (D A B : List α) :
    Prop where
  linked : Linked h s.mem s.tail D
  left : LinkChain (nextLinks s.mem none) (.next s.a) A none
  right : LinkChain (nextLinks s.mem none) (.next s.b) B none
  target : D ++ (s.a :: A).merge (s.b :: B) (le cmp) = T

/-- What the first loop leaves : the elements `B` behind `b` have their `next` links only. -/
structure RelinkInv (h : α) (T : List α) (s : Mem α × α × α) (D B : List α) : Prop where
  linked : Linked h s.1 s.2.1 D
  rest : LinkChain (nextLinks s.1 none) (.next s.2.2) B none
  target : D ++ s.2.2 :: B = T

theorem finalRound_spec (cmp : α → α → ℤ) (hT : (h :: T).Nodup) :
    RoundKeeps (finalRound cmp)
      (fun v s => ∃ D A B, FinalInv cmp h T s D A B ∧ A.length + B.length = v)
      fun r => ∃ D B, RelinkInv h T r D B := by
  intro v s hs
  obtain ⟨D, A, B, hs, rfl⟩ := hs
  have hperm : (h :: D ++ (s.a :: A ++ s.b :: B)).Perm (h :: T) := by
    rw [← hs.target, cons_append]
    exact ((merge_perm_append _).symm.append_left D).cons h
  have hnd := hperm.nodup_iff.mpr hT
  have htarget := hs.target
  rw [cons_merge_cons] at htarget
  rw [finalRound]
  by_cases hcmp : cmp s.a s.b ≤ 0
  · have hle : le cmp s.a s.b = true := decide_eq_true hcmp
    rw [if_pos hle, append_cons] at htarget
    rw [if_pos hcmp]
    obtain ⟨mem', hmem⟩ : ∃ mem', mem' = s.mem.joinEnds (some s.tail) (some s.a) := ⟨_, rfl⟩
    obtain ⟨hlinked, hA, hB⟩ := hs.linked.push_chains hnd hs.left hs.right hmem
    have hhead : mem'.next (some s.a) = A.head? := hA.head_eq
    have hwrite : setPrev (setNext s.mem s.tail (some s.a)) s.a (some s.tail) = mem' := hmem.symm
    rw [hwrite]
    cases A with
    | nil =>
      rw [nil_merge] at htarget
      refine Or.inr ⟨(mem', s.a, s.b), ?_, D ++ [s.a], B, hlinked, hB, htarget⟩
      simp [hhead]
    | cons a A =>
      refine Or.inl ⟨⟨mem', s.a, a, s.b⟩, A.length + B.length, ?_, by simp, D ++ [s.a], A, B,
        ⟨hlinked, hA.2, hB, htarget⟩, rfl⟩
      simp [hhead]
  have hle : ¬ le cmp s.a s.b = true := by simpa [le] using hcmp
  rw [if_neg hle, append_cons] at htarget
  rw [if_neg hcmp]
  have hnd' : (h :: D ++ (s.b :: B ++ s.a :: A)).Nodup :=
    (perm_append_comm.append_left (h :: D)).nodup_iff.mp hnd
  obtain ⟨mem', hmem⟩ : ∃ mem', mem' = s.mem.joinEnds (some s.tail) (some s.b) := ⟨_, rfl⟩
  obtain ⟨hlinked, hB, hA⟩ := hs.linked.push_chains hnd' hs.right hs.left hmem
  have hhead : mem'.next (some s.b) = B.head? := hB.head_eq
  have hwrite : setPrev (setNext s.mem s.tail (some s.b)) s.b (some s.tail) = mem' := hmem.symm
  rw [hwrite]
  cases B with
  | nil =>
    rw [merge_right] at htarget
    refine Or.inr ⟨(mem', s.b, s.a), ?_, D ++ [s.b], A, hlinked, hA, htarget⟩
    simp [hhead]
  | cons b B =>
    refine Or.inl ⟨⟨mem', s.b, s.a, b⟩, A.length + B.length, ?_, by simp, D ++ [s.b], A, B,
      ⟨hlinked, hA, hB.2, htarget⟩, rfl⟩
    simp [hhead]

/-- The loop over the rest, with `tail->next = b` in front of it or done by the round before. -/
theorem relinkLoop_spec (hT : (h :: T).Nodup) : ∀ {B D : List α} {mem : Mem α} {tail b : α}
    {fuel : ℕ}, RelinkInv h T (mem, tail, b) D B → B.length < fuel →
      ∃ mem' tail', runLoop relinkRound fuel (setNext mem tail (some b), tail, b) =
        some (mem', tail') ∧ Linked h mem' tail' T
  | B, D, mem, tail, b, fuel, hs, hfuel => by
    have hnd : (h :: D ++ b :: B).Nodup := by simpa [hs.target] using hT
    obtain ⟨hD, -, hdisj⟩ := nodup_append'.mp hnd
    have hbD : b ∉ D := fun hbD => hdisj (mem_cons_of_mem _ hbD) mem_cons_self
    obtain ⟨mem', hmem⟩ : ∃ mem', mem' = mem.joinEnds (some tail) (some b) := ⟨_, rfl⟩
    have hwrite : setPrev (setNext mem tail (some b)) b (some tail) = mem' := hmem.symm
    have hlinked : Linked h mem' b (D ++ [b]) := hmem ▸ hs.linked.push hD hbD
    have hrest : LinkChain (nextLinks mem' none) (.next b) B none :=
      hmem ▸ nextLinks_joinEnds hs.rest (hdisj hs.linked.tail_mem)
    have hhead : mem'.next (some b) = B.head? := hrest.head_eq
    have htarget : D ++ [b] ++ B = T := by
      rw [← hs.target, append_assoc]
      rfl
    cases B with
    | nil =>
      have hround : relinkRound (setNext mem tail (some b), tail, b) = .done (mem', b) := by
        simp [relinkRound, hwrite, hhead]
      refine ⟨mem', b, runLoop_of_done hround (by omega), ?_⟩
      rw [← htarget, append_nil]
      exact hlinked
    | cons b' B =>
      have hround : relinkRound (setNext mem tail (some b), tail, b) = .again (mem', b, b') := by
        simp [relinkRound, hwrite, hhead]
      have hset : setNext mem' b (some b') = mem' := by
        have hb' : mem'.next (some b) = some b' := hhead
        rw [setNext, ← hb', update_eq_self]
      obtain ⟨fuel, rfl⟩ : ∃ k, fuel = k + 1 := ⟨fuel - 1, by omega⟩
      rw [runLoop_again hround, ← hset]
      exact relinkLoop_spec hT ⟨hlinked, hrest.2, htarget⟩ (by simpa using hfuel)

/-- `merge_final` leaves the ring of the merged elements behind the head. -/
theorem mergeFinal_spec (cmp : α → α → ℤ)
    (hnd : (h :: (a :: A ++ b :: B)).Nodup)
    (ha : LinkChain (nextLinks mem none) (.next a) A none)
    (hb : LinkChain (nextLinks mem none) (.next b) B none)
    (hfuel : (a :: A ++ b :: B).length < fuel) :
    ∃ mem', mergeFinal cmp fuel mem h a b = some mem' ∧
      Ring mem' ((h :: (a :: A).merge (b :: B) (le cmp)).map some) := by
  have hperm : ((a :: A).merge (b :: B) (le cmp)).Perm (a :: A ++ b :: B) := merge_perm_append _
  have hT : (h :: (a :: A).merge (b :: B) (le cmp)).Nodup := (hperm.cons h).nodup_iff.mpr hnd
  have hstart : FinalInv cmp h ((a :: A).merge (b :: B) (le cmp)) ⟨mem, h, a, b⟩ [] A B :=
    ⟨⟨isChain_singleton _, rfl⟩, ha, hb, rfl⟩
  have hlen : A.length + B.length < fuel := by
    simp only [length_append, length_cons] at hfuel
    omega
  obtain ⟨⟨mem1, tail1, b1⟩, hrun1, D, B1, h1⟩ := runLoop_of_rank (finalRound_spec cmp hT)
    ⟨[], A, B, hstart, rfl⟩ hlen
  have hlen1 : B1.length < fuel := by
    have := congrArg List.length h1.target
    rw [hperm.length_eq, length_append, length_cons] at this
    omega
  obtain ⟨mem2, tail2, hrun2, h2⟩ := relinkLoop_spec hT h1 hlen1
  refine ⟨mem2.joinEnds (some tail2) (some h), ?_, hT.map (some_injective α), ?_⟩
  · rw [mergeFinal, hrun1, bind_some]
    simp only [hrun2, map_some]
    rfl
  · exact chain_push h2.chain hT h2.last (nodup_cons.mp hT).1

/-! ## `list_sort` sorts -/

/-- The elements of a chain, along the `next` links. -/
theorem linkChain_of_isChain {c : List α} (hc : ((x :: c).map some).IsChain mem.Adj) :
    LinkChain (nextLinks mem none) (.next x) c (nextLinks mem none (lastPlace (.next x) c)) := by
  induction c generalizing x with
  | nil => rfl
  | cons y c ih =>
    obtain ⟨hxy, hc⟩ := isChain_cons_cons.mp hc
    exact ⟨hxy.1, ih hc⟩

/-- The opened ring : the elements as a null-terminated list. -/
theorem opened (hring : Ring mem ((h :: l ++ [t]).map some)) :
    LinkChain (nextLinks (setNext mem t none) none) (.next h) (l ++ [t]) none := by
  have hnd : (h :: (l ++ [t])).Nodup := List.Nodup.of_map some hring.nodup
  obtain ⟨hh, hl⟩ := nodup_cons.mp hnd
  have hchain : ((h :: (l ++ [t])).map some).IsChain mem.Adj := hring.linked.left_of_append
  have hlast : lastPlace (.next h) (l ++ [t]) = (.next t : Place Unit α) := lastPlace_concat _ _ _
  refine (linkChain_of_isChain hchain).setEnd hl (fun z hz hhz => hh (Place.next.inj hhz ▸ hz))
    (fun r hr _ => ?_) ?_
  · rw [hlast] at hr
    cases r with
    | head => rfl
    | next z =>
      exact update_of_ne (fun hzt => hr (by rw [Option.some.inj hzt])) _ _
  · rw [hlast]
    exact update_self _ _ _

/-- The loops of `list_sort` on an opened list of at least two elements. -/
theorem sortLoops (hcmp : TotalPreorder cmp) (hl : l.Nodup) (hfuel : l.length < fuel)
    (htwo : 2 ≤ l.length) (hx : l = x :: rest)
    (hinput : LinkChain (nextLinks mem none) (.next x) rest none) :
    ∃ mem1 pending1 list1 mem2 pending2 list2 P L,
      runLoop (pushRound cmp fuel) fuel ⟨mem, none, x, 0⟩ = some (some (mem1, some list1)) ∧
      mem1.prev (some list1) = some pending1 ∧
      runLoop (collapseRound cmp fuel) fuel (mem1, pending1, list1) =
        some (some (mem2, pending2, list2)) ∧
      CollapseInv cmp l (mem2, pending2, list2) [] P L := by
  have hstart : PushInv cmp l ⟨mem, none, x, 0⟩ [] [] rest :=
    ⟨⟨rfl, by simp, nodup_nil⟩, hinput, rfl, size_zero, Runs.nil, hx.symm⟩
  obtain ⟨r, hpush, mem1, pending, S, rfl, hpend, hruns, hsize⟩ := runLoop_of_rank
    (pushRound_spec hcmp hl hfuel) ⟨[], [], rest, hstart, rfl⟩
    (show rest.length < fuel by rw [hx, length_cons] at hfuel; omega)
  have hS : 2 ≤ S.length := by
    rw [hsize]
    exact lt_size.mpr (by simpa using htwo)
  obtain ⟨⟨list1, L⟩, ⟨pending1, P⟩, S, rfl⟩ : ∃ a b V, S = a :: b :: V := by
    match S, hS with
    | a :: b :: V, _ => exact ⟨a, b, V, rfl⟩
  obtain rfl : pending = some list1 := hpend.heads.1
  have hcollapse : CollapseInv cmp l (mem1, pending1, list1) S P L :=
    ⟨hpend.heads.2.2.congr rfl fun _ _ => rfl, hpend.runs, hruns⟩
  have hlen : S.length < fuel := by
    have hle := (heads_sublist ((list1, L) :: (pending1, P) :: S)).length_le
    rw [elements, hruns.flatten_perm.length_eq, length_map, length_cons, length_cons] at hle
    omega
  obtain ⟨r, hrun, ⟨mem2, pending2, list2⟩, P2, L2, rfl, h2⟩ := runLoop_of_rank
    (collapseRound_spec hcmp hl hfuel) ⟨S, P, L, hcollapse, rfl⟩ hlen
  exact ⟨mem1, pending1, list1, mem2, pending2, list2, P2, L2, hpush, hpend.heads.2.1, hrun, h2⟩

/-- `list_sort` ends with a ring of the sorted elements behind the head : a permutation of the
input in the order of the comparison function, with equal elements in their original order. -/
theorem listSort_stable (hcmp : TotalPreorder cmp) (mem : Mem α) (head : α) (l : List α)
    (hring : Ring mem ((head :: l).map some)) (fuel : ℕ) (hfuel : l.length < fuel) :
    ∃ mem' l', listSort cmp fuel mem head = some mem' ∧ Ring mem' ((head :: l').map some) ∧
      l'.Perm l ∧ l'.Pairwise (cmp · · ≤ 0) ∧
      ∀ a b, cmp a b ≤ 0 → cmp b a ≤ 0 → [a, b].Sublist l → [a, b].Sublist l' := by
  obtain ⟨hhead, hl⟩ := nodup_cons.mp (List.Nodup.of_map some hring.nodup)
  rcases eq_nil_or_concat l with rfl | ⟨c, t, rfl⟩
  · have hends := ring_singleton.mp hring
    exact ⟨mem, [], by rw [listSort, hends.1, hends.2, if_pos rfl], hring, List.Perm.nil,
      List.Pairwise.nil, fun _ _ _ _ h => h⟩
  rw [concat_eq_append] at hring hhead hl hfuel ⊢
  have hprev : mem.prev (some head) = some t := by
    have := hring.adj_ends.2
    simpa using this
  cases c with
  | nil =>
    have hnext : mem.next (some head) = some t := (Ring.adj (a := []) hring).1
    exact ⟨mem, [t], by rw [listSort, hnext, hprev, if_pos rfl], hring, List.Perm.refl _,
      pairwise_singleton _ _, fun _ _ _ _ h => h⟩
  | cons x c =>
    have hnext : mem.next (some head) = some x := (Ring.adj (a := []) hring).1
    have hne : ¬ some x = some t := by
      rintro ⟨⟩
      simp at hl
    obtain ⟨mem1, pending1, list1, mem2, pending2, list2, P, L, hpush, hprev1, hrun, h2⟩ :=
      sortLoops hcmp hl hfuel (by simp) rfl (opened hring).2
    have hsorts := (Runs.merge (S := []) hcmp.le_trans hcmp.le_total h2.sorted).stableSorts
    have hperm : (pending2 :: P ++ list2 :: L).Perm (x :: c ++ [t]) :=
      (merge_perm_append _).symm.trans hsorts.perm
    have hnd : (head :: (pending2 :: P ++ list2 :: L)).Nodup :=
      (hperm.cons head).nodup_iff.mpr (nodup_cons.mpr ⟨hhead, hl⟩)
    obtain ⟨mem', hfinal, hring'⟩ := mergeFinal_spec cmp hnd (h2.runs (pending2, P) (by simp))
      (h2.runs (list2, L) (by simp)) (hperm.length_eq ▸ hfuel)
    refine ⟨mem', _, ?_, hring', hsorts.perm, ?_, fun a b hab _ => ?_⟩
    · rw [listSort, hnext, hprev, if_neg hne, bind_some, bind_some, hpush, join_some, bind_some]
      simp only [bind_some, hprev1, hrun, join_some, hfinal]
    · exact hsorts.sorted.imp fun hab => of_decide_eq_true hab
    · exact hsorts.stable a b (decide_eq_true hab)

/-- A ring of five elements behind the head `0`. -/
def fiveHeads : Mem ℕ :=
  [7, 3, 5, 1, 9].foldl (fun mem x => mem.addTail (some x) (some 0)) ⟨id, id⟩

/-- The elements sorted by their remainder modulo four : `5`, `1` and `9` are equal. -/
theorem listSort_stable_five :
    ∃ mem' l', listSort (fun a b : ℕ => (a % 4 : ℤ) - (b % 4 : ℤ)) 6 fiveHeads 0 = some mem' ∧
      Ring mem' ((0 :: l').map some) ∧ l'.Perm [7, 3, 5, 1, 9] ∧
      l'.Pairwise (fun a b : ℕ => (a % 4 : ℤ) - (b % 4 : ℤ) ≤ 0) ∧
      [5, 1].Sublist l' ∧ [1, 9].Sublist l' ∧ [7, 3].Sublist l' := by
  have hcmp : TotalPreorder (fun a b : ℕ => (a % 4 : ℤ) - (b % 4 : ℤ)) :=
    ⟨fun a b c hab hbc => by omega, fun a b => by omega⟩
  obtain ⟨mem', l', hrun, hring, hperm, hsorted, hstable⟩ :=
    listSort_stable hcmp fiveHeads 0 [7, 3, 5, 1, 9] (by decide +kernel) 6 (by decide)
  exact ⟨mem', l', hrun, hring, hperm, hsorted, hstable 5 1 (by decide) (by decide) (by decide),
    hstable 1 9 (by decide) (by decide) (by decide),
    hstable 7 3 (by decide) (by decide) (by decide)⟩

end ListSort

end LinuxKernelTest
