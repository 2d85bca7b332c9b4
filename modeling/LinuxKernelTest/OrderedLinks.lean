import Mathlib.Tactic

/-!
# Doubly linked lists ordered by a key

A partial map `m` from keys to elements says which elements are in the list and at which key.
`Linked m next prev` says that `next` and `prev` lead from an element to the one at the next and at
the previous key. `LinkedExcept m next prev b` allows the two links that span the key `b` to be
anything : it is what holds while a new element is being put at `b`, and `LinkedExcept.insert`
closes the list again. `Linked.remove` takes an element out. `Linked.visits` reads the list off.
-/

namespace LinuxKernelTest

open Function List

variable {κ α : Type*} [LinearOrder κ]

/-- `o` is the element of `m` at the least key above `k`. -/
def IsSucc (m : κ → Option α) (k : κ) : Option α → Prop
  | some a => ∃ k', k < k' ∧ m k' = some a ∧ ∀ x, k < x → x < k' → m x = none
  | none => ∀ x, k < x → m x = none

/-- `o` is the element of `m` at the greatest key below `k`. -/
def IsPred (m : κ → Option α) (k : κ) : Option α → Prop
  | some a => ∃ k', k' < k ∧ m k' = some a ∧ ∀ x, k' < x → x < k → m x = none
  | none => ∀ x, x < k → m x = none

/-- No element is at a key strictly between `k` and `k'`. -/
def NoneBetween (m : κ → Option α) (k k' : κ) : Prop :=
  ∀ x, k < x → x < k' → m x = none

/-- `next` and `prev` link the elements of `m` in the order of their keys. -/
structure Linked (m : κ → Option α) (next prev : α → Option α) : Prop where
  inj : ∀ {k k' a}, m k = some a → m k' = some a → k = k'
  next : ∀ {k a}, m k = some a → IsSucc m k (next a)
  prev : ∀ {k a}, m k = some a → IsPred m k (prev a)

/-- The list is linked but for the link across `b` in either direction. -/
structure LinkedExcept (m : κ → Option α) (next prev : α → Option α) (b : κ) : Prop where
  inj : ∀ {k k' a}, m k = some a → m k' = some a → k = k'
  next : ∀ {k a}, m k = some a → IsSucc m k (next a) ∨ k < b ∧ NoneBetween m k b
  prev : ∀ {k a}, m k = some a → IsPred m k (prev a) ∨ b < k ∧ NoneBetween m b k

section

variable {m : κ → Option α} {next prev next' prev' : α → Option α} {b k : κ} {a : α}

theorem Linked.except (h : Linked m next prev) (b : κ) : LinkedExcept m next prev b :=
  ⟨h.inj, fun hk => .inl (h.next hk), fun hk => .inl (h.prev hk)⟩

variable {o : Option α} {o' : Option α} {c : α}

theorem isSucc_unique (h : IsSucc m k o) (h' : IsSucc m k o') : o = o' := by
  cases o with
  | none =>
    cases o' with
    | none => rfl
    | some a' =>
      obtain ⟨k', hk, hm, -⟩ := h'
      rw [h k' hk] at hm
      cases hm
  | some a =>
    obtain ⟨k', hk, hm, hnone⟩ := h
    cases o' with
    | none =>
      rw [h' k' hk] at hm
      cases hm
    | some a' =>
      obtain ⟨k'', hk', hm', hnone'⟩ := h'
      rcases lt_trichotomy k' k'' with hlt | rfl | hlt
      · rw [hnone' k' hk hlt] at hm
        cases hm
      · rw [← hm, hm']
      · rw [hnone k'' hk' hlt] at hm'
        cases hm'

/-- In the reversed order the element before is the one after. -/
theorem isPred_iff : IsPred m k o ↔ IsSucc (κ := κᵒᵈ) m k o := by
  cases o with
  | none => rfl
  | some a =>
    exact exists_congr fun k' => and_congr_right fun _ => and_congr_right fun _ =>
      forall_congr' fun x => forall_comm

theorem isPred_unique (h : IsPred m k o) (h' : IsPred m k o') : o = o' :=
  isSucc_unique (isPred_iff.mp h) (isPred_iff.mp h')

theorem noneBetween_dual : NoneBetween (κ := κᵒᵈ) m k b ↔ NoneBetween m b k :=
  forall_congr' fun _ => forall_comm

theorem Linked.dual (h : Linked m next prev) : Linked (κ := κᵒᵈ) m prev next :=
  ⟨h.inj, fun hk => isPred_iff.mp (h.prev hk), fun hk => isPred_iff.mpr (h.next hk)⟩

theorem LinkedExcept.dual (h : LinkedExcept m next prev b) :
    LinkedExcept (κ := κᵒᵈ) m prev next b where
  inj := h.inj
  next hk := (h.prev hk).imp isPred_iff.mp (And.imp_right noneBetween_dual.mpr)
  prev hk := (h.next hk).imp isPred_iff.mpr (And.imp_right noneBetween_dual.mpr)

/-- The element after `k` is the one after `b` when there is none from `b` to `k`. -/
theorem IsSucc.mono (h : IsSucc m k o) (hbk : b ≤ k)
    (hnone : ∀ x, b < x → x ≤ k → m x = none) : IsSucc m b o := by
  cases o with
  | none =>
    intro x hx
    rcases lt_or_ge k x with hlt | hge
    · exact h x hlt
    · exact hnone x hx hge
  | some a =>
    obtain ⟨k', hk', hm, hbetween⟩ := h
    refine ⟨k', hbk.trans_lt hk', hm, fun x hx hx' => ?_⟩
    rcases lt_or_ge k x with hlt | hge
    · exact hbetween x hlt hx'
    · exact hnone x hx hge

/-- The element before `k` is the one before `b` when there is none from `k` to `b`. -/
theorem IsPred.mono (h : IsPred m k o) (hkb : k ≤ b)
    (hnone : ∀ x, k ≤ x → x < b → m x = none) : IsPred m b o :=
  isPred_iff.mpr ((isPred_iff.mp h).mono hkb fun x hx hx' => hnone x hx' hx)

/-- The predecessor of `k`'s successor is `k`. -/
theorem Linked.prev_of_next (h : Linked m next prev) (hk : m k = some a)
    (hn : next a = some c) : prev c = some a := by
  have hs := h.next hk
  rw [hn] at hs
  obtain ⟨k', hlt, hm, hnone⟩ := hs
  exact isPred_unique (h.prev hm) ⟨k, hlt, hk, hnone⟩

/-- The successor of `k`'s predecessor is `k`. -/
theorem Linked.next_of_prev (h : Linked m next prev) (hk : m k = some a)
    (hp : prev a = some c) : next c = some a :=
  h.dual.prev_of_next hk hp

/-- A list stays linked but across `b` under changes to the elements next to `b`. -/
theorem LinkedExcept.congr (h : LinkedExcept m next prev b)
    (hn : ∀ {k a}, m k = some a → next' a = next a ∨ k < b ∧ NoneBetween m k b)
    (hp : ∀ {k a}, m k = some a → prev' a = prev a ∨ b < k ∧ NoneBetween m b k) :
    LinkedExcept m next' prev' b where
  inj := h.inj
  next hk := by
    rcases hn hk with he | hb
    · rw [he]
      exact h.next hk
    · exact .inr hb
  prev hk := by
    rcases hp hk with he | hb
    · rw [he]
      exact h.prev hk
    · exact .inr hb

theorem Linked.congr (h : Linked m next prev) (hn : ∀ {k a}, m k = some a → next' a = next a)
    (hp : ∀ {k a}, m k = some a → prev' a = prev a) : Linked m next' prev' where
  inj := h.inj
  next hk := by
    rw [hn hk]
    exact h.next hk
  prev hk := by
    rw [hp hk]
    exact h.prev hk

end

section

variable [DecidableEq κ] {m : κ → Option α} {next prev next' prev' : α → Option α}
  {b k : κ} {a : α}

variable {o : Option α} {p q : Option α}

theorem isSucc_update_above (ho : IsSucc m k o)
    (hbetween : ¬NoneBetween m k b) : IsSucc (update m b (some a)) k o := by
  obtain ⟨y, hky, hyb, hy⟩ : ∃ y, k < y ∧ y < b ∧ m y ≠ none := by
    unfold NoneBetween at hbetween
    push Not at hbetween
    exact hbetween
  cases o with
  | none => exact absurd (ho y hky) hy
  | some c =>
    obtain ⟨k', hk', hm, hnone⟩ := ho
    have hk'b : k' < b := by
      by_contra hge
      exact hy (hnone y hky (lt_of_lt_of_le hyb (not_lt.mp hge)))
    refine ⟨k', hk', by rwa [update_of_ne hk'b.ne], fun x hx hx' => ?_⟩
    rw [update_of_ne (hx'.trans hk'b).ne]
    exact hnone x hx hx'

theorem isSucc_update_below (hlt : b < k) (ho : IsSucc m k o) :
    IsSucc (update m b (some a)) k o := by
  cases o with
  | none =>
    intro x hx
    rw [update_of_ne (hlt.trans hx).ne']
    exact ho x hx
  | some c =>
    obtain ⟨k', hk', hm, hnone⟩ := ho
    refine ⟨k', hk', by rwa [update_of_ne (hlt.trans hk').ne'], fun x hx hx' => ?_⟩
    rw [update_of_ne (hlt.trans hx).ne']
    exact hnone x hx hx'

omit [LinearOrder κ] in
/-- What the elements are after a new one is put at `b`. -/
theorem update_eq_some {c : α} (hk : update m b (some a) k = some c) :
    k = b ∧ c = a ∨ k ≠ b ∧ m k = some c := by
  by_cases hkb : k = b
  · subst hkb
    rw [update_self] at hk
    exact .inl ⟨rfl, (Option.some.inj hk).symm⟩
  · rw [update_of_ne hkb] at hk
    exact .inr ⟨hkb, hk⟩

/-- The links forward after a new element is put at the free key `b`, between the elements `p` and
`q` next to it. -/
theorem LinkedExcept.isSucc_insert (h : LinkedExcept m next prev b)
    (hp : IsPred m b p) (hq : IsSucc m b q) (hnext : next' a = q)
    (hpnext : ∀ c, p = some c → next' c = some a)
    (hn : ∀ {k c}, m k = some c → p ≠ some c → next' c = next c) {c : α}
    (hk : update m b (some a) k = some c) :
    IsSucc (update m b (some a)) k (next' c) := by
  rcases update_eq_some hk with ⟨rfl, rfl⟩ | ⟨hkb, hm⟩
  · -- The new element's successor is the old successor of its key.
    rw [hnext]
    cases q with
    | none =>
      intro x hx
      rw [update_of_ne hx.ne']
      exact hq x hx
    | some c =>
      obtain ⟨k', hk', hm, hnone⟩ := hq
      refine ⟨k', hk', by rwa [update_of_ne hk'.ne'], fun x hx hx' => ?_⟩
      rw [update_of_ne hx.ne']
      exact hnone x hx hx'
  rcases lt_or_gt_of_ne hkb with hlt | hlt
  · by_cases hbetween : NoneBetween m k b
    · have hpc : p = some c := isPred_unique hp ⟨k, hlt, hm, hbetween⟩
      rw [hpnext c hpc]
      refine ⟨b, hlt, update_self .., fun x hx hx' => ?_⟩
      rw [update_of_ne hx'.ne]
      exact hbetween x hx hx'
    · have hpc : p ≠ some c := by
        rintro rfl
        obtain ⟨k', hk', hm', hnone⟩ := hp
        obtain rfl := h.inj hm hm'
        exact hbetween hnone
      rw [hn hm hpc]
      rcases h.next hm with hs | ⟨-, hs⟩
      · exact isSucc_update_above hs hbetween
      · exact absurd hs hbetween
  · have hpc : p ≠ some c := by
      rintro rfl
      obtain ⟨k', hk', hm', -⟩ := hp
      obtain rfl := h.inj hm hm'
      exact absurd hk' (not_lt.mpr hlt.le)
    rw [hn hm hpc]
    rcases h.next hm with hs | ⟨hs, -⟩
    · exact isSucc_update_below hlt hs
    · exact absurd hs (not_lt.mpr hlt.le)
/-- Put a new element at the free key `b`, between the elements `p` and `q` next to it. -/
theorem LinkedExcept.insert (h : LinkedExcept m next prev b)
    (hfresh : ∀ k, m k ≠ some a) (hp : IsPred m b p) (hq : IsSucc m b q)
    (hnext : next' a = q) (hprev : prev' a = p)
    (hpnext : ∀ c, p = some c → next' c = some a) (hqprev : ∀ c, q = some c → prev' c = some a)
    (hn : ∀ {k c}, m k = some c → p ≠ some c → next' c = next c)
    (hv : ∀ {k c}, m k = some c → q ≠ some c → prev' c = prev c) :
    Linked (update m b (some a)) next' prev' where
  inj {k k' c} hk hk' := by
    rcases update_eq_some hk with ⟨rfl, rfl⟩ | ⟨-, hm⟩
    · rcases update_eq_some hk' with ⟨rfl, -⟩ | ⟨-, hm'⟩
      · rfl
      · exact absurd hm' (hfresh _)
    · rcases update_eq_some hk' with ⟨-, rfl⟩ | ⟨-, hm'⟩
      · exact absurd hm (hfresh _)
      · exact h.inj hm hm'
  next hk := h.isSucc_insert hp hq hnext hpnext hn hk
  prev hk := isPred_iff.mpr
    (h.dual.isSucc_insert (isPred_iff.mpr hq) (isPred_iff.mp hp) hprev hqprev hv hk)

/-- Where `k` is the key before `b`, taking the element at `b` out hands `k` the
successor of `b`. -/
theorem isSucc_remove (hlt : k < b) (hbetween : NoneBetween m k b)
    (ho : IsSucc m b o) : IsSucc (update m b none) k o := by
  have hnone : ∀ x, k < x → (x ≤ b ∨ m x = none) → update m b none x = none := by
    intro x hx hxb
    by_cases hxb' : x = b
    · rw [hxb', update_self]
    rw [update_of_ne hxb']
    rcases hxb with hle | hm
    · exact hbetween x hx (lt_of_le_of_ne hle hxb')
    · exact hm
  cases o with
  | none =>
    intro x hx
    refine hnone x hx ?_
    rcases le_or_gt x b with hle | hgt
    · exact .inl hle
    · exact .inr (ho x hgt)
  | some c =>
    obtain ⟨k', hk', hm, hn⟩ := ho
    refine ⟨k', hlt.trans hk', by rwa [update_of_ne hk'.ne'], fun x hx hx' => ?_⟩
    refine hnone x hx ?_
    rcases le_or_gt x b with hle | hgt
    · exact .inl hle
    · exact .inr (hn x hgt hx')

theorem isSucc_remove_of_ne (hb : m b = some a) (ho : IsSucc m k o)
    (hne : o ≠ some a) :
    IsSucc (update m b none) k o := by
  have hnone : ∀ x, m x = none → update m b none x = none := by
    intro x hx
    by_cases hxb : x = b
    · rw [hxb, update_self]
    · rwa [update_of_ne hxb]
  cases o with
  | none => exact fun x hx => hnone x (ho x hx)
  | some c =>
    obtain ⟨k', hk', hm, hn⟩ := ho
    have hkb : k' ≠ b := by
      rintro rfl
      exact hne (hm.symm.trans hb)
    exact ⟨k', hk', by rwa [update_of_ne hkb], fun x hx hx' => hnone x (hn x hx hx')⟩

/-- The links forward after the element at `b` is taken out. -/
theorem Linked.isSucc_erase (h : Linked m next prev) (hb : m b = some a)
    (hpnext : ∀ c, prev a = some c → next' c = next a)
    (hn : ∀ {k c}, m k = some c → c ≠ a → prev a ≠ some c → next' c = next c) {c : α}
    (hm : m k = some c) (hca : c ≠ a) : IsSucc (update m b none) k (next' c) := by
  by_cases hpc : prev a = some c
  · have hs := h.prev hb
    rw [hpc] at hs
    obtain ⟨k', hk', hm', hbetween⟩ := hs
    obtain rfl := h.inj hm hm'
    rw [hpnext c hpc]
    exact isSucc_remove hk' hbetween (h.next hb)
  · rw [hn hm hca hpc]
    exact isSucc_remove_of_ne hb (h.next hm) fun hna => hpc (h.prev_of_next hm hna)

/-- Take the element at `b` out of the list : its neighbours are linked to each other. -/
theorem Linked.remove (h : Linked m next prev) (hb : m b = some a)
    (hpnext : ∀ c, prev a = some c → next' c = next a)
    (hqprev : ∀ c, next a = some c → prev' c = prev a)
    (hn : ∀ {k c}, m k = some c → c ≠ a → prev a ≠ some c → next' c = next c)
    (hv : ∀ {k c}, m k = some c → c ≠ a → next a ≠ some c → prev' c = prev c) :
    Linked (update m b none) next' prev' := by
  have hupd : ∀ {k c}, update m b none k = some c → k ≠ b ∧ m k = some c ∧ c ≠ a := by
    intro k c hk
    by_cases hkb : k = b
    · rw [hkb, update_self] at hk
      cases hk
    rw [update_of_ne hkb] at hk
    refine ⟨hkb, hk, ?_⟩
    rintro rfl
    exact hkb (h.inj hk hb)
  refine ⟨fun hk hk' => h.inj (hupd hk).2.1 (hupd hk').2.1, fun hk => ?_, fun hk => ?_⟩
  · obtain ⟨-, hm, hca⟩ := hupd hk
    exact h.isSucc_erase hb hpnext hn hm hca
  · obtain ⟨-, hm, hca⟩ := hupd hk
    exact isPred_iff.mpr (h.dual.isSucc_erase hb hqprev hv hm hca)

end

/-! ## Following the links -/

/-- Following `next` from `o` visits exactly the elements of the list, then stops. -/
def Visits (next : α → Option α) : Option α → List α → Prop
  | none, [] => True
  | some a, b :: l => a = b ∧ Visits next (next a) l
  | _, _ => False

section

variable {m : κ → Option α} {next prev : α → Option α}

/-- From the key `k` on, `next` visits the elements at the keys above `k` in ascending
order. -/
theorem Linked.visits_above (h : Linked m next prev) :
    ∀ {keys : List κ} {k : κ} {o : Option α}, keys.Pairwise (· < ·) →
      (∀ x, x ∈ keys ↔ k < x ∧ m x ≠ none) → IsSucc m k o → Visits next o (keys.filterMap m)
  | [], k, o, _, hmem, ho => by
    cases o with
    | none => trivial
    | some a =>
      obtain ⟨k', hk', hm, -⟩ := ho
      exact absurd ((hmem k').mpr ⟨hk', by simp [hm]⟩) (not_mem_nil)
  | k' :: keys, k, o, hsorted, hmem, ho => by
    obtain ⟨hhead, htail⟩ := pairwise_cons.mp hsorted
    obtain ⟨hlt, hne⟩ := (hmem k').mp mem_cons_self
    obtain ⟨a, ha⟩ := Option.ne_none_iff_exists'.mp hne
    have hbetween : ∀ x, k < x → x < k' → m x = none := by
      intro x hx hx'
      by_contra hmx
      rcases mem_cons.mp ((hmem x).mpr ⟨hx, hmx⟩) with rfl | hin
      · exact lt_irrefl _ hx'
      · exact lt_asymm hx' (hhead x hin)
    obtain rfl : o = some a := isSucc_unique ho ⟨k', hlt, ha, hbetween⟩
    rw [filterMap_cons_some ha]
    refine ⟨rfl, h.visits_above htail (fun x => ⟨fun hx => ?_, fun hx => ?_⟩) (h.next ha)⟩
    · exact ⟨hhead x hx, ((hmem x).mp (mem_cons_of_mem _ hx)).2⟩
    · rcases mem_cons.mp ((hmem x).mpr ⟨hlt.trans hx.1, hx.2⟩) with rfl | hin
      · exact absurd hx.1 (lt_irrefl _)
      · exact hin

/-- From its first element on, the list visits all elements in ascending order. -/
theorem Linked.visits (h : Linked m next prev) {keys : List κ} (hsorted : keys.Pairwise (· < ·))
    (hmem : ∀ x, x ∈ keys ↔ m x ≠ none) :
    Visits next (keys.filterMap m).head? (keys.filterMap m) := by
  cases keys with
  | nil => trivial
  | cons k keys =>
    obtain ⟨hhead, htail⟩ := pairwise_cons.mp hsorted
    obtain ⟨a, ha⟩ := Option.ne_none_iff_exists'.mp ((hmem k).mp mem_cons_self)
    rw [filterMap_cons_some ha]
    refine ⟨rfl, h.visits_above htail (fun x => ⟨fun hx => ?_, fun hx => ?_⟩) (h.next ha)⟩
    · exact ⟨hhead x hx, (hmem x).mp (mem_cons_of_mem _ hx)⟩
    · rcases mem_cons.mp ((hmem x).mpr hx.2) with rfl | hin
      · exact absurd hx.1 (lt_irrefl _)
      · exact hin

end

end LinuxKernelTest
