import Mathlib.Algebra.BigOperators.Group.Finset.Basic
import Mathlib.Algebra.Order.Group.Multiset
import Ordinum.Interleaving.System

namespace interleaving

/-- Who holds which resources: what lies in shared memory and what is in the
hands of a thread, each with its multiplicity, and which resources were created
so far. -/
structure Holdings (Shared Local R : Type*) where
  shared : Shared → Multiset R
  thread : Local → Multiset R
  created : Shared → R → Prop

/-- What a sum holds once is held once by one of its terms and by no other. -/
theorem exists_of_count_sum {ι R : Type*} [DecidableEq ι] [DecidableEq R] {s : Finset ι}
    {f : ι → Multiset R} {x : R} (hone : (∑ i ∈ s, f i).count x = 1) :
    ∃ i ∈ s, (f i).count x = 1 ∧ ∀ j ∈ s, j ≠ i → x ∉ f j := by
  rw [Multiset.count_sum'] at hone
  obtain ⟨i, hi, hpos⟩ := Finset.exists_ne_zero_of_sum_ne_zero (by rw [hone]; exact one_ne_zero)
  rw [← Finset.add_sum_erase s _ hi] at hone
  have hrest : ∑ j ∈ s.erase i, (f j).count x = 0 := by omega
  refine ⟨i, hi, by omega, ?_⟩
  intro j hj hne
  exact Multiset.count_eq_zero.mp
    (Finset.sum_eq_zero_iff.mp hrest j (Finset.mem_erase.mpr ⟨hne, hj⟩))

variable {Tid Act Shared Local R : Type*} [DecidableEq Tid]

namespace Holdings

variable (H : Holdings Shared Local R)

/-- A step from `s`, `l` to `r` moves resources between the thread and the
shared memory, and brings the new resources `fresh` into the world. -/
structure Moves (s : Shared) (l : Local) (r : Shared × Local) (fresh : Multiset R) : Prop where
  balance : H.shared r.1 + H.thread r.2 = H.shared s + H.thread l + fresh
  nodup : fresh.Nodup
  is_new : ∀ x ∈ fresh, ¬ H.created s x
  created : ∀ x, H.created r.1 x ↔ H.created s x ∨ x ∈ fresh

/-- A step that only moves resources around. -/
theorem Moves.of_balance {s : Shared} {l : Local} {r : Shared × Local}
    (hbalance : H.shared r.1 + H.thread r.2 = H.shared s + H.thread l)
    (hcreated : ∀ x, H.created r.1 x ↔ H.created s x) : H.Moves s l r 0 where
  balance := by rw [add_zero, hbalance]
  nodup := Multiset.nodup_zero
  is_new := fun x hx => absurd hx (Multiset.notMem_zero x)
  created := fun x => by simp [hcreated x]

/-- What a place, the shared memory or a thread, holds. -/
def held (c : Config Tid Shared Local) : Option Tid → Multiset R
  | none => H.shared c.shared
  | some t => H.thread (c.threads t)

variable [DecidableEq R]

/-- Every resource that was created is held once, in one place; nothing else is
held. -/
structure Exclusive (c : Config Tid Shared Local) : Prop where
  held_once : ∀ x, H.created c.shared x → ∃ place, (H.held c place).count x = 1 ∧
    ∀ other, other ≠ place → x ∉ H.held c other
  only_created : ∀ x place, x ∈ H.held c place → H.created c.shared x

variable {H}

/-- Two places do not hold the same resource. -/
theorem Exclusive.same_place {c : Config Tid Shared Local} (hc : H.Exclusive c) {x : R}
    {place place' : Option Tid} (h : x ∈ H.held c place) (h' : x ∈ H.held c place') :
    place = place' := by
  obtain ⟨owner, _, hothers⟩ := hc.held_once x (hc.only_created x place h)
  have howner : ∀ p, x ∈ H.held c p → p = owner := by
    intro p hp
    by_contra hne
    exact hothers p hne hp
  rw [howner place h, howner place' h']

/-- No place holds a resource twice. -/
theorem Exclusive.nodup {c : Config Tid Shared Local} (hc : H.Exclusive c) (place : Option Tid) :
    (H.held c place).Nodup := by
  rw [Multiset.nodup_iff_count_le_one]
  intro x
  by_cases hx : x ∈ H.held c place
  · obtain ⟨owner, hone, hothers⟩ := hc.held_once x (hc.only_created x place hx)
    by_cases howner : place = owner
    · rw [howner, hone]
    · exact absurd hx (hothers place howner)
  · rw [Multiset.count_eq_zero_of_notMem hx]
    exact Nat.zero_le 1

/-- What the shared memory and a thread hold together is held once. -/
theorem Exclusive.nodup_add {c : Config Tid Shared Local} (hc : H.Exclusive c) (t : Tid) :
    (H.held c none + H.held c (some t)).Nodup := by
  rw [Multiset.nodup_add, Multiset.disjoint_left]
  refine ⟨hc.nodup none, hc.nodup (some t), ?_⟩
  intro x hshared hthread
  cases hc.same_place hshared hthread

omit [DecidableEq Tid] in
/-- A resource that the shared memory and thread `t` hold once between them, and
no other thread holds, has one holder. -/
theorem held_once_of_total {c : Config Tid Shared Local} {t : Tid} {x : R}
    (htotal : (H.held c none).count x + (H.held c (some t)).count x = 1)
    (hrest : ∀ u, u ≠ t → x ∉ H.held c (some u)) :
    ∃ place, (H.held c place).count x = 1 ∧ ∀ other, other ≠ place → x ∉ H.held c other := by
  classical
  obtain hshared | hshared := Nat.eq_zero_or_pos ((H.held c none).count x)
  · refine ⟨some t, by omega, ?_⟩
    rintro (_ | u) hu
    · exact Multiset.count_eq_zero.mp hshared
    · exact hrest u fun h => hu (by rw [h])
  · refine ⟨none, by omega, ?_⟩
    rintro (_ | u) hu
    · exact absurd rfl hu
    · by_cases hut : u = t
      · subst hut
        exact Multiset.count_eq_zero.mp (by omega)
      · exact hrest u hut

omit [DecidableEq R] in
/-- The places that a step does not touch hold what they held. -/
theorem held_move_of_ne {c : Config Tid Shared Local} {t u : Tid} {r : Shared × Local}
    (hne : u ≠ t) : H.held (c.move t r) (some u) = H.held c (some u) := by
  rw [held, held, c.move_threads_of_ne r hne]

/-- What the shared memory and the stepping thread hold between them. -/
theorem count_move {c : Config Tid Shared Local} {t : Tid} {r : Shared × Local}
    {fresh : Multiset R} (hmoves : H.Moves c.shared (c.threads t) r fresh) (x : R) :
    (H.held (c.move t r) none).count x + (H.held (c.move t r) (some t)).count x =
      (H.held c none).count x + (H.held c (some t)).count x + fresh.count x := by
  have hbalance := congrArg (Multiset.count x) hmoves.balance
  simpa [held] using hbalance

/-- A step that moves resources keeps every resource with one holder. -/
theorem Exclusive.move {c : Config Tid Shared Local} (hc : H.Exclusive c) {t : Tid}
    {r : Shared × Local} {fresh : Multiset R}
    (hmoves : H.Moves c.shared (c.threads t) r fresh) : H.Exclusive (c.move t r) := by
  have hnew : ∀ x, ¬ H.created c.shared x → ∀ place, (H.held c place).count x = 0 :=
    fun x hx place => Multiset.count_eq_zero_of_notMem fun hmem =>
      hx (hc.only_created x place hmem)
  constructor
  · intro x hx
    have hcount := count_move hmoves x
    obtain hold | hfresh := (hmoves.created x).mp hx
    · have hnot : fresh.count x = 0 :=
        Multiset.count_eq_zero_of_notMem fun hmem => hmoves.is_new x hmem hold
      obtain ⟨owner, hone, hothers⟩ := hc.held_once x hold
      have hzero : ∀ p, p ≠ owner → (H.held c p).count x = 0 := fun p hp =>
        Multiset.count_eq_zero_of_notMem (hothers p hp)
      by_cases hout : ∃ u, u ≠ t ∧ owner = some u
      · -- another thread holds it, and still does
        obtain ⟨u, hu, rfl⟩ := hout
        have hshared := hzero none (by simp)
        have hthread := hzero (some t) (by simpa using hu.symm)
        refine ⟨some u, by rw [held_move_of_ne hu, hone], ?_⟩
        rintro (_ | v) hv hmem
        · have := Multiset.count_pos.mpr hmem
          omega
        · by_cases hvt : v = t
          · subst hvt
            have := Multiset.count_pos.mpr hmem
            omega
          · rw [held_move_of_ne hvt] at hmem
            exact hothers (some v) hv hmem
      · have htotal : (H.held c none).count x + (H.held c (some t)).count x = 1 := by
          cases owner with
          | none => rw [hone, hzero (some t) (by simp)]
          | some u =>
            have hut : u = t := by
              by_contra hne
              exact hout ⟨u, hne, rfl⟩
            subst hut
            rw [hone, hzero none (by simp)]
        apply held_once_of_total (t := t)
        · omega
        · intro v hv hmem
          rw [held_move_of_ne hv] at hmem
          have hvowner : owner = some v := by
            by_contra hne
            exact hothers (some v) (Ne.symm hne) hmem
          exact hout ⟨v, hv, hvowner⟩
    · have hone : fresh.count x = 1 := Multiset.count_eq_one_of_mem hmoves.nodup hfresh
      have hzero := hnew x (hmoves.is_new x hfresh)
      apply held_once_of_total (t := t)
      · rw [hcount, hzero none, hzero (some t), hone]
      · intro v hv
        rw [held_move_of_ne hv]
        exact Multiset.count_eq_zero.mp (hzero (some v))
  · intro x place hmem
    apply (hmoves.created x).mpr
    by_cases hold : H.created c.shared x
    · exact .inl hold
    · right
      have hzero := hnew x hold
      have hcount := count_move hmoves x
      rw [hzero none, hzero (some t)] at hcount
      have hpos := Multiset.count_pos.mpr hmem
      obtain _ | v := place
      · exact Multiset.count_pos.mp (by omega)
      · by_cases hvt : v = t
        · subst hvt
          exact Multiset.count_pos.mp (by omega)
        · rw [held_move_of_ne hvt, hzero (some v)] at hpos
          omega

/-- When every step of a run moves resources, every resource has one holder
throughout. -/
theorem exclusive_of_moves {sys : System Tid Act Shared Local}
    {G : System.StepCondition Tid Act Shared Local} (hinit : H.Exclusive sys.init)
    (hstep : ∀ c t a r, sys.ReachableUnder G c → H.Exclusive c → G t a c.shared (c.threads t) →
      sys.step t a c.shared (c.threads t) = some r →
      ∃ fresh, H.Moves c.shared (c.threads t) r fresh)
    {c : Config Tid Shared Local} (hc : sys.ReachableUnder G c) : H.Exclusive c := by
  refine System.ReachableUnder.induction (P := H.Exclusive) hinit ?_ hc
  intro c t a r hreach hexclusive hG hr
  obtain ⟨fresh, hmoves⟩ := hstep c t a r hreach hexclusive hG hr
  exact hexclusive.move hmoves

end Holdings

end interleaving
