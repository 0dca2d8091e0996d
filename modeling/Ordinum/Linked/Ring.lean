import Mathlib.Data.List.Nodup
import Mathlib.Logic.Function.Basic

namespace linked

variable {α : Type*} {next prev next' prev' : α → Option α} {x y z head : α} {xs ys : List α}

/-- The nodes between `x` and `y`, linked in both directions. -/
def IsPath (next prev : α → Option α) : α → List α → α → Prop
  | x, [], y => next x = some y ∧ prev y = some x
  | x, z :: zs, y => next x = some z ∧ prev z = some x ∧ IsPath next prev z zs y

namespace IsPath

/-- What a node links to on the path. -/
theorem next_eq (h : IsPath next prev x xs y) : next x = some (xs.headD y) := by
  cases xs with
  | nil => exact h.1
  | cons z zs => exact h.1

/-- Writes to links that are not on the path leave it. -/
theorem frame (h : IsPath next prev x xs y) (hnext : ∀ a ∈ x :: xs, next' a = next a)
    (hprev : ∀ a ∈ y :: xs, prev' a = prev a) : IsPath next' prev' x xs y := by
  induction xs generalizing x with
  | nil =>
    refine ⟨?_, ?_⟩
    · rw [hnext x List.mem_cons_self]
      exact h.1
    · rw [hprev y List.mem_cons_self]
      exact h.2
  | cons z zs ih =>
    refine ⟨?_, ?_, ih h.2.2 ?_ ?_⟩
    · rw [hnext x List.mem_cons_self]
      exact h.1
    · rw [hprev z (by simp)]
      exact h.2.1
    · exact fun a ha => hnext a (List.mem_cons_of_mem x ha)
    · intro a ha
      apply hprev
      obtain rfl | ha := List.mem_cons.mp ha
      · exact List.mem_cons_self
      · exact List.mem_cons_of_mem y (List.mem_cons_of_mem z ha)

/-- Every node on the path has a successor, which links back to it. -/
theorem next_inverse (h : IsPath next prev x xs y) {a : α} (ha : a ∈ x :: xs) :
    ∃ b ∈ y :: xs, next a = some b ∧ prev b = some a := by
  induction xs generalizing x with
  | nil =>
    obtain rfl := List.mem_singleton.mp ha
    exact ⟨y, List.mem_cons_self, h⟩
  | cons z zs ih =>
    obtain rfl | ha := List.mem_cons.mp ha
    · exact ⟨z, by simp, h.1, h.2.1⟩
    · obtain ⟨b, hb, hlinks⟩ := ih h.2.2 ha
      refine ⟨b, ?_, hlinks⟩
      obtain rfl | hb := List.mem_cons.mp hb
      · exact List.mem_cons_self
      · exact List.mem_cons_of_mem y (List.mem_cons_of_mem z hb)

/-- Every node on the path has a predecessor, which links to it. -/
theorem prev_inverse (h : IsPath next prev x xs y) {b : α} (hb : b ∈ y :: xs) :
    ∃ a ∈ x :: xs, prev b = some a ∧ next a = some b := by
  induction xs generalizing x with
  | nil =>
    obtain rfl := List.mem_singleton.mp hb
    exact ⟨x, List.mem_cons_self, h.2, h.1⟩
  | cons z zs ih =>
    by_cases hz : b = z
    · subst hz
      exact ⟨x, List.mem_cons_self, h.2.1, h.1⟩
    · have hrest : b ∈ y :: zs := by
        simp only [List.mem_cons, hz, false_or] at hb ⊢
        exact hb
      obtain ⟨a, ha, hlinks⟩ := ih h.2.2 hrest
      exact ⟨a, List.mem_cons_of_mem x ha, hlinks⟩

/-- Linking the neighbours of a node to each other takes it out of the path. -/
theorem unlink [DecidableEq α] {n : α} (h : IsPath next prev x (xs ++ n :: ys) y)
    (hnodup : (x :: (xs ++ n :: ys)).Nodup) (hy : y ∉ xs ++ n :: ys) :
    ∃ p ∈ x :: xs, ∃ q ∈ y :: ys, prev n = some p ∧ next n = some q ∧
      IsPath (Function.update next p (some q)) (Function.update prev q (some p)) x (xs ++ ys)
        y := by
  induction xs generalizing x with
  | nil =>
    obtain ⟨-, hprev, hrest⟩ := h
    rw [List.nil_append, List.nodup_cons] at hnodup
    obtain ⟨hx, hnodup⟩ := hnodup
    refine ⟨x, List.mem_cons_self, ys.headD y, ?_, hprev, hrest.next_eq, ?_⟩
    · cases ys with
      | nil => exact List.mem_cons_self
      | cons z zs => simp
    · cases ys with
      | nil => exact ⟨Function.update_self .., Function.update_self ..⟩
      | cons z zs =>
        refine ⟨Function.update_self .., Function.update_self .., hrest.2.2.frame ?_ ?_⟩
        · intro a ha
          apply Function.update_of_ne
          rintro rfl
          exact hx (List.mem_cons_of_mem n ha)
        · intro a ha
          apply Function.update_of_ne
          rintro rfl
          obtain rfl | ha := List.mem_cons.mp ha
          · exact hy (by simp)
          · exact (List.nodup_cons.mp (List.nodup_cons.mp hnodup).2).1 ha
  | cons z zs ih =>
    obtain ⟨hnext, hprev, hrest⟩ := h
    rw [List.cons_append, List.nodup_cons] at hnodup
    obtain ⟨hx, hnodup⟩ := hnodup
    rw [List.cons_append, List.mem_cons, not_or] at hy
    obtain ⟨p, hp, q, hq, hpn, hnq, hpath⟩ := ih hrest hnodup hy.2
    have hxp : x ≠ p := by
      rintro rfl
      apply hx
      obtain rfl | hp := List.mem_cons.mp hp
      · exact List.mem_cons_self
      · exact List.mem_cons_of_mem z (List.mem_append_left _ hp)
    have hzq : z ≠ q := by
      rintro rfl
      obtain rfl | hq := List.mem_cons.mp hq
      · exact hy.1 rfl
      · exact (List.nodup_cons.mp hnodup).1 (List.mem_append_right _ (List.mem_cons_of_mem n hq))
    refine ⟨p, List.mem_cons_of_mem x hp, q, hq, hpn, hnq, ?_, ?_, hpath⟩
    · rw [Function.update_of_ne hxp]
      exact hnext
    · rw [Function.update_of_ne hzq]
      exact hprev

end IsPath

/-- A circular list through `head`, linked in both directions. -/
structure IsRing (next prev : α → Option α) (head : α) (xs : List α) : Prop where
  nodup : (head :: xs).Nodup
  path : IsPath next prev head xs head

namespace IsRing

theorem empty (hnext : next head = some head) (hprev : prev head = some head) :
    IsRing next prev head [] :=
  ⟨List.nodup_singleton head, hnext, hprev⟩

theorem head_notMem (h : IsRing next prev head xs) : head ∉ xs :=
  (List.nodup_cons.mp h.nodup).1

theorem nodup_tail (h : IsRing next prev head xs) : xs.Nodup :=
  (List.nodup_cons.mp h.nodup).2

/-- The links of the ring stay in it and are inverse to each other. -/
theorem inverse (h : IsRing next prev head xs) {a : α} (ha : a ∈ head :: xs) :
    (∃ b ∈ head :: xs, next a = some b ∧ prev b = some a) ∧
    ∃ b ∈ head :: xs, prev a = some b ∧ next b = some a :=
  ⟨h.path.next_inverse ha, h.path.prev_inverse ha⟩

/-- Writes to other nodes leave a ring. -/
theorem frame (h : IsRing next prev head xs) (hnext : ∀ a ∈ head :: xs, next' a = next a)
    (hprev : ∀ a ∈ head :: xs, prev' a = prev a) : IsRing next' prev' head xs :=
  ⟨h.nodup, h.path.frame hnext hprev⟩

variable [DecidableEq α]

/-- Linking a new node in behind `head`. -/
theorem insert {n first : α} (h : IsRing next prev head xs) (hn : n ∉ head :: xs)
    (hfirst : next head = some first) :
    IsRing (Function.update (Function.update next n (some first)) head (some n))
      (Function.update (Function.update prev n (some head)) first (some n)) head (n :: xs) := by
  rw [List.mem_cons, not_or] at hn
  obtain ⟨hnhead, hnxs⟩ := hn
  have hheadD := h.path.next_eq
  rw [hfirst] at hheadD
  obtain rfl := Option.some.inj hheadD
  constructor
  · have hnodup := h.nodup
    simp only [List.nodup_cons, List.mem_cons, not_or] at hnodup ⊢
    exact ⟨⟨Ne.symm hnhead, hnodup.1⟩, hnxs, hnodup.2⟩
  · cases xs with
    | nil => simp [IsPath, hnhead]
    | cons z zs =>
      obtain ⟨hhead, hzs⟩ := List.nodup_cons.mp h.nodup
      rw [List.mem_cons, not_or] at hnxs hhead
      have hz : z ∉ zs := (List.nodup_cons.mp hzs).1
      refine ⟨Function.update_self .., ?_, ?_, Function.update_self .., h.path.2.2.frame ?_ ?_⟩
      · rw [List.headD_cons, Function.update_of_ne hnxs.1, Function.update_self]
      · rw [List.headD_cons, Function.update_of_ne hnhead, Function.update_self]
      · intro a ha
        have hahead : a ≠ head := by
          rintro rfl
          obtain rfl | ha := List.mem_cons.mp ha
          · exact hhead.1 rfl
          · exact hhead.2 ha
        have han : a ≠ n := by
          rintro rfl
          obtain rfl | ha := List.mem_cons.mp ha
          · exact hnxs.1 rfl
          · exact hnxs.2 ha
        rw [Function.update_of_ne hahead, Function.update_of_ne han]
      · intro a ha
        have haz : a ≠ z := by
          rintro rfl
          obtain rfl | ha := List.mem_cons.mp ha
          · exact hhead.1 rfl
          · exact hz ha
        have han : a ≠ n := by
          rintro rfl
          obtain rfl | ha := List.mem_cons.mp ha
          · exact hnhead rfl
          · exact hnxs.2 ha
        rw [List.headD_cons, Function.update_of_ne haz, Function.update_of_ne han]

/-- Taking a node out, and pointing its own links elsewhere. -/
theorem erase {n : α} (h : IsRing next prev head xs) (hn : n ∈ xs) (value value' : Option α) :
    ∃ p q, prev n = some p ∧ next n = some q ∧
      IsRing (Function.update (Function.update next p (some q)) n value)
        (Function.update (Function.update prev q (some p)) n value') head (xs.erase n) := by
  have hout : n ∉ head :: xs.erase n := by
    rw [List.mem_cons, not_or]
    refine ⟨?_, h.nodup_tail.not_mem_erase⟩
    rintro rfl
    exact h.head_notMem hn
  obtain ⟨before, after, hbefore, rfl, herase⟩ := List.exists_erase_eq hn
  rw [herase] at hout ⊢
  obtain ⟨p, -, q, -, hp, hq, hpath⟩ := h.path.unlink h.nodup h.head_notMem
  have hring : IsRing (Function.update next p (some q)) (Function.update prev q (some p)) head
      (before ++ after) :=
    ⟨h.nodup.sublist (List.Sublist.cons_cons head
      ((List.sublist_cons_self n after).append_left before)), hpath⟩
  have hne : ∀ a ∈ head :: (before ++ after), a ≠ n := by
    rintro a ha rfl
    exact hout ha
  exact ⟨p, q, hp, hq, hring.frame (fun a ha => Function.update_of_ne (hne a ha) ..)
    fun a ha => Function.update_of_ne (hne a ha) ..⟩

end IsRing

end linked
