import Mathlib.Data.List.Basic

namespace linked

variable {α : Type*} {R : α → α → Prop} {xs : List α} {p : α → Bool}

/-- In a list that ascends strictly, what is taken while `p` holds are the elements that
have `p` along with all before them. -/
theorem mem_takeWhile_iff (hasymm : ∀ x y, R x y → ¬ R y x)
    (hsorted : xs.Pairwise R) {x : α} :
    x ∈ xs.takeWhile p ↔ x ∈ xs ∧ p x ∧ ∀ y ∈ xs, R y x → p y := by
  induction xs with
  | nil => simp
  | cons a xs ih =>
    obtain ⟨hfirst, hrest⟩ := List.pairwise_cons.mp hsorted
    cases hp : p a with
    | false =>
      rw [List.takeWhile_cons_of_neg (by simp [hp])]
      refine ⟨fun h => absurd h List.not_mem_nil, ?_⟩
      rintro ⟨hx, hpx, hbefore⟩
      obtain rfl | hx := List.mem_cons.mp hx
      · cases hp.symm.trans hpx
      · cases hp.symm.trans (hbefore a List.mem_cons_self (hfirst x hx))
    | true =>
      rw [List.takeWhile_cons_of_pos hp, List.mem_cons, ih hrest, List.mem_cons]
      constructor
      · rintro (rfl | ⟨hx, hpx, hbefore⟩)
        · refine ⟨.inl rfl, hp, fun y hy hlt => ?_⟩
          obtain rfl | hy := List.mem_cons.mp hy
          · exact hp
          · exact absurd (hfirst y hy) (hasymm y x hlt)
        · refine ⟨.inr hx, hpx, fun y hy hlt => ?_⟩
          obtain rfl | hy := List.mem_cons.mp hy
          · exact hp
          · exact hbefore y hy hlt
      · rintro ⟨rfl | hx, hpx, hbefore⟩
        · exact .inl rfl
        · exact .inr ⟨hx, hpx, fun y hy hlt => hbefore y (List.mem_cons_of_mem a hy) hlt⟩

/-- What is dropped while `p` holds, where `p` does not come back. -/
theorem mem_dropWhile_iff (hclosed : ∀ x y, R x y → p y → p x) (hsorted : xs.Pairwise R) {x : α} :
    x ∈ xs.dropWhile p ↔ x ∈ xs ∧ ¬ p x := by
  induction xs with
  | nil => simp
  | cons a xs ih =>
    obtain ⟨hfirst, hrest⟩ := List.pairwise_cons.mp hsorted
    by_cases hp : p a
    · rw [List.dropWhile_cons_of_pos hp, ih hrest, List.mem_cons]
      constructor
      · exact fun ⟨hx, hnot⟩ => ⟨.inr hx, hnot⟩
      · rintro ⟨rfl | hx, hnot⟩
        · exact absurd hp hnot
        · exact ⟨hx, hnot⟩
    · rw [List.dropWhile_cons_of_neg hp]
      refine ⟨fun hx => ⟨hx, fun hpx => ?_⟩, And.left⟩
      obtain rfl | hx := List.mem_cons.mp hx
      · exact hp hpx
      · exact hp (hclosed a x (hfirst x hx) hpx)

/-- An element without `p` has a first one before it, or is that itself. -/
theorem exists_first_not (hasymm : ∀ x y, R x y → ¬ R y x) (hsorted : xs.Pairwise R) {x : α}
    (hx : x ∈ xs) (hp : p x = false) :
    ∃ y ∈ xs, p y = false ∧ (y = x ∨ R y x) ∧ ∀ z ∈ xs, R z y → p z := by
  induction xs with
  | nil => exact absurd hx List.not_mem_nil
  | cons a xs ih =>
    obtain ⟨hfirst, hrest⟩ := List.pairwise_cons.mp hsorted
    cases ha : p a with
    | false =>
      refine ⟨a, List.mem_cons_self, ha, ?_, fun z hz hlt => ?_⟩
      · obtain rfl | hx := List.mem_cons.mp hx
        · exact .inl rfl
        · exact .inr (hfirst x hx)
      · obtain rfl | hz := List.mem_cons.mp hz
        · exact absurd hlt (hasymm _ _ hlt)
        · exact absurd hlt (hasymm _ _ (hfirst z hz))
    | true =>
      obtain rfl | hx := List.mem_cons.mp hx
      · cases ha.symm.trans hp
      · obtain ⟨y, hy, hpy, hyx, hbefore⟩ := ih hrest hx
        refine ⟨y, List.mem_cons_of_mem a hy, hpy, hyx, fun z hz hlt => ?_⟩
        obtain rfl | hz := List.mem_cons.mp hz
        · exact ha
        · exact hbefore z hz hlt

end linked
