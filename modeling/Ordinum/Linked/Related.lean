import Mathlib.Data.List.Forall2
import Ordinum.Linked.Chain

namespace linked

variable {α β : Type*} {R : α → β → Prop} {xs : List α} {ys : List β}

theorem exists_related_left (h : List.Forall₂ R xs ys) {y : β} (hy : y ∈ ys) :
    ∃ x ∈ xs, R x y := by
  induction h with
  | nil => cases hy
  | @cons x y' xs ys hxy _ ih =>
    obtain rfl | hy := List.mem_cons.mp hy
    · exact ⟨x, List.mem_cons_self .., hxy⟩
    · obtain ⟨x', hx', hR⟩ := ih hy
      exact ⟨x', List.mem_cons_of_mem x hx', hR⟩

theorem exists_related_right (h : List.Forall₂ R xs ys) {x : α} (hx : x ∈ xs) :
    ∃ y ∈ ys, R x y :=
  exists_related_left (R := fun b a => R a b) (List.Forall₂.flip h) hx

/-- The order of a list is that of the related one. -/
theorem pairwise_related {P : α → α → Prop} {Q : β → β → Prop}
    (himp : ∀ a b a' b', R a a' → R b b' → P a b → Q a' b') (h : List.Forall₂ R xs ys)
    (hxs : xs.Pairwise P) : ys.Pairwise Q := by
  induction h with
  | nil => exact .nil
  | @cons a a' xs ys ha hrest ih =>
    obtain ⟨hfirst, hxs⟩ := List.pairwise_cons.mp hxs
    refine List.pairwise_cons.mpr ⟨?_, ih hxs⟩
    intro b' hb'
    obtain ⟨b, hb, hR⟩ := exists_related_left hrest hb'
    exact himp _ _ _ _ ha hR (hfirst b hb)

/-- A chain is met again along related links. -/
theorem IsChain.related {next : α → Option α} {start : Option α} {next' : β → Option β}
    {start' : Option β} {xs : List α} (h : IsChain next start xs)
    (hstart : Option.Rel R start start')
    (hnext : ∀ a b, a ∈ xs → R a b → Option.Rel R (next a) (next' b)) :
    ∃ ys, List.Forall₂ R xs ys ∧ IsChain next' start' ys := by
  induction xs generalizing start start' with
  | nil =>
    rw [isChain_nil.mp h] at hstart
    cases hstart
    exact ⟨[], .nil, rfl⟩
  | cons x xs ih =>
    obtain ⟨rfl, hrest⟩ := h
    cases hstart with
    | @some _ y hxy =>
      obtain ⟨ys, hys, hchain⟩ := ih hrest (hnext x y (List.mem_cons_self ..) hxy) fun a b ha =>
        hnext a b (List.mem_cons_of_mem x ha)
      exact ⟨y :: ys, .cons hxy hys, rfl, hchain⟩

end linked
