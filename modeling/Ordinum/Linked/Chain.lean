import Mathlib.Data.List.Nodup
import Mathlib.Logic.Function.Basic

namespace linked

variable {α : Type*} {next : α → Option α} {start : Option α}

/-- The nodes met from `start` along `next`, up to the end of the chain. -/
def IsChain (next : α → Option α) : Option α → List α → Prop
  | start, [] => start = none
  | start, x :: xs => start = some x ∧ IsChain next (next x) xs

@[simp] theorem isChain_nil : IsChain next start [] ↔ start = none := Iff.rfl

@[simp] theorem isChain_cons {x : α} {xs : List α} :
    IsChain next start (x :: xs) ↔ start = some x ∧ IsChain next (next x) xs := Iff.rfl

namespace IsChain

/-- The memory determines the chain. -/
theorem unique {xs ys : List α} (hxs : IsChain next start xs) (hys : IsChain next start ys) :
    xs = ys := by
  induction xs generalizing start ys with
  | nil =>
    cases ys with
    | nil => rfl
    | cons y ys =>
      rw [isChain_nil.mp hxs] at hys
      cases hys.1
  | cons x xs ih =>
    cases ys with
    | nil =>
      rw [isChain_nil.mp hys] at hxs
      cases hxs.1
    | cons y ys =>
      obtain rfl : x = y := Option.some.inj (hxs.1.symm.trans hys.1)
      rw [ih hxs.2 hys.2]

theorem head? {xs : List α} (h : IsChain next start xs) : start = xs.head? := by
  cases xs with
  | nil => exact h
  | cons x xs => exact h.1

/-- What follows a node of the chain. -/
theorem tail {xs ys : List α} {p : α} (h : IsChain next start (xs ++ p :: ys)) :
    IsChain next (next p) ys := by
  induction xs generalizing start with
  | nil => exact h.2
  | cons x xs ih => exact ih h.2

/-- A later part of the chain. -/
theorem suffix {xs ys : List α} (h : IsChain next start (xs ++ ys)) :
    IsChain next ys.head? ys := by
  induction xs generalizing start with
  | nil => exact h.head? ▸ h
  | cons x xs ih => exact ih h.2

/-- A chain that ends meets no node twice. -/
theorem nodup {xs : List α} (h : IsChain next start xs) : xs.Nodup := by
  induction xs generalizing start with
  | nil => exact List.nodup_nil
  | cons x xs ih =>
    refine List.nodup_cons.mpr ⟨?_, ih h.2⟩
    intro hmem
    obtain ⟨before, after, rfl⟩ := List.append_of_mem hmem
    have hsame := congrArg List.length (unique h.2 (tail h.2))
    simp at hsame
    omega

/-- Writes to other nodes do not change a chain. -/
theorem frame {next' : α → Option α} {xs : List α} (h : IsChain next start xs)
    (hsame : ∀ x ∈ xs, next' x = next x) : IsChain next' start xs := by
  induction xs generalizing start with
  | nil => exact h
  | cons x xs ih =>
    refine ⟨h.1, ?_⟩
    rw [hsame x List.mem_cons_self]
    exact ih h.2 fun y hy => hsame y (List.mem_cons_of_mem x hy)

/-- A node that points to the successor of `p` is linked in after `p`. -/
theorem insert [DecidableEq α] (xs : List α) {ys : List α} {p n : α}
    (h : IsChain next start (xs ++ p :: ys)) (hn : n ∉ xs ++ p :: ys) (hnext : next n = next p) :
    IsChain (Function.update next p (some n)) start (xs ++ p :: n :: ys) := by
  have hnodup := h.nodup
  induction xs generalizing start with
  | nil =>
    have hp : p ∉ ys := (List.nodup_cons.mp hnodup).1
    have hne : n ≠ p := fun heq => hn (heq ▸ List.mem_cons_self)
    refine ⟨h.1, Function.update_self .., ?_⟩
    rw [Function.update_of_ne hne, hnext]
    refine h.2.frame fun y hy => Function.update_of_ne ?_ ..
    rintro rfl
    exact hp hy
  | cons x xs ih =>
    rw [List.cons_append, List.nodup_cons] at hnodup
    have hne : x ≠ p := by
      rintro rfl
      exact hnodup.1 (by simp)
    refine ⟨h.1, ?_⟩
    rw [Function.update_of_ne hne]
    exact ih h.2 (fun hmem => hn (List.mem_cons_of_mem x hmem)) hnodup.2

end IsChain

end linked
