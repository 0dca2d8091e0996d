import Mathlib.Data.Prod.Lex
import Mathlib.Order.WellFounded
import Ordinum.Interleaving.Census

namespace interleaving

variable {Tid Act Shared Local : Type*} [DecidableEq Tid]

/-- A step changes a sum over the threads by what it changes at the stepping thread, if
the others count for as much in the memory after it. -/
theorem Config.sum_step [Fintype Tid] (weight : Tid → Shared → Local → Nat)
    (c : Config Tid Shared Local) {t : Tid} {r : Shared × Local}
    (hother : ∀ u, u ≠ t → weight u r.1 (c.threads u) = weight u c.shared (c.threads u)) :
    ∑ u, weight u r.1 ((c.move t r).threads u) + weight t c.shared (c.threads t) =
      ∑ u, weight u c.shared (c.threads u) + weight t r.1 r.2 := by
  have hrest : ∑ u ∈ Finset.univ.erase t, weight u r.1 ((c.move t r).threads u) =
      ∑ u ∈ Finset.univ.erase t, weight u c.shared (c.threads u) := by
    refine Finset.sum_congr rfl fun u hu => ?_
    rw [c.move_threads_of_ne r (Finset.ne_of_mem_erase hu)]
    exact hother u (Finset.ne_of_mem_erase hu)
  have hafter := Finset.add_sum_erase Finset.univ
    (fun u => weight u r.1 ((c.move t r).threads u)) (Finset.mem_univ t)
  have hbefore := Finset.add_sum_erase Finset.univ (fun u => weight u c.shared (c.threads u))
    (Finset.mem_univ t)
  simp only [Config.move_threads_self] at hafter
  omega

theorem Config.total_step [Fintype Tid] (weight : Shared → Local → Nat)
    (c : Config Tid Shared Local) {t : Tid} {r : Shared × Local}
    (hother : ∀ u, u ≠ t → weight r.1 (c.threads u) = weight c.shared (c.threads u)) :
    (c.move t r).total (weight r.1) + weight c.shared (c.threads t) =
      c.total (weight c.shared) + weight r.1 r.2 :=
  c.sum_step (fun _ => weight) hother

/-- What is left to do, in the order of importance: later parts count where the
earlier ones are equal. -/
abbrev Left := Nat ×ₗ Nat ×ₗ Nat

def Left.of (first second third : Nat) : Left := toLex (first, toLex (second, third))

theorem Left.of_lt {a b c a' b' c' : Nat}
    (h : a < a' ∨ a = a' ∧ (b < b' ∨ b = b' ∧ c < c')) : Left.of a b c < Left.of a' b' c' := by
  simp only [Left.of, Prod.Lex.toLex_lt_toLex]
  exact h

namespace System

variable {sys : System Tid Act Shared Local} {G H : StepCondition Tid Act Shared Local}

/-- An endless run with its schedule. -/
structure Endless (sys : System Tid Act Shared Local) (G : StepCondition Tid Act Shared Local)
    (run : Nat → Config Tid Shared Local) (schedule : Nat → Tid × Act) : Prop where
  start : sys.ReachableUnder G (run 0)
  condition : ∀ n, G (schedule n).1 (schedule n).2 (run n).shared ((run n).threads (schedule n).1)
  fires : ∀ n, sys.fire (run n) (schedule n) = some (run (n + 1))

theorem Endless.step {run : Nat → Config Tid Shared Local} {schedule : Nat → Tid × Act}
    (h : sys.Endless G run schedule) (n : Nat) : ∃ r,
      sys.step (schedule n).1 (schedule n).2 (run n).shared ((run n).threads (schedule n).1) =
        some r ∧ run (n + 1) = (run n).move (schedule n).1 r := by
  obtain ⟨r, hr, hnext⟩ := Option.map_eq_some_iff.mp (h.fires n)
  exact ⟨r, hr, hnext.symm⟩

theorem Endless.reachable {run : Nat → Config Tid Shared Local} {schedule : Nat → Tid × Act}
    (h : sys.Endless G run schedule) (n : Nat) : sys.ReachableUnder G (run n) := by
  induction n with
  | zero => exact h.start
  | succ n ih =>
    obtain ⟨r, hr, hnext⟩ := h.step n
    exact ih.tail ⟨_, _, r, h.condition n, hr, hnext⟩

end System

/-- What never grows shrinks only for a while. -/
theorem shrinks_finitely_often {α : Type*} [Preorder α] [WellFoundedLT α] (left : Nat → α)
    (hle : ∀ n, left (n + 1) ≤ left n) : ∃ n, ∀ m, n ≤ m → ¬ left (m + 1) < left m := by
  obtain ⟨-, ⟨n, rfl⟩, hleast⟩ :=
    wellFounded_lt.has_min (Set.range left) ⟨left 0, 0, rfl⟩
  refine ⟨n, fun m hm hless => hleast (left (m + 1)) ⟨m + 1, rfl⟩ (hless.trans_le ?_)⟩
  exact antitone_nat_of_succ_le hle hm

/-- Where every step of a run that is calm and returns from no call leaves less to do,
calls return again and again once the run stays calm. -/
theorem returns_often {α : Type*} [Preorder α] [WellFoundedLT α] (left : Nat → α)
    {calm returns : Nat → Prop}
    (hless : ∀ n, calm n → ¬ returns n → left (n + 1) < left n)
    (hcalm : ∃ n, ∀ m, n ≤ m → calm m) (n : Nat) : ∃ m, n ≤ m ∧ returns m := by
  obtain ⟨start, hstart⟩ := hcalm
  by_contra hnone
  have hforward : ∀ k, left (n + start + k + 1) < left (n + start + k) := by
    intro k
    apply hless _ (hstart _ (by omega))
    intro hreturns
    exact hnone ⟨n + start + k, by omega, hreturns⟩
  obtain ⟨k, hk⟩ := shrinks_finitely_often (fun k => left (n + start + k)) fun k =>
    (hforward k).le
  exact hk k le_rfl (hforward k)

end interleaving
