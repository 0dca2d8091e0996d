import Mathlib.Algebra.BigOperators.Group.Finset.Piecewise
import Mathlib.Algebra.Order.BigOperators.Group.Finset
import Mathlib.Data.Fintype.Basic
import Ordinum.Interleaving.System

namespace interleaving

variable {Tid Shared Local : Type*} [Fintype Tid]

/-- The total over all threads of what each thread's local state counts for. -/
def Config.total (weight : Local → Nat) (c : Config Tid Shared Local) : Nat :=
  ∑ t, weight (c.threads t)

variable (weight : Local → Nat) (c : Config Tid Shared Local)

theorem Config.le_total (t : Tid) : weight (c.threads t) ≤ c.total weight :=
  Finset.single_le_sum (f := fun t => weight (c.threads t)) (fun _ _ => Nat.zero_le _)
    (Finset.mem_univ t)

/-- Threads that each count for one at least count for as many as they are. -/
theorem Config.length_le_total {weight : Local → Nat} {ts : List Tid} (hnodup : ts.Nodup)
    (hpos : ∀ t ∈ ts, 0 < weight (c.threads t)) : ts.length ≤ c.total weight := by
  classical
  have hsubset : ∑ t ∈ ts.toFinset, weight (c.threads t) ≤ c.total weight :=
    Finset.sum_le_sum_of_subset (Finset.subset_univ _)
  have hones : ∑ _t ∈ ts.toFinset, 1 ≤ ∑ t ∈ ts.toFinset, weight (c.threads t) :=
    Finset.sum_le_sum fun t ht => hpos t (List.mem_toFinset.mp ht)
  rw [← Finset.card_eq_sum_ones, List.toFinset_card_of_nodup hnodup] at hones
  exact hones.trans hsubset

theorem Config.total_add (f g : Local → Nat) :
    c.total (fun l => f l + g l) = c.total f + c.total g :=
  Finset.sum_add_distrib

/-- A total of zero is a zero of every thread. -/
theorem Config.total_eq_zero {weight : Local → Nat} :
    c.total weight = 0 ↔ ∀ t, weight (c.threads t) = 0 := by
  simp [Config.total]

theorem System.total_init {Act : Type*} {weight : Local → Nat} (sys : System Tid Act Shared Local)
    (hzero : weight sys.local₀ = 0) : sys.init.total weight = 0 :=
  sys.init.total_eq_zero.mpr fun _ => hzero

variable [DecidableEq Tid]

/-- A step changes the total by what it changes at the stepping thread. -/
theorem Config.total_move (t : Tid) (r : Shared × Local) :
    (c.move t r).total weight + weight (c.threads t) = c.total weight + weight r.2 := by
  have hrest : ∑ u ∈ Finset.univ.erase t, weight ((c.move t r).threads u) =
      ∑ u ∈ Finset.univ.erase t, weight (c.threads u) :=
    Finset.sum_congr rfl fun u hu => by rw [c.move_threads_of_ne r (Finset.ne_of_mem_erase hu)]
  have hafter := Finset.add_sum_erase Finset.univ
    (fun u => weight ((c.move t r).threads u)) (Finset.mem_univ t)
  have hbefore := Finset.add_sum_erase Finset.univ
    (fun u => weight (c.threads u)) (Finset.mem_univ t)
  simp only [Config.move_threads_self] at hafter
  simp only [Config.total]
  omega

/-- What the shared memory and the threads count for together is kept by a step
that moves it between its thread and the memory. -/
theorem Config.total_balance (count : Shared → Nat) {t : Tid} {r : Shared × Local}
    (hstep : count r.1 + weight r.2 = count c.shared + weight (c.threads t)) :
    count (c.move t r).shared + (c.move t r).total weight =
      count c.shared + c.total weight := by
  have hmove := c.total_move weight t r
  simp only [Config.move_shared]
  omega

/-- A machine counter does not tell a count from one that is larger by a multiple
of its range. -/
theorem ofNat_add_eq_iff (m n : Nat) :
    BitVec.ofNat 64 (m + n) = BitVec.ofNat 64 m ↔ n % 2 ^ 64 = 0 := by
  rw [← BitVec.toNat_inj, BitVec.toNat_ofNat, BitVec.toNat_ofNat]
  omega

end interleaving
