import Ordinum.Db.BatchPool.Ownership
import Ordinum.Interleaving.History

open interleaving
open interleaving.System
open ordinum.batch

namespace ordinum.batch_pool

variable {P : PoolParams} {Tid : Type} [DecidableEq Tid]

/-- What `release` does to a batch before it stores it: the batch that is left, and
what its buffer is passed to `shrink_to` with, if it is. -/
def reset_and_shrink (inner : BatchInner) : Option (BatchInner × Option Nat) :=
  inner.reset_batch.map fun inner =>
    let len := inner.get_batch_size
    (inner, if DEFAULT_BATCH_INIT_SIZE * 2 ≤ len then some DEFAULT_BATCH_INIT_SIZE else none)

/-- The first section of `release` in the pool. -/
theorem call_step_reset (s : PoolShared) (cache : ThreadBatchCache) (batch : BatchPtr) :
    call_step P s cache (.reset batch) =
      match reset_and_shrink (s.heap batch) with
      | some (inner, _) => (s.set_inner batch inner, cache, .push batch)
      | none => (s.drop batch, cache, .idle) := by
  rw [call_step, reset_and_shrink]
  cases (s.heap batch).reset_batch with
  | none => rfl
  | some inner => rfl

/-- A batch that is about to be stored (history): as it was when `release` was
called, and what its buffer was passed to `shrink_to` with. -/
structure Release where
  batch : BatchPtr
  called : BatchInner
  shrunk : Option Nat
  deriving DecidableEq

/-- A call keeps in mind the batch that it is called with, until that is reset. -/
def record_release :
    Record Tid PoolAct PoolShared PoolThread (List Release) BatchInner :=
  fun _ _ s l r releases called =>
    match l.pc, r.2.pc with
    | .reset batch, _ =>
      (releases ++ ((reset_and_shrink (s.heap batch)).map fun left =>
        { batch, called, shrunk := left.2 }).toList, called)
    | _, .reset batch => (releases, r.1.heap batch)
    | _, _ => (releases, called)

variable (P Tid) in
/-- The pool with the history of its releases. -/
def release_system : System Tid PoolAct (PoolShared × List Release) (PoolThread × BatchInner) :=
  (pool_system P Tid).with_history [] .new record_release

/-- By the time its size is read the batch is empty. -/
theorem reset_and_shrink_never {inner : BatchInner} {left : BatchInner × Option Nat}
    (h : reset_and_shrink inner = some left) : left.2 = none := by
  obtain ⟨reset, hreset, rfl⟩ := Option.map_eq_some_iff.mp h
  have hempty : reset.get_batch_size = 0 := by
    rw [BatchInner.reset_batch_spec hreset]
    rfl
  have hsmall : ¬ DEFAULT_BATCH_INIT_SIZE * 2 ≤ reset.get_batch_size := by
    rw [hempty]
    decide
  exact if_neg hsmall

omit [DecidableEq Tid] in
theorem record_release_never {t : Tid} {a : PoolAct} {s : PoolShared} {l : PoolThread}
    {q : PoolShared × PoolThread} {releases : List Release} {called : BatchInner}
    (hall : ∀ r ∈ releases, r.shrunk = none) :
    ∀ r ∈ (record_release t a s l q releases called).1, r.shrunk = none := by
  unfold record_release
  split
  · intro r hr
    obtain hr | hr := List.mem_append.mp hr
    · exact hall r hr
    · rw [Option.mem_toList] at hr
      obtain ⟨left, hleft, rfl⟩ := Option.map_eq_some_iff.mp hr
      exact reset_and_shrink_never hleft
  · exact hall
  · exact hall

variable {c : Config Tid (PoolShared × List Release) (PoolThread × BatchInner)}

theorem never_shrunk (hc : (release_system P Tid).ReachableUnder (forgetful anyStep) c) :
    ∀ r ∈ c.shared.2, r.shrunk = none := by
  refine ReachableUnder.history_induction (P := fun c => ∀ r ∈ c.shared.2, r.shrunk = none)
    (fun r hr => absurd hr List.not_mem_nil) ?_ hc
  intro c t a r _ hall _ _
  exact record_release_never hall

/-- In every run the batches that were large when they were released are shrunk
exactly if there are none. -/
theorem large_batches_shrunk_iff
    (hc : (release_system P Tid).ReachableUnder (forgetful anyStep) c) :
    (∀ r ∈ c.shared.2, DEFAULT_BATCH_INIT_SIZE * 2 ≤ r.called.get_batch_size →
      r.shrunk = some DEFAULT_BATCH_INIT_SIZE) ↔
    ∀ r ∈ c.shared.2, r.called.get_batch_size < DEFAULT_BATCH_INIT_SIZE * 2 := by
  constructor
  · intro hshrunk r hr
    by_contra hlarge
    have hsome := hshrunk r hr (Nat.le_of_not_lt hlarge)
    rw [never_shrunk hc r hr] at hsome
    cases hsome
  · intro hsmall r hr hlarge
    exact absurd (hsmall r hr) (Nat.not_lt.mpr hlarge)

/-- One thread acquires a batch, puts a record with a value of this length into it
and releases it. -/
def put_and_release (value_len : Nat) : List (Unit × PoolAct) :=
  (((), .acquire_object) :: List.replicate 7 ((), .step)) ++
    ((), .put 0 [1#8] (List.replicate value_len 2#8)) ::
    ((), .release { batch := 0, is_sealed := false }) :: List.replicate 2 ((), .step)

theorem large_batches_shrunk_iff_small :
    ∃ c, (release_system tiny_pool Unit).ReachableUnder (forgetful anyStep) c ∧
      c.shared.2.map (fun r => r.called.get_batch_size) = [28] ∧
      ((∀ r ∈ c.shared.2, DEFAULT_BATCH_INIT_SIZE * 2 ≤ r.called.get_batch_size →
        r.shrunk = some DEFAULT_BATCH_INIT_SIZE) ↔
      ∀ r ∈ c.shared.2, r.called.get_batch_size < DEFAULT_BATCH_INIT_SIZE * 2) := by
  obtain ⟨c, hc, hseen⟩ := reachable_showing (release_system tiny_pool Unit) (forgetful anyStep)
    (put_and_release 4) (fun c => c.shared.2.map fun r => r.called.get_batch_size) [28]
    (by decide +kernel)
  exact ⟨c, hc, hseen, large_batches_shrunk_iff hc⟩

/-- A batch of more than two thousand bytes goes back into the cache as it is. -/
theorem large_batch_not_shrunk :
    ∃ c, (release_system tiny_pool Unit).ReachableUnder (forgetful anyStep) c ∧
      ((c.threads ()).1.pc = .idle ∧ (c.threads ()).1.cache_or_new.batches.slots 0 = some 0) ∧
      ¬ ∀ r ∈ c.shared.2, DEFAULT_BATCH_INIT_SIZE * 2 ≤ r.called.get_batch_size →
        r.shrunk = some DEFAULT_BATCH_INIT_SIZE := by
  obtain ⟨c, hc, hseen⟩ := reachable_showing (release_system tiny_pool Unit) (forgetful anyStep)
    (put_and_release 2100) (fun c => ((c.threads ()).1.pc,
      (c.threads ()).1.cache_or_new.batches.slots 0,
      c.shared.2.map fun r => (r.called.get_batch_size, r.shrunk)))
    (.idle, some 0, [(2125, none)]) (by decide +kernel)
  simp only [Prod.mk.injEq] at hseen
  obtain ⟨hidle, hslot, hlog⟩ := hseen
  refine ⟨c, hc, ⟨hidle, hslot⟩, fun hshrunk => ?_⟩
  have hmem : ((2125, none) : Nat × Option Nat) ∈
      c.shared.2.map fun r => (r.called.get_batch_size, r.shrunk) := by
    rw [hlog]
    exact List.mem_singleton_self _
  obtain ⟨r, hr, heq⟩ := List.mem_map.mp hmem
  simp only [Prod.mk.injEq] at heq
  obtain ⟨hsize, hnone⟩ := heq
  have hsome := hshrunk r hr (by rw [hsize]; decide)
  rw [hnone] at hsome
  cases hsome

end ordinum.batch_pool
