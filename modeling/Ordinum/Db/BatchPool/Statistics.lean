import Ordinum.Db.BatchPool.Ownership
import Ordinum.Interleaving.Census
import Ordinum.Interleaving.History

open init_stack
open interleaving
open interleaving.System
open ordinum.batch

namespace ordinum.batch_pool

variable {P : PoolParams} {Tid : Type} [DecidableEq Tid]

/-- The callers acquire and release and use what they hold; no thread exits. -/
def acquires_and_releases : StepCondition Tid PoolAct PoolShared PoolThread := fun _ a _ _ =>
  match a with
  | .exit | .reset _ | .close _ | .drop _ => False
  | _ => True

instance (t : Tid) (a : PoolAct) (s : PoolShared) (l : PoolThread) :
    Decidable (acquires_and_releases t a s l) := by
  unfold acquires_and_releases
  split <;> infer_instance

variable (P) in
/-- One for a step that takes a batch out of circulation: a spilled batch that finds
its shard full, or a call that panics and lets go of its batch. -/
def loses (a : PoolAct) (s : PoolShared) (pc : PoolPc) : Nat :=
  match a, pc with
  | .step, .push_to_global shard_idx _ _ =>
    if (s.pool shard_idx).len = P.MAX_BATCH_PER_SHARD then 1 else 0
  | .step, .reset batch => if (s.heap batch).runtime_commit_state.is_reset_safe then 0 else 1
  | .put batch key value, .idle =>
    if ((BatchInner.put DEFAULT_CF_ID key value).run.run (s.heap batch)).isSome then 0 else 1
  | _, _ => 0

variable (P Tid) in
/-- The pool with the number of batches lost. -/
def loss_system : System Tid PoolAct (PoolShared × Nat) (PoolThread × Unit) :=
  (pool_system P Tid).with_history 0 () fun _ a s l _ lost _ => (lost + loses P a s l.pc, ())

/-- Allocations of a refill that the statistics do not have yet. -/
def PoolPc.unrecorded : PoolPc → Nat
  | .hydrate refill | .hydrate_push refill _ | .update_stats refill => refill.allocated
  | _ => 0

/-- What a step does to the counts: the statistics get an allocation some time after
it was made, and never hear of a drop. -/
structure Counts (s : PoolShared) (pc : PoolPc) (s' : PoolShared) (pc' : PoolPc) (lost : Nat) :
    Prop where
  batches_dropped : s'.stats.batches_dropped = s.stats.batches_dropped
  allocations : ∃ recorded, s'.stats.allocations = s.stats.allocations + BitVec.ofNat 64 recorded ∧
    recorded + pc'.unrecorded + s.allocated = pc.unrecorded + s'.allocated
  dropped : s'.dropped.length = s.dropped.length + lost

section steps

variable {s s' : PoolShared} {cache : ThreadBatchCache} {pc pc' : PoolPc} {lost : Nat}

theorem Counts.of_same (hstats : s'.stats = s.stats) (hallocated : s'.allocated = s.allocated)
    (hunrecorded : pc'.unrecorded = pc.unrecorded)
    (hdropped : s'.dropped.length = s.dropped.length + lost) : Counts s pc s' pc' lost where
  batches_dropped := by rw [hstats]
  allocations := by
    refine ⟨0, ?_, by omega⟩
    rw [hstats]
    exact (BitVec.add_zero _).symm
  dropped := hdropped

/-- A reset fails outside the reset-safe states. -/
theorem reset_batch_cases (inner : BatchInner) :
    (inner.runtime_commit_state.is_reset_safe = true ∧ ∃ left, inner.reset_batch = some left) ∨
    (inner.runtime_commit_state.is_reset_safe = false ∧ inner.reset_batch = none) := by
  cases hsafe : inner.runtime_commit_state.is_reset_safe with
  | true =>
    left
    refine ⟨rfl, ?_⟩
    simp [BatchInner.reset_batch, BatchInner.clear, hsafe]
  | false =>
    right
    refine ⟨rfl, ?_⟩
    simp [BatchInner.reset_batch, hsafe]

/-- A shard refuses a batch when it is full. -/
theorem shard_push_cases (hs : s.Shaped P) {shard_idx : Nat} (hidx : shard_idx < P.SHARDS_PER_POOL)
    (batch : BatchPtr) :
    ((s.pool shard_idx).len = P.MAX_BATCH_PER_SHARD ∧
      shard_push P s shard_idx batch = some (.error batch)) ∨
    ((s.pool shard_idx).len ≠ P.MAX_BATCH_PER_SHARD ∧
      ∃ s', shard_push P s shard_idx batch = some (.ok s')) := by
  rcases InitStack.push_spec (hs shard_idx) P.shard_le batch with ⟨hfull, hpush⟩ |
    ⟨hroom, shard, hpush, -⟩
  · exact .inl ⟨hfull, by rw [shard_push, if_pos hidx, hpush]; rfl⟩
  · exact .inr ⟨hroom.ne, _, by rw [shard_push, if_pos hidx, hpush]; rfl⟩

theorem call_step_counts (hs : s.Shaped P) (hcache : cache.Shaped P) (hpc : pc.At P cache) :
    Counts s pc (call_step P s cache pc).1 (call_step P s cache pc).2.2 (loses P .step s pc) := by
  cases pc with
  | idle | return_acquired => exact .of_same rfl rfl rfl rfl
  | panicked => exact hpc.elim
  | try_acquire_from_tls =>
    obtain ⟨_, hpop⟩ | ⟨batch, batches, hpop, _⟩ := cache_pop_spec hcache
    · simp only [call_step, hpop]
      exact .of_same rfl rfl rfl rfl
    · simp only [call_step, hpop]
      exact .of_same rfl rfl rfl rfl
  | refill_shard_idx | release_shard_idx =>
    obtain ⟨shard_idx, next_shard, cached, hstep, -⟩ := shard_idx_for_cache_spec s hcache
    simp only [call_step, hstep]
    exact .of_same rfl rfl rfl rfl
  | refill_pop shard_idx =>
    obtain hpop | ⟨batch, shard, hpop, _⟩ := shard_pop_spec hs hpc
    · simp only [call_step, hpop]
      exact .of_same rfl rfl rfl rfl
    · simp only [call_step, hpop]
      exact .of_same rfl rfl rfl rfl
  | allocate shard_idx =>
    refine ⟨rfl, ⟨0, (BitVec.add_zero _).symm, ?_⟩, rfl⟩
    change 0 + 1 + s.allocated = 0 + (s.allocated + 1)
    omega
  | hydrate refill =>
    by_cases hroom : cache.batches.len < P.TLS_CAP / 2
    · obtain hpop | ⟨batch, shard, hpop, _⟩ := shard_pop_spec hs hpc
      · simp only [call_step, if_pos hroom, hpop]
        exact .of_same rfl rfl rfl rfl
      · simp only [call_step, if_pos hroom, hpop]
        exact .of_same rfl rfl rfl rfl
    · simp only [call_step, if_neg hroom]
      exact .of_same rfl rfl rfl rfl
  | hydrate_push refill batch =>
    -- the loop condition leaves room in the cache, so that no batch is lost here
    obtain ⟨hfull, _⟩ | ⟨_, cache', hpush, _⟩ := cache_push_spec s hcache batch
    · exact absurd hpc.2 (by omega)
    · simp only [call_step, hpush]
      exact .of_same rfl rfl rfl rfl
  | update_stats refill =>
    refine ⟨rfl, ⟨refill.allocated, rfl, ?_⟩, rfl⟩
    change refill.allocated + 0 + s.allocated = refill.allocated + s.allocated
    omega
  | reset batch =>
    obtain ⟨hsafe, left, hreset⟩ | ⟨hbroken, hreset⟩ := reset_batch_cases (s.heap batch)
    · simp only [call_step, hreset, loses, hsafe]
      exact .of_same rfl rfl rfl rfl
    · simp only [call_step, hreset, loses, hbroken]
      exact .of_same rfl rfl rfl rfl
  | push batch =>
    obtain ⟨_, hpush⟩ | ⟨_, cache', hpush, _⟩ := cache_push_spec s hcache batch
    · simp only [call_step, hpush]
      exact .of_same rfl rfl rfl rfl
    · simp only [call_step, hpush]
      exact .of_same rfl rfl rfl rfl
  | spill shard_idx batch =>
    by_cases htarget : P.TLS_TARGET_RETAINED ≤ cache.batches.len
    · obtain ⟨hempty, _⟩ | ⟨spilled, batches, hpop, _⟩ := cache_pop_spec hcache
      · have hpos := P.target_pos
        omega
      · simp only [call_step, if_pos htarget, hpop]
        exact .of_same rfl rfl rfl rfl
    · simp only [call_step, if_neg htarget]
      exact .of_same rfl rfl rfl rfl
  | push_to_global shard_idx batch spilled =>
    obtain ⟨hfull, hpush⟩ | ⟨hroom, s', hpush⟩ := shard_push_cases hs hpc spilled
    · simp only [call_step, hpush, loses, if_pos hfull]
      exact .of_same rfl rfl rfl rfl
    · simp only [call_step, hpush, loses, if_neg hroom]
      have haccounts := shard_push_accounts hpush
      exact .of_same haccounts.stats haccounts.allocated rfl (by rw [haccounts.dropped]; rfl)
  | push_released batch =>
    obtain ⟨hfull, _⟩ | ⟨_, cache', hpush, _⟩ := cache_push_spec s hcache batch
    · exact absurd hpc (by change ¬ _ < _; omega)
    · simp only [call_step, hpush]
      exact .of_same rfl rfl rfl rfl

omit [DecidableEq Tid] in
theorem handle_step_counts {t : Tid} {a : PoolAct} {l : PoolThread} {q : PoolShared × PoolPc}
    (hq : handle_step s a = some q) (hallowed : acquires_and_releases t a s l) :
    Counts s .idle q.1 q.2 (loses P a s .idle) := by
  cases a with
  | exit | reset | close | drop => exact hallowed.elim
  | step => cases hq
  | acquire_object =>
    cases hq
    exact .of_same rfl rfl rfl rfl
  | put batch key value =>
    simp only [handle_step, Option.ite_none_right_eq_some] at hq
    obtain ⟨-, hq⟩ := hq
    split at hq
    · rename_i hput
      cases hq
      simp only [loses, hput]
      exact .of_same rfl rfl rfl rfl
    · rename_i hput
      cases hq
      simp only [loses, hput]
      exact .of_same rfl rfl rfl rfl
  | _ =>
    simp only [handle_step, Option.ite_none_right_eq_some] at hq
    obtain ⟨-, hq⟩ := hq
    cases hq
    exact .of_same rfl rfl rfl rfl

omit [DecidableEq Tid] in
theorem pool_step_counts {t : Tid} {a : PoolAct} {l : PoolThread} {r : PoolShared × PoolThread}
    (hs : s.Shaped P) (hl : l.Shaped P) (hr : pool_step P a s l = some r)
    (hallowed : acquires_and_releases t a s l) :
    Counts s l.pc r.1 r.2.pc (loses P a s l.pc) := by
  rcases pool_step_cases hr with ⟨rfl, _⟩ | ⟨rfl, shared, cache, pc, hcall, rfl⟩ |
    ⟨hidle, q, hq, rfl⟩
  · exact hallowed.elim
  · have hcounts := call_step_counts hs hl.1 hl.2
    rw [PoolThread.cache_or_new, hcall] at hcounts
    exact hcounts
  · rw [hidle]
    exact handle_step_counts hq hallowed

end steps

/-- How many batches one thread has, in its cache and in its call. -/
def PoolThread.weight (P : PoolParams) (l : PoolThread) : Nat :=
  Multiset.card ((pool_holdings P).thread l)

/-- How many batches are in the shards and in the callers' hands. -/
def PoolShared.weight (P : PoolParams) (s : PoolShared) : Nat :=
  Multiset.card (s.shelved P) + s.handles.length

/-- The batches in the ledger of a thread, counted by where they are. -/
theorem card_entries (s : PoolShared) (l : PoolThread) :
    Multiset.card (thread_ledger P s l).entries =
      s.weight P + s.dropped.length + l.weight P := by
  rw [entries_thread_ledger, Multiset.card_add]
  simp [pool_holdings, PoolShared.weight, PoolThread.weight]

/-- A transfer keeps the number of batches made beyond those that are somewhere. -/
theorem allocated_of_transfer {callers_use : Prop} {s : PoolShared} {l : PoolThread}
    {r : PoolShared × PoolThread}
    (h : Ledger.Step callers_use (thread_ledger P s l) (thread_ledger P r.1 r.2)) :
    r.1.weight P + r.1.dropped.length + r.2.weight P + s.allocated =
      s.weight P + s.dropped.length + l.weight P + r.1.allocated := by
  rw [← card_entries, ← card_entries]
  obtain ⟨hentries, hallocated⟩ | ⟨hentries, hallocated⟩ := h.entries
  · change r.1.allocated = s.allocated at hallocated
    rw [hentries, hallocated]
  · change r.1.allocated = s.allocated + 1 at hallocated
    rw [hentries, hallocated, Multiset.card_cons]
    omega

variable [Fintype Tid]

/-- Every batch that was made is in a shard, in a caller's hand, with a thread or
lost; the statistics know of all but those made by refills in progress. -/
structure Accounts (P : PoolParams) (c : Config Tid (PoolShared × Nat) (PoolThread × Unit)) :
    Prop where
  lost : c.shared.1.dropped.length = c.shared.2
  allocated : c.shared.1.allocated =
    c.shared.1.weight P + c.shared.1.dropped.length + c.total (fun l => l.1.weight P)
  batches_dropped : c.shared.1.stats.batches_dropped = 0
  allocations : ∃ recorded, c.shared.1.stats.allocations = BitVec.ofNat 64 recorded ∧
    recorded + c.total (fun l => l.1.pc.unrecorded) = c.shared.1.allocated

variable {c : Config Tid (PoolShared × Nat) (PoolThread × Unit)}

theorem accounts_init : Accounts P (loss_system P Tid).init := by
  have hempty := card_entries (P := P) (pool_system P Tid).shared₀ (pool_system P Tid).local₀
  rw [entries_init, Multiset.card_zero] at hempty
  have hthreads : (loss_system P Tid).init.total (fun l => l.1.weight P) = 0 :=
    (loss_system P Tid).total_init (by
      change (pool_system P Tid).local₀.weight P = 0
      omega)
  have hpending : (loss_system P Tid).init.total (fun l => l.1.pc.unrecorded) = 0 :=
    (loss_system P Tid).total_init rfl
  refine ⟨rfl, ?_, rfl, 0, rfl, by rw [hpending]; rfl⟩
  rw [hthreads]
  change 0 = (pool_system P Tid).shared₀.weight P + (pool_system P Tid).shared₀.dropped.length + 0
  omega

theorem accounts (hc : (loss_system P Tid).ReachableUnder (forgetful acquires_and_releases) c) :
    Accounts P c := by
  refine ReachableUnder.history_induction (P := Accounts P) accounts_init ?_ hc
  intro c t a r hreach hinv hG hr
  have hshape := pool_shape_valid.holds_of_trivial hreach.reachable
  have hcounts := pool_step_counts hshape.shared (hshape.thread t) hr hG
  have hmade := allocated_of_transfer (transfer_of_step hreach hr True fun _ => trivial)
  have hweight := c.total_move (fun l => l.1.weight P) t
    ((r.1, c.shared.2 + loses P a c.shared.1 (c.threads t).1.pc), r.2, ())
  have hpending := c.total_move (fun l => l.1.pc.unrecorded) t
    ((r.1, c.shared.2 + loses P a c.shared.1 (c.threads t).1.pc), r.2, ())
  obtain ⟨hlost, hallocated, hdropped, recorded, hrecorded, hmissing⟩ := hinv
  obtain ⟨hkept, ⟨more, hmore, hbalance⟩, hgone⟩ := hcounts
  change r.1.stats.batches_dropped = c.shared.1.stats.batches_dropped at hkept
  refine ⟨?_, ?_, hkept.trans hdropped, recorded + more, ?_, ?_⟩
  · change r.1.dropped.length = c.shared.2 + loses P a c.shared.1 (c.threads t).1.pc
    rw [← hlost]
    exact hgone
  · simp only [Config.forget, Config.move_shared] at *
    omega
  · change r.1.stats.allocations = _
    rw [hmore, BitVec.ofNat_add, ← hrecorded]
    rfl
  · simp only [Config.forget, Config.move_shared] at *
    omega

/-- What the statistics promise: allocations less drops are the batches in the callers'
hands, in the caches and in the shards. -/
def StatsBalanced (P : PoolParams) (c : Config Tid PoolShared PoolThread) : Prop :=
  c.shared.stats.allocations - c.shared.stats.batches_dropped =
    BitVec.ofNat 64 (c.shared.handles.length + ∑ t, (c.threads t).cache_or_new.batches.len +
      ∑ j ∈ Finset.range P.SHARDS_PER_POOL, (c.shared.pool j).len)

/-- Whenever no call is in progress the statistics balance exactly if no batch was lost
in the run (or as many as the counters wrap round at). -/
theorem stats_balanced_iff
    (hc : (loss_system P Tid).ReachableUnder (forgetful acquires_and_releases) c)
    (hidle : ∀ t, (c.threads t).1.pc = .idle) :
    StatsBalanced P c.forget ↔ c.shared.2 % 2 ^ 64 = 0 := by
  have hshape := pool_shape_valid.holds_of_trivial hc.forget.reachable
  obtain ⟨hlost, hallocated, hdropped, recorded, hrecorded, hmissing⟩ := accounts hc
  have hpending : c.total (fun l => l.1.pc.unrecorded) = 0 := by
    rw [Config.total_eq_zero]
    intro t
    rw [hidle t]
    rfl
  have hthreads : c.total (fun l => l.1.weight P) =
      ∑ t, (c.threads t).1.cache_or_new.batches.len := by
    refine Finset.sum_congr rfl fun t _ => ?_
    have hlen := InitStack.card_contents (hshape.thread t).1.batches
    simp only [PoolThread.weight, pool_holdings, hidle t, PoolPc.carried, Multiset.map_zero,
      add_zero]
    exact hlen
  have hshards : Multiset.card (c.shared.1.shelved P) =
      ∑ j ∈ Finset.range P.SHARDS_PER_POOL, (c.shared.1.pool j).len := by
    rw [PoolShared.shelved, Multiset.card_sum]
    exact Finset.sum_congr rfl fun j _ => InitStack.card_contents (hshape.shared j)
  rw [← ofNat_add_eq_iff (c.shared.1.handles.length +
    ∑ t, (c.threads t).1.cache_or_new.batches.len +
      ∑ j ∈ Finset.range P.SHARDS_PER_POOL, (c.shared.1.pool j).len)]
  have hcount : recorded = c.shared.1.handles.length +
      ∑ t, (c.threads t).1.cache_or_new.batches.len +
        ∑ j ∈ Finset.range P.SHARDS_PER_POOL, (c.shared.1.pool j).len + c.shared.2 := by
    rw [PoolShared.weight, hshards, hthreads] at hallocated
    omega
  have hdifference : c.shared.1.stats.allocations - c.shared.1.stats.batches_dropped =
      BitVec.ofNat 64 recorded := by
    rw [hdropped, hrecorded]
    exact BitVec.sub_zero _
  rw [← hcount, ← hdifference]
  rfl

/-- One thread acquires as many batches as it will release. -/
def acquire_and_release (batches : List BatchPtr) : List (Unit × PoolAct) :=
  let steps (n : Nat) : List (Unit × PoolAct) := List.replicate n ((), .step)
  batches.flatMap (fun _ => ((), .acquire_object) :: steps 7) ++
    batches.flatMap fun batch => ((), .release { batch, is_sealed := false }) :: steps 2 ++
      if batch = 0 then [] else steps 5

theorem stats_balanced_two_batches :
    ∃ c, (loss_system tiny_pool Unit).ReachableUnder (forgetful acquires_and_releases) c ∧
      c.shared.2 = 0 ∧ (StatsBalanced tiny_pool c.forget ↔ c.shared.2 % 2 ^ 64 = 0) := by
  obtain ⟨c, hc, hseen⟩ := reachable_showing (loss_system tiny_pool Unit)
    (forgetful acquires_and_releases) (acquire_and_release [0, 1])
    (fun c => ((c.threads ()).1.pc, c.shared.2)) (.idle, 0) (by decide +kernel)
  simp only [Prod.mk.injEq] at hseen
  exact ⟨c, hc, hseen.2, stats_balanced_iff hc fun _ => hseen.1⟩

/-- The third batch finds the cache and the shard full, and the batch that it drives out
is freed; the statistics still show three batches, of which there are two. -/
theorem stats_not_balanced :
    ∃ c, (loss_system tiny_pool Unit).ReachableUnder (forgetful acquires_and_releases) c ∧
      (∀ t, (c.threads t).1.pc = .idle) ∧ ¬ StatsBalanced tiny_pool c.forget := by
  obtain ⟨c, hc, hseen⟩ := reachable_showing (loss_system tiny_pool Unit)
    (forgetful acquires_and_releases) (acquire_and_release [0, 1, 2])
    (fun c => ((c.threads ()).1.pc, c.shared.1.stats.allocations, c.shared.1.stats.batches_dropped,
      c.shared.1.handles.length, (c.threads ()).1.cache_or_new.batches.len,
      (c.shared.1.pool 0).len)) (.idle, 3, 0, 0, 1, 1) (by decide +kernel)
  simp only [Prod.mk.injEq] at hseen
  obtain ⟨hidle, hallocations, hdropped, hhandles, hcache, hshard⟩ := hseen
  refine ⟨c, hc, fun _ => hidle, ?_⟩
  have hunit : ∑ t, (c.forget.threads t).cache_or_new.batches.len = 1 := by
    rw [Fintype.sum_unique]
    exact hcache
  have hone : ∑ j ∈ Finset.range tiny_pool.SHARDS_PER_POOL, (c.forget.shared.pool j).len = 1 := by
    change ∑ j ∈ Finset.range 1, _ = _
    rw [Finset.sum_range_one]
    exact hshard
  rw [StatsBalanced, hunit, hone]
  simp only [Config.forget]
  rw [hallocations, hdropped, hhandles]
  decide

end ordinum.batch_pool
