import Ordinum.Db.BatchPool.Ledger

open init_stack
open ordinum.batch

namespace ordinum.batch_pool

/-- The batches that a running call carries. -/
def PoolPc.carried : PoolPc → Multiset (BatchPtr × Carry)
  | .idle | .try_acquire_from_tls | .refill_shard_idx | .refill_pop _ | .allocate _
  | .panicked => 0
  | .hydrate refill | .update_stats refill | .return_acquired refill =>
    {(refill.batch, refill.source.carry)}
  | .hydrate_push refill batch => (batch, .reset) ::ₘ {(refill.batch, refill.source.carry)}
  | .reset batch => {(batch, .used)}
  | .push batch | .release_shard_idx batch | .spill _ batch | .push_released batch =>
    {(batch, .reset)}
  | .push_to_global _ batch spilled => (spilled, .reset) ::ₘ {(batch, .reset)}

/-- The ledger over the shared memory. -/
def PoolShared.books (s : PoolShared) (stored : Multiset BatchPtr)
    (carried : Multiset (BatchPtr × Carry)) : Ledger :=
  { heap := s.heap
    allocated := s.allocated
    stored
    carried
    handles := s.handles
    dropped := s.dropped
    committed := s.committed
    handed_out := s.handed_out }

variable (P : PoolParams)

/-- The batches in the shards. -/
def PoolShared.shelved (s : PoolShared) : Multiset BatchPtr :=
  ∑ j ∈ Finset.range P.SHARDS_PER_POOL, (s.pool j).contents P.MAX_BATCH_PER_SHARD

/-- The batches in a thread's cache. -/
def ThreadBatchCache.holds (cache : ThreadBatchCache) : Multiset BatchPtr :=
  cache.batches.contents P.TLS_CAP

/-- The ledger as one thread sees it. -/
def ledger (s : PoolShared) (cache : ThreadBatchCache) (pc : PoolPc) : Ledger :=
  s.books (s.shelved P + cache.holds P) pc.carried

/-- Replacing a shard by one with an entry less takes the entry out. -/
theorem shelved_update_shard {P : PoolParams} {shard_idx : Nat} {shard : InitStack BatchPtr}
    (shard' : InitStack BatchPtr) (s : PoolShared) (batch : BatchPtr) (hidx : shard_idx < P.SHARDS_PER_POOL)
    (hshard : s.pool shard_idx = shard)
    (hcontents : shard.contents P.MAX_BATCH_PER_SHARD =
      batch ::ₘ shard'.contents P.MAX_BATCH_PER_SHARD) :
    s.shelved P = batch ::ₘ
      PoolShared.shelved P { s with pool := Function.update s.pool shard_idx shard' } := by
  have hsum := InitStack.sum_update (InitStack.contents P.MAX_BATCH_PER_SHARD) s.pool hidx shard'
  rw [hshard, hcontents, Multiset.add_cons, ← Multiset.cons_add] at hsum
  exact (add_right_cancel hsum).symm

/-- The shards are stacks within their capacity. -/
def PoolShared.Shaped (s : PoolShared) : Prop :=
  ∀ j, (s.pool j).Prefix P.MAX_BATCH_PER_SHARD

/-- A cache is a stack within its capacity, with a shard that exists. -/
structure ThreadBatchCache.Shaped (cache : ThreadBatchCache) : Prop where
  batches : cache.batches.Prefix P.TLS_CAP
  shard_idx : ∀ j, cache.shard_idx = some j → j < P.SHARDS_PER_POOL

/-- What holds at a program point: the shard of the call exists, and there is
room in the cache where the code relies on it. -/
def PoolPc.At (cache : ThreadBatchCache) : PoolPc → Prop
  | .refill_pop j | .allocate j | .spill j _ | .push_to_global j _ _ => j < P.SHARDS_PER_POOL
  | .hydrate refill | .update_stats refill | .return_acquired refill =>
    refill.shard_idx < P.SHARDS_PER_POOL
  | .hydrate_push refill _ =>
    refill.shard_idx < P.SHARDS_PER_POOL ∧ cache.batches.len < P.TLS_CAP
  | .push_released _ => cache.batches.len < P.TLS_CAP
  | .panicked => False
  | _ => True

variable {P}

/-- What moving a batch between a stack and a call leaves as it is. -/
structure PoolShared.SameAccounts (s s' : PoolShared) : Prop where
  stats : s'.stats = s.stats
  allocated : s'.allocated = s.allocated
  dropped : s'.dropped = s.dropped
  handed_out : s'.handed_out = s.handed_out

section accounts

variable {s s' : PoolShared} {cache cache' : ThreadBatchCache} {shard_idx : Nat} {batch : BatchPtr}

theorem shard_pop_accounts (h : shard_pop P s shard_idx = some (some (batch, s'))) :
    s.SameAccounts s' := by
  simp only [shard_pop, Option.ite_none_right_eq_some, Option.map_eq_some_iff] at h
  obtain ⟨-, popped, -, ⟨⟨b, shard⟩, -, heq⟩⟩ := h
  cases heq
  exact ⟨rfl, rfl, rfl, rfl⟩

theorem cache_push_accounts (h : cache_push P s cache batch = some (.ok (s', cache'))) :
    s.SameAccounts s' := by
  simp only [cache_push, Option.map_eq_some_iff] at h
  obtain ⟨pushed, -, heq⟩ := h
  split at heq <;> cases heq
  exact ⟨rfl, rfl, rfl, rfl⟩

theorem shard_push_accounts (h : shard_push P s shard_idx batch = some (.ok s')) :
    s.SameAccounts s' := by
  simp only [shard_push, Option.ite_none_right_eq_some, Option.map_eq_some_iff] at h
  obtain ⟨-, pushed, -, heq⟩ := h
  split at heq <;> cases heq
  exact ⟨rfl, rfl, rfl, rfl⟩

theorem shard_idx_for_cache_accounts (h : shard_idx_for_cache P s cache = (shard_idx, s', cache')) :
    s.SameAccounts s' := by
  unfold shard_idx_for_cache at h
  split at h <;> cases h <;> exact ⟨rfl, rfl, rfl, rfl⟩

end accounts

/-- A section leaves everything in shape and makes one transfer. -/
structure CallSafe (P : PoolParams) (s : PoolShared) (cache : ThreadBatchCache) (pc : PoolPc)
    (r : PoolShared × ThreadBatchCache × PoolPc) : Prop where
  pool_shaped : r.1.Shaped P
  cache_shaped : r.2.1.Shaped P
  at_point : r.2.2.At P r.2.1
  transfer : Ledger.Step False (ledger P s cache pc) (ledger P r.1 r.2.1 r.2.2)

theorem cache_push_spec (s : PoolShared) {cache : ThreadBatchCache} (hcache : cache.Shaped P)
    (entry : BatchPtr) :
    (cache.batches.len = P.TLS_CAP ∧ cache_push P s cache entry = some (.error entry)) ∨
    (cache.batches.len < P.TLS_CAP ∧ ∃ cache',
      cache_push P s cache entry = some (.ok (s.set_runtime_state entry .Idle, cache')) ∧
      cache'.Shaped P ∧ cache'.holds P = entry ::ₘ cache.holds P) := by
  rcases InitStack.push_spec hcache.batches P.cap_le entry with ⟨hfull, hpush⟩ |
    ⟨hroom, batches, hpush, hshape, _, hcontents⟩
  · exact .inl ⟨hfull, by rw [cache_push, hpush]; rfl⟩
  · exact .inr ⟨hroom, { cache with batches }, by rw [cache_push, hpush]; rfl,
      ⟨hshape, hcache.shard_idx⟩, hcontents⟩

theorem PoolShared.Shaped.update {s : PoolShared} (hs : s.Shaped P) {shard : InitStack BatchPtr}
    (hshard : shard.Prefix P.MAX_BATCH_PER_SHARD) (shard_idx : Nat) :
    PoolShared.Shaped P { s with pool := Function.update s.pool shard_idx shard } := by
  intro j
  change (Function.update s.pool shard_idx shard j).Prefix P.MAX_BATCH_PER_SHARD
  by_cases hj : j = shard_idx
  · rw [hj, Function.update_self]
    exact hshard
  · rw [Function.update_of_ne hj]
    exact hs j

theorem shard_pop_spec {s : PoolShared} (hs : s.Shaped P) {shard_idx : Nat}
    (hidx : shard_idx < P.SHARDS_PER_POOL) :
    shard_pop P s shard_idx = some none ∨
    ∃ batch shard, shard_pop P s shard_idx = some (some (batch,
        { s with pool := Function.update s.pool shard_idx shard })) ∧
      PoolShared.Shaped P { s with pool := Function.update s.pool shard_idx shard } ∧
      s.shelved P = batch ::ₘ
        PoolShared.shelved P { s with pool := Function.update s.pool shard_idx shard } := by
  rcases InitStack.pop_spec (hs shard_idx) with ⟨_, hpop⟩ |
    ⟨_, batch, shard, hpop, hshape, _, hcontents⟩
  · exact .inl (by rw [shard_pop, if_pos hidx, hpop]; rfl)
  · exact .inr ⟨batch, shard, by rw [shard_pop, if_pos hidx, hpop]; rfl, hs.update hshape _,
      shelved_update_shard shard s batch hidx rfl hcontents⟩

theorem shard_push_spec {s : PoolShared} (hs : s.Shaped P) {shard_idx : Nat}
    (hidx : shard_idx < P.SHARDS_PER_POOL) (batch : BatchPtr) :
    shard_push P s shard_idx batch = some (.error batch) ∨
    ∃ shard, shard_push P s shard_idx batch = some (.ok { s.set_runtime_state batch .Idle with
        pool := Function.update s.pool shard_idx shard }) ∧
      PoolShared.Shaped P { s with pool := Function.update s.pool shard_idx shard } ∧
      PoolShared.shelved P { s with pool := Function.update s.pool shard_idx shard } =
        batch ::ₘ s.shelved P := by
  rcases InitStack.push_spec (hs shard_idx) P.shard_le batch with ⟨_, hpush⟩ |
    ⟨_, shard, hpush, hshape, _, hcontents⟩
  · exact .inl (by rw [shard_push, if_pos hidx, hpush]; rfl)
  · refine .inr ⟨shard, by rw [shard_push, if_pos hidx, hpush]; rfl, hs.update hshape _, ?_⟩
    have hback := shelved_update_shard (s.pool shard_idx)
      { s with pool := Function.update s.pool shard_idx shard } batch hidx
      (Function.update_self ..) hcontents
    rw [hback]
    simp only [Function.update_idem, Function.update_eq_self]

theorem shard_idx_for_cache_spec (s : PoolShared) {cache : ThreadBatchCache}
    (hcache : cache.Shaped P) : ∃ shard_idx next_shard cached,
      shard_idx_for_cache P s cache =
        (shard_idx, { s with next_shard }, { cache with shard_idx := cached }) ∧
      shard_idx < P.SHARDS_PER_POOL ∧
      ThreadBatchCache.Shaped P { cache with shard_idx := cached } := by
  rcases hcached : cache.shard_idx with _ | id
  · have hlt := Nat.mod_lt s.next_shard.toNat P.shards_pos
    refine ⟨s.next_shard.toNat % P.SHARDS_PER_POOL, s.next_shard + 1,
      some (s.next_shard.toNat % P.SHARDS_PER_POOL), ?_, hlt, hcache.batches, ?_⟩
    · rw [shard_idx_for_cache, hcached]
    · rintro j ⟨⟩
      exact hlt
  · refine ⟨id, s.next_shard, some id, ?_, hcache.shard_idx id hcached, hcache.batches, ?_⟩
    · rw [shard_idx_for_cache, hcached]
      simp only [← hcached]
    · rintro j ⟨⟩
      exact hcache.shard_idx id hcached

/-- Taking the last batch out of the cache. -/
theorem cache_pop_spec {cache : ThreadBatchCache} (hcache : cache.Shaped P) :
    (cache.batches.len = 0 ∧ cache.batches.pop = some none) ∨
    ∃ batch batches, cache.batches.pop = some (some (batch, batches)) ∧
      ThreadBatchCache.Shaped P { cache with batches } ∧
      cache.holds P = batch ::ₘ ThreadBatchCache.holds P { cache with batches } := by
  rcases InitStack.pop_spec hcache.batches with ⟨hzero, hpop⟩ |
    ⟨_, batch, batches, hpop, hshape, _, hcontents⟩
  · exact .inl ⟨hzero, hpop⟩
  · exact .inr ⟨batch, batches, hpop, ⟨hshape, hcache.shard_idx⟩, hcontents⟩

/-- Every section of a running call is safe: no assertion fails, `unreachable!`
is not reached, and the batches move as the ledger allows. -/
theorem call_step_safe {s : PoolShared} {cache : ThreadBatchCache} {pc : PoolPc}
    (hs : s.Shaped P) (hcache : cache.Shaped P) (hpc : pc.At P cache) :
    CallSafe P s cache pc (call_step P s cache pc) := by
  cases pc with
  | idle => exact ⟨hs, hcache, trivial, .skip _⟩
  | panicked => exact hpc.elim
  | try_acquire_from_tls =>
    obtain ⟨_, hpop⟩ | ⟨batch, batches, hpop, hshaped, hholds⟩ := cache_pop_spec hcache
    · simp only [call_step, hpop]
      exact ⟨hs, hcache, trivial, .skip _⟩
    · simp only [call_step, hpop]
      refine ⟨hs, hshaped, trivial, ?_⟩
      rw [ledger, hholds, Multiset.add_cons]
      exact .hand_out_stored (s.books _ _) batch
  | refill_shard_idx =>
    obtain ⟨shard_idx, next_shard, cached, hstep, hidx, hshaped⟩ :=
      shard_idx_for_cache_spec s hcache
    simp only [call_step, hstep]
    exact ⟨hs, hshaped, hidx, .skip (ledger P s cache .idle)⟩
  | refill_pop shard_idx =>
    obtain hpop | ⟨batch, shard, hpop, hshaped, hholds⟩ := shard_pop_spec hs hpc
    · simp only [call_step, hpop]
      exact ⟨hs, hcache, hpc, .skip _⟩
    · simp only [call_step, hpop]
      refine ⟨hshaped, hcache, hpc, ?_⟩
      rw [ledger, hholds, Multiset.cons_add]
      exact .fetch (s.books _ _) batch
  | allocate shard_idx => exact ⟨hs, hcache, hpc, .make (ledger P s cache .idle)⟩
  | hydrate refill =>
    by_cases hroom : cache.batches.len < P.TLS_CAP / 2
    · have hcap : cache.batches.len < P.TLS_CAP := by omega
      obtain hpop | ⟨batch, shard, hpop, hshaped, hholds⟩ := shard_pop_spec hs hpc
      · simp only [call_step, if_pos hroom, hpop]
        exact ⟨hs, hcache, hpc, .skip _⟩
      · simp only [call_step, if_pos hroom, hpop]
        refine ⟨hshaped, hcache, ⟨hpc, hcap⟩, ?_⟩
        rw [ledger, hholds, Multiset.cons_add]
        exact .fetch (s.books _ _) batch
    · simp only [call_step, if_neg hroom]
      exact ⟨hs, hcache, hpc, .skip _⟩
  | hydrate_push refill batch =>
    obtain ⟨hfull, _⟩ | ⟨_, cache', hpush, hshaped, hholds⟩ := cache_push_spec s hcache batch
    · exact absurd hpc.2 (by omega)
    · simp only [call_step, hpush]
      refine ⟨hs, hshaped, hpc.1, ?_⟩
      rw [ledger, ledger, hholds, Multiset.add_cons]
      exact .store (ledger P s cache (.hydrate refill)) batch
  | update_stats refill => exact ⟨hs, hcache, hpc, .skip (ledger P s cache (.hydrate refill))⟩
  | return_acquired refill =>
    exact ⟨hs, hcache, trivial, .hand_out (ledger P s cache .idle) refill.batch refill.source⟩
  | reset batch =>
    cases hreset : (s.heap batch).reset_batch with
    | some inner =>
      simp only [call_step, hreset]
      exact ⟨hs, hcache, trivial, .reset (ledger P s cache .idle) batch inner hreset⟩
    | none =>
      simp only [call_step, hreset]
      exact ⟨hs, hcache, trivial, .discard (ledger P s cache .idle) batch .used⟩
  | push batch =>
    obtain ⟨_, hpush⟩ | ⟨_, cache', hpush, hshaped, hholds⟩ := cache_push_spec s hcache batch
    · simp only [call_step, hpush]
      exact ⟨hs, hcache, trivial, .skip _⟩
    · simp only [call_step, hpush]
      refine ⟨hs, hshaped, trivial, ?_⟩
      rw [ledger, ledger, hholds, Multiset.add_cons]
      exact .store (ledger P s cache .idle) batch
  | release_shard_idx batch =>
    obtain ⟨shard_idx, next_shard, cached, hstep, hidx, hshaped⟩ :=
      shard_idx_for_cache_spec s hcache
    simp only [call_step, hstep]
    exact ⟨hs, hshaped, hidx, .skip (ledger P s cache (.push batch))⟩
  | spill shard_idx batch =>
    by_cases htarget : P.TLS_TARGET_RETAINED ≤ cache.batches.len
    · obtain ⟨hempty, _⟩ | ⟨spilled, batches, hpop, hshaped, hholds⟩ := cache_pop_spec hcache
      · have hpos := P.target_pos
        omega
      · simp only [call_step, if_pos htarget, hpop]
        refine ⟨hs, hshaped, hpc, ?_⟩
        rw [ledger, hholds, Multiset.add_cons]
        exact .fetch (s.books _ _) spilled
    · have hroom : cache.batches.len < P.TLS_CAP := by
        have hle := P.target_le
        omega
      simp only [call_step, if_neg htarget]
      exact ⟨hs, hcache, hroom, .skip _⟩
  | push_to_global shard_idx batch spilled =>
    obtain hpush | ⟨shard, hpush, hshaped, hholds⟩ := shard_push_spec hs hpc spilled
    · simp only [call_step, hpush]
      exact ⟨hs, hcache, hpc, .discard (ledger P s cache (.push batch)) spilled .reset⟩
    · simp only [call_step, hpush]
      refine ⟨hshaped, hcache, hpc, ?_⟩
      have hstore : Ledger.Step False _ _ := .store (ledger P s cache (.push batch)) spilled
      change Ledger.Step False _ ((s.set_runtime_state spilled .Idle).books
        (PoolShared.shelved P { s with pool := Function.update s.pool shard_idx shard } +
          cache.holds P) {(batch, .reset)})
      rw [hholds, Multiset.cons_add]
      exact hstore
  | push_released batch =>
    obtain ⟨hfull, _⟩ | ⟨_, cache', hpush, hshaped, hholds⟩ := cache_push_spec s hcache batch
    · exact absurd hpc (by change ¬ _ < _; omega)
    · simp only [call_step, hpush]
      refine ⟨hs, hshaped, trivial, ?_⟩
      rw [ledger, ledger, hholds, Multiset.add_cons]
      exact .store (ledger P s cache .idle) batch

/-- The actions by which callers change a batch that they hold. -/
def PoolAct.uses_batch : PoolAct → Prop
  | .put .. | .seal _ | .commit _ | .set_runtime_state .. => True
  | _ => False

theorem books_of_handle {s : PoolShared} {handle : BatchHandle} (hmem : handle ∈ s.handles)
    (stored : Multiset BatchPtr) (carried : Multiset (BatchPtr × Carry)) :
    s.books stored carried = { (s.remove_handle handle).books stored carried with
      handles := handle ::ₘ ((s.remove_handle handle).books stored carried).handles } := by
  have hhandles : (s.handles : Multiset BatchHandle) =
      handle ::ₘ (s.handles.erase handle : List BatchHandle) :=
    Multiset.coe_eq_coe.mpr (List.perm_cons_erase hmem)
  rw [PoolShared.books, hhandles]
  rfl

/-- Changing a batch in hand: without a commit its waiter stays as it is. -/
theorem use_step {callers_use : Prop} {s : PoolShared} {handle : BatchHandle}
    (hmem : handle ∈ s.handles) (inner : BatchInner) {committed : List BatchPtr}
    (hallowed : callers_use) (hcommitted : s.committed ⊆ committed)
    (hwaiter : inner.sync_waiter = (s.heap handle.batch).sync_waiter ∨ handle.batch ∈ committed)
    (stored : Multiset BatchPtr) :
    Ledger.Step callers_use (s.books stored 0)
      (PoolShared.books { s.set_inner handle.batch inner with committed } stored 0) := by
  rw [books_of_handle hmem,
    books_of_handle (s := { s.set_inner handle.batch inner with committed }) hmem]
  exact .use ((s.remove_handle handle).books stored 0) handle handle.is_sealed inner committed
    hallowed hcommitted hwaiter

/-- Dropping a batch in hand. -/
theorem abandon_step {callers_use : Prop} {s : PoolShared} {handle : BatchHandle}
    (hmem : handle ∈ s.handles) (stored : Multiset BatchPtr) :
    Ledger.Step callers_use (s.books stored 0)
      (((s.remove_handle handle).drop handle.batch).books stored 0) := by
  rw [books_of_handle hmem]
  exact .abandon ((s.remove_handle handle).books stored 0) handle

theorem give_back_step {callers_use : Prop} {s : PoolShared} {handle : BatchHandle}
    (hmem : handle ∈ s.handles) (stored : Multiset BatchPtr) :
    Ledger.Step callers_use (s.books stored 0)
      ((s.remove_handle handle).books stored {(handle.batch, .used)}) := by
  rw [books_of_handle hmem]
  exact .give_back ((s.remove_handle handle).books stored 0) handle

/-- A caller's step makes one transfer and touches no shard. -/
theorem handle_step_spec (callers_use : Prop) {a : PoolAct} {s : PoolShared}
    {q : PoolShared × PoolPc} (hq : handle_step s a = some q)
    (hallowed : a.uses_batch → callers_use) (stored : Multiset BatchPtr) :
    q.1.pool = s.pool ∧ (∀ cache, q.2.At P cache) ∧
      Ledger.Step callers_use (s.books stored 0) (q.1.books stored q.2.carried) := by
  cases a with
  | acquire_object =>
    cases hq
    exact ⟨rfl, fun _ => trivial, .skip _⟩
  | release handle =>
    simp only [handle_step, Option.ite_none_right_eq_some, Option.some.injEq] at hq
    obtain ⟨hmem, rfl⟩ := hq
    exact ⟨rfl, fun _ => trivial, give_back_step hmem stored⟩
  | put batch key value =>
    simp only [handle_step, Option.ite_none_right_eq_some] at hq
    obtain ⟨hmem, hq⟩ := hq
    split at hq
    · rename_i r inner hput
      cases hq
      have hkept := BatchInner.put_keeps DEFAULT_CF_ID key value (s.heap batch) r inner hput
      exact ⟨rfl, fun _ => trivial, use_step hmem _ (hallowed trivial) (List.Subset.refl _)
        (.inl hkept) stored⟩
    · cases hq
      exact ⟨rfl, fun _ => trivial, abandon_step hmem stored⟩
  | «seal» batch =>
    simp only [handle_step, Option.ite_none_right_eq_some, Option.some.injEq] at hq
    obtain ⟨hmem, rfl⟩ := hq
    refine ⟨rfl, fun _ => trivial, ?_⟩
    rw [books_of_handle hmem]
    have huse := Ledger.Step.use ((s.remove_handle { batch, is_sealed := false }).books stored 0)
      { batch, is_sealed := false } true (s.heap batch) s.committed (hallowed trivial)
      (List.Subset.refl _) (.inl rfl)
    apply huse.of_eq rfl
    rw [Ledger.set_inner]
    have hheap : Function.update s.heap batch (s.heap batch) = s.heap := Function.update_eq_self ..
    simp only [PoolShared.books, PoolShared.remove_handle, hheap]
    rfl
  | commit batch =>
    simp only [handle_step, Option.ite_none_right_eq_some, Option.some.injEq] at hq
    obtain ⟨hmem, rfl⟩ := hq
    exact ⟨rfl, fun _ => trivial, use_step hmem _ (hallowed trivial) (List.subset_cons_self _ _)
      (.inr (List.mem_cons_self ..)) stored⟩
  | set_runtime_state handle state =>
    simp only [handle_step, Option.ite_none_right_eq_some, Option.some.injEq] at hq
    obtain ⟨hmem, rfl⟩ := hq
    have huse := use_step hmem ((s.heap handle.batch).set_runtime_state state)
      (hallowed trivial) (List.Subset.refl _) (.inl rfl) stored
    exact ⟨rfl, fun _ => trivial, huse⟩
  | reset handle =>
    simp only [handle_step, Option.ite_none_right_eq_some] at hq
    obtain ⟨hmem, hq⟩ := hq
    split at hq
    · split at hq
      · cases hq
      · rename_i inner _ hreset
        cases hq
        refine ⟨rfl, fun _ => trivial, ?_⟩
        rw [books_of_handle hmem]
        exact .reuse ((s.remove_handle handle).books stored 0) handle inner hreset
      · cases hq
        exact ⟨rfl, fun _ => trivial, abandon_step hmem stored⟩
    · cases hq
      exact ⟨rfl, fun _ => trivial, abandon_step hmem stored⟩
  | close handle =>
    simp only [handle_step, Option.ite_none_right_eq_some] at hq
    obtain ⟨hmem, hq⟩ := hq
    split at hq <;> cases hq
    · exact ⟨rfl, fun _ => trivial, give_back_step hmem stored⟩
    · exact ⟨rfl, fun _ => trivial, abandon_step hmem stored⟩
  | drop handle =>
    simp only [handle_step, Option.ite_none_right_eq_some, Option.some.injEq] at hq
    obtain ⟨hmem, rfl⟩ := hq
    exact ⟨rfl, fun _ => trivial, abandon_step hmem stored⟩
  | exit => cases hq
  | step => cases hq

theorem pool_step_cases {a : PoolAct} {s : PoolShared} {l : PoolThread} {r : PoolShared × PoolThread}
    (hr : pool_step P a s l = some r) :
    (a = .exit ∧ l.pc = .idle ∧ r = (l.cache.elim s (unref s), { cache := none, pc := .idle })) ∨
    (a = .step ∧ ∃ shared cache pc, call_step P s (l.cache.getD .new_with_const_size) l.pc =
      (shared, cache, pc) ∧ r = (shared, { cache := some cache, pc })) ∨
    (l.pc = .idle ∧ ∃ q, handle_step s a = some q ∧ r = (q.1, { cache := l.cache, pc := q.2 })) := by
  obtain ⟨cache, pc⟩ := l
  by_cases hpc : pc = .idle
  · subst hpc
    cases a with
    | exit =>
      cases hr
      exact .inl ⟨rfl, rfl, rfl⟩
    | step => simp [pool_step] at hr
    | _ =>
      simp only [pool_step, Option.map_eq_some_iff] at hr
      obtain ⟨q, hq, rfl⟩ := hr
      exact .inr (.inr ⟨rfl, q, hq, rfl⟩)
  · cases a with
    | step =>
      simp only [pool_step, if_neg hpc] at hr
      cases hr
      exact .inr (.inl ⟨rfl, _, _, _, rfl, rfl⟩)
    | _ =>
      cases pc <;> first | exact absurd rfl hpc | cases hr

/-- The cache that a thread has, or will create. -/
def PoolThread.cache_or_new (l : PoolThread) : ThreadBatchCache :=
  l.cache.getD .new_with_const_size

theorem new_cache_shaped : ThreadBatchCache.new_with_const_size.Shaped P :=
  ⟨InitStack.prefix_empty _, fun _ h => by cases h⟩

@[simp] theorem new_cache_holds : ThreadBatchCache.new_with_const_size.holds P = 0 :=
  InitStack.contents_empty _

variable (P) in
/-- The ledger as a thread of the pool sees it. -/
def thread_ledger (s : PoolShared) (l : PoolThread) : Ledger :=
  ledger P s l.cache_or_new l.pc

variable (P) in
def PoolThread.Shaped (l : PoolThread) : Prop :=
  l.cache_or_new.Shaped P ∧ l.pc.At P l.cache_or_new

/-- A thread's exit drops what its cache holds. -/
theorem unref_step {callers_use : Prop} {s : PoolShared} {cache : ThreadBatchCache}
    (hcache : cache.Shaped P) :
    Ledger.Step callers_use (ledger P s cache .idle) (thread_ledger P (unref s cache)
      { cache := none, pc := .idle }) := by
  have hdropped : ((unref s cache).dropped : Multiset BatchPtr) = cache.holds P + s.dropped := by
    rw [ThreadBatchCache.holds, InitStack.contents_eq hcache.batches, Multiset.coe_add]
    rfl
  have hretire : Ledger.Step callers_use _ _ :=
    .retire (s.books (s.shelved P) 0) (cache.holds P)
  refine hretire.of_eq ?_ ?_
  · rw [ledger, add_comm]
    rfl
  · rw [thread_ledger, ledger, PoolShared.books, hdropped]
    change Ledger.mk _ _ (s.shelved P + ThreadBatchCache.new_with_const_size.holds P) _ _ _ _ _ =
      _
    rw [new_cache_holds, add_zero]
    rfl

/-- Every step of the pool keeps it in shape and makes one transfer. -/
theorem pool_step_safe (callers_use : Prop) {a : PoolAct} {s : PoolShared} {l : PoolThread}
    {r : PoolShared × PoolThread} (hs : s.Shaped P) (hl : l.Shaped P)
    (hr : pool_step P a s l = some r) (hallowed : a.uses_batch → callers_use) :
    r.1.Shaped P ∧ r.2.Shaped P ∧
      Ledger.Step callers_use (thread_ledger P s l) (thread_ledger P r.1 r.2) := by
  obtain ⟨hcache, hpc⟩ := hl
  rcases pool_step_cases hr with ⟨_, hidle, rfl⟩ | ⟨_, shared, cache, pc, hcall, rfl⟩ |
    ⟨hidle, q, hq, rfl⟩
  · refine ⟨?_, ⟨new_cache_shaped, trivial⟩, ?_⟩
    · cases l.cache <;> exact hs
    · rw [thread_ledger, hidle]
      cases hcached : l.cache with
      | none =>
        rw [PoolThread.cache_or_new, hcached]
        exact .skip _
      | some cache =>
        rw [PoolThread.cache_or_new, hcached] at hcache ⊢
        exact unref_step hcache
  · have hsafe := call_step_safe hs hcache hpc
    rw [PoolThread.cache_or_new, hcall] at hsafe
    exact ⟨hsafe.pool_shaped, ⟨hsafe.cache_shaped, hsafe.at_point⟩, hsafe.transfer.mono False.elim⟩
  · obtain ⟨hpool, hat, htransfer⟩ := handle_step_spec callers_use hq hallowed
      (s.shelved P + l.cache_or_new.holds P)
    have hshelved : q.1.shelved P = s.shelved P := by rw [PoolShared.shelved, hpool]; rfl
    refine ⟨?_, ⟨hcache, hat _⟩, ?_⟩
    · intro j
      rw [hpool]
      exact hs j
    · rw [thread_ledger, hidle]
      change Ledger.Step _ _ (q.1.books (q.1.shelved P + l.cache_or_new.holds P) q.2.carried)
      rw [hshelved]
      exact htransfer

end ordinum.batch_pool
