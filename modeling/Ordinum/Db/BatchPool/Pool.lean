import Ordinum.Db.Batch.Inner
import Ordinum.Interleaving.System
import Ordinum.Utils.InitStack

open init_stack
open interleaving
open ordinum.batch ordinum.utils

namespace ordinum.batch_pool

/-- The const parameters of `BatchPoolImpl`, within the bounds its constructors
assert. -/
structure PoolParams where
  SHARDS_PER_POOL : Nat
  MAX_BATCH_PER_SHARD : Nat
  TLS_CAP : Nat
  TLS_TARGET_RETAINED : Nat
  shards_pos : 0 < SHARDS_PER_POOL
  shard_pos : 0 < MAX_BATCH_PER_SHARD
  shard_le : MAX_BATCH_PER_SHARD ≤ 255
  target_pos : 0 < TLS_TARGET_RETAINED
  target_le : TLS_TARGET_RETAINED ≤ TLS_CAP
  cap_le : TLS_CAP ≤ 255

/-- The batches that one thread keeps for itself. -/
structure ThreadBatchCache where
  shard_idx : Option Nat
  batches : InitStack BatchPtr

def ThreadBatchCache.new_with_const_size : ThreadBatchCache :=
  { shard_idx := none, batches := .empty }

structure BatchPoolStats where
  tls_misses : BitVec 64
  global_batches_reused : BitVec 64
  allocations : BitVec 64
  allocated_bytes : BitVec 64
  batches_dropped : BitVec 64
  deriving DecidableEq, Repr

def BatchPoolStats.new : BatchPoolStats :=
  { tls_misses := 0, global_batches_reused := 0, allocations := 0, allocated_bytes := 0,
    batches_dropped := 0 }

/-- Where a batch that is handed to a caller comes from. -/
inductive Source where
  | factory
  | cache
  | shard
  | reset
  deriving DecidableEq, Repr

/-- A batch at the moment a caller gets it (history). -/
structure HandOut where
  batch : BatchPtr
  source : Source
  inner : BatchInner
  deriving DecidableEq, Repr

/-- A caller's `Batch<UnCommitted>` or `Batch<Sealed>`. -/
structure BatchHandle where
  batch : BatchPtr
  is_sealed : Bool
  deriving DecidableEq, Repr

/-- The memory shared by the threads. `allocated` counts the batches that the
factory has produced; `dropped`, `committed` and `handed_out` are history. -/
structure PoolShared where
  pool : Nat → InitStack BatchPtr
  heap : BatchPtr → BatchInner
  next_shard : BitVec 64
  stats : BatchPoolStats
  allocated : Nat
  handles : List BatchHandle
  dropped : List BatchPtr
  committed : List BatchPtr
  handed_out : List HandOut

namespace PoolShared

def set_inner (s : PoolShared) (batch : BatchPtr) (inner : BatchInner) : PoolShared :=
  { s with heap := Function.update s.heap batch inner }

def set_runtime_state (s : PoolShared) (batch : BatchPtr) (state : BatchRuntimeState) :
    PoolShared :=
  s.set_inner batch ((s.heap batch).set_runtime_state state)

/-- An owning pointer goes out of scope: the allocation is freed. -/
def drop (s : PoolShared) (batch : BatchPtr) : PoolShared :=
  { s with dropped := batch :: s.dropped }

def remove_handle (s : PoolShared) (handle : BatchHandle) : PoolShared :=
  { s with handles := s.handles.erase handle }

/-- `BatchObject::acquire`, and the batch reaches the caller. -/
def acquire (s : PoolShared) (batch : BatchPtr) (source : Source) : PoolShared :=
  let inner := (s.heap batch).set_runtime_state .Acquired
  { s.set_inner batch inner with
    handles := { batch, is_sealed := false } :: s.handles
    handed_out := s.handed_out ++ [{ batch, source, inner }] }

end PoolShared

/-- What `refill_tls_cache` keeps on its stack: its shard, the batch it will
return and the counts for the statistics. -/
structure Refill where
  shard_idx : Nat
  batch : BatchPtr
  source : Source
  allocated : Nat
  bytes_allocated : Nat
  reused : Nat
  deriving DecidableEq, Repr

/-- Program points of `acquire_object` and `release`, each before its next
section: a step of the owning thread's cache, a locked section of a shard or an
atomic access. `panicked` is where a failed assertion or `unreachable!` leads. -/
inductive PoolPc where
  | idle
  | try_acquire_from_tls
  | refill_shard_idx
  | refill_pop (shard_idx : Nat)
  | allocate (shard_idx : Nat)
  | hydrate (refill : Refill)
  | hydrate_push (refill : Refill) (batch : BatchPtr)
  | update_stats (refill : Refill)
  | return_acquired (refill : Refill)
  | reset (batch : BatchPtr)
  | push (batch : BatchPtr)
  | release_shard_idx (batch : BatchPtr)
  | spill (shard_idx : Nat) (batch : BatchPtr)
  | push_to_global (shard_idx : Nat) (batch spilled : BatchPtr)
  | push_released (batch : BatchPtr)
  | panicked
  deriving DecidableEq, Repr

structure PoolThread where
  cache : Option ThreadBatchCache
  pc : PoolPc

variable (P : PoolParams)

/-- `ThreadBatchCache::push`: on success the batch becomes idle. -/
def cache_push (s : PoolShared) (cache : ThreadBatchCache) (entry : BatchPtr) :
    Option (Except BatchPtr (PoolShared × ThreadBatchCache)) :=
  (cache.batches.push P.TLS_CAP entry).map fun
    | .error entry => .error entry
    | .ok batches => .ok (s.set_runtime_state entry .Idle, { cache with batches })

/-- `BatchPoolShard::push` under the shard's lock. -/
def shard_push (s : PoolShared) (shard_idx : Nat) (batch : BatchPtr) :
    Option (Except BatchPtr PoolShared) :=
  if shard_idx < P.SHARDS_PER_POOL then
    ((s.pool shard_idx).push P.MAX_BATCH_PER_SHARD batch).map fun
      | .error batch => .error batch
      | .ok shard =>
        .ok { s.set_runtime_state batch .Idle with pool := Function.update s.pool shard_idx shard }
  else none

/-- `BatchPoolShard::pop` under the shard's lock. -/
def shard_pop (s : PoolShared) (shard_idx : Nat) : Option (Option (BatchPtr × PoolShared)) :=
  if shard_idx < P.SHARDS_PER_POOL then
    (s.pool shard_idx).pop.map fun popped => popped.map fun (batch, shard) =>
      (batch, { s with pool := Function.update s.pool shard_idx shard })
  else none

/-- `shard_idx_for_cache`. -/
def shard_idx_for_cache (s : PoolShared) (cache : ThreadBatchCache) :
    Nat × PoolShared × ThreadBatchCache :=
  match cache.shard_idx with
  | some id => (id, s, cache)
  | none =>
    let id := s.next_shard.toNat % P.SHARDS_PER_POOL
    (id, { s with next_shard := s.next_shard + 1 }, { cache with shard_idx := some id })

def BatchPoolStats.refilled (stats : BatchPoolStats) (refill : Refill) : BatchPoolStats :=
  { stats with
    tls_misses := stats.tls_misses + 1
    allocations := stats.allocations + BitVec.ofNat 64 refill.allocated
    allocated_bytes := stats.allocated_bytes + BitVec.ofNat 64 refill.bytes_allocated
    global_batches_reused := stats.global_batches_reused + BitVec.ofNat 64 refill.reused }

/-- One section of a running `acquire_object` or `release`. -/
def call_step (s : PoolShared) (cache : ThreadBatchCache) :
    PoolPc → PoolShared × ThreadBatchCache × PoolPc
  | .try_acquire_from_tls =>
    match cache.batches.pop with
    | none => (s, cache, .panicked)
    | some none => (s, cache, .refill_shard_idx)
    | some (some (batch, batches)) => (s.acquire batch .cache, { cache with batches }, .idle)
  | .refill_shard_idx =>
    let (shard_idx, s, cache) := shard_idx_for_cache P s cache
    (s, cache, .refill_pop shard_idx)
  | .refill_pop shard_idx =>
    match shard_pop P s shard_idx with
    | none => (s, cache, .panicked)
    | some none => (s, cache, .allocate shard_idx)
    | some (some (batch, s)) =>
      (s, cache, .hydrate
        { shard_idx, batch, source := .shard, allocated := 0, bytes_allocated := 0, reused := 1 })
  | .allocate shard_idx =>
    let batch := s.allocated
    ({ s.set_inner batch .new with allocated := s.allocated + 1 }, cache, .hydrate
      { shard_idx, batch, source := .factory, allocated := 1,
        bytes_allocated := BatchInner.new.data.length, reused := 0 })
  | .hydrate refill =>
    if cache.batches.len < P.TLS_CAP / 2 then
      match shard_pop P s refill.shard_idx with
      | none => (s, cache, .panicked)
      | some none => (s, cache, .update_stats refill)
      | some (some (batch, s)) =>
        (s, cache, .hydrate_push { refill with reused := refill.reused + 1 } batch)
    else (s, cache, .update_stats refill)
  | .hydrate_push refill batch =>
    match cache_push P s cache batch with
    | none => (s, cache, .panicked)
    -- the refused batch is ignored, which frees it
    | some (.error batch) => (s.drop batch, cache, .hydrate refill)
    | some (.ok (s, cache)) => (s, cache, .hydrate refill)
  | .update_stats refill =>
    ({ s with stats := s.stats.refilled refill }, cache, .return_acquired refill)
  | .return_acquired refill => (s.acquire refill.batch refill.source, cache, .idle)
  | .reset batch =>
    match (s.heap batch).reset_batch with
    -- shrinking a large buffer does not change the bytes in it
    | some inner => (s.set_inner batch inner, cache, .push batch)
    -- the failed assertion unwinds, and the batch goes out of scope
    | none => (s.drop batch, cache, .idle)
  | .push batch =>
    match cache_push P s cache batch with
    | none => (s, cache, .panicked)
    | some (.error batch) => (s, cache, .release_shard_idx batch)
    | some (.ok (s, cache)) => (s, cache, .idle)
  | .release_shard_idx batch =>
    let (shard_idx, s, cache) := shard_idx_for_cache P s cache
    (s, cache, .spill shard_idx batch)
  | .spill shard_idx batch =>
    if P.TLS_TARGET_RETAINED ≤ cache.batches.len then
      match cache.batches.pop with
      | none | some none => (s, cache, .panicked)
      | some (some (spilled, batches)) =>
        (s, { cache with batches }, .push_to_global shard_idx batch spilled)
    else (s, cache, .push_released batch)
  | .push_to_global shard_idx batch spilled =>
    match shard_push P s shard_idx spilled with
    | none => (s, cache, .panicked)
    | some (.error spilled) => (s.drop spilled, cache, .spill shard_idx batch)
    | some (.ok s) => (s, cache, .spill shard_idx batch)
  | .push_released batch =>
    match cache_push P s cache batch with
    | some (.ok (s, cache)) => (s, cache, .idle)
    | _ => (s, cache, .panicked)
  | .idle => (s, cache, .idle)
  | .panicked => (s, cache, .panicked)

/-- What a thread between calls can do: call the pool, use a batch it has a
handle of, let the pipeline change a batch's runtime state, or exit. -/
inductive PoolAct where
  | acquire_object
  | release (handle : BatchHandle)
  | put (batch : BatchPtr) (key value : List Byte)
  | seal (batch : BatchPtr)
  | commit (batch : BatchPtr)
  | set_runtime_state (handle : BatchHandle) (state : BatchRuntimeState)
  | reset (handle : BatchHandle)
  | close (handle : BatchHandle)
  | drop (handle : BatchHandle)
  | exit
  | step

/-- `ThreadBatchCache::unref`: every slot below the length is read and dropped. -/
def unref (s : PoolShared) (cache : ThreadBatchCache) : PoolShared :=
  { s with
    dropped := (List.range cache.batches.len).filterMap cache.batches.slots ++ s.dropped }

/-- A step of a caller on a batch it has a handle of. -/
def handle_step (s : PoolShared) : PoolAct → Option (PoolShared × PoolPc)
  | .release handle =>
    if handle ∈ s.handles then some (s.remove_handle handle, .reset handle.batch) else none
  | .put batch key value =>
    if { batch, is_sealed := false } ∈ s.handles then
      match (BatchInner.put DEFAULT_CF_ID key value).run.run (s.heap batch) with
      | some (_, inner) => some (s.set_inner batch inner, .idle)
      | none => some ((s.remove_handle { batch, is_sealed := false }).drop batch, .idle)
    else none
  | .seal batch =>
    if { batch, is_sealed := false } ∈ s.handles then
      some ({ s.remove_handle { batch, is_sealed := false } with
        handles := { batch, is_sealed := true } ::
          (s.remove_handle { batch, is_sealed := false }).handles }, .idle)
    else none
  -- `commit` signals the waiter itself, without any WAL record being synced
  | .commit batch =>
    if { batch, is_sealed := true } ∈ s.handles then
      some ({ s.set_inner batch { s.heap batch with sync_waiter := .SyncDone } with
        committed := batch :: s.committed }, .idle)
    else none
  | .set_runtime_state handle state =>
    if handle ∈ s.handles then some (s.set_runtime_state handle.batch state, .idle) else none
  | .reset handle =>
    if handle ∈ s.handles then
      -- a failed assertion or wait unwinds, and the handle goes out of scope
      if (s.heap handle.batch).runtime_commit_state.is_reset_safe then
        match (s.heap handle.batch).wait_until_reusable, (s.heap handle.batch).reset_batch with
        | none, _ => none
        | some true, some inner =>
          some (((s.remove_handle handle).set_inner handle.batch inner).acquire handle.batch .reset,
            .idle)
        | _, _ => some ((s.remove_handle handle).drop handle.batch, .idle)
      else some ((s.remove_handle handle).drop handle.batch, .idle)
    else none
  | .close handle =>
    if handle ∈ s.handles then
      match (s.heap handle.batch).wait_until_reusable with
      | none => none
      | some true => some (s.remove_handle handle, .reset handle.batch)
      | some false => some ((s.remove_handle handle).drop handle.batch, .idle)
    else none
  | .drop handle =>
    if handle ∈ s.handles then some ((s.remove_handle handle).drop handle.batch, .idle) else none
  | .acquire_object => some (s, .try_acquire_from_tls)
  | _ => none

/-- One step of a thread; its cache is created when it is first needed. -/
def pool_step : PoolAct → PoolShared → PoolThread → Option (PoolShared × PoolThread)
  | .exit, s, { cache, pc := .idle } =>
    some (cache.elim s (unref s), { cache := none, pc := .idle })
  | .step, s, { cache, pc } =>
    if pc = .idle then none
    else
      let (s, cache, pc) := call_step P s (cache.getD .new_with_const_size) pc
      some (s, { cache := some cache, pc })
  | a, s, { cache, pc := .idle } => (handle_step s a).map fun (s, pc) => (s, { cache, pc })
  | _, _, _ => none

/-- Any number of threads on a pool that starts empty. -/
def pool_system (Tid : Type) [DecidableEq Tid] :
    System Tid PoolAct PoolShared PoolThread where
  shared₀ :=
    { pool := fun _ => .empty
      heap := fun _ => .new
      next_shard := 0
      stats := .new
      allocated := 0
      handles := []
      dropped := []
      committed := []
      handed_out := [] }
  local₀ := { cache := none, pc := .idle }
  step := fun _ => pool_step P

end ordinum.batch_pool
