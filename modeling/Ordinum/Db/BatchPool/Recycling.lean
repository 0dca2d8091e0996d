import Ordinum.Db.BatchPool.Ownership

open init_stack
open interleaving
open interleaving.System
open ordinum.batch

namespace ordinum.batch_pool

variable {P : PoolParams} {Tid : Type} [DecidableEq Tid]

/-- What a refill in progress has got. -/
def PoolPc.refill : PoolPc → Option Refill
  | .hydrate refill | .update_stats refill | .return_acquired refill | .hydrate_push refill _ =>
    some refill
  | _ => none

/-- The step does not hand out a batch for a second time: the cache is empty when
a caller asks it for a batch, the shard is empty when a refill asks it for one,
and no caller resets its batch. -/
def hands_out_fresh : StepCondition Tid PoolAct PoolShared PoolThread := fun _ a s l =>
  (∀ handle, a ≠ .reset handle) ∧
  (l.pc = .try_acquire_from_tls → l.cache_or_new.batches.len = 0) ∧
  ∀ j, l.pc = .refill_pop j → (s.pool j).len = 0

section call_step

variable {s : PoolShared} {cache : ThreadBatchCache} {pc : PoolPc}

theorem pop_ne_zero {α : Type} {stack stack' : InitStack α} {entry : α}
    (h : stack.pop = some (some (entry, stack'))) : stack.len ≠ 0 := by
  intro hzero
  rw [InitStack.pop, if_pos hzero] at h
  cases h

/-- A refill that finds its shard empty gets its batch from the factory. -/
theorem call_step_refill (cache : ThreadBatchCache) (hshard : ∀ j, pc = .refill_pop j → (s.pool j).len = 0)
    (hrefill : ∀ refill, pc.refill = some refill → refill.source = .factory) :
    ∀ refill, (call_step P s cache pc).2.2.refill = some refill → refill.source = .factory := by
  fun_cases call_step P s cache pc
  case case7 j batch s' hpop =>
    simp only [shard_pop, Option.ite_none_right_eq_some, Option.map_eq_some_iff] at hpop
    obtain ⟨-, popped, hpop, ⟨⟨b, shard⟩, rfl, -⟩⟩ := hpop
    exact absurd (hshard j rfl) (pop_ne_zero hpop)
  all_goals simp_all [PoolPc.refill]

variable (P s cache pc) in
/-- A call hands out a batch from the cache or at the end of a refill. -/
theorem call_step_handed_out :
    (call_step P s cache pc).1.handed_out = s.handed_out ∨
    (pc = .try_acquire_from_tls ∧ cache.batches.len ≠ 0) ∨
    ∃ refill, pc = .return_acquired refill ∧ ∃ o, o.source = refill.source ∧
      (call_step P s cache pc).1.handed_out = s.handed_out ++ [o] := by
  fun_cases call_step P s cache pc
  case case3 batch batches hpop => exact .inr (.inl ⟨rfl, pop_ne_zero hpop⟩)
  case case17 refill => exact .inr (.inr ⟨refill, rfl, _, rfl, rfl⟩)
  all_goals left
  all_goals first
    | rfl
    | exact (shard_pop_accounts ‹_›).handed_out
    | exact (cache_push_accounts ‹_›).handed_out
    | exact (shard_push_accounts ‹_›).handed_out
    | exact (shard_idx_for_cache_accounts ‹_›).handed_out

end call_step

theorem handle_step_fresh {a : PoolAct} {s : PoolShared} {q : PoolShared × PoolPc}
    (hq : handle_step s a = some q) (hreset : ∀ handle, a ≠ .reset handle) :
    q.1.handed_out = s.handed_out ∧ q.2.refill = none := by
  cases a with
  | reset handle => exact absurd rfl (hreset handle)
  | acquire_object =>
    cases hq
    exact ⟨rfl, rfl⟩
  | exit => cases hq
  | step => cases hq
  | put | close =>
    simp only [handle_step, Option.ite_none_right_eq_some] at hq
    obtain ⟨-, hq⟩ := hq
    split at hq <;> cases hq <;> exact ⟨rfl, rfl⟩
  | _ =>
    simp only [handle_step, Option.ite_none_right_eq_some] at hq
    obtain ⟨-, hq⟩ := hq
    cases hq
    exact ⟨rfl, rfl⟩

variable (Tid) in
/-- While no batch is handed out for a second time, the hand-outs and the refills
in progress have their batches from the factory. -/
def factory_only : Outline Tid PoolShared PoolThread where
  shared := fun s => ∀ o ∈ s.handed_out, o.source = .factory
  thread := fun _ _ l => ∀ refill, l.pc.refill = some refill → refill.source = .factory
  apart := fun _ _ => True

theorem factory_only_valid :
    Outline.trivial.ValidOver (factory_only Tid) (pool_system P Tid) hands_out_fresh where
  init_shared := fun o ho => absurd ho List.not_mem_nil
  init_thread := fun _ refill h => by cases h
  init_apart := trivial
  step_own := by
    intro t a s l r _ _ hs hl hG hr
    obtain ⟨hreset, hcache, hshard⟩ := hG
    rcases pool_step_cases hr with ⟨_, hidle, rfl⟩ | ⟨_, shared, cache, pc, hcall, rfl⟩ |
      ⟨hidle, q, hq, rfl⟩
    · refine ⟨?_, fun refill h => by cases h⟩
      cases hcached : l.cache <;> exact hs
    · have hrefill := call_step_refill (P := P) (l.cache.getD .new_with_const_size) hshard hl
      rw [hcall] at hrefill
      refine ⟨?_, hrefill⟩
      have hout := call_step_handed_out P s (l.cache.getD .new_with_const_size) l.pc
      rw [hcall] at hout
      obtain hsame | ⟨hpc, hlen⟩ | ⟨refill, hpc, o, ho, happend⟩ := hout
      · intro o ho
        rw [show shared.handed_out = s.handed_out from hsame] at ho
        exact hs o ho
      · exact absurd (hcache hpc) hlen
      · intro o' ho'
        rw [show shared.handed_out = s.handed_out ++ [o] from happend] at ho'
        obtain ho' | ho' := List.mem_append.mp ho'
        · exact hs o' ho'
        · rw [List.mem_singleton.mp ho', ho]
          exact hl refill (by rw [hpc]; rfl)
    · obtain ⟨hout, hrefill⟩ := handle_step_fresh hq hreset
      refine ⟨?_, ?_⟩
      · intro o ho
        rw [show q.1.handed_out = s.handed_out from hout] at ho
        exact hs o ho
      · intro refill h
        rw [show q.2.refill = none from hrefill] at h
        cases h
  step_other := fun _ _ _ _ _ _ _ _ _ hpair _ _ => ⟨hpair.other, trivial, trivial⟩

/-- What the callers may rely on if recycled batches are like new ones: each is
handed out in its first state, it can be stamped, and the waiter of a batch in
hand has been signalled only if that batch was committed. -/
structure LikeNew (c : Config Tid PoolShared PoolThread) : Prop where
  new : ∀ o ∈ c.shared.handed_out, o.inner = .new
  stampable : ∀ o ∈ c.shared.handed_out, ∀ seq_num, ∃ stamped,
    o.inner.assign_seq_num_once seq_num = some stamped ∧ stamped.seq_num = some seq_num
  own_signal : ∀ h ∈ c.shared.handles, (c.shared.heap h.batch).sync_waiter ≠ .Init →
    h.batch ∈ c.shared.committed

theorem new_stampable (seq_num : BitVec 64) : ∃ stamped,
    BatchInner.new.assign_seq_num_once seq_num = some stamped ∧
      stamped.seq_num = some seq_num := by
  have hlength : (wire.to_le_bytes 8 seq_num).length = 8 := wire.length_to_le_bytes 8 seq_num
  have hassign : BatchInner.new.assign_seq_num_once seq_num = some
      { BatchInner.new with data := wire.to_le_bytes 8 seq_num ++ List.replicate 4 0#8 } := by
    have hroom : BatchInner.BATCH_COUNT_OFFSET < BatchInner.new.data.length := by decide
    rw [BatchInner.assign_seq_num_once, if_pos hroom, copy_from_slice,
      if_pos ⟨by decide, by rw [hlength]; rfl⟩]
    rfl
  refine ⟨_, hassign, ?_⟩
  have hroom : BatchInner.BATCH_COUNT_OFFSET <
      (wire.to_le_bytes 8 seq_num ++ List.replicate 4 0#8).length := by
    simp [BatchInner.BATCH_COUNT_OFFSET]
  have htake : (wire.to_le_bytes 8 seq_num ++ List.replicate 4 0#8).take
      BatchInner.BATCH_COUNT_OFFSET = wire.to_le_bytes 8 seq_num := List.take_left' hlength
  rw [BatchInner.seq_num, if_pos hroom, htake, wire.from_le_bytes_to_le_bytes 8 seq_num.isLt]

/-- A batch without its header cannot be stamped. -/
theorem empty_not_stampable {inner : BatchInner} (hempty : inner.data = []) (seq_num : BitVec 64) :
    inner.assign_seq_num_once seq_num = none := by
  rw [BatchInner.assign_seq_num_once, hempty]
  rfl

variable {G : StepCondition Tid PoolAct PoolShared PoolThread} {c : Config Tid PoolShared PoolThread}

theorem unsignalled_of_factory (hc : (pool_system P Tid).ReachableUnder G c)
    (hfactory : ∀ o ∈ c.shared.handed_out, o.source = .factory) :
    ∀ h ∈ c.shared.handles, (c.shared.heap h.batch).sync_waiter ≠ .Init →
      h.batch ∈ c.shared.committed := by
  revert hfactory
  refine ReachableUnder.induction (P := fun c => (∀ o ∈ c.shared.handed_out, o.source = .factory) →
    ∀ h ∈ c.shared.handles, (c.shared.heap h.batch).sync_waiter ≠ .Init →
      h.batch ∈ c.shared.committed) (fun _ h hmem => absurd hmem List.not_mem_nil) ?_ hc
  intro c t a r hc hall hG hr hfactory
  have hnext : (pool_system P Tid).ReachableUnder G (c.move t r) := hc.tail ⟨t, a, r, hG, hr, rfl⟩
  have hnodup := nodup_thread_ledger hnext t
  rw [Config.move_threads_self] at hnodup
  have htransfer := transfer_of_step hc hr True fun _ => trivial
  exact htransfer.unsignalled hnodup (handed_out_described hnext) hfactory
    (hall fun o ho => hfactory o (htransfer.handed_out_subset ho))

/-- A hand-out is in the first state exactly if its batch comes from the factory. -/
theorem HandOut.Described.new_iff {o : HandOut} (ho : o.Described) :
    o.inner = .new ↔ o.source = .factory := by
  have hcarry := ho.1
  constructor
  · intro hnew
    rw [hnew] at hcarry
    cases hsource : o.source with
    | factory => rfl
    | cache | shard | reset =>
      rw [hsource] at hcarry
      have hheader : BatchInner.new.data ≠ [] := by decide
      exact absurd hcarry hheader
  · intro hsource
    rw [hsource] at hcarry
    exact hcarry

/-- In every run the batches handed out are like new ones exactly if all of them
came from the factory; that is so in runs that hand out no batch for a second
time, and a batch that was recycled cannot be stamped before its first put. -/
theorem like_new_iff (hc : (pool_system P Tid).Reachable c) :
    (LikeNew c ↔ ∀ o ∈ c.shared.handed_out, o.source = .factory) ∧
    ((pool_system P Tid).ReachableUnder hands_out_fresh c → LikeNew c) ∧
    ∀ o ∈ c.shared.handed_out, o.source ≠ .factory →
      ∀ seq_num, o.inner.assign_seq_num_once seq_num = none := by
  have hdescribed := handed_out_described hc
  have hlike : (∀ o ∈ c.shared.handed_out, o.source = .factory) → LikeNew c := by
    intro hfactory
    have hnew : ∀ o ∈ c.shared.handed_out, o.inner = .new := fun o ho =>
      (hdescribed o ho).new_iff.mpr (hfactory o ho)
    refine ⟨hnew, ?_, unsignalled_of_factory hc hfactory⟩
    intro o ho seq_num
    rw [hnew o ho]
    exact new_stampable seq_num
  refine ⟨⟨fun h o ho => (hdescribed o ho).new_iff.mp (h.new o ho), hlike⟩, ?_, ?_⟩
  · intro hfresh
    exact hlike (factory_only_valid.holds_of_trivial hfresh).shared
  · intro o ho hsource seq_num
    have hcarry := (hdescribed o ho).1
    apply empty_not_stampable
    cases hs : o.source with
    | factory => exact absurd hs hsource
    | cache | shard | reset =>
      rw [hs] at hcarry
      exact hcarry

/-- One thread acquires a batch, commits it, closes it and acquires it again. -/
def commit_and_acquire : List (Bool × PoolAct) :=
  let steps (n : Nat) : List (Bool × PoolAct) := List.replicate n (true, .step)
  (true, .acquire_object) :: steps 7 ++ (true, .put 0 [1#8] [2#8]) :: (true, .seal 0) ::
    (true, .commit 0) :: (true, .close { batch := 0, is_sealed := true }) :: steps 2 ++
    (true, .acquire_object) :: steps 1

theorem like_new_iff_commit_and_acquire : ∃ c : Config Bool PoolShared PoolThread,
    c.shared.handed_out.map HandOut.source = [.factory, .cache] ∧
    ¬ LikeNew c ∧ (pool_system tiny_pool Bool).Reachable c := by
  obtain ⟨c, hc, hseen⟩ := reachable_showing (pool_system tiny_pool Bool) anyStep
    commit_and_acquire (fun c => c.shared.handed_out.map HandOut.source) [.factory, .cache]
    (by decide +kernel)
  refine ⟨c, hseen, ?_, hc⟩
  rw [(like_new_iff hc).1]
  intro hfactory
  have hmem : Source.cache ∈ c.shared.handed_out.map HandOut.source := by
    rw [hseen]
    simp
  obtain ⟨o, ho, hsource⟩ := List.mem_map.mp hmem
  rw [hfactory o ho] at hsource
  cases hsource

/-- The batch that is acquired for the second time has no header, and its waiter
still shows the signal of the first commit. -/
theorem recycled_batch_not_new : ∃ c : Config Bool PoolShared PoolThread,
    (pool_system tiny_pool Bool).Reachable c ∧
    ∃ o ∈ c.shared.handed_out, o.inner ≠ .new ∧ o.inner.data = [] ∧
      o.inner.sync_waiter = .SyncDone ∧ o.inner.assign_seq_num_once 7 = none := by
  obtain ⟨c, hc, hseen⟩ := reachable_showing (pool_system tiny_pool Bool) anyStep
    commit_and_acquire (fun c => c.shared.handed_out.drop 1)
    [{ batch := 0, source := .cache, inner := { BatchInner.new with
        data := [], sync_waiter := .SyncDone } }] (by decide +kernel)
  have hmem : { batch := 0, source := .cache, inner := { BatchInner.new with
      data := [], sync_waiter := .SyncDone } } ∈ c.shared.handed_out.drop 1 := by
    rw [hseen]
    exact List.mem_singleton_self _
  exact ⟨c, hc, _, List.mem_of_mem_drop hmem, by decide, rfl, rfl, by decide⟩

end ordinum.batch_pool
