import Mathlib.Algebra.BigOperators.Fin
import Ordinum.Db.BatchPool.Refinement
import Ordinum.Interleaving.Ownership

open init_stack
open interleaving
open ordinum.batch

namespace ordinum.batch_pool

variable {P : PoolParams}

variable (P) in
/-- Who holds the batches: a thread has those in its cache and those its call
carries; the others lie in the shards, in the callers' hands or are dropped. -/
def pool_holdings : Holdings PoolShared PoolThread BatchPtr where
  shared := fun s =>
    s.shelved P + Multiset.map BatchHandle.batch s.handles + Multiset.ofList s.dropped
  thread := fun l => l.cache_or_new.holds P + l.pc.carried.map Prod.fst
  created := fun s batch => batch < s.allocated

variable {Tid : Type} [DecidableEq Tid]

omit [DecidableEq Tid] in
theorem entries_thread_ledger (s : PoolShared) (l : PoolThread) :
    (thread_ledger P s l).entries = (pool_holdings P).shared s + (pool_holdings P).thread l := by
  simp only [Ledger.entries, thread_ledger, ledger, PoolShared.books, pool_holdings]
  abel

variable (P Tid) in
/-- The pool stays in shape in every run. -/
def pool_shape : System.Outline Tid PoolShared PoolThread where
  shared := PoolShared.Shaped P
  thread := fun _ _ l => l.Shaped P
  apart := fun _ _ => True

open System

theorem pool_shape_valid :
    Outline.trivial.ValidOver (pool_shape P Tid) (pool_system P Tid) anyStep where
  init_shared := fun _ => InitStack.prefix_empty _
  init_thread := fun _ => ⟨new_cache_shaped, trivial⟩
  init_apart := trivial
  step_own := by
    intro t a s l r _ _ hs hl _ hr
    have hsafe := pool_step_safe True hs hl hr fun _ => trivial
    exact ⟨hsafe.1, hsafe.2.1⟩
  step_other := fun _ _ _ _ _ _ _ _ _ hpair _ _ => ⟨hpair.other, trivial, trivial⟩

/-- What every step of a run does to the stepping thread's ledger. -/
theorem transfer_of_step {G : StepCondition Tid PoolAct PoolShared PoolThread}
    {c : Config Tid PoolShared PoolThread} (hc : (pool_system P Tid).ReachableUnder G c) {t : Tid}
    {a : PoolAct} {r : PoolShared × PoolThread}
    (hr : (pool_system P Tid).step t a c.shared (c.threads t) = some r) (callers_use : Prop)
    (hallowed : a.uses_batch → callers_use) :
    Ledger.Step callers_use (thread_ledger P c.shared (c.threads t)) (thread_ledger P r.1 r.2) := by
  have hshape := pool_shape_valid.holds_of_trivial hc.reachable
  exact (pool_step_safe callers_use hshape.shared (hshape.thread t) hr hallowed).2.2

/-- A transfer moves batches between the thread and the shared memory. -/
theorem moves_of_transfer {callers_use : Prop} {s : PoolShared} {l : PoolThread}
    {r : PoolShared × PoolThread}
    (h : Ledger.Step callers_use (thread_ledger P s l) (thread_ledger P r.1 r.2)) :
    ∃ fresh, (pool_holdings P).Moves s l r fresh := by
  have hentries := h.entries
  simp only [entries_thread_ledger] at hentries
  obtain ⟨hbalance, hallocated⟩ | ⟨hbalance, hallocated⟩ := hentries
  · refine ⟨0, .of_balance _ hbalance fun batch => ?_⟩
    change batch < (thread_ledger P r.1 r.2).allocated ↔ _
    rw [hallocated]
    rfl
  · refine ⟨{s.allocated}, ?_, Multiset.nodup_singleton _, ?_, ?_⟩
    · rw [hbalance, ← Multiset.singleton_add, add_comm]
      rfl
    · intro batch hmem hlt
      rw [Multiset.mem_singleton.mp hmem] at hlt
      exact Nat.lt_irrefl _ hlt
    · intro batch
      change batch < (thread_ledger P r.1 r.2).allocated ↔ batch < s.allocated ∨ _
      rw [hallocated, Multiset.mem_singleton]
      exact Nat.lt_succ_iff_lt_or_eq

variable (P Tid) in
theorem entries_init :
    (thread_ledger P (pool_system P Tid).shared₀ (pool_system P Tid).local₀).entries = 0 := by
  have hshelved : (pool_system P Tid).shared₀.shelved P = 0 := by
    change ∑ j ∈ Finset.range P.SHARDS_PER_POOL,
      InitStack.contents P.MAX_BATCH_PER_SHARD .empty = 0
    simp only [InitStack.contents_empty, Finset.sum_const_zero]
  have hcached : (pool_system P Tid).local₀.cache_or_new.holds P = 0 := new_cache_holds
  rw [entries_thread_ledger]
  change (pool_system P Tid).shared₀.shelved P + 0 + 0 +
    ((pool_system P Tid).local₀.cache_or_new.holds P + 0) = 0
  rw [hshelved, hcached]
  rfl

theorem exclusive_init : (pool_holdings P).Exclusive (pool_system P Tid).init := by
  refine ⟨fun batch hbatch => absurd hbatch (Nat.not_lt_zero batch), ?_⟩
  intro batch place hmem
  have hentries := entries_thread_ledger (P := P) (pool_system P Tid).shared₀
    (pool_system P Tid).local₀
  rw [entries_init] at hentries
  refine absurd ?_ (Multiset.notMem_zero batch)
  rw [hentries, Multiset.mem_add]
  cases place with
  | none => exact .inl hmem
  | some t => exact .inr hmem

section runs

variable {G : StepCondition Tid PoolAct PoolShared PoolThread} {c : Config Tid PoolShared PoolThread}

/-- Every batch has one holder in every run. -/
theorem pool_exclusive (hc : (pool_system P Tid).ReachableUnder G c) :
    (pool_holdings P).Exclusive c := by
  refine Holdings.exclusive_of_moves exclusive_init ?_ hc
  intro c t a r hc _ _ hr
  exact moves_of_transfer (transfer_of_step hc hr True fun _ => trivial)

theorem nodup_thread_ledger (hc : (pool_system P Tid).ReachableUnder G c) (t : Tid) :
    (thread_ledger P c.shared (c.threads t)).entries.Nodup := by
  rw [entries_thread_ledger]
  exact (pool_exclusive hc).nodup_add t

/-- A step leaves the batches that another thread holds as they are. -/
theorem heap_of_other_thread (hc : (pool_system P Tid).ReachableUnder G c) {t u : Tid}
    {a : PoolAct} {r : PoolShared × PoolThread}
    (hG : G t a c.shared (c.threads t))
    (hr : (pool_system P Tid).step t a c.shared (c.threads t) = some r) (hne : u ≠ t)
    {batch : BatchPtr} (hmem : batch ∈ (pool_holdings P).thread (c.threads u)) :
    r.1.heap batch = c.shared.heap batch := by
  have hnext : (pool_system P Tid).ReachableUnder G (c.move t r) := hc.tail ⟨t, a, r, hG, hr, rfl⟩
  have hother : batch ∈ (pool_holdings P).held (c.move t r) (some u) := by
    rw [Holdings.held_move_of_ne hne]
    exact hmem
  apply (transfer_of_step hc hr True fun _ => trivial).frame
  rw [entries_thread_ledger, Multiset.mem_add]
  rintro (hshared | hthread)
  · have hown : batch ∈ (pool_holdings P).held (c.move t r) none := hshared
    cases (pool_exclusive hnext).same_place hother hown
  · have hown : batch ∈ (pool_holdings P).held (c.move t r) (some t) := by
      rw [Holdings.held, Config.move_threads_self]
      exact hthread
    cases (pool_exclusive hnext).same_place hother hown
    exact hne rfl

/-- In every run the stored batches are idle and empty. -/
theorem pool_clean (hc : (pool_system P Tid).ReachableUnder G c) :
    ∀ t, (thread_ledger P c.shared (c.threads t)).Clean := by
  refine ReachableUnder.induction
    (P := fun c => ∀ t, (thread_ledger P c.shared (c.threads t)).Clean) ?_ ?_ hc
  · intro t
    have hempty := entries_init P Tid
    refine ⟨fun batch hmem => absurd ?_ (Multiset.notMem_zero batch), ?_⟩
    · rw [← hempty]
      simp only [Ledger.entries, Multiset.mem_add]
      exact .inl (.inl (.inl hmem))
    · exact fun batch carry hmem => absurd hmem (Multiset.notMem_zero _)
  · intro c t a r hc hclean hG hr
    have hnext : (pool_system P Tid).ReachableUnder G (c.move t r) := hc.tail ⟨t, a, r, hG, hr, rfl⟩
    have hown : (thread_ledger P r.1 r.2).Clean := by
      have hnodup := nodup_thread_ledger hnext t
      rw [Config.move_threads_self] at hnodup
      exact (hclean t).step (transfer_of_step hc hr True fun _ => trivial) hnodup
    intro u
    by_cases hu : u = t
    · subst hu
      rw [Config.move_threads_self]
      exact hown
    · rw [c.move_threads_of_ne r hu]
      constructor
      · intro batch hmem
        obtain hshelved | hcached := Multiset.mem_add.mp hmem
        · exact hown.stored batch (Multiset.mem_add.mpr (.inl hshelved))
        · change (r.1.heap batch).runtime_commit_state = .Idle ∧ (r.1.heap batch).data = []
          rw [heap_of_other_thread hc hG hr hu (Multiset.mem_add.mpr (.inl hcached))]
          exact (hclean u).stored batch (Multiset.mem_add.mpr (.inr hcached))
      · intro batch carry hmem
        change carry.Describes (r.1.heap batch)
        rw [heap_of_other_thread hc hG hr hu
          (Multiset.mem_add.mpr (.inr (Multiset.mem_map_of_mem Prod.fst hmem)))]
        exact (hclean u).carried batch carry hmem

/-- In every run the batches are handed out acquired, and as their source says. -/
theorem handed_out_described (hc : (pool_system P Tid).ReachableUnder G c) :
    ∀ h ∈ c.shared.handed_out, h.Described := by
  refine ReachableUnder.induction (P := fun c => ∀ h ∈ c.shared.handed_out, h.Described)
    (fun h hmem => absurd hmem List.not_mem_nil) ?_ hc
  intro c t a r hc hall hG hr
  exact (transfer_of_step hc hr True fun _ => trivial).handed_out
    (pool_clean hc t) hall

/-- While the callers only acquire and release, the batches in their hands stay
acquired. -/
theorem handles_acquired (hc : (pool_system P Tid).ReachableUnder G c)
    (hG : ∀ t a s l, G t a s l → ¬ a.uses_batch) :
    ∀ h ∈ c.shared.handles, (c.shared.heap h.batch).runtime_commit_state = .Acquired := by
  refine ReachableUnder.induction (P := fun c => ∀ h ∈ c.shared.handles,
    (c.shared.heap h.batch).runtime_commit_state = .Acquired)
    (fun h hmem => absurd hmem List.not_mem_nil) ?_ hc
  intro c t a r hc hall hstep hr
  have hnext : (pool_system P Tid).ReachableUnder G (c.move t r) :=
    hc.tail ⟨t, a, r, hstep, hr, rfl⟩
  have hnodup := nodup_thread_ledger hnext t
  rw [Config.move_threads_self] at hnodup
  exact (transfer_of_step hc hr False (hG _ _ _ _ hstep)).acquired hnodup
    (handed_out_described hnext) hall

end runs

/-- A place where a batch can be. -/
inductive PoolPlace (P : PoolParams) (Tid : Type) where
  | cache (t : Tid) (slot : Fin P.TLS_CAP)
  | shard (shard_idx : Fin P.SHARDS_PER_POOL) (slot : Fin P.MAX_BATCH_PER_SHARD)
  | call (t : Tid)
  | handles
  | dropped

namespace PoolPlace

/-- The batches at a place. -/
def contents (c : Config Tid PoolShared PoolThread) : PoolPlace P Tid → Multiset BatchPtr
  | cache t slot => ((c.threads t).cache_or_new.batches.slots slot).elim 0 fun batch => {batch}
  | shard j slot => ((c.shared.pool j).slots slot).elim 0 fun batch => {batch}
  | call t => (c.threads t).pc.carried.map Prod.fst
  | handles => (c.shared.handles.map BatchHandle.batch : List BatchPtr)
  | dropped => c.shared.dropped

/-- The thread that a place belongs to, if any. -/
def owner : PoolPlace P Tid → Option Tid
  | cache t _ | call t => some t
  | shard .. | handles | dropped => none

variable {c : Config Tid PoolShared PoolThread} {batch : BatchPtr}

omit [DecidableEq Tid] in
theorem cache_holds_eq (t : Tid) :
    (c.threads t).cache_or_new.holds P = ∑ slot, (cache (P := P) t slot).contents c := by
  rw [ThreadBatchCache.holds, InitStack.contents, Finset.sum_range]
  rfl

omit [DecidableEq Tid] in
theorem shelved_eq : c.shared.shelved P =
    ∑ j, ∑ slot, (shard j slot : PoolPlace P Tid).contents c := by
  rw [PoolShared.shelved, Finset.sum_range]
  apply Finset.sum_congr rfl
  intro j _
  rw [InitStack.contents, Finset.sum_range]
  rfl

omit [DecidableEq Tid] in
/-- What is at a place is held by the place's owner. -/
theorem mem_held {place : PoolPlace P Tid} (hmem : batch ∈ place.contents c) :
    batch ∈ (pool_holdings P).held c place.owner := by
  cases place with
  | cache t slot =>
    refine Multiset.mem_add.mpr (.inl ?_)
    rw [cache_holds_eq]
    exact Multiset.mem_sum.mpr ⟨slot, Finset.mem_univ slot, hmem⟩
  | call t => exact Multiset.mem_add.mpr (.inr hmem)
  | shard j slot =>
    refine Multiset.mem_add.mpr (.inl (Multiset.mem_add.mpr (.inl ?_)))
    rw [shelved_eq]
    exact Multiset.mem_sum.mpr ⟨j, Finset.mem_univ j,
      Multiset.mem_sum.mpr ⟨slot, Finset.mem_univ slot, hmem⟩⟩
  | handles => exact Multiset.mem_add.mpr (.inl (Multiset.mem_add.mpr (.inr hmem)))
  | dropped => exact Multiset.mem_add.mpr (.inr hmem)

omit [DecidableEq Tid] in
/-- What a thread holds once is in one slot of its cache or in its call. -/
theorem of_thread {t : Tid} (hone : ((pool_holdings P).held c (some t)).count batch = 1) :
    ∃ place : PoolPlace P Tid, place.owner = some t ∧ (place.contents c).count batch = 1 ∧
      ∀ other : PoolPlace P Tid, other.owner = some t → other ≠ place →
        batch ∉ other.contents c := by
  change ((c.threads t).cache_or_new.holds P + contents c (call (P := P) t)).count batch = 1 at hone
  rw [Multiset.count_add, cache_holds_eq] at hone
  obtain hcall | hcall := Nat.eq_zero_or_pos (Multiset.count batch (contents c (call (P := P) t)))
  · rw [hcall, add_zero] at hone
    obtain ⟨slot, _, hslot, hothers⟩ := exists_of_count_sum hone
    refine ⟨cache t slot, rfl, hslot, ?_⟩
    intro other howner hne
    cases other <;> cases howner
    · rename_i slot'
      exact hothers slot' (Finset.mem_univ slot') fun heq => hne (by rw [heq])
    · exact Multiset.count_eq_zero.mp hcall
  · have hcache : Multiset.count batch (∑ slot, (cache (P := P) t slot).contents c) = 0 := by omega
    refine ⟨call t, rfl, by omega, ?_⟩
    intro other howner hne
    cases other <;> cases howner
    · rename_i slot
      intro hmem
      exact Multiset.count_eq_zero.mp hcache
        (Multiset.mem_sum.mpr ⟨slot, Finset.mem_univ slot, hmem⟩)
    · exact absurd rfl hne

omit [DecidableEq Tid] in
/-- What the shared memory holds once is in one slot of a shard, in one handle or
dropped once. -/
theorem of_shared (hone : ((pool_holdings P).held c none).count batch = 1) :
    ∃ place : PoolPlace P Tid, place.owner = none ∧ (place.contents c).count batch = 1 ∧
      ∀ other : PoolPlace P Tid, other.owner = none → other ≠ place → batch ∉ other.contents c := by
  change (c.shared.shelved P + contents c (handles (P := P)) +
    contents c (dropped (P := P))).count batch = 1 at hone
  have hshards : Multiset.count batch (c.shared.shelved P) = 0 →
      ∀ j slot, batch ∉ (shard j slot : PoolPlace P Tid).contents c := by
    intro hzero j slot hmem
    rw [shelved_eq] at hzero
    exact Multiset.count_eq_zero.mp hzero (Multiset.mem_sum.mpr ⟨j, Finset.mem_univ j,
      Multiset.mem_sum.mpr ⟨slot, Finset.mem_univ slot, hmem⟩⟩)
  rw [Multiset.count_add, Multiset.count_add] at hone
  by_cases hdropped : batch ∈ contents c (dropped : PoolPlace P Tid)
  · have hpos := Multiset.count_pos.mpr hdropped
    have hnone : Multiset.count batch (contents c (handles : PoolPlace P Tid)) = 0 := by omega
    refine ⟨dropped, rfl, by omega, ?_⟩
    intro other howner hne
    cases other <;> cases howner
    · exact hshards (by omega) _ _
    · exact Multiset.count_eq_zero.mp hnone
    · exact absurd rfl hne
  · rw [Multiset.count_eq_zero_of_notMem hdropped, add_zero] at hone
    by_cases hheld : batch ∈ contents c (handles : PoolPlace P Tid)
    · have hpos := Multiset.count_pos.mpr hheld
      refine ⟨handles, rfl, by omega, ?_⟩
      intro other howner hne
      cases other <;> cases howner
      · exact hshards (by omega) _ _
      · exact absurd rfl hne
      · exact hdropped
    · rw [Multiset.count_eq_zero_of_notMem hheld, add_zero, shelved_eq (P := P)] at hone
      obtain ⟨j, _, hj, hothers⟩ := exists_of_count_sum hone
      obtain ⟨slot, _, hslot, hslots⟩ := exists_of_count_sum hj
      refine ⟨shard j slot, rfl, hslot, ?_⟩
      intro other howner hne
      cases other <;> cases howner
      · rename_i j' slot'
        by_cases hjj : j' = j
        · subst hjj
          exact hslots slot' (Finset.mem_univ slot') fun heq => hne (by rw [heq])
        · intro hmem
          exact hothers j' (Finset.mem_univ j') hjj
            (Multiset.mem_sum.mpr ⟨slot', Finset.mem_univ slot', hmem⟩)
      · exact hheld
      · exact hdropped

/-- A batch that is held once is at one place once. -/
theorem of_exclusive (hc : (pool_holdings P).Exclusive c) (hbatch : batch < c.shared.allocated) :
    ∃ place : PoolPlace P Tid, (place.contents c).count batch = 1 ∧
      ∀ other : PoolPlace P Tid, other ≠ place → batch ∉ other.contents c := by
  obtain ⟨holder, hone, _⟩ := hc.held_once batch hbatch
  have hplace : ∃ place : PoolPlace P Tid, place.owner = holder ∧
      (place.contents c).count batch = 1 ∧ ∀ other : PoolPlace P Tid, other.owner = holder →
        other ≠ place → batch ∉ other.contents c := by
    cases holder with
    | none => exact of_shared hone
    | some t => exact of_thread hone
  obtain ⟨place, howner, hcount, hothers⟩ := hplace
  refine ⟨place, hcount, ?_⟩
  intro other hne hmem
  have hheld : batch ∈ (pool_holdings P).held c place.owner :=
    mem_held (Multiset.count_pos.mp (by omega))
  exact hothers other ((hc.same_place (mem_held hmem) hheld).trans howner) hne hmem

end PoolPlace

/-- The pool between two steps: every batch that was made is at one place once,
the stacks are within their arrays and initialised exactly below their lengths,
stored batches are idle, batches were handed out acquired, and nothing has
panicked. -/
structure PoolSafe (P : PoolParams) (c : Config Tid PoolShared PoolThread) : Prop where
  one_place : ∀ batch, batch < c.shared.allocated →
    ∃ place : PoolPlace P Tid, (place.contents c).count batch = 1 ∧
      ∀ other : PoolPlace P Tid, other ≠ place → batch ∉ other.contents c
  only_allocated : ∀ batch, ∀ place : PoolPlace P Tid, batch ∈ place.contents c →
    batch < c.shared.allocated
  caches : ∀ t cache, (c.threads t).cache = some cache → cache.batches.Prefix P.TLS_CAP
  shards : ∀ j, (c.shared.pool j).Prefix P.MAX_BATCH_PER_SHARD
  cached_idle : ∀ t (slot : Fin P.TLS_CAP) batch,
    (c.threads t).cache_or_new.batches.slots slot = some batch →
      (c.shared.heap batch).runtime_commit_state = .Idle
  shelved_idle : ∀ (j : Fin P.SHARDS_PER_POOL) (slot : Fin P.MAX_BATCH_PER_SHARD) batch,
    (c.shared.pool j).slots slot = some batch →
      (c.shared.heap batch).runtime_commit_state = .Idle
  handed_out_acquired : ∀ h ∈ c.shared.handed_out, h.inner.runtime_commit_state = .Acquired
  no_panic : ∀ t, (c.threads t).pc ≠ .panicked

theorem pool_safe {c : Config Tid PoolShared PoolThread}
    (hc : (pool_system P Tid).Reachable c) : PoolSafe P c := by
  have hshape := pool_shape_valid.holds_of_trivial hc
  have hclean := pool_clean hc
  refine
    { one_place := fun batch hbatch => PoolPlace.of_exclusive (pool_exclusive hc) hbatch
      only_allocated := fun batch place hmem =>
        (pool_exclusive hc).only_created batch _ (PoolPlace.mem_held hmem)
      caches := ?_
      shards := hshape.shared
      cached_idle := ?_
      shelved_idle := ?_
      handed_out_acquired := fun h hmem => (handed_out_described hc h hmem).2
      no_panic := ?_ }
  · intro t cache hcache
    have hthread := (hshape.thread t).1.batches
    rwa [PoolThread.cache_or_new, hcache] at hthread
  · intro t slot batch hslot
    refine ((hclean t).stored batch (Multiset.mem_add.mpr (.inr ?_))).1
    rw [PoolPlace.cache_holds_eq]
    refine Multiset.mem_sum.mpr ⟨slot, Finset.mem_univ slot, ?_⟩
    simp [PoolPlace.contents, hslot]
  · intro j slot batch hslot
    -- without a step there is no thread, and nothing in the shards
    obtain rfl | ⟨_, _, t, _⟩ := Relation.ReflTransGen.cases_tail hc
    · cases hslot
    · refine ((hclean t).stored batch (Multiset.mem_add.mpr (.inl ?_))).1
      rw [PoolPlace.shelved_eq]
      refine Multiset.mem_sum.mpr ⟨j, Finset.mem_univ j, Multiset.mem_sum.mpr
        ⟨slot, Finset.mem_univ slot, ?_⟩⟩
      simp [PoolPlace.contents, hslot]
  · intro t hpanicked
    have hat := (hshape.thread t).2
    rw [hpanicked] at hat
    exact hat

/-- Runs in which the callers only acquire, release, reset, close and drop their
batches, and threads exit. -/
def callers_leave_batches : StepCondition Tid PoolAct PoolShared PoolThread :=
  fun _ a _ _ => ¬ a.uses_batch

instance : ∀ a : PoolAct, Decidable a.uses_batch
  | .put .. | .seal _ | .commit _ | .set_runtime_state .. => .isTrue trivial
  | .acquire_object | .release _ | .reset _ | .close _ | .drop _ | .exit | .step => .isFalse id

instance (t : Tid) (a : PoolAct) (s : PoolShared) (l : PoolThread) :
    Decidable (callers_leave_batches t a s l) :=
  inferInstanceAs (Decidable (¬ a.uses_batch))

/-- In every run the pool is safe, and the batches in the callers' hands are
acquired as long as the callers do not change them. -/
theorem pool_ownership {c : Config Tid PoolShared PoolThread}
    (hc : (pool_system P Tid).Reachable c) :
    PoolSafe P c ∧ ((pool_system P Tid).ReachableUnder callers_leave_batches c →
      ∀ h ∈ c.shared.handles, (c.shared.heap h.batch).runtime_commit_state = .Acquired) :=
  ⟨pool_safe hc, fun hcallers => handles_acquired hcallers fun _ _ _ _ h => h⟩

def tiny_pool : PoolParams :=
  { SHARDS_PER_POOL := 1, MAX_BATCH_PER_SHARD := 1, TLS_CAP := 1, TLS_TARGET_RETAINED := 1
    shards_pos := by decide, shard_pos := by decide, shard_le := by decide
    target_pos := by decide, target_le := by decide, cap_le := by decide }

/-- One thread acquires two batches and releases both, so that the first is
spilled to the shard, and exits; another thread acquires the first one again. -/
def spill_and_exit : List (Bool × PoolAct) :=
  let steps (t : Bool) (n : Nat) : List (Bool × PoolAct) := List.replicate n (t, .step)
  (true, .acquire_object) :: steps true 7 ++ (true, .acquire_object) :: steps true 7 ++
    (true, .release { batch := 0, is_sealed := false }) :: steps true 2 ++
    (true, .release { batch := 1, is_sealed := false }) :: steps true 7 ++ [(true, .exit)] ++
    (false, .acquire_object) :: steps false 6

theorem pool_ownership_spill_and_exit : ∃ c : Config Bool PoolShared PoolThread,
    (c.shared.allocated, c.shared.dropped, c.shared.handles) =
      (2, [1], [{ batch := 0, is_sealed := false }]) ∧
    PoolSafe tiny_pool c ∧
    ∀ h ∈ c.shared.handles, (c.shared.heap h.batch).runtime_commit_state = .Acquired := by
  obtain ⟨c, hc, hseen⟩ := reachable_showing (pool_system tiny_pool Bool) callers_leave_batches
    spill_and_exit (fun c => (c.shared.allocated, c.shared.dropped, c.shared.handles))
    (2, [1], [{ batch := 0, is_sealed := false }]) (by decide +kernel)
  have hsafe := pool_ownership hc.reachable
  exact ⟨c, hseen, hsafe.1, hsafe.2 hc⟩

end ordinum.batch_pool
