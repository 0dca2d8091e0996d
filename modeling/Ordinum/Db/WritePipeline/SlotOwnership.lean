import Ordinum.Db.WritePipeline.ClaimOrder

open interleaving
open ordinum.batch

namespace ordinum.write_pipeline

variable {Tid : Type} {N : Nat}

/-- The queue loses nothing: a batch that entered it and was not claimed is in
the slot of its position, and once the oldest one is applied a `try_dequeue`
running alone returns it. -/
structure LosesNothing (N : Nat) (s : QueueShared Tid) : Prop where
  in_slot : ∀ position batch, s.queue.claimed.length ≤ position →
    s.queue.enqueued[position]? = some batch → s.queue.slots (position % N) = some batch
  dequeued : ∀ batch, s.queue.enqueued[s.queue.claimed.length]? = some batch →
    s.is_applied batch = true →
    ∃ queue, try_dequeue_alone N s.is_applied s.queue = some (queue, some batch)

/-- Each slot between the tail and the newest store holds its batch. -/
def SlotsFull (N : Nat) (q : BatchQueue) : Prop :=
  ∀ position, q.claimed.length ≤ position → position < q.stored.length →
    q.slots (position % N) = q.stored[position]?

/-- A consumer that has yet to clear its slot still owns it: the producer has not
come round to it. -/
def OwnsSlot (N : Nat) (q : BatchQueue) (pc : QueuePc) : Prop :=
  ∀ claim, pc.pending = some claim →
    q.stored.length ≤ claim.1 + N ∧ q.slots (claim.1 % N) ≠ none

def slots_outline (N : Nat) : System.Outline Tid (QueueShared Tid) QueueThread where
  shared := fun s => SlotsFull N s.queue
  thread := fun _ s l => OwnsSlot N s.queue l.pc
  apart := fun _ _ => True

theorem OwnsSlot.of_none {q : BatchQueue} {pc : QueuePc} (hnone : pc.pending = none) :
    OwnsSlot N q pc := by
  intro claim hclaim
  rw [hnone] at hclaim
  cases hclaim

/-- The slot the producer fills is not one that a consumer still owns. -/
theorem OwnsSlot.store {q : BatchQueue} {pc : QueuePc} {batch : BatchPtr}
    (hpc : OwnsSlot N q pc) (hempty : q.slots (q.stored.length % N) = none) :
    OwnsSlot N { q with
      slots := Function.update q.slots (q.stored.length % N) (some batch)
      stored := q.stored ++ [batch] } pc := by
  intro claim hclaim
  obtain ⟨hlap, hfull⟩ := hpc claim hclaim
  have hne : claim.1 % N ≠ q.stored.length % N := by
    intro heq
    rw [heq] at hfull
    exact hfull hempty
  have hlt : q.stored.length ≠ claim.1 + N := by
    intro heq
    rw [heq, Nat.add_mod_right] at hne
    exact hne rfl
  refine ⟨?_, ?_⟩
  · simp only [List.length_append, List.length_singleton]
    omega
  · simpa only [Function.update_of_ne hne] using hfull

/-- Clearing a slot does not touch the slot of another claim. -/
theorem OwnsSlot.clear {q : BatchQueue} {pc : QueuePc} {position : Nat}
    {returned : List (Nat × BatchPtr)} (hpc : OwnsSlot N q pc)
    (hposition : position < q.stored.length) (hlap : q.stored.length ≤ position + N)
    (hclaims : ∀ claim, pc.pending = some claim →
      claim.1 < q.stored.length ∧ claim.1 ≠ position) :
    OwnsSlot N { q with
      slots := Function.update q.slots (position % N) none
      returned := returned } pc := by
  intro claim hclaim
  obtain ⟨hown, hfull⟩ := hpc claim hclaim
  obtain ⟨hlt, hne⟩ := hclaims claim hclaim
  have hslot : claim.1 % N ≠ position % N := by
    obtain hbelow | habove := Nat.lt_or_gt_of_ne hne
    · exact mod_ne_of_within_lap hbelow (by omega)
    · exact (mod_ne_of_within_lap habove (by omega)).symm
  exact ⟨hown, by simpa only [Function.update_of_ne hslot] using hfull⟩

/-- Every step keeps the slots full and the stepping consumer the owner of the
slot it claims. -/
theorem QueueMove.own_slots (hN : Capacity N) {t : Tid} {a : QueueAct Tid}
    {s s' : QueueShared Tid} {pc pc' : QueuePc} (hmove : QueueMove N t s a pc s' pc')
    (hcounters : QueueCounters N s) (hat : QueueAt N t s pc) (hs : SlotsFull N s.queue)
    (hpc : OwnsSlot N s.queue pc) : SlotsFull N s'.queue ∧ OwnsSlot N s'.queue pc' := by
  cases hmove with
  | @store choice batch head =>
    obtain ⟨_, hstored, hhead, hroom⟩ := hat
    refine ⟨?_, .of_none rfl⟩
    intro position hle hlt
    rw [List.length_append, List.length_singleton] at hlt
    change Function.update s.queue.slots (slot_index N head) (some batch) (position % N) =
      (s.queue.stored ++ [batch])[position]?
    rw [hhead, hN.slot_index, ← hstored]
    obtain ⟨hold, hsame, hget⟩ | hnew := slots_after_store s.queue.slots batch hlt
      (hroom.trans_le (Nat.add_le_add_right hle N))
    · rw [hsame, hget]
      exact hs position hle hold
    · exact hnew
  | @claim choice head tail batch =>
    have hlt := (hcounters.claimed_lt rfl hat).trans_le hcounters.stored_prefix.length_le
    refine ⟨?_, ?_⟩
    · intro position hle hstored
      rw [List.length_append, List.length_singleton] at hle
      exact hs position (by omega) hstored
    · intro claim hclaim
      obtain rfl := Option.some.inj hclaim
      have hread := hs s.queue.claimed.length (Nat.le_refl _) hlt
      refine ⟨hcounters.room, ?_⟩
      change s.queue.slots (s.queue.claimed.length % N) ≠ none
      rw [hread, List.getElem?_eq_getElem hlt]
      exact Option.some_ne_none _
  | @clear choice position tail batch =>
    obtain ⟨hposition, htail⟩ := hat
    obtain ⟨hlap, -⟩ := hpc _ rfl
    refine ⟨?_, .of_none rfl⟩
    intro p hle hlt
    change Function.update s.queue.slots (slot_index N tail) none (p % N) = s.queue.stored[p]?
    have hslot : p % N ≠ position % N :=
      (mod_ne_of_within_lap (hposition.trans_le hle) (hlt.trans_le hlap)).symm
    rw [htail, hN.slot_index, Function.update_of_ne hslot]
    exact hs p hle hlt
  | semaphore _ _ hpc' =>
    refine ⟨hs, .of_none ?_⟩
    rename QueuePc => pc'
    cases pc' <;> trivial
  | _ => exact ⟨hs, .of_none rfl⟩

/-- No step takes a slot from the consumer that owns it, as long as the producer
stores into empty slots only. -/
theorem QueueMove.other_slots (hN : Capacity N) {t : Tid} {a : QueueAct Tid}
    {s s' : QueueShared Tid} {pc pc' pcu : QueuePc} {permit : Permit}
    (hmove : QueueMove N t s a pc s' pc') (hcounters : QueueCounters N s)
    (hat : QueueAt N t s pc) (hpc : OwnsSlot N s.queue pc) (hu : OwnsSlot N s.queue pcu)
    (hpending : PendingAt s.queue pcu)
    (hapart : ∀ claim claim', pc.pending = some claim → pcu.pending = some claim' →
      claim.1 ≠ claim'.1)
    (hempty : stores_into_empty_slot N t a s { pc, permit }) : OwnsSlot N s'.queue pcu := by
  have hstored : s.queue.claimed.length ≤ s.queue.stored.length :=
    hcounters.claimed_le.trans hcounters.stored_prefix.length_le
  cases hmove with
  | store =>
    obtain ⟨_, hsettled, hhead, _⟩ := hat
    have hnone := hempty
    simp only [stores_into_empty_slot, hhead, hN.slot_index, ← hsettled] at hnone
    simp only [hhead, hN.slot_index, ← hsettled]
    exact hu.store hnone
  | clear =>
    obtain ⟨hposition, htail⟩ := hat
    obtain ⟨hlap, -⟩ := hpc _ rfl
    simp only [htail, hN.slot_index]
    apply hu.clear (hposition.trans_le hstored) hlap
    intro claim hclaim
    have hclaimed := BatchQueue.claimed_at_lt (hpending claim hclaim).1
    exact ⟨hclaimed.trans_le hstored, (hapart _ claim rfl hclaim).symm⟩
  | _ => exact hu

theorem slots_outline_valid [DecidableEq Tid] (hN : Capacity N) {G : QueueCondition Tid}
    (hG : ∀ t a s l, G t a s l → stores_into_empty_slot N t a s l) :
    ((counters_outline N).and claims_outline).ValidOver (slots_outline N)
      (queue_system Tid N) G where
  init_shared := fun position _ hlt => absurd hlt (Nat.not_lt_zero position)
  init_thread := fun _ => .of_none rfl
  init_apart := trivial
  step_own := by
    intro t a s l r hbase hat hs hl _ hstep
    exact (queue_step_move hstep).own_slots hN hbase.1 hat.1 hs hl
  step_other := by
    intro t u a s l m r _ hbase hpair hGs hstep
    refine ⟨?_, trivial, trivial⟩
    exact (queue_step_move hstep).other_slots hN hbase.shared.1 hbase.own.1 hpair.own hpair.other
      hbase.other.2 hbase.apart.2 (hG _ _ _ _ hGs)

/-- A full slot at the tail whose batch is applied is dequeued in one pass. -/
theorem try_dequeue_alone_applied {q : BatchQueue} {applied : BatchPtr → Bool}
    {head tail : BitVec 32} {batch : BatchPtr}
    (hunpack : HeadTail.unpack_unchecked q.head_tail = (head, tail)) (hne : tail ≠ head)
    (hslot : q.slots (slot_index N tail) = some batch) (happlied : applied batch = true) :
    ∃ queue, try_dequeue_alone N applied q = some (queue, some batch) := by
  simp only [try_dequeue_alone, run_alone, dequeue_step, hunpack, if_neg hne, hslot,
    if_pos happlied, if_true]
  exact ⟨_, rfl⟩

/-- In every run in which each store of `enqueue` finds its slot empty, the
queue loses no batch. -/
theorem loses_nothing_of_empty_slots [DecidableEq Tid] (hN : Capacity N) {c : QueueConfig Tid}
    (hc : (queue_system Tid N).ReachableUnder
      (System.both one_producer (stores_into_empty_slot N)) c) : LosesNothing N c.shared := by
  have hbase : ∀ d, (queue_system Tid N).ReachableUnder
      (System.both one_producer (stores_into_empty_slot N)) d →
      ((counters_outline N).and claims_outline).Holds d := fun d hd =>
    (counters_outline_holds (fun _ _ _ _ h => h.1) hd).and (claims_outline_holds hd)
  have hcounters : QueueCounters N c.shared := (hbase c hc).shared.1
  have hfull : SlotsFull N c.shared.queue :=
    ((slots_outline_valid hN fun _ _ _ _ h => h.2).holds hbase hc).shared
  have hslot : ∀ position batch, c.shared.queue.claimed.length ≤ position →
      c.shared.queue.enqueued[position]? = some batch →
      c.shared.queue.slots (position % N) = some batch := by
    intro position batch hle hget
    have hstored := getElem?_of_longer hcounters.stored_prefix hget
    rw [hfull position hle (List.getElem?_eq_some_iff.mp hstored).1, hstored]
  refine ⟨hslot, ?_⟩
  intro batch hget happlied
  have hlt := (List.getElem?_eq_some_iff.mp hget).1
  refine try_dequeue_alone_applied hcounters.snapshot.unpack ?_ ?_ happlied
  · intro heq
    have hmod := congrArg BitVec.toNat heq
    have hroom := hcounters.room
    have hstored := hcounters.stored_prefix.length_le
    have hmax := hN.le_max
    simp only [BitVec.toNat_ofNat] at hmod
    omega
  · rw [hN.slot_index]
    exact hslot _ _ (Nat.le_refl _) hget

/-- Two batches pass through the queue of capacity two, each under a permit of
the semaphore and in empty slots. -/
def two_batches (t u : Tid) : List (Tid × QueueAct Tid) :=
  (t, .acquire) :: steps_of t 2 ++ (t, .enqueue 10) :: steps_of t 4 ++
    (u, .acquire) :: steps_of u 2 ++ (u, .enqueue 11) :: steps_of u 4 ++
    [(t, .set_runtime_state 10 .Applied)]

theorem loses_nothing_two_batches : ∃ c : QueueConfig (Fin 2),
    c.shared.queue.enqueued = [10, 11] ∧ LosesNothing 2 c.shared := by
  obtain ⟨c, hc, henqueued⟩ := System.reachable_showing (queue_system (Fin 2) 2)
    (System.both one_producer (stores_into_empty_slot 2)) (two_batches 0 1)
    (fun c => c.shared.queue.enqueued) [10, 11] (by decide)
  exact ⟨c, henqueued, loses_nothing_of_empty_slots Capacity.two hc⟩

/-- Thread 0 claims batch 10 and stalls before it clears slot 0. Thread 1 claims
batch 11 and releases its permit, thread 2 takes the permit and stores batch 12
into slot 0, and thread 0 clears it. -/
def stalled_consumer : List (Fin 3 × QueueAct (Fin 3)) :=
  (0, .acquire) :: steps_of 0 2 ++ (1, .acquire) :: steps_of 1 2 ++
    (0, .enqueue 10) :: steps_of 0 4 ++ (1, .enqueue 11) :: steps_of 1 4 ++
    [(0, .set_runtime_state 10 .Applied), (0, .set_runtime_state 11 .Applied)] ++
    (0, .try_dequeue) :: steps_of 0 4 ++ (1, .try_dequeue) :: steps_of 1 5 ++
    (1, .release) :: steps_of 1 5 ++ (2, .acquire) :: steps_of 2 2 ++
    (2, .enqueue 12) :: steps_of 2 4 ++ steps_of 0 1

/-- The permits of the semaphore do not keep the producer off a slot that a
stalled consumer has claimed and not cleared: the batch stored there is lost. -/
theorem stalled_consumer_loses_batch : ∃ c : QueueConfig (Fin 3),
    (queue_system (Fin 3) 2).ReachableUnder (System.both one_producer permits_held) c ∧
      ¬ LosesNothing 2 c.shared := by
  obtain ⟨c, hc, hseen⟩ := System.reachable_showing (queue_system (Fin 3) 2)
    (System.both one_producer permits_held) stalled_consumer
    (fun c => (c.shared.queue.enqueued, c.shared.queue.claimed, c.shared.queue.slots 0))
    ([10, 11, 12], [(10, true), (11, true)], none) (by decide)
  refine ⟨c, hc, fun hkept => ?_⟩
  obtain ⟨henqueued, hclaimed, hslot⟩ : c.shared.queue.enqueued = [10, 11, 12] ∧
      c.shared.queue.claimed = [(10, true), (11, true)] ∧ c.shared.queue.slots 0 = none := by
    simpa using hseen
  have hstored := hkept.in_slot 2 12 (by rw [hclaimed]; decide) (by rw [henqueued]; rfl)
  rw [show 2 % 2 = 0 from rfl, hslot] at hstored
  cases hstored

end ordinum.write_pipeline
