import Ordinum.Db.WritePipeline.SlotOwnership
import Ordinum.Interleaving.History

open interleaving
open interleaving.System
open ordinum.batch

namespace ordinum.write_pipeline

variable {Tid : Type} {N : Nat}

/-- What a `try_dequeue` met (history): how many batches had been claimed when it was
called, and whether the queue was empty at one of its steps. -/
structure DequeueCall where
  claimed_before : Nat
  found_empty : Bool
  deriving DecidableEq, Repr

/-- What a thread notes at a step: a call goes on, or may begin. -/
def DequeueCall.note (s : QueueShared Tid) : QueuePc → DequeueCall → DequeueCall
  | .dequeue _, call => { call with found_empty := call.found_empty || s.queue.queued.isEmpty }
  | _, _ => { claimed_before := s.queue.claimed.length, found_empty := s.queue.queued.isEmpty }

def record_call : Record Tid (QueueAct Tid) (QueueShared Tid) QueueThread Unit DequeueCall :=
  fun _ _ s l _ _ call => ((), call.note s l.pc)

/-- The queue, where each thread keeps in mind what its call met. -/
def answer_history (Tid : Type) [DecidableEq Tid] (N : Nat) :
    System Tid (QueueAct Tid) (QueueShared Tid × Unit) (QueueThread × DequeueCall) :=
  (queue_system Tid N).with_history () { claimed_before := 0, found_empty := true } record_call

/-- What a call knows of the queue. While nobody claims the position that it loaded, the
batch that it read is the front. -/
def CallAt (N : Nat) (s : QueueShared Tid) (call : DequeueCall) : DequeuePc → Prop
  | .load | .cas _ _ | .clear _ _ _ => call.claimed_before ≤ s.queue.claimed.length
  | .load_slot ht => ∃ head tail, Snapshot s.queue ht head tail ∧ head ≤ tail + N ∧
      call.claimed_before ≤ tail ∧ (tail = head → call.found_empty = true)
  | .is_applied ht batch => ∃ head tail, Snapshot s.queue ht head tail ∧
      call.claimed_before ≤ tail ∧
      (tail = s.queue.claimed.length → s.queue.enqueued[tail]? = some batch)

/-- Why a call may return nothing: the queue was empty at one of its steps, another call
claimed a batch meanwhile, or the front is not applied. -/
def DequeueCall.HasReason (s : QueueShared Tid) (call : DequeueCall) : Prop :=
  call.found_empty = true ∨ call.claimed_before < s.queue.claimed.length ∨
    ∃ batch, s.queue.queued.head? = some batch ∧ s.is_applied batch = false

section moves

variable {t : Tid} {a : QueueAct Tid} {s s' : QueueShared Tid} {pc pc' : QueuePc}
  {call : DequeueCall}

/-- What a call knows survives the steps of the others. -/
theorem CallAt.grow {pc : DequeuePc} (hpc : CallAt N s call pc) (hgrows : QueueGrows s s') :
    CallAt N s' call pc := by
  have hlen := hgrows.claimed.length_le
  cases pc with
  | load | cas | clear => exact hpc.trans hlen
  | load_slot ht =>
    obtain ⟨head, tail, hsnap, hroom, hbefore, hempty⟩ := hpc
    exact ⟨head, tail, hsnap.grow hgrows, hroom, hbefore, hempty⟩
  | is_applied ht batch =>
    obtain ⟨head, tail, hsnap, hbefore, hbatch⟩ := hpc
    refine ⟨head, tail, hsnap.grow hgrows, hbefore, fun htail => ?_⟩
    exact getElem?_of_longer hgrows.enqueued (hbatch (hsnap.still_current hgrows htail))

/-- The counters that a call loads, and what it notes at this moment. -/
theorem QueueCounters.call_at_load (hs : QueueCounters N s)
    (hbefore : call.claimed_before ≤ s.queue.claimed.length) :
    CallAt N s { call with found_empty := call.found_empty || s.queue.queued.isEmpty }
      (.load_slot s.queue.head_tail) := by
  have hroom := hs.room
  have hstored := hs.stored_prefix.length_le
  refine ⟨_, _, hs.snapshot, hstored.trans hroom, hbefore, fun htail => ?_⟩
  have hempty : s.queue.queued = [] := by
    rw [BatchQueue.queued, List.drop_eq_nil_iff]
    exact htail.ge
  rw [hempty]
  exact Bool.or_true _

/-- The counters of a snapshot differ where its positions do. -/
theorem Snapshot.tail_ne {q : BatchQueue} {ht : BitVec 64} {head tail : Nat} {h t : BitVec 32}
    (hsnap : Snapshot q ht head tail) (hN : Capacity N) (hroom : head ≤ tail + N)
    (hunpack : HeadTail.unpack_unchecked ht = (h, t)) :
    t = BitVec.ofNat 32 tail ∧ (t = h ↔ tail = head) := by
  obtain ⟨rfl, rfl⟩ := Prod.mk.inj (hsnap.unpack.symm.trans hunpack)
  refine ⟨rfl, fun heq => ?_, fun heq => by rw [heq]⟩
  have hmod := congrArg BitVec.toNat heq
  have hmax := hN.le_max
  have hle := hsnap.tail_le_head
  simp only [BitVec.toNat_ofNat] at hmod
  omega

/-- The slot at the tail is that of the front, as long as nobody claims it. -/
theorem SlotsFull.front (hs : SlotsFull N s.queue) (hcounters : QueueCounters N s) (hN : Capacity N)
    {head tail : Nat} (hlt : tail < head) (hhead : head ≤ s.queue.enqueued.length)
    (htail : tail = s.queue.claimed.length) :
    s.queue.slots (slot_index N (BitVec.ofNat 32 tail)) = s.queue.enqueued[tail]? := by
  have henqueued := hlt.trans_le hhead
  have hstored := henqueued.trans_le hcounters.stored_prefix.length_le
  rw [hN.slot_index, hs tail htail.ge hstored]
  have hget := List.getElem?_eq_getElem henqueued
  rw [getElem?_of_longer hcounters.stored_prefix hget, hget]

/-- A call's own step. -/
theorem QueueMove.own_call (hN : Capacity N) (hmove : QueueMove N t s a pc s' pc')
    (hcounters : QueueCounters N s) (hslots : SlotsFull N s.queue)
    (hpc : ∀ p, pc = .dequeue p → CallAt N s call p) :
    ∀ p, pc' = .dequeue p → CallAt N s' (call.note s pc) p := by
  rintro p rfl
  cases hmove with
  | start_dequeue => exact Nat.le_refl _
  | load => exact hcounters.call_at_load (hpc _ rfl)
  | retry => exact hcounters.call_at_load (hpc _ rfl)
  | read_slot hunpack hne hslot =>
    obtain ⟨head, tail, hsnap, hroom, hbefore, -⟩ := hpc _ rfl
    obtain ⟨rfl, hsame⟩ := hsnap.tail_ne hN hroom hunpack
    have hlt : tail < head :=
      Nat.lt_of_le_of_ne hsnap.tail_le_head fun heq => hne (hsame.mpr heq)
    refine ⟨head, tail, hsnap, hbefore, fun htail => ?_⟩
    rw [← hslots.front hcounters hN hlt hsnap.head_le htail, hslot]
  | saw_applied =>
    obtain ⟨head, tail, hsnap, hbefore, -⟩ := hpc _ rfl
    exact hbefore.trans hsnap.tail_le
  | claim =>
    have hbefore : call.claimed_before ≤ s.queue.claimed.length := hpc _ rfl
    change call.claimed_before ≤ (s.queue.claimed ++ [_]).length
    rw [List.length_append]
    exact hbefore.trans (Nat.le_add_right _ _)
  | semaphore _ _ hpc' => exact hpc'.elim

/-- Where a call returns nothing, it has a reason. -/
theorem CallAt.none_reason {pc : DequeuePc} (hpc : CallAt N s call pc) (hN : Capacity N)
    (hcounters : QueueCounters N s) (hslots : SlotsFull N s.queue)
    (hnone : (dequeue_step N s.is_applied s.queue pc).2 = .done none) : call.HasReason s := by
  have hclaimed : ∀ {tail : Nat}, call.claimed_before ≤ tail → tail ≤ s.queue.claimed.length →
      tail ≠ s.queue.claimed.length → call.HasReason s :=
    fun hbefore hle hne => .inr (.inl (hbefore.trans_lt (Nat.lt_of_le_of_ne hle hne)))
  cases pc with
  | load => cases hnone
  | load_slot ht =>
    obtain ⟨head, tail, hsnap, hroom, hbefore, hempty⟩ := hpc
    rcases hunpack : HeadTail.unpack_unchecked ht with ⟨h, t⟩
    obtain ⟨rfl, hsame⟩ := hsnap.tail_ne hN hroom hunpack
    by_cases heq : tail = head
    · exact .inl (hempty heq)
    · refine hclaimed hbefore hsnap.tail_le fun htail => ?_
      have hlt := Nat.lt_of_le_of_ne hsnap.tail_le_head heq
      have hfront := hslots.front hcounters hN hlt hsnap.head_le htail
      rw [List.getElem?_eq_getElem (hlt.trans_le hsnap.head_le)] at hfront
      simp only [dequeue_step, hunpack, if_neg (mt hsame.mp heq), hfront] at hnone
      cases hnone
  | is_applied ht batch =>
    obtain ⟨head, tail, hsnap, hbefore, hbatch⟩ := hpc
    by_cases htail : tail = s.queue.claimed.length
    · refine .inr (.inr ⟨batch, ?_, ?_⟩)
      · rw [BatchQueue.queued, List.head?_drop, ← htail]
        exact hbatch htail
      · refine Bool.eq_false_iff.mpr fun happlied => ?_
        simp only [dequeue_step, happlied, if_true] at hnone
        cases hnone
    · exact hclaimed hbefore hsnap.tail_le htail
  | cas ht batch =>
    simp only [dequeue_step] at hnone
    split at hnone
    · cases hnone
    · cases hnone
  | clear => cases hnone

end moves

section runs

variable [DecidableEq Tid] {c : Config Tid (QueueShared Tid × Unit) (QueueThread × DequeueCall)}

theorem empty_slots_base (hN : Capacity N) {c : QueueConfig Tid}
    (hc : (queue_system Tid N).ReachableUnder (both one_producer (stores_into_empty_slot N)) c) :
    QueueCounters N c.shared ∧ SlotsFull N c.shared.queue := by
  have hbase : ∀ d, (queue_system Tid N).ReachableUnder
      (both one_producer (stores_into_empty_slot N)) d →
      ((counters_outline N).and claims_outline).Holds d := fun d hd =>
    (counters_outline_holds (fun _ _ _ _ h => h.1) hd).and (claims_outline_holds hd)
  have hslots := (slots_outline_valid hN fun _ _ _ _ h => h.2).holds hbase hc
  exact ⟨(hbase c hc).shared.1, hslots.shared⟩

theorem calls_know (hN : Capacity N) (hc : (answer_history Tid N).ReachableUnder
    (forgetful (both one_producer (stores_into_empty_slot N))) c) :
    ∀ t p, (c.threads t).1.pc = .dequeue p → CallAt N c.shared.1 (c.threads t).2 p := by
  refine ReachableUnder.history_induction (P := fun c => ∀ t p,
    (c.threads t).1.pc = .dequeue p → CallAt N c.shared.1 (c.threads t).2 p) ?_ ?_ hc
  · intro t p h
    cases h
  · intro c t a r hreach hP _ hstep u p hp
    have hmove := queue_step_move hstep
    obtain ⟨hcounters, hslots⟩ := empty_slots_base hN hreach
    by_cases hut : u = t
    · subst hut
      rw [Config.move_threads_self] at hp ⊢
      exact hmove.own_call hN hcounters hslots (hP u) p hp
    · rw [c.move_threads_of_ne _ hut] at hp ⊢
      exact (hP u p hp).grow hmove.grows

/-- In every run in which each store of `enqueue` finds its slot empty, a `try_dequeue`
that returns nothing has a reason: the queue was empty at one of its steps, another call
has claimed a batch since it began, or the front batch is not applied. -/
theorem nothing_dequeued_for_a_reason (hN : Capacity N)
    (hc : (answer_history Tid N).ReachableUnder
      (forgetful (both one_producer (stores_into_empty_slot N))) c) {t : Tid} {pc : DequeuePc}
    (hpc : (c.threads t).1.pc = .dequeue pc)
    (hnone : (dequeue_step N c.shared.1.is_applied c.shared.1.queue pc).2 = .done none) :
    (c.threads t).2.HasReason c.shared.1 := by
  obtain ⟨hcounters, hslots⟩ := empty_slots_base hN hc.forget
  exact (calls_know hN hc t pc hpc).none_reason hN hcounters hslots hnone

end runs

/-- The second thread loads the counters, the first one takes the front, and the second
finds its slot empty, although the batch behind is applied. -/
def overtaken_call : List (Fin 2 × QueueAct (Fin 2)) :=
  (0, .enqueue 10) :: steps_of 0 4 ++ (0, .enqueue 11) :: steps_of 0 4 ++
    [(0, .set_runtime_state 10 .Applied), (0, .set_runtime_state 11 .Applied)] ++
    (1, .try_dequeue) :: steps_of 1 1 ++ (0, .try_dequeue) :: steps_of 0 5

theorem nothing_dequeued_when_overtaken :
    ∃ c : Config (Fin 2) (QueueShared (Fin 2) × Unit) (QueueThread × DequeueCall),
      (c.shared.1.queue.queued, c.shared.1.is_applied 11) = ([11], true) ∧
      (c.threads 1).2.HasReason c.shared.1 := by
  obtain ⟨c, hc, hseen⟩ := reachable_showing (answer_history (Fin 2) 2)
    (forgetful (both one_producer (stores_into_empty_slot 2))) overtaken_call
    (fun c => ((c.shared.1.queue.queued, c.shared.1.is_applied 11), (c.threads 1).1.pc,
      (dequeue_step 2 c.shared.1.is_applied c.shared.1.queue (.load_slot 0x200000000#64)).2))
    (([11], true), .dequeue (.load_slot 0x200000000#64), .done none) (by decide +kernel)
  obtain ⟨hqueue, hcall⟩ := Prod.mk.inj hseen
  obtain ⟨hpc, hnone⟩ := Prod.mk.inj hcall
  exact ⟨c, hqueue, nothing_dequeued_for_a_reason Capacity.two hc hpc hnone⟩

end ordinum.write_pipeline
