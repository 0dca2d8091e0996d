import Mathlib.Data.Nat.ModEq
import Ordinum.Db.WritePipeline.BatchQueue
import Ordinum.Refinement.Machine

open interleaving
open ordinum.batch
open refinement

namespace ordinum.write_pipeline

variable {N : Nat}

/-! The purpose of the queue, stated without slots and counters. -/

/-- A bounded FIFO of batches that leave once they are applied. `left` counts the
batches that have left so far. -/
structure Fifo (N : Nat) where
  batches : List BatchPtr
  bounded : batches.length ≤ N
  applied : BatchPtr → Bool
  left : Nat

inductive QueueCall where
  | enqueue (batch : BatchPtr)
  | mark_applied (batch : BatchPtr)
  | try_dequeue
  deriving DecidableEq, Repr

inductive QueueOutcome where
  | enqueued
  | panicked
  | marked
  | dequeued (batch : Option BatchPtr)
  deriving DecidableEq, Repr

namespace Fifo

def empty (N : Nat) (applied : BatchPtr → Bool) : Fifo N :=
  { batches := [], bounded := Nat.zero_le N, applied, left := 0 }

/-- Appends unless the FIFO is full. -/
def enqueue (f : Fifo N) (batch : BatchPtr) : Fifo N × QueueOutcome :=
  if hroom : f.batches.length < N then
    ({ f with
        batches := f.batches ++ [batch]
        bounded := by
          rw [List.length_append]
          exact hroom }, .enqueued)
  else (f, .panicked)

def mark_applied (f : Fifo N) (batch : BatchPtr) : Fifo N :=
  { f with applied := Function.update f.applied batch true }

/-- Removes the front once it is applied. -/
def try_dequeue (f : Fifo N) : Fifo N × Option BatchPtr :=
  match hbatches : f.batches with
  | [] => (f, none)
  | batch :: rest =>
    if f.applied batch then
      ({ f with
          batches := rest
          bounded := by
            have hbounded := f.bounded
            rw [hbatches] at hbounded
            exact Nat.le_of_succ_le hbounded
          left := f.left + 1 }, some batch)
    else (f, none)

variable {f : Fifo N} {batch : BatchPtr} {rest : List BatchPtr}

theorem try_dequeue_of_empty (hbatches : f.batches = []) : f.try_dequeue = (f, none) := by
  unfold try_dequeue
  split
  · rfl
  · rename_i h
    rw [hbatches] at h
    cases h

theorem try_dequeue_of_waiting (hbatches : f.batches = batch :: rest)
    (hwaiting : ¬ f.applied batch = true) : f.try_dequeue = (f, none) := by
  unfold try_dequeue
  split
  · rfl
  · rename_i h
    rw [hbatches] at h
    cases h
    rw [if_neg hwaiting]

theorem try_dequeue_of_applied (hbatches : f.batches = batch :: rest)
    (happlied : f.applied batch = true) :
    f.try_dequeue.2 = some batch ∧ f.try_dequeue.1.batches = rest ∧
      f.try_dequeue.1.left = f.left + 1 ∧ f.try_dequeue.1.applied = f.applied := by
  unfold try_dequeue
  split
  · rename_i h
    rw [hbatches] at h
    cases h
  · rename_i h
    rw [hbatches] at h
    cases h
    rw [if_pos happlied]
    exact ⟨rfl, rfl, rfl, rfl⟩

end Fifo

def fifo_machine (N : Nat) : Machine QueueCall QueueOutcome (Fifo N) where
  step f
    | .enqueue batch => some (f.enqueue batch)
    | .mark_applied batch => some (f.mark_applied batch, .marked)
    | .try_dequeue => some (f.try_dequeue.1, .dequeued f.try_dequeue.2)

/-! The queue itself, driven by complete calls. -/

/-- The queue and the runtime states of the batches. -/
structure SequentialQueue where
  queue : BatchQueue
  runtime_commit_state : BatchPtr → BatchRuntimeState

def SequentialQueue.is_applied (s : SequentialQueue) (batch : BatchPtr) : Bool :=
  s.runtime_commit_state batch == .Applied

/-- An empty queue whose counters both stand at `counter`. -/
def SequentialQueue.start (counter : BitVec 32)
    (runtime_commit_state : BatchPtr → BatchRuntimeState) : SequentialQueue :=
  { queue := { BatchQueue.new with head_tail := (HeadTail.pack counter counter).raw }
    runtime_commit_state }

/-- `enqueue` with no other thread moving. -/
def enqueue_alone (N : Nat) (q : BatchQueue) (batch : BatchPtr) :
    Option (BatchQueue × CallResult) :=
  run_alone (enqueue_step N) 4 q (.load batch)

def CallResult.outcome : CallResult → QueueOutcome
  | .returned => .enqueued
  | .panicked => .panicked

/-- Complete calls on `BatchQueue<N>`. -/
def batch_queue (N : Nat) : Machine QueueCall QueueOutcome SequentialQueue where
  step s
    | .enqueue batch =>
      (enqueue_alone N s.queue batch).map fun (queue, result) => ({ s with queue }, result.outcome)
    | .mark_applied batch =>
      some ({ s with
        runtime_commit_state := Function.update s.runtime_commit_state batch .Applied }, .marked)
    | .try_dequeue =>
      (try_dequeue_alone N s.is_applied s.queue).map fun (queue, batch) =>
        ({ s with queue }, .dequeued batch)

/-- The ring holds the FIFO: the counters stand where the batches that entered
and left have moved them, modulo `2 ^ 32`, and every slot from the tail on holds
its batch or nothing. -/
structure Represents (N start : Nat) (s : SequentialQueue) (f : Fifo N) : Prop where
  head_tail : s.queue.head_tail =
    HeadTail.counters (start + f.left + f.batches.length) (start + f.left)
  slots : ∀ i, i < N → s.queue.slots ((start + f.left + i) % N) = f.batches[i]?
  applied : s.is_applied = f.applied

section alone

variable {q : BatchQueue} {head tail : BitVec 32}

theorem enqueue_alone_full (batch : BatchPtr)
    (hunpack : HeadTail.unpack_unchecked q.head_tail = (head, tail))
    (hfull : tail + BitVec.ofNat 32 N = head) :
    enqueue_alone N q batch = some (q, .panicked) := by
  simp only [enqueue_alone, run_alone, enqueue_step, hunpack, if_pos hfull]

theorem enqueue_alone_room (batch : BatchPtr)
    (hunpack : HeadTail.unpack_unchecked q.head_tail = (head, tail))
    (hroom : tail + BitVec.ofNat 32 N ≠ head) :
    ∃ queue, enqueue_alone N q batch = some (queue, .returned) ∧
      queue.head_tail = q.head_tail + (1#64 <<< HeadTail.DEQUEUE_BITS) ∧
      queue.slots = Function.update q.slots (slot_index N head) (some batch) := by
  simp only [enqueue_alone, run_alone, enqueue_step, hunpack, if_neg hroom, Option.some.injEq,
    Prod.mk.injEq, and_true, exists_eq_left', BatchQueue.published_head_tail,
    BatchQueue.published_slots, and_self]

variable {applied : BatchPtr → Bool} {batch : BatchPtr}

theorem try_dequeue_alone_empty (hunpack : HeadTail.unpack_unchecked q.head_tail = (head, tail))
    (hempty : tail = head) : try_dequeue_alone N applied q = some (q, none) := by
  simp only [try_dequeue_alone, run_alone, dequeue_step, hunpack, if_pos hempty]

theorem try_dequeue_alone_waits (hunpack : HeadTail.unpack_unchecked q.head_tail = (head, tail))
    (hne : tail ≠ head) (hslot : q.slots (slot_index N tail) = some batch)
    (happlied : ¬ applied batch = true) : try_dequeue_alone N applied q = some (q, none) := by
  simp only [try_dequeue_alone, run_alone, dequeue_step, hunpack, if_neg hne, hslot,
    if_neg happlied]

theorem try_dequeue_alone_takes (hunpack : HeadTail.unpack_unchecked q.head_tail = (head, tail))
    (hne : tail ≠ head) (hslot : q.slots (slot_index N tail) = some batch)
    (happlied : applied batch = true) :
    ∃ queue, try_dequeue_alone N applied q = some (queue, some batch) ∧
      queue.head_tail = (HeadTail.pack head (tail + 1#32)).raw ∧
      queue.slots = Function.update q.slots (slot_index N tail) none := by
  simp only [try_dequeue_alone, run_alone, dequeue_step, hunpack, if_neg hne, hslot,
    if_pos happlied, if_true, Option.some.injEq, Prod.mk.injEq, and_true, exists_eq_left', and_self]

end alone

variable {start : Nat} {s : SequentialQueue} {f : Fifo N}

/-- Slots of one lap are different. -/
theorem slot_ne {position i j : Nat} (hi : i < N) (hj : j < N) (hne : i ≠ j) :
    (position + i) % N ≠ (position + j) % N := by
  intro heq
  have hmod : Nat.ModEq N i j := Nat.ModEq.add_left_cancel' position heq
  exact hne (hmod.eq_of_lt_of_lt hi hj)


/-- The full test of `enqueue` compares the counters modulo `2 ^ 32`, and the
FIFO is far shorter than that. -/
theorem Fifo.full_test (hN : Capacity N) (f : Fifo N) (start : Nat) :
    BitVec.ofNat 32 (start + f.left) + BitVec.ofNat 32 N =
      BitVec.ofNat 32 (start + f.left + f.batches.length) ↔ f.batches.length = N := by
  have hbounded := f.bounded
  have hmax := hN.le_max
  rw [← BitVec.ofNat_add]
  constructor
  · intro heq
    have hmod := congrArg BitVec.toNat heq
    simp only [BitVec.toNat_ofNat] at hmod
    omega
  · intro hfull
    rw [hfull]

theorem Fifo.empty_test (hN : Capacity N) (f : Fifo N) (start : Nat) :
    BitVec.ofNat 32 (start + f.left) = BitVec.ofNat 32 (start + f.left + f.batches.length) ↔
      f.batches = [] := by
  have hbounded := f.bounded
  have hmax := hN.le_max
  constructor
  · intro heq
    have hmod := congrArg BitVec.toNat heq
    simp only [BitVec.toNat_ofNat] at hmod
    exact List.eq_nil_of_length_eq_zero (by omega)
  · intro hempty
    rw [hempty, List.length_nil, Nat.add_zero]

namespace Represents

variable {queue : BatchQueue} {f' : Fifo N} {batch : BatchPtr}

/-- The ring after a store into the free slot behind the last batch. -/
theorem append (h : Represents N start s f) (hroom : f.batches.length < N)
    (hword : queue.head_tail = s.queue.head_tail + (1#64 <<< HeadTail.DEQUEUE_BITS))
    (hslots : queue.slots = Function.update s.queue.slots
      ((start + f.left + f.batches.length) % N) (some batch))
    (hbatches : f'.batches = f.batches ++ [batch]) (hleft : f'.left = f.left)
    (happlied : f'.applied = f.applied) : Represents N start { s with queue } f' := by
  refine ⟨?_, ?_, happlied ▸ h.applied⟩
  · rw [hword, h.head_tail, HeadTail.counters_add_head, hleft, hbatches, List.length_append,
      List.length_singleton, Nat.add_assoc]
  · intro i hi
    rw [hslots, hleft, hbatches]
    by_cases hlast : i = f.batches.length
    · rw [hlast, Function.update_self, List.getElem?_concat_length]
    · rw [Function.update_of_ne (slot_ne hi hroom hlast), h.slots i hi]
      obtain hlt | hge := Nat.lt_or_ge i f.batches.length
      · rw [List.getElem?_append_left hlt]
      · rw [List.getElem?_eq_none hge, List.getElem?_eq_none]
        rw [List.length_append, List.length_singleton]
        omega

/-- The ring after the tail has moved on and its slot was cleared. -/
theorem remove (h : Represents N start s f) {rest : List BatchPtr}
    (hbatches : f.batches = batch :: rest)
    (hword : queue.head_tail =
      HeadTail.counters (start + f.left + f.batches.length) (start + f.left + 1))
    (hslots : queue.slots = Function.update s.queue.slots ((start + f.left) % N) none)
    (hrest : f'.batches = rest) (hleft : f'.left = f.left + 1)
    (happlied : f'.applied = f.applied) : Represents N start { s with queue } f' := by
  have hbounded := f.bounded
  have hlen : f.batches.length = rest.length + 1 := by rw [hbatches, List.length_cons]
  refine ⟨?_, ?_, happlied ▸ h.applied⟩
  · rw [hword, hrest, hleft, hlen]
    congr 1
    omega
  · intro i hi
    rw [hslots, hrest, hleft]
    by_cases hlast : i + 1 = N
    · have hslot : (start + (f.left + 1) + i) % N = (start + f.left) % N := by
        rw [show start + (f.left + 1) + i = start + f.left + N by omega, Nat.add_mod_right]
      rw [hslot, Function.update_self, List.getElem?_eq_none (by omega)]
    · have hnext : start + (f.left + 1) + i = start + f.left + (i + 1) := by omega
      have hne : (start + f.left + (i + 1)) % N ≠ (start + f.left) % N :=
        slot_ne (j := 0) (by omega) (by omega) (by omega)
      rw [hnext, Function.update_of_ne hne, h.slots (i + 1) (by omega), hbatches,
        List.getElem?_cons_succ]

/-- The counters as `enqueue` and `try_dequeue` unpack them. -/
theorem unpack (h : Represents N start s f) : HeadTail.unpack_unchecked s.queue.head_tail =
    (BitVec.ofNat 32 (start + f.left + f.batches.length), BitVec.ofNat 32 (start + f.left)) := by
  rw [h.head_tail, HeadTail.counters, HeadTail.unpack_unchecked_pack]

theorem enqueue (hN : Capacity N) (h : Represents N start s f) (batch : BatchPtr) :
    ∃ queue result, enqueue_alone N s.queue batch = some (queue, result) ∧
      (f.enqueue batch).2 = result.outcome ∧
      Represents N start { s with queue } (f.enqueue batch).1 ∧
      (result = .panicked → queue = s.queue) := by
  by_cases hroom : f.batches.length < N
  · have hnotfull := mt (f.full_test hN start).mp (Nat.ne_of_lt hroom)
    obtain ⟨queue, halone, hword, hslots⟩ := enqueue_alone_room batch h.unpack hnotfull
    rw [hN.slot_index] at hslots
    refine ⟨queue, .returned, halone, ?_, ?_, nofun⟩
    · rw [Fifo.enqueue, dif_pos hroom]
      rfl
    · rw [Fifo.enqueue, dif_pos hroom]
      exact h.append hroom hword hslots rfl rfl rfl
  · have hfull := (f.full_test hN start).mpr (Nat.le_antisymm f.bounded (Nat.le_of_not_lt hroom))
    refine ⟨s.queue, .panicked, enqueue_alone_full batch h.unpack hfull, ?_, ?_, fun _ => rfl⟩
    · rw [Fifo.enqueue, dif_neg hroom]
      rfl
    · rw [Fifo.enqueue, dif_neg hroom]
      exact h

theorem try_dequeue (hN : Capacity N) (h : Represents N start s f) :
    ∃ queue, try_dequeue_alone N s.is_applied s.queue = some (queue, f.try_dequeue.2) ∧
      Represents N start { s with queue } f.try_dequeue.1 ∧
      (f.try_dequeue.2 = none → queue = s.queue) := by
  have hslot : s.queue.slots (slot_index N (BitVec.ofNat 32 (start + f.left))) =
      f.batches[0]? := by
    rw [hN.slot_index]
    exact h.slots 0 hN.pos
  rcases hbatches : f.batches with _ | ⟨batch, rest⟩
  · have hempty := (f.empty_test hN start).mpr hbatches
    rw [Fifo.try_dequeue_of_empty hbatches]
    exact ⟨s.queue, try_dequeue_alone_empty h.unpack hempty, h, fun _ => rfl⟩
  · have hne := mt (f.empty_test hN start).mp (by rw [hbatches]; exact List.cons_ne_nil _ _)
    rw [hbatches, List.getElem?_cons_zero] at hslot
    by_cases happlied : f.applied batch = true
    · obtain ⟨hfound, hrest, hleft, hsame⟩ := Fifo.try_dequeue_of_applied hbatches happlied
      rw [← h.applied] at happlied
      obtain ⟨queue, halone, hword, hslots⟩ := try_dequeue_alone_takes h.unpack hne hslot happlied
      rw [← BitVec.ofNat_add] at hword
      rw [hN.slot_index] at hslots
      rw [hfound]
      exact ⟨queue, halone, h.remove hbatches hword hslots hrest hleft hsame, nofun⟩
    · rw [Fifo.try_dequeue_of_waiting hbatches happlied]
      rw [← h.applied] at happlied
      exact ⟨s.queue, try_dequeue_alone_waits h.unpack hne hslot happlied, h, fun _ => rfl⟩

theorem mark_applied (h : Represents N start s f) (batch : BatchPtr) :
    Represents N start { s with
      runtime_commit_state := Function.update s.runtime_commit_state batch .Applied }
      (f.mark_applied batch) := by
  refine ⟨h.head_tail, h.slots, funext fun other => ?_⟩
  rw [Fifo.mark_applied, ← h.applied]
  by_cases hother : other = batch
  · subst hother
    simp [SequentialQueue.is_applied]
  · simp [SequentialQueue.is_applied, Function.update_of_ne hother]

end Represents

/-- Each complete call on the ring comes to the end it comes to on the FIFO. -/
theorem batch_queue_simulates (hN : Capacity N) (start : Nat) :
    (batch_queue N).Simulates (fifo_machine N) (Represents N start) := by
  intro s f call h
  cases call with
  | enqueue batch =>
    obtain ⟨queue, result, halone, houtcome, h', _⟩ := h.enqueue hN batch
    refine ⟨{ s with queue }, (f.enqueue batch).1, result.outcome, ?_, ?_, h'⟩
    · simp only [batch_queue, halone, Option.map_some]
    · rw [← houtcome]
      rfl
  | mark_applied batch => exact ⟨_, _, .marked, rfl, rfl, h.mark_applied batch⟩
  | try_dequeue =>
    obtain ⟨queue, halone, h', _⟩ := h.try_dequeue hN
    refine ⟨{ s with queue }, f.try_dequeue.1, .dequeued f.try_dequeue.2, ?_, rfl, h'⟩
    simp only [batch_queue, halone, Option.map_some]

theorem start_represents (counter : BitVec 32) (states : BatchPtr → BatchRuntimeState) :
    Represents N counter.toNat (.start counter states)
      (.empty N (SequentialQueue.start counter states).is_applied) where
  head_tail := by
    simp only [SequentialQueue.start, HeadTail.counters, Fifo.empty, List.length_nil, Nat.add_zero,
      BitVec.ofNat_toNat, BitVec.setWidth_eq]
  slots := fun _ _ => rfl
  applied := rfl

/-- A call that panics or returns no batch changes nothing. -/
theorem Represents.unchanged (hN : Capacity N) (h : Represents N start s f) {call : QueueCall}
    {s' : SequentialQueue} {outcome : QueueOutcome}
    (hstep : (batch_queue N).step s call = some (s', outcome))
    (houtcome : outcome = .panicked ∨ outcome = .dequeued none) : s' = s := by
  cases call with
  | enqueue batch =>
    obtain ⟨queue, result, halone, _, _, hsame⟩ := h.enqueue hN batch
    simp only [batch_queue, halone, Option.map_some, Option.some.injEq, Prod.mk.injEq] at hstep
    obtain ⟨rfl, rfl⟩ := hstep
    cases result with
    | returned => rcases houtcome with h | h <;> cases h
    | panicked => rw [hsame rfl]
  | mark_applied batch =>
    cases hstep
    rcases houtcome with h | h <;> cases h
  | try_dequeue =>
    obtain ⟨queue, halone, _, hsame⟩ := h.try_dequeue hN
    simp only [batch_queue, halone, Option.map_some, Option.some.injEq, Prod.mk.injEq] at hstep
    obtain ⟨rfl, rfl⟩ := hstep
    obtain h | h := houtcome
    · cases h
    · rw [hsame (QueueOutcome.dequeued.inj h)]

/-- The counters stand where the batches that entered and left have moved them:
neither disturbs the other when it wraps. -/
theorem Represents.counters {counter : BitVec 32} (h : Represents N counter.toNat s f) :
    HeadTail.unpack_unchecked s.queue.head_tail =
      (counter + BitVec.ofNat 32 (f.left + f.batches.length),
        counter + BitVec.ofNat 32 f.left) := by
  rw [h.unpack, Nat.add_assoc, BitVec.ofNat_add, BitVec.ofNat_add counter.toNat f.left,
    BitVec.ofNat_toNat, BitVec.setWidth_eq]

/-- From any common value of the counters, every sequence of complete calls has
the outcomes that it has on the FIFO of capacity `N`, the counters have moved by
the batches that entered and left, and a call that panics or returns no batch
changes nothing. -/
theorem batch_queue_refines_fifo (hN : Capacity N) (counter : BitVec 32)
    (states : BatchPtr → BatchRuntimeState) (calls : List QueueCall) :
    ∃ s f outcomes, (batch_queue N).run (.start counter states) calls = some (s, outcomes) ∧
      (fifo_machine N).run (.empty N (SequentialQueue.start counter states).is_applied) calls =
        some (f, outcomes) ∧
      HeadTail.unpack_unchecked s.queue.head_tail =
        (counter + BitVec.ofNat 32 (f.left + f.batches.length),
          counter + BitVec.ofNat 32 f.left) ∧
      ∀ call s' outcome, (batch_queue N).step s call = some (s', outcome) →
        outcome = .panicked ∨ outcome = .dequeued none → s' = s := by
  obtain ⟨s, f, outcomes, hring, hfifo, h⟩ :=
    (batch_queue_simulates hN counter.toNat).run calls (start_represents counter states)
  exact ⟨s, f, outcomes, hring, hfifo, h.counters, fun _ _ _ => h.unchanged hN⟩

/-- Both counters stand one below the wrap; the queue of capacity two fills up,
refuses a third batch and gives the applied front back. -/
theorem batch_queue_refines_fifo_wrapping :
    let calls := [QueueCall.enqueue 10, .enqueue 11, .enqueue 12, .try_dequeue, .mark_applied 10,
      .try_dequeue]
    ((batch_queue 2).run (.start (BitVec.ofNat 32 (2 ^ 32 - 1)) fun _ => .InQueue) calls).map
        Prod.snd = some [.enqueued, .enqueued, .panicked, .dequeued none, .marked,
      .dequeued (some 10)] ∧
    ∃ s f outcomes,
      (batch_queue 2).run (.start (BitVec.ofNat 32 (2 ^ 32 - 1)) fun _ => .InQueue) calls =
        some (s, outcomes) ∧
      (fifo_machine 2).run (.empty 2 (SequentialQueue.start (BitVec.ofNat 32 (2 ^ 32 - 1))
        fun _ => .InQueue).is_applied) calls = some (f, outcomes) ∧
      HeadTail.unpack_unchecked s.queue.head_tail =
        (BitVec.ofNat 32 (2 ^ 32 - 1) + BitVec.ofNat 32 (f.left + f.batches.length),
          BitVec.ofNat 32 (2 ^ 32 - 1) + BitVec.ofNat 32 f.left) ∧
      ∀ call s' outcome, (batch_queue 2).step s call = some (s', outcome) →
        outcome = .panicked ∨ outcome = .dequeued none → s' = s :=
  ⟨by decide +kernel, batch_queue_refines_fifo Capacity.two _ _ _⟩

end ordinum.write_pipeline
