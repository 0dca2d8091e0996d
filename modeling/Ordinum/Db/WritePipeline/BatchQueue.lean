import Mathlib.Logic.Function.Basic
import Ordinum.Db.Batch.State
import Ordinum.Db.WritePipeline.Admission
import Ordinum.Db.WritePipeline.HeadTail

open interleaving
open ordinum.batch

namespace ordinum.write_pipeline

/-- `BatchQueue<N>`: the packed counters and the ring of slots. The last four
fields are history, which no step reads: the batches stored into slots and the
batches whose `enqueue` has completed, in order; the batches claimed by a
successful exchange on the tail, in order and with their applied flag at that
moment; and the batches that `try_dequeue` calls returned, with their queue
positions. -/
structure BatchQueue where
  head_tail : BitVec 64
  slots : Nat → Option BatchPtr
  stored : List BatchPtr
  enqueued : List BatchPtr
  claimed : List (BatchPtr × Bool)
  returned : List (Nat × BatchPtr)

/-- The capacities that `BatchQueue::new` accepts. -/
structure Capacity (N : Nat) : Prop where
  is_power_of_two : ∃ k, N = 2 ^ k
  le_max : N ≤ 1024

theorem Capacity.pos {N : Nat} (hN : Capacity N) : 0 < N := by
  obtain ⟨k, rfl⟩ := hN.is_power_of_two
  exact Nat.two_pow_pos k

theorem Capacity.slot_index {N : Nat} (hN : Capacity N) (position : Nat) :
    slot_index N (BitVec.ofNat 32 position) = position % N :=
  slot_index_ofNat hN.is_power_of_two hN.le_max position

theorem slot_index_lt {N : Nat} (hN : Capacity N) (counter : BitVec 32) :
    slot_index N counter < N := by
  have hslot := hN.slot_index counter.toNat
  rw [BitVec.ofNat_toNat, BitVec.setWidth_eq] at hslot
  rw [hslot]
  exact Nat.mod_lt _ hN.pos

theorem Capacity.two : Capacity 2 := ⟨⟨1, rfl⟩, by decide⟩

def BatchQueue.new : BatchQueue :=
  { head_tail := 0, slots := fun _ => none, stored := [], enqueued := [], claimed := [],
    returned := [] }

/-- The batches that entered the queue and were not claimed yet, oldest first. -/
def BatchQueue.queued (q : BatchQueue) : List BatchPtr :=
  q.enqueued.drop q.claimed.length

/-- The stored batch becomes visible with the new packed word. -/
def BatchQueue.published (q : BatchQueue) (head_tail : BitVec 64) (batch : BatchPtr) :
    BatchQueue :=
  { q with head_tail, enqueued := q.enqueued ++ [batch] }

section published

variable (q : BatchQueue) (head_tail : BitVec 64) (batch : BatchPtr)

@[simp] theorem BatchQueue.published_head_tail :
    (q.published head_tail batch).head_tail = head_tail := rfl

@[simp] theorem BatchQueue.published_slots :
    (q.published head_tail batch).slots = q.slots := rfl

@[simp] theorem BatchQueue.published_stored :
    (q.published head_tail batch).stored = q.stored := rfl

@[simp] theorem BatchQueue.published_enqueued :
    (q.published head_tail batch).enqueued = q.enqueued ++ [batch] := rfl

@[simp] theorem BatchQueue.published_claimed :
    (q.published head_tail batch).claimed = q.claimed := rfl

@[simp] theorem BatchQueue.published_returned :
    (q.published head_tail batch).returned = q.returned := rfl

end published

/-- Program points of `enqueue(batch)`, each before its next atomic access. -/
inductive EnqueuePc where
  | load (batch : BatchPtr)
  | load_slot (batch : BatchPtr) (head : BitVec 32)
  | store (batch : BatchPtr) (head : BitVec 32)
  | publish (batch : BatchPtr)
  deriving DecidableEq, Repr

/-- One atomic step of `BatchQueue::enqueue`. -/
def enqueue_step (N : Nat) (q : BatchQueue) :
    EnqueuePc → BatchQueue × Progress EnqueuePc CallResult
  | .load batch =>
    let (head, tail) := HeadTail.unpack_unchecked q.head_tail
    if tail + BitVec.ofNat 32 N = head then (q, .done .panicked)
    else (q, .next (.load_slot batch head))
  -- a slot that still holds a batch costs one `spin_loop` hint and nothing else
  | .load_slot batch head => (q, .next (.store batch head))
  | .store batch head =>
    ({ q with
        slots := Function.update q.slots (slot_index N head) (some batch)
        stored := q.stored ++ [batch] }, .next (.publish batch))
  | .publish batch =>
    (q.published (q.head_tail + (1#64 <<< HeadTail.DEQUEUE_BITS)) batch, .done .returned)

@[simp] theorem enqueue_step_publish (N : Nat) (q : BatchQueue) (batch : BatchPtr) :
    enqueue_step N q (.publish batch) =
      (q.published (q.head_tail + (1#64 <<< HeadTail.DEQUEUE_BITS)) batch, .done .returned) := rfl

/-- Program points of `try_dequeue`. At `clear` the call owns the queue
position `position` (history) and has yet to empty its slot. -/
inductive DequeuePc where
  | load
  | load_slot (ht : BitVec 64)
  | is_applied (ht : BitVec 64) (batch : BatchPtr)
  | cas (ht : BitVec 64) (batch : BatchPtr)
  | clear (position : Nat) (tail : BitVec 32) (batch : BatchPtr)
  deriving DecidableEq, Repr

/-- One atomic step of `BatchQueue::try_dequeue`; `applied` is what
`is_applied` reads off a batch at this moment. -/
def dequeue_step (N : Nat) (applied : BatchPtr → Bool) (q : BatchQueue) :
    DequeuePc → BatchQueue × Progress DequeuePc (Option BatchPtr)
  | .load => (q, .next (.load_slot q.head_tail))
  | .load_slot ht =>
    let (head, tail) := HeadTail.unpack_unchecked ht
    if tail = head then (q, .done none)
    else
      match q.slots (slot_index N tail) with
      | none => (q, .done none)
      | some batch => (q, .next (.is_applied ht batch))
  | .is_applied ht batch =>
    if applied batch then (q, .next (.cas ht batch)) else (q, .done none)
  | .cas ht batch =>
    let (head, tail) := HeadTail.unpack_unchecked ht
    if q.head_tail = ht then
      ({ q with
          head_tail := (HeadTail.pack head (tail + 1#32)).raw
          claimed := q.claimed ++ [(batch, applied batch)] },
        .next (.clear q.claimed.length tail batch))
    else (q, .next (.load_slot q.head_tail))
  | .clear position tail batch =>
    ({ q with
        slots := Function.update q.slots (slot_index N tail) none
        returned := q.returned ++ [(position, batch)] }, .done (some batch))

/-- `try_dequeue` with no other thread moving; without a competitor its loop
runs once. -/
def try_dequeue_alone (N : Nat) (applied : BatchPtr → Bool) (q : BatchQueue) :
    Option (BatchQueue × Option BatchPtr) :=
  run_alone (dequeue_step N applied) 5 q .load

end ordinum.write_pipeline
