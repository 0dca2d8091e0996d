import Ordinum.Db.Batch.Inner
import Ordinum.Db.WritePipeline.BatchQueue
import Ordinum.Interleaving.System

open interleaving
open ordinum.batch

namespace ordinum.write_pipeline

structure SeqNumState where
  visible_seq_num : BitVec 64
  log_seq_num : BitVec 64
  deriving DecidableEq, Repr

def SeqNumState.new : SeqNumState := { visible_seq_num := 0, log_seq_num := 0 }

/-- The sequence numbers computed for a batch (history): the difference that
`prepare` stamps, and whether it underflowed. -/
structure Stamp where
  batch : BatchPtr
  count : BitVec 32
  base : BitVec 64
  underflow : Bool
  deriving DecidableEq, Repr

/-- How a call of `prepare` ends. -/
inductive PrepareResult where
  | ok
  | error
  | panicked
  deriving DecidableEq, Repr

/-- Program points of `prepare(batch)`. -/
inductive PreparePc where
  | lock
  | enqueue (pc : EnqueuePc)
  | set_in_queue
  | fetch_add
  | assign (base : BitVec 64)
  | prepare_commit
  | unlock (result : PrepareResult)
  | unwind
  deriving DecidableEq, Repr

inductive PipelinePc where
  | idle
  | prepare (batch : BatchPtr) (pc : PreparePc)
  | dequeue (pc : DequeuePc)
  deriving DecidableEq, Repr

/-- The memory of the pipeline: its queue, the batches, the sequence counters and
the queue mutex. The stamps and the finished calls of `prepare` are history. -/
structure PipelineShared (Tid : Type) where
  queue : BatchQueue
  batches : BatchPtr → BatchInner
  seq_state : SeqNumState
  q_mu : Mutex Tid
  stamps : List Stamp
  prepared : List (BatchPtr × PrepareResult)

def PipelineShared.is_applied {Tid : Type} (s : PipelineShared Tid) (batch : BatchPtr) : Bool :=
  (s.batches batch).runtime_commit_state == .Applied

/-- `write` is what the owner or the pipeline's later stages do to a batch
outside of `prepare`; `env_ok` is what `WriterEnv::prepare_commit` answers when
the step is its call. -/
inductive PipelineAct where
  | prepare (batch : BatchPtr)
  | try_dequeue
  | write (batch : BatchPtr) (inner : BatchInner)
  | step (env_ok : Bool)

variable {Tid : Type}

def PipelineShared.with_batch (s : PipelineShared Tid) (batch : BatchPtr) (inner : BatchInner) :
    PipelineShared Tid :=
  { s with batches := Function.update s.batches batch inner }

@[simp] theorem PipelineShared.with_batch_self (s : PipelineShared Tid) (batch : BatchPtr)
    (inner : BatchInner) : (s.with_batch batch inner).batches batch = inner :=
  Function.update_self ..

theorem PipelineShared.with_batch_of_ne (s : PipelineShared Tid) {batch other : BatchPtr}
    (inner : BatchInner) (hne : other ≠ batch) :
    (s.with_batch batch inner).batches other = s.batches other :=
  Function.update_of_ne hne ..

/-- The stamp of a batch: the counter before the addition, less the batch's own
count. -/
def stamp_of (batch : BatchPtr) (inner : BatchInner) (log_seq_num : BitVec 64) : Stamp :=
  { batch
    count := inner.get_batch_count
    base := log_seq_num - inner.get_batch_count.setWidth 64
    underflow := log_seq_num < inner.get_batch_count.setWidth 64 }

/-- One step of `WritePipeline::prepare` inside the critical section and at its
ends. With `overflow_checks` an underflowing subtraction panics, and a panic
poisons the mutex. -/
def prepare_step (N : Nat) (overflow_checks : Bool) (t : Tid) (batch : BatchPtr) (env_ok : Bool)
    (s : PipelineShared Tid) :
    PreparePc → Option (PipelineShared Tid × Progress PreparePc PrepareResult)
  | .lock =>
    match s.q_mu with
    | .free => some ({ s with q_mu := .held t }, .next (.enqueue (.load batch)))
    | .held _ => none
    | .poisoned => some (s, .done .panicked)
  | .enqueue pc =>
    let (queue, progress) := enqueue_step N s.queue pc
    some ({ s with queue }, match progress with
      | .next pc => .next (.enqueue pc)
      | .done .returned => .next .set_in_queue
      | .done .panicked => .next .unwind)
  | .set_in_queue =>
    some (s.with_batch batch ((s.batches batch).set_runtime_state .InQueue), .next .fetch_add)
  | .fetch_add =>
    let stamp := stamp_of batch (s.batches batch) s.seq_state.log_seq_num
    some ({ s with
      seq_state := { s.seq_state with
        log_seq_num := s.seq_state.log_seq_num + stamp.count.setWidth 64 }
      stamps := s.stamps ++ [stamp] },
      .next (if overflow_checks && stamp.underflow then .unwind else .assign stamp.base))
  | .assign base =>
    match (s.batches batch).assign_seq_num_once base with
    | some inner => some (s.with_batch batch inner, .next .prepare_commit)
    | none => some (s, .next .unwind)
  -- either answer leaves through the drop of the guard
  | .prepare_commit => some (s, .next (.unlock (if env_ok then .ok else .error)))
  | .unlock result => some ({ s with q_mu := .free }, .done result)
  | .unwind => some ({ s with q_mu := .poisoned }, .done .panicked)

def pipeline_step (N : Nat) (overflow_checks : Bool) (t : Tid) :
    PipelineAct → PipelineShared Tid → PipelinePc → Option (PipelineShared Tid × PipelinePc)
  | .prepare batch, s, .idle => some (s, .prepare batch .lock)
  | .try_dequeue, s, .idle => some (s, .dequeue .load)
  | .write batch inner, s, .idle => some (s.with_batch batch inner, .idle)
  | .step env_ok, s, .prepare batch pc =>
    (prepare_step N overflow_checks t batch env_ok s pc).map fun (s, progress) =>
      match progress with
      | .next pc => (s, .prepare batch pc)
      | .done result => ({ s with prepared := s.prepared ++ [(batch, result)] }, .idle)
  | .step _, s, .dequeue pc =>
    let (queue, progress) := dequeue_step N s.is_applied s.queue pc
    some ({ s with queue }, progress.elim .dequeue fun _ => .idle)
  | _, _, _ => none

/-- Any number of threads in `prepare` and `try_dequeue`, over batches with any
contents. -/
def pipeline_system (Tid : Type) [DecidableEq Tid] (N : Nat) (overflow_checks : Bool)
    (batches : BatchPtr → BatchInner) :
    System Tid PipelineAct (PipelineShared Tid) PipelinePc where
  shared₀ :=
    { queue := .new
      batches
      seq_state := .new
      q_mu := .free
      stamps := []
      prepared := [] }
  local₀ := .idle
  step := pipeline_step N overflow_checks

end ordinum.write_pipeline
