import Ordinum.Db.WritePipeline.BatchQueue
import Ordinum.Interleaving.System

open interleaving
open ordinum.batch

namespace ordinum.write_pipeline

/-- A thread's permit of the admission semaphore: not held, held for a batch
still to be enqueued, or held for the batch it enqueued at `position`. -/
inductive Permit where
  | none
  | held
  | queued (position : Nat) (batch : BatchPtr)
  deriving DecidableEq, Repr

inductive QueuePc where
  | idle
  | enqueue (pc : EnqueuePc)
  | dequeue (pc : DequeuePc)
  | acquire (pc : AcquirePc)
  | release (pc : ReleasePc)
  deriving DecidableEq, Repr

structure QueueThread where
  pc : QueuePc
  permit : Permit
  deriving DecidableEq, Repr

/-- The memory shared by the threads: the queue, every batch's runtime state,
the semaphore, and which thread is inside `enqueue`. -/
structure QueueShared (Tid : Type) where
  queue : BatchQueue
  runtime_commit_state : BatchPtr → BatchRuntimeState
  admission : PipelineAdmission Tid
  producer : Option Tid

def QueueShared.is_applied {Tid : Type} (s : QueueShared Tid) (batch : BatchPtr) : Bool :=
  s.runtime_commit_state batch == .Applied

/-- What a thread does next: start a call, store a batch's runtime state (the
owner's and the pipeline's `set_runtime_state` and `mark_applied`), or take the
next atomic step of its call. -/
inductive QueueAct (Tid : Type) where
  | enqueue (batch : BatchPtr)
  | try_dequeue
  | acquire
  | release
  | set_runtime_state (batch : BatchPtr) (state : BatchRuntimeState)
  | step (choice : SemChoice Tid)

variable {Tid : Type} [DecidableEq Tid]

/-- One atomic step of a thread. A finished `enqueue` leaves the thread's permit
tied to the position of its batch; a finished `release` gives it up. -/
def queue_step (N : Nat) (t : Tid) :
    QueueAct Tid → QueueShared Tid → QueueThread → Option (QueueShared Tid × QueueThread)
  | .enqueue batch, s, { pc := .idle, permit } =>
    some ({ s with producer := some t }, { pc := .enqueue (.load batch), permit })
  | .try_dequeue, s, { pc := .idle, permit } => some (s, { pc := .dequeue .load, permit })
  | .acquire, s, { pc := .idle, permit } =>
    some (s, { pc := .acquire (.try_load false), permit })
  | .release, s, { pc := .idle, permit } => some (s, { pc := .release .lock, permit })
  | .set_runtime_state batch state, s, { pc := .idle, permit } =>
    some ({ s with
      runtime_commit_state := Function.update s.runtime_commit_state batch state },
      { pc := .idle, permit })
  | .step _, s, { pc := .enqueue pc, permit } =>
    let (queue, progress) := enqueue_step N s.queue pc
    match progress with
    | .next pc => some ({ s with queue }, { pc := .enqueue pc, permit })
    | .done .panicked => some ({ s with queue, producer := .none }, { pc := .idle, permit })
    | .done .returned =>
      let position := s.queue.enqueued.length
      some ({ s with queue, producer := .none },
        { pc := .idle
          permit := match permit, queue.enqueued[position]? with
            | .held, some batch => .queued position batch
            | permit, _ => permit })
  | .step _, s, { pc := .dequeue pc, permit } =>
    let (queue, progress) := dequeue_step N s.is_applied s.queue pc
    some ({ s with queue }, { pc := progress.elim .dequeue fun _ => .idle, permit })
  | .step choice, s, { pc := .acquire pc, permit } =>
    (acquire_step t choice s.admission pc).map fun (admission, progress) =>
      match progress with
      | .next pc => ({ s with admission }, { pc := .acquire pc, permit })
      | .done .returned => ({ s with admission }, { pc := .idle, permit := .held })
      | .done .panicked => ({ s with admission }, { pc := .idle, permit })
  | .step choice, s, { pc := .release pc, permit } =>
    (release_step N t choice s.admission pc).map fun (admission, progress) =>
      match progress with
      | .next pc => ({ s with admission }, { pc := .release pc, permit })
      | .done .returned => ({ s with admission }, { pc := .idle, permit := .none })
      | .done .panicked => ({ s with admission }, { pc := .idle, permit })
  | _, _, _ => none

/-- Any number of threads on one `BatchQueue<N>` and its
`PipelineAdmission<N>`. -/
def queue_system (Tid : Type) [DecidableEq Tid] (N : Nat) :
    System Tid (QueueAct Tid) (QueueShared Tid) QueueThread where
  shared₀ :=
    { queue := .new
      runtime_commit_state := fun _ => .Acquired
      admission := .new Tid N
      producer := none }
  local₀ := { pc := .idle, permit := .none }
  step := queue_step N

abbrev QueueConfig (Tid : Type) := Config Tid (QueueShared Tid) QueueThread

abbrev QueueCondition (Tid : Type) :=
  System.StepCondition Tid (QueueAct Tid) (QueueShared Tid) QueueThread

/-- `enqueue` is called by one producer at a time. -/
def one_producer : QueueCondition Tid := fun _ a s _ =>
  match a with
  | .enqueue _ => s.producer = none
  | _ => True

/-- A thread holds a permit before its `enqueue` and releases it only after some
`try_dequeue` has returned its batch. -/
def permits_held : QueueCondition Tid := fun _ a s l =>
  match a with
  | .enqueue _ => l.permit = .held
  | .acquire => l.permit = .none
  | .release =>
    match l.permit with
    | .none => False
    | .held => True
    | .queued position batch => (position, batch) ∈ s.queue.returned
  | _ => True

/-- The applied flag of a batch is not cleared while the batch is queued. -/
def applied_flags_kept : QueueCondition Tid := fun _ a s _ =>
  match a with
  | .set_runtime_state batch state =>
    s.runtime_commit_state batch = .Applied → state ≠ .Applied → batch ∉ s.queue.queued
  | _ => True

/-- Fewer than `2 ^ 32` batches have entered the queue. -/
def counters_unwrapped : QueueCondition Tid := fun _ _ s _ => s.queue.enqueued.length < 2 ^ 32

/-- The store of an `enqueue` finds its slot empty. -/
def stores_into_empty_slot (N : Nat) : QueueCondition Tid := fun _ a s l =>
  match a, l.pc with
  | .step _, .enqueue (.store _ head) => s.queue.slots (slot_index N head) = none
  | _, _ => True

instance (t : Tid) (a : QueueAct Tid) (s : QueueShared Tid) (l : QueueThread) :
    Decidable (one_producer t a s l) := by
  unfold one_producer
  split <;> infer_instance

instance (t : Tid) (a : QueueAct Tid) (s : QueueShared Tid) (l : QueueThread) :
    Decidable (permits_held t a s l) := by
  unfold permits_held
  split <;> try infer_instance
  split <;> infer_instance

instance (t : Tid) (a : QueueAct Tid) (s : QueueShared Tid) (l : QueueThread) :
    Decidable (applied_flags_kept t a s l) := by
  unfold applied_flags_kept
  split <;> infer_instance

instance (t : Tid) (a : QueueAct Tid) (s : QueueShared Tid) (l : QueueThread) :
    Decidable (counters_unwrapped t a s l) :=
  inferInstanceAs (Decidable (_ < _))

instance {N : Nat} (t : Tid) (a : QueueAct Tid) (s : QueueShared Tid) (l : QueueThread) :
    Decidable (stores_into_empty_slot N t a s l) := by
  unfold stores_into_empty_slot
  split <;> infer_instance

end ordinum.write_pipeline
