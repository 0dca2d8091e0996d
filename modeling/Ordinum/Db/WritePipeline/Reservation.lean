import Ordinum.Db.WritePipeline.QueueInvariant
import Ordinum.Db.WritePipeline.Semaphore

open interleaving
open ordinum.batch

namespace ordinum.write_pipeline

/-- Program points of `reserve_space`: the spinning phase with the attempts
that are left after the present one, then the call of `acquire`. -/
inductive ReservePc where
  | try_reserve_space (left : Nat) (pc : TryAcquirePc)
  | acquire (pc : AcquirePc)
  deriving DecidableEq, Repr

def ReservePc.start : ReservePc := .try_reserve_space 199 .load

section steps

variable {Tid : Type} [DecidableEq Tid]

/-- One atomic step of `reserve_space`. -/
def reserve_step (t : Tid) (choice : SemChoice Tid) (sem : PipelineAdmission Tid) :
    ReservePc → Option (PipelineAdmission Tid × Progress ReservePc CallResult)
  | .try_reserve_space left pc =>
    let (sem, progress) := try_acquire_step sem pc
    match progress, left with
    | .next pc, left => some (sem, .next (.try_reserve_space left pc))
    | .done true, _ => some (sem, .done .returned)
    | .done false, left + 1 => some (sem, .next (.try_reserve_space left .load))
    | .done false, 0 => some (sem, .next (.acquire (.try_load false)))
  | .acquire pc =>
    (acquire_step t choice sem pc).map fun (sem, progress) =>
      (sem, progress.elim (fun pc => .next (.acquire pc)) .done)

end steps

inductive ReservationPc where
  | idle
  | reserve (pc : ReservePc)
  | enqueue (pc : EnqueuePc)
  | dequeue (pc : DequeuePc)
  | release (pc : ReleasePc)
  deriving DecidableEq, Repr

/-- A thread of the pipeline: how many reservations it has to enqueue with, and
the batches it enqueued and has yet to release the space of. -/
structure ReservationThread where
  pc : ReservationPc
  reserved : Nat
  queued : List BatchPtr
  deriving DecidableEq, Repr

/-- The queue and its semaphore; `producer` is the holder of `q_mu`. The batches
that a `try_dequeue` returned and whose space is not yet released are history. -/
structure ReservationShared (Tid : Type) where
  pipeline : QueueShared Tid
  unreleased : List BatchPtr

inductive ReservationAct (Tid : Type) where
  | reserve_space
  | enqueue (batch : BatchPtr)
  | try_dequeue
  | release_queue_space (batch : BatchPtr)
  | set_runtime_state (batch : BatchPtr) (state : BatchRuntimeState)
  | step (choice : SemChoice Tid)

variable {Tid : Type} [DecidableEq Tid]

/-- One atomic step of a thread. `enqueue` starts when `q_mu` is free and holds
it to its end. -/
def reservation_step (N : Nat) (t : Tid) : ReservationAct Tid → ReservationShared Tid →
    ReservationThread → Option (ReservationShared Tid × ReservationThread)
  | .reserve_space, s, { pc := .idle, reserved, queued } =>
    some (s, { pc := .reserve .start, reserved, queued })
  | .enqueue batch, s, { pc := .idle, reserved, queued } =>
    match s.pipeline.producer with
    | none => some ({ s with pipeline := { s.pipeline with producer := some t } },
        { pc := .enqueue (.load batch), reserved, queued })
    | some _ => none
  | .try_dequeue, s, { pc := .idle, reserved, queued } =>
    some (s, { pc := .dequeue .load, reserved, queued })
  | .release_queue_space batch, s, { pc := .idle, reserved, queued } =>
    some ({ s with unreleased := s.unreleased.erase batch },
      { pc := .release .lock, reserved, queued := queued.erase batch })
  | .set_runtime_state batch state, s, { pc := .idle, reserved, queued } =>
    some ({ s with pipeline := { s.pipeline with
      runtime_commit_state := Function.update s.pipeline.runtime_commit_state batch state } },
      { pc := .idle, reserved, queued })
  | .step choice, s, { pc := .reserve pc, reserved, queued } =>
    (reserve_step t choice s.pipeline.admission pc).map fun (admission, progress) =>
      ({ s with pipeline := { s.pipeline with admission } },
        match progress with
        | .next pc => { pc := .reserve pc, reserved, queued }
        | .done .returned => { pc := .idle, reserved := reserved + 1, queued }
        | .done .panicked => { pc := .idle, reserved, queued })
  | .step _, s, { pc := .enqueue pc, reserved, queued } =>
    let (queue, progress) := enqueue_step N s.pipeline.queue pc
    match progress with
    | .next pc => some ({ s with pipeline := { s.pipeline with queue } },
        { pc := .enqueue pc, reserved, queued })
    | .done .panicked => some ({ s with pipeline := { s.pipeline with queue, producer := none } },
        { pc := .idle, reserved, queued })
    | .done .returned =>
      some ({ s with pipeline := { s.pipeline with queue, producer := none } },
        { pc := .idle, reserved := reserved - 1,
          queued := queued ++ queue.enqueued.drop s.pipeline.queue.enqueued.length })
  | .step _, s, { pc := .dequeue pc, reserved, queued } =>
    let (queue, progress) := dequeue_step N s.pipeline.is_applied s.pipeline.queue pc
    match progress with
    | .next pc => some ({ s with pipeline := { s.pipeline with queue } },
        { pc := .dequeue pc, reserved, queued })
    | .done found =>
      some ({ pipeline := { s.pipeline with queue }, unreleased := s.unreleased ++ found.toList },
        { pc := .idle, reserved, queued })
  | .step choice, s, { pc := .release pc, reserved, queued } =>
    (release_step N t choice s.pipeline.admission pc).map fun (admission, progress) =>
      ({ s with pipeline := { s.pipeline with admission } },
        { pc := progress.elim .release fun _ => .idle, reserved, queued })
  | _, _, _ => none

/-- Any number of threads that reserve space in one `BatchQueue<N>`. -/
def reservation_system (Tid : Type) [DecidableEq Tid] (N : Nat) :
    System Tid (ReservationAct Tid) (ReservationShared Tid) ReservationThread where
  shared₀ := { pipeline := (queue_system Tid N).shared₀, unreleased := [] }
  local₀ := { pc := .idle, reserved := 0, queued := [] }
  step := reservation_step N

abbrev ReservationConfig (Tid : Type) := Config Tid (ReservationShared Tid) ReservationThread

/-- Space is reserved before each `enqueue` and released for a batch that the
thread enqueued only after some `try_dequeue` has returned it, once for each
return. -/
def space_reserved : System.StepCondition Tid (ReservationAct Tid) (ReservationShared Tid)
    ReservationThread :=
  fun _ a s l =>
    match a with
    | .enqueue _ => 0 < l.reserved
    | .release_queue_space batch => batch ∈ l.queued ∧ batch ∈ s.unreleased
    | _ => True

instance (t : Tid) (a : ReservationAct Tid) (s : ReservationShared Tid) (l : ReservationThread) :
    Decidable (space_reserved t a s l) := by
  unfold space_reserved
  split <;> infer_instance

end ordinum.write_pipeline
