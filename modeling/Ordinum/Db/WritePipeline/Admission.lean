import Ordinum.Interleaving.Sync

open interleaving

namespace ordinum.write_pipeline

/-- `PipelineAdmission<COUNTING_SEM_LIMIT>`: the counting semaphore that bounds
the batches in the commit queue. -/
structure PipelineAdmission (Tid : Type) where
  count : BitVec 16
  sem_mu : Mutex Tid
  sem_cv : Condvar Tid

def PipelineAdmission.new (Tid : Type) (COUNTING_SEM_LIMIT : Nat) : PipelineAdmission Tid :=
  { count := BitVec.ofNat 16 COUNTING_SEM_LIMIT, sem_mu := .free, sem_cv := ⟨[]⟩ }

/-- Program points of `try_acquire`. -/
inductive TryAcquirePc where
  | load
  | cas (cur : BitVec 16)
  deriving DecidableEq, Repr

/-- Program points of `acquire`. `slow` tells the `try_acquire` that is called
under `sem_mu` from the one on the fast path. -/
inductive AcquirePc where
  | try_load (slow : Bool)
  | try_cas (slow : Bool) (cur : BitVec 16)
  | lock
  | check
  | wait
  | sleep
  | relock
  | unlock
  deriving DecidableEq, Repr

/-- Program points of `release`. -/
inductive ReleasePc where
  | lock
  | fetch_add
  | check (prev : BitVec 16)
  | notify
  | unlock
  deriving DecidableEq, Repr

/-- A call returned, or panicked and unwound. -/
inductive CallResult where
  | returned
  | panicked
  deriving DecidableEq, Repr

/-- What the scheduler decides for a semaphore step: an early wake-up of the
sleeping thread, and which sleeper a notification reaches. -/
structure SemChoice (Tid : Type) where
  spurious : Bool := false
  notified : Option Tid := none

variable {Tid : Type} [DecidableEq Tid]

/-- One atomic step of `try_acquire`. -/
def try_acquire_step (sem : PipelineAdmission Tid) :
    TryAcquirePc → PipelineAdmission Tid × Progress TryAcquirePc Bool
  | .load => (sem, if sem.count = 0#16 then .done false else .next (.cas sem.count))
  | .cas cur =>
    if sem.count = cur then ({ sem with count := cur - 1#16 }, .done true)
    else (sem, if sem.count = 0#16 then .done false else .next (.cas sem.count))

/-- The loop of `try_acquire`, called by `acquire`, on the value `cur` just
read: give up at zero, otherwise try to take a permit. -/
def try_acquire_next (slow : Bool) (cur : BitVec 16) : AcquirePc :=
  if cur = 0#16 then (if slow then .check else .lock) else .try_cas slow cur

/-- One atomic step of `acquire`. -/
def acquire_step (t : Tid) (choice : SemChoice Tid) (sem : PipelineAdmission Tid) :
    AcquirePc → Option (PipelineAdmission Tid × Progress AcquirePc CallResult)
  | .try_load slow => some (sem, .next (try_acquire_next slow sem.count))
  | .try_cas slow cur =>
    if sem.count = cur then
      some ({ sem with count := cur - 1#16 }, if slow then .next .unlock else .done .returned)
    else some (sem, .next (try_acquire_next slow sem.count))
  | .lock =>
    match sem.sem_mu with
    | .free => some ({ sem with sem_mu := .held t }, .next .check)
    | .held _ => none
    | .poisoned => some (sem, .done .panicked)
  | .check => some (sem, .next (if sem.count = 0#16 then .wait else .try_load true))
  -- the condition variable gives the mutex up and puts the caller to sleep in one step
  | .wait =>
    some ({ sem with sem_mu := .free, sem_cv := ⟨t :: sem.sem_cv.waiting⟩ }, .next .sleep)
  | .sleep =>
    if t ∉ sem.sem_cv.waiting then some (sem, .next .relock)
    else if choice.spurious then
      some ({ sem with sem_cv := ⟨sem.sem_cv.waiting.erase t⟩ }, .next .relock)
    else none
  | .relock =>
    match sem.sem_mu with
    | .free => some ({ sem with sem_mu := .held t }, .next .check)
    | .held _ => none
    | .poisoned => some (sem, .done .panicked)
  | .unlock => some ({ sem with sem_mu := .free }, .done .returned)

/-- One atomic step of `release`. The assertion fails with the guard alive, so
the unwinding thread poisons the mutex. -/
def release_step (COUNTING_SEM_LIMIT : Nat) (t : Tid) (choice : SemChoice Tid)
    (sem : PipelineAdmission Tid) :
    ReleasePc → Option (PipelineAdmission Tid × Progress ReleasePc CallResult)
  | .lock =>
    match sem.sem_mu with
    | .free => some ({ sem with sem_mu := .held t }, .next .fetch_add)
    | .held _ => none
    | .poisoned => some (sem, .done .panicked)
  | .fetch_add => some ({ sem with count := sem.count + 1#16 }, .next (.check sem.count))
  | .check prev =>
    if prev.toNat < COUNTING_SEM_LIMIT then some (sem, .next .notify)
    else some ({ sem with sem_mu := .poisoned }, .done .panicked)
  | .notify =>
    (sem.sem_cv.notify_one choice.notified).map fun cv => ({ sem with sem_cv := cv }, .next .unlock)
  | .unlock => some ({ sem with sem_mu := .free }, .done .returned)

end ordinum.write_pipeline
