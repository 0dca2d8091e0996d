import Ordinum.Db.WritePipeline.Admission
import Ordinum.Interleaving.Census

open interleaving

namespace ordinum.write_pipeline

/-- Where a thread stands in its calls on the semaphore. -/
inductive SemPc where
  | idle
  | try_acquire (pc : TryAcquirePc)
  | acquire (pc : AcquirePc)
  | release (pc : ReleasePc)
  deriving DecidableEq, Repr

/-- A thread of the semaphore. `permits` are the permits in its hands between
its calls; `woken` (history) tells that its call of `acquire` was woken and has
since neither taken a permit nor gone back to sleep. -/
structure SemThread where
  pc : SemPc
  permits : Nat
  woken : Bool
  deriving DecidableEq, Repr

inductive SemAct (Tid : Type) where
  | try_acquire
  | acquire
  | release
  | step (choice : SemChoice Tid)

/-- Permits in the hands of a call: `acquire` has one from its exchange to its
return, `release` from its start to its `fetch_add`. -/
def AcquirePc.permits : AcquirePc → Nat
  | .unlock => 1
  | _ => 0

def ReleasePc.permits : ReleasePc → Nat
  | .lock | .fetch_add => 1
  | _ => 0

def SemPc.permits : SemPc → Nat
  | .acquire pc => pc.permits
  | .release pc => pc.permits
  | _ => 0

def SemThread.permits_held (l : SemThread) : Nat := l.permits + l.pc.permits

def AcquirePc.woken_after (woken : Bool) : AcquirePc → Bool
  | .relock => true
  | .sleep | .unlock => false
  | _ => woken

variable {Tid : Type} [DecidableEq Tid]

/-- One atomic step of a thread. -/
def sem_step (L : Nat) (t : Tid) :
    SemAct Tid → PipelineAdmission Tid → SemThread → Option (PipelineAdmission Tid × SemThread)
  | .try_acquire, sem, { pc := .idle, permits, woken } =>
    some (sem, { pc := .try_acquire .load, permits, woken })
  | .acquire, sem, { pc := .idle, permits, woken } =>
    some (sem, { pc := .acquire (.try_load false), permits, woken })
  | .release, sem, { pc := .idle, permits, woken } =>
    some (sem, { pc := .release .lock, permits := permits - 1, woken })
  | .step _, sem, { pc := .try_acquire pc, permits, woken } =>
    let (sem, progress) := try_acquire_step sem pc
    match progress with
    | .next pc => some (sem, { pc := .try_acquire pc, permits, woken })
    | .done acquired => some (sem, { pc := .idle, permits := permits + acquired.toNat, woken })
  | .step choice, sem, { pc := .acquire pc, permits, woken } =>
    (acquire_step t choice sem pc).map fun (sem, progress) =>
      match progress with
      | .next pc => (sem, { pc := .acquire pc, permits, woken := pc.woken_after woken })
      | .done .returned => (sem, { pc := .idle, permits := permits + 1, woken })
      | .done .panicked => (sem, { pc := .idle, permits, woken })
  | .step choice, sem, { pc := .release pc, permits, woken } =>
    (release_step L t choice sem pc).map fun (sem, progress) =>
      match progress with
      | .next pc => (sem, { pc := .release pc, permits, woken })
      | .done .returned => (sem, { pc := .idle, permits, woken })
      | .done .panicked => (sem, { pc := .idle, permits := permits + pc.permits, woken })
  | _, _, _ => none

/-- Any number of threads on one `PipelineAdmission<L>`. -/
def sem_system (Tid : Type) [DecidableEq Tid] (L : Nat) :
    System Tid (SemAct Tid) (PipelineAdmission Tid) SemThread where
  shared₀ := .new Tid L
  local₀ := { pc := .idle, permits := 0, woken := false }
  step := sem_step L

abbrev SemConfig (Tid : Type) := Config Tid (PipelineAdmission Tid) SemThread

/-- `release` is called by a thread that holds a permit. -/
def releases_held : System.StepCondition Tid (SemAct Tid) (PipelineAdmission Tid) SemThread :=
  fun _ a _ l =>
    match a with
    | .release => 0 < l.permits
    | _ => True

instance (t : Tid) (a : SemAct Tid) (sem : PipelineAdmission Tid) (l : SemThread) :
    Decidable (releases_held t a sem l) := by
  unfold releases_held
  split <;> infer_instance

/-- The two places in `acquire` that read the count for `try_acquire`. -/
inductive AcquirePc.Tries (slow : Bool) : AcquirePc → Prop
  | load : Tries slow (.try_load slow)
  | cas (cur : BitVec 16) : Tries slow (.try_cas slow cur)

/-- Everything a step can do. -/
inductive SemMove (L : Nat) (t : Tid) (a : SemAct Tid) (sem : PipelineAdmission Tid) :
    SemThread → PipelineAdmission Tid → SemThread → Prop
  | call {permits : Nat} {woken : Bool} {pc : SemPc}
    (hpc : pc = .try_acquire .load ∨ pc = .acquire (.try_load false)) :
    SemMove L t a sem ⟨.idle, permits, woken⟩ sem ⟨pc, permits, woken⟩
  | call_release {permits : Nat} {woken : Bool} (hcall : a = .release) :
    SemMove L t a sem ⟨.idle, permits, woken⟩ sem ⟨.release .lock, permits - 1, woken⟩
  | refused {permits : Nat} {woken : Bool} {pc : TryAcquirePc} :
    SemMove L t a sem ⟨.try_acquire pc, permits, woken⟩ sem ⟨.idle, permits, woken⟩
  | try_again {permits : Nat} {woken : Bool} {pc : TryAcquirePc} (hcount : sem.count ≠ 0#16) :
    SemMove L t a sem ⟨.try_acquire pc, permits, woken⟩ sem
      ⟨.try_acquire (.cas sem.count), permits, woken⟩
  | try_take {permits : Nat} {woken : Bool} :
    SemMove L t a sem ⟨.try_acquire (.cas sem.count), permits, woken⟩
      { sem with count := sem.count - 1#16 } ⟨.idle, permits + 1, woken⟩
  | slow_path {permits : Nat} {woken : Bool} {pc : AcquirePc} (hpc : pc.Tries false) :
    SemMove L t a sem ⟨.acquire pc, permits, woken⟩ sem ⟨.acquire .lock, permits, woken⟩
  | recheck {permits : Nat} {woken : Bool} {pc : AcquirePc} (hpc : pc.Tries true) :
    SemMove L t a sem ⟨.acquire pc, permits, woken⟩ sem ⟨.acquire .check, permits, woken⟩
  | read {permits : Nat} {woken slow : Bool} {pc : AcquirePc} (hpc : pc.Tries slow)
    (hcount : sem.count ≠ 0#16) : SemMove L t a sem ⟨.acquire pc, permits, woken⟩ sem
      ⟨.acquire (.try_cas slow sem.count), permits, woken⟩
  | take_fast {permits : Nat} {woken : Bool} :
    SemMove L t a sem ⟨.acquire (.try_cas false sem.count), permits, woken⟩
      { sem with count := sem.count - 1#16 } ⟨.idle, permits + 1, woken⟩
  | take_slow {permits : Nat} {woken : Bool} :
    SemMove L t a sem ⟨.acquire (.try_cas true sem.count), permits, woken⟩
      { sem with count := sem.count - 1#16 } ⟨.acquire .unlock, permits, false⟩
  | lock {permits : Nat} {woken : Bool} (hfree : sem.sem_mu = .free) :
    SemMove L t a sem ⟨.acquire .lock, permits, woken⟩ { sem with sem_mu := .held t }
      ⟨.acquire .check, permits, woken⟩
  | check_zero {permits : Nat} {woken : Bool} (hcount : sem.count = 0#16) :
    SemMove L t a sem ⟨.acquire .check, permits, woken⟩ sem ⟨.acquire .wait, permits, woken⟩
  | check_some {permits : Nat} {woken : Bool} :
    SemMove L t a sem ⟨.acquire .check, permits, woken⟩ sem
      ⟨.acquire (.try_load true), permits, woken⟩
  | wait {permits : Nat} {woken : Bool} :
    SemMove L t a sem ⟨.acquire .wait, permits, woken⟩
      { sem with sem_mu := .free, sem_cv := ⟨t :: sem.sem_cv.waiting⟩ }
      ⟨.acquire .sleep, permits, false⟩
  | notified {permits : Nat} {woken : Bool} (hawake : t ∉ sem.sem_cv.waiting) :
    SemMove L t a sem ⟨.acquire .sleep, permits, woken⟩ sem ⟨.acquire .relock, permits, true⟩
  | spurious {permits : Nat} {woken : Bool} (hasleep : t ∈ sem.sem_cv.waiting) :
    SemMove L t a sem ⟨.acquire .sleep, permits, woken⟩
      { sem with sem_cv := ⟨sem.sem_cv.waiting.erase t⟩ } ⟨.acquire .relock, permits, true⟩
  | relock {permits : Nat} {woken : Bool} (hfree : sem.sem_mu = .free) :
    SemMove L t a sem ⟨.acquire .relock, permits, woken⟩ { sem with sem_mu := .held t }
      ⟨.acquire .check, permits, woken⟩
  | unlock {permits : Nat} {woken : Bool} :
    SemMove L t a sem ⟨.acquire .unlock, permits, woken⟩ { sem with sem_mu := .free }
      ⟨.idle, permits + 1, woken⟩
  | release_lock {permits : Nat} {woken : Bool} (hfree : sem.sem_mu = .free) :
    SemMove L t a sem ⟨.release .lock, permits, woken⟩ { sem with sem_mu := .held t }
      ⟨.release .fetch_add, permits, woken⟩
  | fetch_add {permits : Nat} {woken : Bool} :
    SemMove L t a sem ⟨.release .fetch_add, permits, woken⟩ { sem with count := sem.count + 1#16 }
      ⟨.release (.check sem.count), permits, woken⟩
  | below_limit {permits : Nat} {woken : Bool} {prev : BitVec 16} :
    SemMove L t a sem ⟨.release (.check prev), permits, woken⟩ sem
      ⟨.release .notify, permits, woken⟩
  | notify_nobody {permits : Nat} {woken : Bool} (hempty : sem.sem_cv.waiting = []) :
    SemMove L t a sem ⟨.release .notify, permits, woken⟩ sem ⟨.release .unlock, permits, woken⟩
  | notify {permits : Nat} {woken : Bool} (u : Tid) (hasleep : u ∈ sem.sem_cv.waiting) :
    SemMove L t a sem ⟨.release .notify, permits, woken⟩
      { sem with sem_cv := ⟨sem.sem_cv.waiting.erase u⟩ } ⟨.release .unlock, permits, woken⟩
  | release_unlock {permits : Nat} {woken : Bool} :
    SemMove L t a sem ⟨.release .unlock, permits, woken⟩ { sem with sem_mu := .free }
      ⟨.idle, permits, woken⟩
  | poisoned {l l' : SemThread} (hpoisoned : sem.sem_mu = .poisoned) : SemMove L t a sem l sem l'
  | assertion_failed {permits : Nat} {woken : Bool} {prev : BitVec 16} {l' : SemThread}
    (hprev : ¬ prev.toNat < L) : SemMove L t a sem ⟨.release (.check prev), permits, woken⟩
      { sem with sem_mu := .poisoned } l'

section moves

variable {L : Nat} {t : Tid} {sem : PipelineAdmission Tid} {permits : Nat} {woken : Bool}
  {r : PipelineAdmission Tid × SemThread} {choice : SemChoice Tid}

theorem try_acquire_move {pc : TryAcquirePc}
    (hstep : sem_step L t (.step choice) sem ⟨.try_acquire pc, permits, woken⟩ = some r) :
    SemMove L t (.step choice) sem ⟨.try_acquire pc, permits, woken⟩ r.1 r.2 := by
  cases pc with
  | load =>
    by_cases hcount : sem.count = 0#16
    · simp only [sem_step, try_acquire_step, if_pos hcount] at hstep
      cases hstep
      exact .refused
    · simp only [sem_step, try_acquire_step, if_neg hcount] at hstep
      cases hstep
      exact .try_again hcount
  | cas cur =>
    by_cases hcur : sem.count = cur
    · simp only [sem_step, try_acquire_step, if_pos hcur] at hstep
      cases hstep
      subst hcur
      exact .try_take
    · by_cases hcount : sem.count = 0#16
      · simp only [sem_step, try_acquire_step, if_neg hcur, if_pos hcount] at hstep
        cases hstep
        exact .refused
      · simp only [sem_step, try_acquire_step, if_neg hcur, if_neg hcount] at hstep
        cases hstep
        exact .try_again hcount

/-- The loop of `try_acquire` inside `acquire`, after a read of the count. -/
theorem try_acquire_next_move {a : SemAct Tid} {pc : AcquirePc} {slow : Bool}
    (hpc : pc.Tries slow) :
    SemMove L t a sem ⟨.acquire pc, permits, woken⟩ sem
      ⟨.acquire (try_acquire_next slow sem.count), permits,
        (try_acquire_next slow sem.count).woken_after woken⟩ := by
  by_cases hcount : sem.count = 0#16
  · rw [try_acquire_next, if_pos hcount]
    cases slow with
    | false => exact .slow_path hpc
    | true => exact .recheck hpc
  · rw [try_acquire_next, if_neg hcount]
    exact .read hpc hcount

theorem acquire_move {pc : AcquirePc}
    (hstep : sem_step L t (.step choice) sem ⟨.acquire pc, permits, woken⟩ = some r) :
    SemMove L t (.step choice) sem ⟨.acquire pc, permits, woken⟩ r.1 r.2 := by
  cases pc with
  | try_load slow =>
    cases hstep
    exact try_acquire_next_move .load
  | try_cas slow cur =>
    by_cases hcur : sem.count = cur
    · subst hcur
      cases slow with
      | false =>
        simp only [sem_step, acquire_step, if_true] at hstep
        cases hstep
        exact .take_fast
      | true =>
        simp only [sem_step, acquire_step, if_true] at hstep
        cases hstep
        exact .take_slow
    · simp only [sem_step, acquire_step, if_neg hcur] at hstep
      cases hstep
      exact try_acquire_next_move (.cas cur)
  | lock =>
    rcases hmu : sem.sem_mu with _ | owner | _
    · simp only [sem_step, acquire_step, hmu] at hstep
      cases hstep
      exact .lock hmu
    · simp only [sem_step, acquire_step, hmu] at hstep
      cases hstep
    · simp only [sem_step, acquire_step, hmu] at hstep
      cases hstep
      exact .poisoned hmu
  | check =>
    by_cases hcount : sem.count = 0#16
    · simp only [sem_step, acquire_step, if_pos hcount] at hstep
      cases hstep
      exact .check_zero hcount
    · simp only [sem_step, acquire_step, if_neg hcount] at hstep
      cases hstep
      exact .check_some
  | wait =>
    cases hstep
    exact .wait
  | sleep =>
    by_cases hawake : t ∈ sem.sem_cv.waiting
    · cases hspurious : choice.spurious with
      | false => simp [sem_step, acquire_step, hawake, hspurious] at hstep
      | true =>
        simp only [sem_step, acquire_step, hawake, not_true_eq_false, hspurious, if_true,
          if_false] at hstep
        cases hstep
        exact .spurious hawake
    · simp only [sem_step, acquire_step, if_pos hawake] at hstep
      cases hstep
      exact .notified hawake
  | relock =>
    rcases hmu : sem.sem_mu with _ | owner | _
    · simp only [sem_step, acquire_step, hmu] at hstep
      cases hstep
      exact .relock hmu
    · simp only [sem_step, acquire_step, hmu] at hstep
      cases hstep
    · simp only [sem_step, acquire_step, hmu] at hstep
      cases hstep
      exact .poisoned hmu
  | unlock =>
    cases hstep
    exact .unlock

theorem release_move {pc : ReleasePc}
    (hstep : sem_step L t (.step choice) sem ⟨.release pc, permits, woken⟩ = some r) :
    SemMove L t (.step choice) sem ⟨.release pc, permits, woken⟩ r.1 r.2 := by
  cases pc with
  | lock =>
    rcases hmu : sem.sem_mu with _ | owner | _
    · simp only [sem_step, release_step, hmu] at hstep
      cases hstep
      exact .release_lock hmu
    · simp only [sem_step, release_step, hmu] at hstep
      cases hstep
    · simp only [sem_step, release_step, hmu] at hstep
      cases hstep
      exact .poisoned hmu
  | fetch_add =>
    cases hstep
    exact .fetch_add
  | check prev =>
    by_cases hprev : prev.toNat < L
    · simp only [sem_step, release_step, if_pos hprev] at hstep
      cases hstep
      exact .below_limit
    · simp only [sem_step, release_step, if_neg hprev] at hstep
      cases hstep
      exact .assertion_failed hprev
  | notify =>
    simp only [sem_step, release_step, Option.map_eq_some_iff, exists_exists_and_eq_and] at hstep
    obtain ⟨cv, hcv, rfl⟩ := hstep
    rcases hnotified : choice.notified with _ | u
    · simp only [Condvar.notify_one, hnotified] at hcv
      split at hcv
      · rename_i hempty
        cases hcv
        exact .notify_nobody hempty
      · cases hcv
    · simp only [Condvar.notify_one, hnotified] at hcv
      split at hcv
      · rename_i hasleep
        cases hcv
        exact .notify u hasleep
      · cases hcv
  | unlock =>
    cases hstep
    exact .release_unlock

theorem sem_step_move {a : SemAct Tid} {l : SemThread} (hstep : sem_step L t a sem l = some r) :
    SemMove L t a sem l r.1 r.2 := by
  obtain ⟨pc, permits, woken⟩ := l
  cases pc with
  | idle =>
    cases a with
    | try_acquire =>
      cases hstep
      exact .call (.inl rfl)
    | acquire =>
      cases hstep
      exact .call (.inr rfl)
    | release =>
      cases hstep
      exact .call_release rfl
    | step choice => cases hstep
  | try_acquire pc =>
    cases a with
    | step choice => exact try_acquire_move hstep
    | _ => cases hstep
  | acquire pc =>
    cases a with
    | step choice => exact acquire_move hstep
    | _ => cases hstep
  | release pc =>
    cases a with
    | step choice => exact release_move hstep
    | _ => cases hstep

end moves

end ordinum.write_pipeline
