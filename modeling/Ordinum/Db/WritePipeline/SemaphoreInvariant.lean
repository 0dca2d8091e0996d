import Ordinum.Db.WritePipeline.Semaphore

open interleaving

namespace ordinum.write_pipeline

variable {Tid : Type} {L : Nat}

/-- Outside `acquire`'s slow path a thread is not asleep and was not woken. -/
structure Outside (t : Tid) (sem : PipelineAdmission Tid) (woken : Bool) : Prop where
  awake : t ∉ sem.sem_cv.waiting
  not_woken : woken = false

/-- In the critical section of `sem_mu`. -/
structure InSection (t : Tid) (sem : PipelineAdmission Tid) : Prop where
  awake : t ∉ sem.sem_cv.waiting
  locked : sem.sem_mu = .held t

/-- What a thread knows between its atomic steps, whatever the others do. -/
def SemAt (L : Nat) (t : Tid) (sem : PipelineAdmission Tid) (woken : Bool) : SemPc → Prop
  | .idle | .try_acquire .load | .acquire (.try_load false) | .acquire .lock | .release .lock =>
    Outside t sem woken
  | .try_acquire (.cas cur) | .acquire (.try_cas false cur) =>
    Outside t sem woken ∧ cur ≠ 0#16
  | .acquire (.try_load true) | .acquire .check => InSection t sem
  | .acquire (.try_cas true cur) => InSection t sem ∧ cur ≠ 0#16
  | .acquire .wait => InSection t sem ∧ sem.count = 0#16
  | .acquire .sleep => woken = false
  | .acquire .relock => t ∉ sem.sem_cv.waiting
  | .acquire .unlock | .release .fetch_add | .release .notify | .release .unlock =>
    InSection t sem ∧ woken = false
  | .release (.check prev) => InSection t sem ∧ woken = false ∧ prev.toNat < L

structure SemIntact (sem : PipelineAdmission Tid) : Prop where
  not_poisoned : sem.sem_mu ≠ .poisoned
  waiting_nodup : sem.sem_cv.waiting.Nodup

def sem_outline (L : Nat) : System.Outline Tid (PipelineAdmission Tid) SemThread where
  shared := SemIntact
  thread := fun t sem l => SemAt L t sem l.woken l.pc
  apart := fun _ _ => True

section own

variable {t : Tid} {sem : PipelineAdmission Tid} {woken : Bool}

theorem SemAt.asleep {pc : SemPc} (hpc : SemAt L t sem woken pc)
    (hmem : t ∈ sem.sem_cv.waiting) : pc = .acquire .sleep := by
  have hout : ∀ {P : Prop}, Outside t sem woken → P := fun h => absurd hmem h.awake
  have hin : ∀ {P : Prop}, InSection t sem → P := fun h => absurd hmem h.awake
  rcases pc with _ | (_ | cur) | ((_ | _) | ⟨_ | _, cur⟩ | _ | _ | _ | _ | _ | _) |
    (_ | _ | prev | _ | _)
  case acquire.sleep => rfl
  case acquire.relock => exact absurd hmem hpc
  all_goals first
    | exact hout hpc
    | exact hin hpc
    | exact hout hpc.1
    | exact hin hpc.1

/-- Reading the count in `try_acquire` on the fast path, and under `sem_mu`. -/
theorem SemAt.fast_path {pc : AcquirePc} (hpc : SemAt L t sem woken (.acquire pc))
    (htries : pc.Tries false) : Outside t sem woken := by
  cases htries with
  | load => exact hpc
  | cas cur => exact hpc.1

theorem SemAt.under_lock {pc : AcquirePc} (hpc : SemAt L t sem woken (.acquire pc))
    (htries : pc.Tries true) : InSection t sem := by
  cases htries with
  | load => exact hpc
  | cas cur => exact hpc.1

theorem SemAt.of_try_acquire {pc : TryAcquirePc} (hpc : SemAt L t sem woken (.try_acquire pc)) :
    Outside t sem woken := by
  cases pc with
  | load => exact hpc
  | cas cur => exact hpc.1

end own

variable [DecidableEq Tid] {t : Tid} {a : SemAct Tid} {sem sem' : PipelineAdmission Tid}
  {l l' : SemThread}

/-- Every step keeps the semaphore intact and moves its thread on. The count is
below the limit at `fetch_add` because the thread still holds its permit. -/
theorem SemMove.own (hmove : SemMove L t a sem l sem' l')
    (hlimit : sem.count.toNat + l.permits_held ≤ L) (hs : SemIntact sem)
    (hl : SemAt L t sem l.woken l.pc) : SemIntact sem' ∧ SemAt L t sem' l'.woken l'.pc := by
  have hlocked : SemIntact { sem with sem_mu := .held t } := ⟨nofun, hs.waiting_nodup⟩
  have hunlocked : SemIntact { sem with sem_mu := .free } := ⟨nofun, hs.waiting_nodup⟩
  cases hmove with
  | poisoned hpoisoned => exact absurd hpoisoned hs.not_poisoned
  | assertion_failed hprev => exact absurd hl.2.2 hprev
  | call hpc =>
    obtain rfl | rfl := hpc
    · exact ⟨hs, hl⟩
    · exact ⟨hs, hl⟩
  | call_release => exact ⟨hs, hl⟩
  | refused => exact ⟨hs, hl.of_try_acquire⟩
  | try_again hcount => exact ⟨hs, hl.of_try_acquire, hcount⟩
  | try_take | take_fast => exact ⟨⟨hs.not_poisoned, hs.waiting_nodup⟩, hl.1.awake, hl.1.not_woken⟩
  | slow_path hpc => exact ⟨hs, hl.fast_path hpc⟩
  | recheck hpc => exact ⟨hs, hl.under_lock hpc⟩
  | @read _ _ slow _ hpc hcount =>
    cases slow with
    | false => exact ⟨hs, hl.fast_path hpc, hcount⟩
    | true => exact ⟨hs, hl.under_lock hpc, hcount⟩
  | take_slow =>
    exact ⟨⟨hs.not_poisoned, hs.waiting_nodup⟩, ⟨hl.1.awake, hl.1.locked⟩, rfl⟩
  | lock => exact ⟨hlocked, hl.awake, rfl⟩
  | relock => exact ⟨hlocked, hl, rfl⟩
  | release_lock => exact ⟨hlocked, ⟨hl.awake, rfl⟩, hl.not_woken⟩
  | check_zero hcount => exact ⟨hs, hl, hcount⟩
  | check_some => exact ⟨hs, hl⟩
  | wait => exact ⟨⟨nofun, List.nodup_cons.mpr ⟨hl.1.awake, hs.waiting_nodup⟩⟩, rfl⟩
  | notified hawake => exact ⟨hs, hawake⟩
  | spurious => exact ⟨⟨hs.not_poisoned, hs.waiting_nodup.erase t⟩, hs.waiting_nodup.not_mem_erase⟩
  | unlock | release_unlock => exact ⟨hunlocked, hl.1.awake, hl.2⟩
  | fetch_add =>
    refine ⟨⟨hs.not_poisoned, hs.waiting_nodup⟩, ⟨hl.1.awake, hl.1.locked⟩, hl.2, ?_⟩
    simp only [SemThread.permits_held, SemPc.permits, ReleasePc.permits] at hlimit
    omega
  | below_limit => exact ⟨hs, hl.1, hl.2.1⟩
  | notify_nobody => exact ⟨hs, hl⟩
  | notify u =>
    exact ⟨⟨hs.not_poisoned, hs.waiting_nodup.erase u⟩,
      ⟨fun hmem => hl.1.awake (List.mem_of_mem_erase hmem), hl.1.locked⟩, hl.2⟩

/-- What a step leaves for another thread `u`: the critical section of `u`, the
zero it read there, and that it is not asleep. -/
structure SemFrame (u : Tid) (sem sem' : PipelineAdmission Tid) : Prop where
  awake : u ∉ sem.sem_cv.waiting → u ∉ sem'.sem_cv.waiting
  locked : sem.sem_mu = .held u → sem'.sem_mu = .held u
  zero : sem.sem_mu = .held u → sem.count = 0#16 → sem'.count = 0#16

omit [DecidableEq Tid] in
theorem SemFrame.of_locked {u : Tid} (hne : u ≠ t) (hlocked : sem.sem_mu = .held t)
    (hawake : u ∉ sem.sem_cv.waiting → u ∉ sem'.sem_cv.waiting) : SemFrame u sem sem' := by
  have hother : ∀ {P : Prop}, sem.sem_mu = .held u → P := by
    intro P hu
    rw [hlocked] at hu
    cases hu
    exact absurd rfl hne
  exact ⟨hawake, hother, fun h => hother h⟩

/-- Every step respects the frame of the other threads: the count leaves zero
only under `sem_mu`, because an exchange takes from a positive count. -/
theorem SemMove.frame (hmove : SemMove L t a sem l sem' l') {u : Tid} (hne : u ≠ t)
    (hs : SemIntact sem) (hl : SemAt L t sem l.woken l.pc) : SemFrame u sem sem' := by
  have hfree : ∀ {P : Prop}, sem.sem_mu = .free → sem.sem_mu = .held u → P := by
    intro P hfree hu
    rw [hfree] at hu
    cases hu
  cases hmove with
  | poisoned hpoisoned => exact absurd hpoisoned hs.not_poisoned
  | assertion_failed hprev => exact absurd hl.2.2 hprev
  | try_take | take_fast | take_slow => exact ⟨id, id, fun _ hzero => absurd hzero hl.2⟩
  | lock h | relock h | release_lock h => exact ⟨id, hfree h, fun _ hzero => hzero⟩
  | wait => exact .of_locked hne hl.1.locked fun h hmem => h (List.mem_of_ne_of_mem hne hmem)
  | unlock | release_unlock | fetch_add => exact .of_locked hne hl.1.locked id
  | spurious => exact ⟨fun h hmem => h (List.mem_of_mem_erase hmem), id, fun _ => id⟩
  | notify => exact ⟨fun h hmem => h (List.mem_of_mem_erase hmem), id, fun _ => id⟩
  | _ => exact ⟨id, id, fun _ => id⟩

omit [DecidableEq Tid] in
theorem Outside.frame {u : Tid} {woken : Bool} (hu : Outside u sem woken)
    (hframe : SemFrame u sem sem') : Outside u sem' woken :=
  ⟨hframe.awake hu.awake, hu.not_woken⟩

omit [DecidableEq Tid] in
theorem InSection.frame {u : Tid} (hu : InSection u sem) (hframe : SemFrame u sem sem') :
    InSection u sem' :=
  ⟨hframe.awake hu.awake, hframe.locked hu.locked⟩

omit [DecidableEq Tid] in
theorem SemAt.frame {u : Tid} {woken : Bool} {pc : SemPc} (hu : SemAt L u sem woken pc)
    (hframe : SemFrame u sem sem') : SemAt L u sem' woken pc := by
  rcases pc with _ | (_ | cur) | ((_ | _) | ⟨_ | _, cur⟩ | _ | _ | _ | _ | _ | _) |
    (_ | _ | prev | _ | _)
  case acquire.wait => exact ⟨hu.1.frame hframe, hframe.zero hu.1.locked hu.2⟩
  case acquire.sleep => exact hu
  case acquire.relock => exact hframe.awake hu
  all_goals first
    | exact Outside.frame hu hframe
    | exact InSection.frame hu hframe
    | exact ⟨Outside.frame hu.1 hframe, hu.2⟩
    | exact ⟨InSection.frame hu.1 hframe, hu.2⟩

end ordinum.write_pipeline
