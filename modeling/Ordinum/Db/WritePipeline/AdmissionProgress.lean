import Ordinum.Db.WritePipeline.OverRelease
import Ordinum.Db.WritePipeline.Permits
import Ordinum.Interleaving.LockFree

open interleaving

namespace ordinum.write_pipeline

/-- What a call is yet to do to the semaphore: `acquire` and `try_acquire` take a
permit, `release` puts one back and notifies. -/
def AcquirePc.work : AcquirePc → Nat
  | .unlock => 0
  | _ => 1

def ReleasePc.work : ReleasePc → Nat
  | .lock | .fetch_add => 2
  | .check _ | .notify => 1
  | .unlock => 0

def SemPc.work : SemPc → Nat
  | .idle => 3
  | .try_acquire _ => 1
  | .acquire pc => pc.work
  | .release pc => pc.work

variable {Tid : Type} [DecidableEq Tid]

/-- The steps that a call has left at most, up to where it returns, changes the
semaphore or goes to sleep, while the count stands still and nobody wakes it. -/
def TryAcquirePc.accesses (sem : PipelineAdmission Tid) : TryAcquirePc → Nat
  | .load => 2
  | .cas cur => if sem.count = cur then 1 else 2

def AcquirePc.accesses (t : Tid) (sem : PipelineAdmission Tid) : AcquirePc → Nat
  | .try_load slow => if slow then (if sem.count = 0#16 then 3 else 2) else 5
  | .try_cas _ cur => if sem.count = cur then 1 else 5
  | .lock | .relock => 4
  | .check => if sem.count = 0#16 then 2 else 3
  | .wait => 1
  | .sleep => if t ∈ sem.sem_cv.waiting then 0 else 5
  | .unlock => 0

def ReleasePc.accesses : ReleasePc → Nat
  | .lock | .check _ => 1
  | .fetch_add | .notify | .unlock => 0

def SemPc.accesses (t : Tid) (sem : PipelineAdmission Tid) : SemPc → Nat
  | .idle => 0
  | .try_acquire pc => pc.accesses sem
  | .acquire pc => pc.accesses t sem
  | .release pc => pc.accesses

/-- A sleeping thread wakes up without a notification. -/
def wakes_early (t : Tid) (a : SemAct Tid) (sem : PipelineAdmission Tid) (pc : SemPc) : Prop :=
  ∃ choice, a = .step choice ∧ choice.spurious = true ∧ pc = .acquire .sleep ∧
    t ∈ sem.sem_cv.waiting

/-- The count is the same, and so are the sleepers beside `t`. -/
structure SameCount (t : Tid) (sem sem' : PipelineAdmission Tid) : Prop where
  count : sem'.count = sem.count
  waiting : ∀ u, u ≠ t → (u ∈ sem'.sem_cv.waiting ↔ u ∈ sem.sem_cv.waiting)

/-- What brings a call forward: it has a change behind it, or is a step closer to one. -/
def SemForward (t : Tid) (sem : PipelineAdmission Tid) (pc : SemPc)
    (sem' : PipelineAdmission Tid) (pc' : SemPc) : Prop :=
  pc'.work < pc.work ∨
    pc'.work = pc.work ∧ SameCount t sem sem' ∧ pc'.accesses t sem' < pc.accesses t sem

omit [DecidableEq Tid] in
theorem SameCount.refl (t : Tid) (sem : PipelineAdmission Tid) : SameCount t sem sem :=
  ⟨rfl, fun _ _ => Iff.rfl⟩

/-- Other calls have as many steps left. -/
theorem SameCount.accesses {t u : Tid} {sem sem' : PipelineAdmission Tid}
    (h : SameCount t sem sem') (hne : u ≠ t) (pc : SemPc) :
    pc.accesses u sem' = pc.accesses u sem := by
  cases pc with
  | idle | release => rfl
  | try_acquire pc => cases pc <;> simp only [SemPc.accesses, TryAcquirePc.accesses, h.count]
  | acquire pc =>
    cases pc <;> simp only [SemPc.accesses, AcquirePc.accesses, h.count, h.waiting u hne]

section forward

variable {L : Nat} {t : Tid} {sem sem' : PipelineAdmission Tid} {choice : SemChoice Tid}

/-- A step that leaves the count as it is and neither wakes a thread nor puts one to sleep. -/
theorem SemForward.access {pc pc' : SemPc} (mu : Mutex Tid) (hwork : pc'.work = pc.work)
    (hless : pc'.accesses t sem < pc.accesses t sem) :
    SemForward t sem pc { sem with sem_mu := mu } pc' := by
  refine .inr ⟨hwork, ⟨rfl, fun _ _ => Iff.rfl⟩, ?_⟩
  have hsame : pc'.accesses t { sem with sem_mu := mu } = pc'.accesses t sem := by
    cases pc' with
    | acquire pc' => cases pc' <;> rfl
    | try_acquire pc' => cases pc' <;> rfl
    | _ => rfl
  rw [hsame]
  exact hless

/-- A count that is read before an exchange is the one there is. -/
theorem try_acquire_forward {pc pc' : TryAcquirePc}
    (hstep : try_acquire_step sem pc = (sem', .next pc')) :
    SemForward t sem (.try_acquire pc) sem' (.try_acquire pc') := by
  cases pc with
  | load =>
    by_cases hcount : sem.count = 0#16
    · simp only [try_acquire_step, if_pos hcount] at hstep
      cases hstep
    · simp only [try_acquire_step, if_neg hcount] at hstep
      cases hstep
      refine SemForward.access sem.sem_mu rfl ?_
      simp only [SemPc.accesses, TryAcquirePc.accesses, if_true]
      exact Nat.one_lt_two
  | cas cur =>
    by_cases hcur : sem.count = cur
    · simp only [try_acquire_step, if_pos hcur] at hstep
      cases hstep
    · by_cases hcount : sem.count = 0#16
      · simp only [try_acquire_step, if_neg hcur, if_pos hcount] at hstep
        cases hstep
      · simp only [try_acquire_step, if_neg hcur, if_neg hcount] at hstep
        cases hstep
        refine SemForward.access sem.sem_mu rfl ?_
        simp only [SemPc.accesses, TryAcquirePc.accesses, if_true, if_neg hcur]
        exact Nat.one_lt_two

/-- What is left after `acquire` has read the count. -/
theorem accesses_try_acquire_next (slow : Bool) :
    (try_acquire_next slow sem.count).accesses t sem =
      if sem.count = 0#16 then (if slow then 2 else 4) else 1 := by
  unfold try_acquire_next
  by_cases hcount : sem.count = 0#16
  · cases slow <;> simp [AcquirePc.accesses, hcount]
  · simp [AcquirePc.accesses, hcount]

omit [DecidableEq Tid] in
theorem work_try_acquire_next (slow : Bool) :
    (try_acquire_next slow sem.count).work = 1 := by
  unfold try_acquire_next
  split
  · cases slow <;> rfl
  · rfl

theorem accesses_check_le : AcquirePc.check.accesses t sem ≤ 3 := by
  simp only [AcquirePc.accesses]
  split <;> decide

theorem acquire_forward {pc pc' : AcquirePc}
    (hstep : acquire_step t choice sem pc = some (sem', .next pc'))
    (hearly : ¬ wakes_early t (.step choice) sem (.acquire pc)) :
    SemForward t sem (.acquire pc) sem' (.acquire pc') := by
  cases pc with
  | try_load slow =>
    cases hstep
    refine SemForward.access sem.sem_mu (work_try_acquire_next slow) ?_
    rw [SemPc.accesses, accesses_try_acquire_next]
    cases slow <;> by_cases hcount : sem.count = 0#16 <;>
      simp [SemPc.accesses, AcquirePc.accesses, hcount]
  | try_cas slow cur =>
    by_cases hcur : sem.count = cur
    · simp only [acquire_step, if_pos hcur] at hstep
      cases slow with
      | false => cases hstep
      | true =>
        cases hstep
        exact .inl Nat.one_pos
    · simp only [acquire_step, if_neg hcur] at hstep
      cases hstep
      refine SemForward.access sem.sem_mu (work_try_acquire_next slow) ?_
      rw [SemPc.accesses, accesses_try_acquire_next]
      simp only [SemPc.accesses, AcquirePc.accesses, if_neg hcur]
      cases slow <;> by_cases hcount : sem.count = 0#16 <;> simp [hcount]
  | lock | relock =>
    rcases hmu : sem.sem_mu with _ | owner | _
    · simp only [acquire_step, hmu] at hstep
      cases hstep
      exact .access (.held t) rfl (Nat.lt_succ_of_le (accesses_check_le (t := t)))
    · simp only [acquire_step, hmu] at hstep
      cases hstep
    · simp only [acquire_step, hmu] at hstep
      cases hstep
  | check =>
    by_cases hcount : sem.count = 0#16
    · simp only [acquire_step, if_pos hcount] at hstep
      cases hstep
      refine SemForward.access sem.sem_mu rfl ?_
      simp [SemPc.accesses, AcquirePc.accesses, hcount]
    · simp only [acquire_step, if_neg hcount] at hstep
      cases hstep
      refine SemForward.access sem.sem_mu rfl ?_
      simp [SemPc.accesses, AcquirePc.accesses, hcount]
  | wait =>
    cases hstep
    refine .inr ⟨rfl, ⟨rfl, fun u hne => ?_⟩, ?_⟩
    · exact List.mem_cons.trans (or_iff_right hne)
    · simp [SemPc.accesses, AcquirePc.accesses]
  | sleep =>
    by_cases hasleep : t ∈ sem.sem_cv.waiting
    · have hchoice : choice.spurious = false := by
        cases hspurious : choice.spurious with
        | false => rfl
        | true => exact absurd ⟨choice, rfl, hspurious, rfl, hasleep⟩ hearly
      simp [acquire_step, hasleep, hchoice] at hstep
    · simp only [acquire_step, if_pos hasleep] at hstep
      cases hstep
      refine SemForward.access sem.sem_mu rfl ?_
      simp [SemPc.accesses, AcquirePc.accesses, hasleep]
  | unlock => cases hstep

theorem release_forward {pc pc' : ReleasePc}
    (hstep : release_step L t choice sem pc = some (sem', .next pc')) :
    SemForward t sem (.release pc) sem' (.release pc') := by
  cases pc with
  | lock =>
    rcases hmu : sem.sem_mu with _ | owner | _
    · simp only [release_step, hmu] at hstep
      cases hstep
      exact .access (.held t) rfl Nat.one_pos
    · simp only [release_step, hmu] at hstep
      cases hstep
    · simp only [release_step, hmu] at hstep
      cases hstep
  | fetch_add =>
    cases hstep
    exact .inl Nat.one_lt_two
  | check prev =>
    by_cases hprev : prev.toNat < L
    · simp only [release_step, if_pos hprev] at hstep
      cases hstep
      exact .access sem.sem_mu rfl Nat.one_pos
    · simp only [release_step, if_neg hprev] at hstep
      cases hstep
  | notify =>
    obtain ⟨cv, -, hnext⟩ := Option.map_eq_some_iff.mp hstep
    cases hnext
    exact .inl Nat.one_pos
  | unlock => cases hstep

/-- A step after which its call has not returned brings the call forward, unless it
wakes a sleeper for no reason. -/
theorem sem_step_forward {a : SemAct Tid} {l : SemThread} {r : PipelineAdmission Tid × SemThread}
    (hstep : sem_step L t a sem l = some r) (hearly : ¬ wakes_early t a sem l.pc)
    (hbusy : r.2.pc ≠ .idle) : SemForward t sem l.pc r.1 r.2.pc := by
  obtain ⟨pc, permits, woken⟩ := l
  cases pc with
  | idle =>
    cases a with
    | try_acquire | acquire =>
      cases hstep
      have hless : 1 < 3 := by decide
      exact .inl hless
    | release =>
      cases hstep
      exact .inl (Nat.lt_succ_self 2)
    | step choice => cases hstep
  | try_acquire pc =>
    cases a with
    | step choice =>
      cases hnext : try_acquire_step sem pc with
      | mk sem' progress =>
        simp only [sem_step, hnext] at hstep
        cases progress with
        | next pc' =>
          cases hstep
          exact try_acquire_forward hnext
        | done acquired =>
          cases hstep
          exact absurd rfl hbusy
    | _ => cases hstep
  | acquire pc =>
    cases a with
    | step choice =>
      obtain ⟨⟨sem', progress⟩, hnext, rfl⟩ := Option.map_eq_some_iff.mp hstep
      cases progress with
      | next pc' => exact acquire_forward hnext hearly
      | done result => cases result <;> exact absurd rfl hbusy
    | _ => cases hstep
  | release pc =>
    cases a with
    | step choice =>
      obtain ⟨⟨sem', progress⟩, hnext, rfl⟩ := Option.map_eq_some_iff.mp hstep
      cases progress with
      | next pc' => exact release_forward hnext
      | done result => cases result <;> exact absurd rfl hbusy
    | _ => cases hstep

end forward

section blocked

variable {L : Nat}

/-- The thread that holds `sem_mu` is inside the critical section. -/
def holder_outline (Tid : Type) : System.Outline Tid (PipelineAdmission Tid) SemThread where
  shared := fun _ => True
  thread := fun t sem l => sem.sem_mu = .held t → l.pc.in_section = true
  apart := fun _ _ => True

theorem SemMove.in_section {t : Tid} {a : SemAct Tid} {sem sem' : PipelineAdmission Tid}
    {l l' : SemThread} (hmove : SemMove L t a sem l sem' l') (hs : SemIntact sem)
    (hl : sem.sem_mu = .held t → l.pc.in_section = true) (hheld : sem'.sem_mu = .held t) :
    l'.pc.in_section = true := by
  cases hmove with
  | wait | unlock | release_unlock => cases hheld
  | assertion_failed => cases hheld
  | poisoned hpoisoned => exact absurd hpoisoned hs.not_poisoned
  | slow_path hpc =>
    have hout : SemPc.in_section (.acquire _) = true := hl hheld
    rw [in_section_of_tries hpc] at hout
    cases hout
  | read hpc =>
    have hin : SemPc.in_section (.acquire _) = true := hl hheld
    rw [in_section_of_tries hpc] at hin
    exact hin
  | recheck | take_slow | lock | relock | release_lock | fetch_add | below_limit | notify_nobody
  | notify | check_zero | check_some => rfl
  | _ => cases hl hheld

/-- A step of another thread takes the lock for itself, or gives it back. -/
theorem SemMove.not_held {t u : Tid} {a : SemAct Tid} {sem sem' : PipelineAdmission Tid}
    {l l' : SemThread} (hmove : SemMove L t a sem l sem' l') (hs : SemIntact sem) (hne : t ≠ u)
    (hheld : sem'.sem_mu = .held u) : sem.sem_mu = .held u := by
  cases hmove with
  | wait | unlock | release_unlock => cases hheld
  | assertion_failed => cases hheld
  | lock | relock | release_lock =>
    cases hheld
    exact absurd rfl hne
  | poisoned hpoisoned => exact absurd hpoisoned hs.not_poisoned
  | _ => exact hheld

theorem holder_outline_valid (G : System.StepCondition Tid (SemAct Tid) (PipelineAdmission Tid)
    SemThread) :
    (sem_outline L).ValidOver (holder_outline Tid) (sem_system Tid L) G where
  init_shared := trivial
  init_thread := fun _ hheld => by cases hheld
  init_apart := trivial
  step_own := fun _ _ _ _ _ hs _ _ hl _ hstep =>
    ⟨trivial, (sem_step_move hstep).in_section hs hl⟩
  step_other := fun _ _ _ _ _ _ _ hne hbase hpair _ hstep =>
    ⟨fun hheld => hpair.other ((sem_step_move hstep).not_held hbase.shared hne hheld),
      trivial, trivial⟩

/-- A notification reaches a sleeper if there is one. -/
theorem notify_one_enabled (cv : Condvar Tid) :
    ∃ notified cv', cv.notify_one notified = some cv' := by
  cases hwaiting : cv.waiting with
  | nil => exact ⟨none, cv, if_pos hwaiting⟩
  | cons u rest =>
    refine ⟨some u, ⟨cv.waiting.erase u⟩, if_pos ?_⟩
    rw [hwaiting]
    exact List.mem_cons_self

/-- A call can take a step unless it waits for `sem_mu` or is asleep. -/
theorem sem_step_enabled {t : Tid} {sem : PipelineAdmission Tid} {l : SemThread}
    (hcall : l.pc ≠ .idle) (hfree : l.pc.in_section = true ∨ sem.sem_mu = .free)
    (hawake : l.pc = .acquire .sleep → t ∉ sem.sem_cv.waiting) :
    ∃ choice r, choice.spurious = false ∧ sem_step L t (.step choice) sem l = some r := by
  obtain ⟨pc, permits, woken⟩ := l
  have hfree' : pc.in_section = false → sem.sem_mu = .free := by
    intro hout
    obtain hin | hfree := hfree
    · rw [hout] at hin
      cases hin
    · exact hfree
  cases pc with
  | idle => exact absurd rfl hcall
  | try_acquire pc =>
    have hsome : ∃ r, sem_step L t (.step {}) sem ⟨.try_acquire pc, permits, woken⟩ = some r := by
      cases hnext : try_acquire_step sem pc with
      | mk sem' progress =>
        simp only [sem_step, hnext]
        cases progress <;> exact ⟨_, rfl⟩
    obtain ⟨r, hr⟩ := hsome
    exact ⟨{}, r, rfl, hr⟩
  | acquire pc =>
    refine ⟨{}, ?_⟩
    have hsome : ∃ next, acquire_step t {} sem pc = some next := by
      cases pc with
      | try_cas slow cur =>
        simp only [acquire_step]
        split <;> exact ⟨_, rfl⟩
      | lock | relock => exact ⟨_, by rw [acquire_step, hfree' rfl]⟩
      | sleep => exact ⟨_, if_pos (hawake rfl)⟩
      | _ => exact ⟨_, rfl⟩
    obtain ⟨next, hnext⟩ := hsome
    exact ⟨_, rfl, congrArg (Option.map _) hnext⟩
  | release pc =>
    obtain ⟨notified, cv, hcv⟩ := notify_one_enabled sem.sem_cv
    refine ⟨{ notified }, ?_⟩
    have hsome : ∃ next, release_step L t { notified } sem pc = some next := by
      cases pc with
      | lock => exact ⟨_, by rw [release_step, hfree' rfl]⟩
      | check prev =>
        simp only [release_step]
        split <;> exact ⟨_, rfl⟩
      | notify => exact ⟨_, congrArg (Option.map _) hcv⟩
      | _ => exact ⟨_, rfl⟩
    obtain ⟨next, hnext⟩ := hsome
    exact ⟨_, rfl, congrArg (Option.map _) hnext⟩

end blocked

section runs

variable {L : Nat} [Fintype Tid]

/-- What the threads have left to do together. -/
def admission_left (c : SemConfig Tid) : Left :=
  .of (∑ t, (c.threads t).pc.work) (∑ t, (c.threads t).pc.accesses t c.shared) 0

/-- A step that brings its thread forward leaves less to do. -/
theorem admission_left_less {c : SemConfig Tid} {t : Tid} {r : PipelineAdmission Tid × SemThread}
    (hforward : SemForward t c.shared (c.threads t).pc r.1 r.2.pc) :
    admission_left (c.move t r) < admission_left c := by
  have hwork := c.sum_step (fun _ _ l => l.pc.work) (t := t) (r := r) fun _ _ => rfl
  rw [admission_left, admission_left, Config.move_shared]
  apply Left.of_lt
  obtain hless | ⟨hsame, hcount, hless⟩ := hforward
  · exact .inl (by omega)
  · have haccesses := c.sum_step (fun u sem l => l.pc.accesses u sem) (t := t) (r := r)
      fun u hne => hcount.accesses hne (c.threads u).pc
    exact .inr ⟨by omega, .inl (by omega)⟩

/-- A thread is asleep, and nobody has woken it. -/
def Asleep (c : SemConfig Tid) (t : Tid) : Prop :=
  (c.threads t).pc = .acquire .sleep ∧ t ∈ c.shared.sem_cv.waiting

omit [Fintype Tid] in
/-- Where no call can take a step but by waking for no reason, all of them sleep. -/
theorem asleep_of_stuck {c : SemConfig Tid} (hs : c.shared.sem_mu ≠ .poisoned)
    (hholder : (holder_outline Tid).Holds c)
    (hstuck : ¬ ∃ u choice r, (c.threads u).pc ≠ .idle ∧ choice.spurious = false ∧
      sem_step L u (.step choice) c.shared (c.threads u) = some r) (t : Tid) :
    (c.threads t).pc = .idle ∨ Asleep c t := by
  have hblocked : ∀ u, (c.threads u).pc ≠ .idle →
      (c.threads u).pc.in_section = true ∨ c.shared.sem_mu = .free → Asleep c u := by
    intro u hcall hfree
    by_contra hawake
    have henabled : ∃ choice r, choice.spurious = false ∧
        sem_step L u (.step choice) c.shared (c.threads u) = some r :=
      sem_step_enabled hcall hfree fun hsleep hmem => hawake ⟨hsleep, hmem⟩
    obtain ⟨choice, r, hchoice, hr⟩ := henabled
    exact hstuck ⟨u, choice, r, hcall, hchoice, hr⟩
  have hfree : c.shared.sem_mu = .free := by
    cases hmu : c.shared.sem_mu with
    | free => rfl
    | poisoned => exact absurd hmu hs
    | held u =>
      have hin := hholder.thread u hmu
      have hcall : (c.threads u).pc ≠ .idle := by
        intro hidle
        rw [hidle] at hin
        cases hin
      -- the holder is in the section, where nobody sleeps
      rw [(hblocked u hcall (.inl hin)).1] at hin
      cases hin
  by_cases hidle : (c.threads t).pc = .idle
  · exact .inl hidle
  · exact .inr (hblocked t hidle (.inr hfree))

/-- Calls that all sleep wait for permits that threads hold between their calls. -/
theorem SemCensus.all_held {c : SemConfig Tid} (hc : SemCensus L c) {t : Tid}
    (hcall : (c.threads t).pc ≠ .idle) (hasleep : ∀ u, (c.threads u).pc = .idle ∨ Asleep c u) :
    c.shared.count = 0#16 ∧ c.total SemThread.permits = L := by
  have hwaiting : c.shared.sem_cv.waiting ≠ [] := by
    intro hempty
    obtain hidle | ⟨-, hmem⟩ := hasleep t
    · exact hcall hidle
    · rw [hempty] at hmem
      cases hmem
  have hle := hc.count_le hwaiting
  obtain ⟨hwoken, hnotifying⟩ := hc.no_wakeups_left hasleep
  rw [hwoken, hnotifying] at hle
  have hzero : c.shared.count.toNat = 0 := Nat.le_zero.mp hle
  refine ⟨BitVec.eq_of_toNat_eq hzero, ?_⟩
  rw [← hc.permits, hzero, Nat.zero_add]
  refine Finset.sum_congr rfl fun u _ => ?_
  obtain hidle | ⟨hsleep, -⟩ := hasleep u
  · rw [SemThread.permits_held, hidle]
    rfl
  · rw [SemThread.permits_held, hsleep]
    rfl

/-- The step wakes a sleeper for no reason. -/
def wakes_early_at (run : Nat → SemConfig Tid) (schedule : Nat → Tid × SemAct Tid) (n : Nat) :
    Prop :=
  wakes_early (schedule n).1 (schedule n).2 (run n).shared ((run n).threads (schedule n).1).pc

/-- The step is the last one of its call. -/
def sem_call_returns (run : Nat → SemConfig Tid) (schedule : Nat → Tid × SemAct Tid) (n : Nat) :
    Prop :=
  ((run (n + 1)).threads (schedule n).1).pc = .idle

/-- The semaphore makes its callers wait for nothing but permits. In every run in which
permits are released by their holders, where calls are in progress one of them can take
a step, unless they all sleep in `acquire`, the count is zero and all permits are held by
threads between their calls. And no run goes on without end in which from some step on no
call returns, unless sleepers wake for no reason without end. -/
theorem admission_waits_for_permits (hL : L ≤ 65535) :
    (∀ c : SemConfig Tid, (sem_system Tid L).ReachableUnder releases_held c →
      ∀ t, (c.threads t).pc ≠ .idle →
      (∃ u choice r, (c.threads u).pc ≠ .idle ∧ choice.spurious = false ∧
        sem_step L u (.step choice) c.shared (c.threads u) = some r) ∨
      (∀ u, (c.threads u).pc = .idle ∨ Asleep c u) ∧ c.shared.count = 0#16 ∧
        c.total SemThread.permits = L) ∧
    ∀ (run : Nat → SemConfig Tid) (schedule : Nat → Tid × SemAct Tid),
      (sem_system Tid L).Endless System.anyStep run schedule →
      (∃ n, ∀ m, n ≤ m → ¬ wakes_early_at run schedule m) →
      ∀ n, ∃ m, n ≤ m ∧ sem_call_returns run schedule m := by
  refine ⟨fun c hc t hcall => ?_, fun run schedule hrun hcalm => ?_⟩
  · have hcensus := sem_census hL hc
    have hholder := (holder_outline_valid releases_held).holds
      (fun c hc => (sem_census hL hc).outline) hc
    by_cases hstep : ∃ u choice r, (c.threads u).pc ≠ .idle ∧ choice.spurious = false ∧
        sem_step L u (.step choice) c.shared (c.threads u) = some r
    · exact .inl hstep
    · have hasleep := asleep_of_stuck hcensus.outline.shared.not_poisoned hholder hstep
      exact .inr ⟨hasleep, hcensus.all_held hcall hasleep⟩
  · refine returns_often (fun n => admission_left (run n)) (fun n hcalm hbusy => ?_) hcalm
    obtain ⟨r, hr, hnext⟩ := hrun.step n
    have hrunning : r.2.pc ≠ .idle := by
      intro hidle
      apply hbusy
      rw [sem_call_returns, hnext, Config.move_threads_self]
      exact hidle
    simp only [hnext]
    exact admission_left_less (sem_step_forward hr hcalm hrunning)

end runs

/-- One thread has the only permit, and another sleeps in `acquire`. -/
theorem admission_waits_for_permits_asleep : ∃ c : SemConfig Bool,
    (sem_system Bool 1).ReachableUnder releases_held c ∧ (c.threads true).pc = .acquire .sleep ∧
      ((∃ u choice r, (c.threads u).pc ≠ .idle ∧ choice.spurious = false ∧
        sem_step 1 u (.step choice) c.shared (c.threads u) = some r) ∨
      (∀ u, (c.threads u).pc = .idle ∨ Asleep c u) ∧ c.shared.count = 0#16 ∧
        c.total SemThread.permits = 1) := by
  obtain ⟨c, hc, hseen⟩ := System.reachable_showing (sem_system Bool 1) releases_held
    sleeping_schedule (fun c => (c.threads true).pc) (.acquire .sleep) (by decide +kernel)
  have hcall : (c.threads true).pc ≠ .idle := by
    intro hidle
    rw [hidle] at hseen
    cases hseen
  exact ⟨c, hc, hseen, (admission_waits_for_permits (by decide)).1 c hc true hcall⟩

end ordinum.write_pipeline
