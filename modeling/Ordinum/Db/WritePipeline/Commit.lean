import Ordinum.Db.WritePipeline.BatchQueue
import Ordinum.Db.WritePipeline.Permits
import Ordinum.Db.WritePipeline.Reservation
import Ordinum.Wal.SyncWaiter

open interleaving
open ordinum.batch
open ordinum.wal

namespace ordinum.write_pipeline

/-- Program points of `commit(batch)`: `reserve_space`, then the signal that
primes the batch's waiter. The call returns with no further access. -/
inductive CommitPc where
  | idle
  | reserve_space (batch : BatchPtr) (pc : ReservePc)
  | signal (batch : BatchPtr) (pc : SignalPc)
  deriving DecidableEq, Repr

/-- `commits` is the number of calls the thread has started (history). -/
structure CommitThread where
  pc : CommitPc
  commits : Nat
  deriving DecidableEq, Repr

structure CommitShared (Tid : Type) where
  commit_sem : PipelineAdmission Tid
  sync_waiters : BatchPtr → SyncLogWaiter Tid

/-- `write_waiter` is what anybody else does to the waiter of a batch. -/
inductive CommitAct (Tid : Type) where
  | commit (batch : BatchPtr)
  | write_waiter (batch : BatchPtr) (waiter : SyncLogWaiter Tid)
  | step (choice : SemChoice Tid)

def PipelineAdmission.available_permits {Tid : Type} (sem : PipelineAdmission Tid) : Nat :=
  sem.count.toNat

def CommitPc.reserves : CommitPc → Bool
  | .reserve_space _ _ => true
  | _ => false

/-- The commits of a thread that are past `reserve_space`. -/
def CommitThread.reserved (l : CommitThread) : Nat := l.commits - l.pc.reserves.toNat

variable {Tid : Type} [DecidableEq Tid]

/-- One atomic step of a thread. -/
def commit_step (t : Tid) : CommitAct Tid → CommitShared Tid → CommitThread →
    Option (CommitShared Tid × CommitThread)
  | .commit batch, s, { pc := .idle, commits } =>
    some (s, { pc := .reserve_space batch .start, commits := commits + 1 })
  | .write_waiter batch waiter, s, { pc := .idle, commits } =>
    some ({ s with sync_waiters := Function.update s.sync_waiters batch waiter },
      { pc := .idle, commits })
  | .step choice, s, { pc := .reserve_space batch pc, commits } =>
    (reserve_step t choice s.commit_sem pc).map fun (commit_sem, progress) =>
      ({ s with commit_sem },
        match progress with
        | .next pc => { pc := .reserve_space batch pc, commits }
        | .done .returned => { pc := .signal batch .lock, commits }
        | .done .panicked => { pc := .idle, commits })
  | .step _, s, { pc := .signal batch pc, commits } =>
    (signal_step t (s.sync_waiters batch) .SyncDone pc).map fun (waiter, next) =>
      ({ s with sync_waiters := Function.update s.sync_waiters batch waiter },
        match next with
        | .signal _ pc => { pc := .signal batch pc, commits }
        | _ => { pc := .idle, commits })
  | _, _, _ => none

/-- Any number of threads that commit to one `WritePipeline<N>`. -/
def commit_system (Tid : Type) [DecidableEq Tid] (N : Nat) :
    System Tid (CommitAct Tid) (CommitShared Tid) CommitThread where
  shared₀ := { commit_sem := .new Tid N, sync_waiters := fun _ => .default Tid }
  local₀ := { pc := .idle, commits := 0 }
  step := commit_step

abbrev CommitConfig (Tid : Type) := Config Tid (CommitShared Tid) CommitThread

/-- Whatever runs from here on, thread `t` stays in `reserve_space`. -/
def BlockedForever (N : Nat) (c : CommitConfig Tid) (t : Tid) : Prop :=
  ∀ d, (commit_system Tid N).Steps c d → (d.threads t).pc.reserves = true

/-- What a thread knows in `reserve_space` when nobody puts permits back: it
exchanges a positive count, and past the fast path of `acquire` the count is zero
and stays so. -/
def ReserveAt (sem : PipelineAdmission Tid) : ReservePc → Prop
  | .try_reserve_space _ .load | .acquire (.try_load false) => True
  | .try_reserve_space _ (.cas cur) | .acquire (.try_cas false cur) => cur ≠ 0#16
  | .acquire .lock | .acquire .check | .acquire .wait | .acquire .sleep | .acquire .relock =>
    sem.count = 0#16
  | .acquire (.try_load true) | .acquire (.try_cas true _) | .acquire .unlock => False

section reserve

variable {t : Tid} {choice : SemChoice Tid} {sem sem' : PipelineAdmission Tid} {pc : ReservePc}
  {progress : Progress ReservePc CallResult}

omit [DecidableEq Tid] in
theorem ReserveAt.frame (hpc : ReserveAt sem pc) (hzero : sem.count = 0#16 → sem'.count = 0#16) :
    ReserveAt sem' pc := by
  obtain ⟨left, _ | cur⟩ | (_ | _) | ⟨_ | _, cur⟩ | _ | _ | _ | _ | _ | _ := pc
  case acquire.lock | acquire.check | acquire.wait | acquire.sleep | acquire.relock =>
    exact hzero hpc
  all_goals exact hpc

/-- Everything a step of `reserve_space` does to the count. -/
inductive ReserveMove (sem sem' : PipelineAdmission Tid) : Progress ReservePc CallResult → Prop
  | next {pc : ReservePc} (hcount : sem'.count = sem.count) (hpc : ReserveAt sem' pc) :
    ReserveMove sem sem' (.next pc)
  | returned (hpos : sem.count ≠ 0#16) (hcount : sem'.count = sem.count - 1#16) :
    ReserveMove sem sem' (.done .returned)

/-- Where the spinning phase goes after a read of the count. -/
def spin_next (left : Nat) (count : BitVec 16) : ReservePc :=
  if count = 0#16 then
    match left with
    | left + 1 => .try_reserve_space left .load
    | 0 => .acquire (.try_load false)
  else .try_reserve_space left (.cas count)

omit [DecidableEq Tid] in
theorem spin_next_at (sem : PipelineAdmission Tid) (left : Nat) :
    ReserveAt sem (spin_next left sem.count) := by
  unfold spin_next
  split
  · cases left <;> trivial
  · assumption

omit [DecidableEq Tid] in
theorem try_acquire_next_at (sem : PipelineAdmission Tid) :
    ReserveAt sem (.acquire (try_acquire_next false sem.count)) := by
  unfold try_acquire_next
  split <;> assumption

theorem reserve_step_load (left : Nat) :
    reserve_step t choice sem (.try_reserve_space left .load) =
      some (sem, .next (spin_next left sem.count)) := by
  unfold spin_next
  by_cases hcount : sem.count = 0#16
  · cases left <;> simp only [reserve_step, try_acquire_step, if_pos hcount]
  · simp only [reserve_step, try_acquire_step, if_neg hcount]

theorem reserve_step_lost (left : Nat) {cur : BitVec 16} (hcur : sem.count ≠ cur) :
    reserve_step t choice sem (.try_reserve_space left (.cas cur)) =
      some (sem, .next (spin_next left sem.count)) := by
  unfold spin_next
  by_cases hcount : sem.count = 0#16
  · cases left <;> simp only [reserve_step, try_acquire_step, if_neg hcur, if_pos hcount]
  · simp only [reserve_step, try_acquire_step, if_neg hcur, if_neg hcount]

theorem reserve_step_take (left : Nat) :
    reserve_step t choice sem (.try_reserve_space left (.cas sem.count)) =
      some ({ sem with count := sem.count - 1#16 }, .done .returned) := by
  simp only [reserve_step, try_acquire_step, if_true]

theorem acquire_step_lost {cur : BitVec 16} (hcur : sem.count ≠ cur) :
    reserve_step t choice sem (.acquire (.try_cas false cur)) =
      some (sem, .next (.acquire (try_acquire_next false sem.count))) := by
  simp only [reserve_step, acquire_step, if_neg hcur, Option.map_some, Progress.elim_next]

theorem acquire_step_take :
    reserve_step t choice sem (.acquire (.try_cas false sem.count)) =
      some ({ sem with count := sem.count - 1#16 }, .done .returned) := by
  simp [reserve_step, acquire_step]

/-- In the slow path of `acquire` the count is zero, so the thread only locks,
finds it zero and sleeps. -/
theorem slow_path_move {pc : AcquirePc} (hmu : sem.sem_mu ≠ .poisoned)
    (hzero : sem.count = 0#16)
    (hslow : pc = .lock ∨ pc = .check ∨ pc = .wait ∨ pc = .sleep ∨ pc = .relock)
    (hstep : reserve_step t choice sem (.acquire pc) = some (sem', progress)) :
    sem'.sem_mu ≠ .poisoned ∧ ReserveMove sem sem' progress := by
  simp only [reserve_step, Option.map_eq_some_iff, Prod.exists] at hstep
  obtain ⟨sem₁, progress₁, hacquire, heq⟩ := hstep
  cases heq
  obtain rfl | rfl | rfl | rfl | rfl := hslow
  case inl | inr.inr.inr.inr =>
    cases hlock : sem.sem_mu with
    | free =>
      simp only [acquire_step, hlock] at hacquire
      cases hacquire
      exact ⟨(by intro h; cases h), .next rfl hzero⟩
    | held owner =>
      simp only [acquire_step, hlock] at hacquire
      cases hacquire
    | poisoned => exact absurd hlock hmu
  case inr.inl =>
    simp only [acquire_step, if_pos hzero] at hacquire
    cases hacquire
    exact ⟨hmu, .next rfl hzero⟩
  case inr.inr.inl =>
    cases hacquire
    exact ⟨(by intro h; cases h), .next rfl hzero⟩
  case inr.inr.inr.inl =>
    have hwoken : sem' = sem ∧ progress₁ = .next .relock ∨
        sem' = { sem with sem_cv := ⟨sem.sem_cv.waiting.erase t⟩ } ∧ progress₁ = .next .relock := by
      simp only [acquire_step] at hacquire
      grind
    obtain ⟨rfl, rfl⟩ | ⟨rfl, rfl⟩ := hwoken <;> exact ⟨hmu, .next rfl hzero⟩

theorem reserve_step_move (hmu : sem.sem_mu ≠ .poisoned) (hpc : ReserveAt sem pc)
    (hstep : reserve_step t choice sem pc = some (sem', progress)) :
    sem'.sem_mu ≠ .poisoned ∧ ReserveMove sem sem' progress := by
  obtain ⟨left, _ | cur⟩ | (_ | _) | ⟨_ | _, cur⟩ | _ | _ | _ | _ | _ | _ := pc
  case try_reserve_space.load =>
    rw [reserve_step_load] at hstep
    cases hstep
    exact ⟨hmu, .next rfl (spin_next_at sem left)⟩
  case try_reserve_space.cas =>
    by_cases hcur : sem.count = cur
    · subst hcur
      rw [reserve_step_take] at hstep
      cases hstep
      exact ⟨hmu, .returned hpc rfl⟩
    · rw [reserve_step_lost left hcur] at hstep
      cases hstep
      exact ⟨hmu, .next rfl (spin_next_at sem left)⟩
  case acquire.try_load.false =>
    cases hstep
    exact ⟨hmu, .next rfl (try_acquire_next_at sem)⟩
  case acquire.try_cas.false =>
    by_cases hcur : sem.count = cur
    · subst hcur
      rw [acquire_step_take] at hstep
      cases hstep
      exact ⟨hmu, .returned hpc rfl⟩
    · rw [acquire_step_lost hcur] at hstep
      cases hstep
      exact ⟨hmu, .next rfl (try_acquire_next_at sem)⟩
  case acquire.try_load.true | acquire.try_cas.true | acquire.unlock => exact absurd hpc id
  all_goals exact slow_path_move hmu hpc (by simp only [reduceCtorEq, or_true, true_or]) hstep

/-- While a permit is left, the thread takes it when it moves alone: its next
step but one, at the latest, is the exchange. -/
theorem reserve_takes (t : Tid) (choice : SemChoice Tid) (hpos : sem.count ≠ 0#16)
    (hpc : ReserveAt sem pc) :
    (∃ sem', reserve_step t choice sem pc = some (sem', .done .returned)) ∨
      ∃ pc', reserve_step t choice sem pc = some (sem, .next pc') ∧
        ∃ sem', reserve_step t choice sem pc' = some (sem', .done .returned) := by
  have hspin : ∀ left, spin_next left sem.count = .try_reserve_space left (.cas sem.count) :=
    fun left => if_neg hpos
  have hnext : try_acquire_next false sem.count = .try_cas false sem.count := if_neg hpos
  obtain ⟨left, _ | cur⟩ | (_ | _) | ⟨_ | _, cur⟩ | _ | _ | _ | _ | _ | _ := pc
  case try_reserve_space.load =>
    refine .inr ⟨_, reserve_step_load left, ?_⟩
    rw [hspin]
    exact ⟨_, reserve_step_take left⟩
  case try_reserve_space.cas =>
    by_cases hcur : sem.count = cur
    · subst hcur
      exact .inl ⟨_, reserve_step_take left⟩
    · refine .inr ⟨_, reserve_step_lost left hcur, ?_⟩
      rw [hspin]
      exact ⟨_, reserve_step_take left⟩
  case acquire.try_load.false =>
    refine .inr ⟨_, rfl, ?_⟩
    rw [hnext]
    exact ⟨_, acquire_step_take⟩
  case acquire.try_cas.false =>
    by_cases hcur : sem.count = cur
    · subst hcur
      exact .inl ⟨_, acquire_step_take⟩
    · refine .inr ⟨_, acquire_step_lost hcur, ?_⟩
      rw [hnext]
      exact ⟨_, acquire_step_take⟩
  case acquire.try_load.true | acquire.try_cas.true | acquire.unlock => exact absurd hpc id
  all_goals exact absurd hpc hpos

end reserve

/-- What a thread knows at its point in `commit`. -/
def CommitAt (s : CommitShared Tid) (l : CommitThread) : Prop :=
  match l.pc with
  | .reserve_space _ pc => ReserveAt s.commit_sem pc ∧ 0 < l.commits
  | _ => True

section moves

variable {t : Tid} {a : CommitAct Tid} {s : CommitShared Tid} {l : CommitThread}
  {r : CommitShared Tid × CommitThread}

/-- What a step of a thread does to the semaphore and to its own count. -/
structure CommitMove (s : CommitShared Tid) (l : CommitThread) (s' : CommitShared Tid)
    (l' : CommitThread) : Prop where
  not_poisoned : s'.commit_sem.sem_mu ≠ .poisoned
  own : CommitAt s' l'
  empty : s.commit_sem.count = 0#16 →
    s'.commit_sem.count = 0#16 ∧ (l.pc.reserves = true → l'.pc.reserves = true)
  balance : s'.commit_sem.available_permits + l'.reserved =
    s.commit_sem.available_permits + l.reserved

theorem commit_step_move (hmu : s.commit_sem.sem_mu ≠ .poisoned) (hl : CommitAt s l)
    (hstep : commit_step t a s l = some r) : CommitMove s l r.1 r.2 := by
  obtain ⟨pc, commits⟩ := l
  cases pc with
  | idle =>
    cases a with
    | commit batch =>
      cases hstep
      exact ⟨hmu, ⟨trivial, Nat.succ_pos _⟩, fun hzero => ⟨hzero, fun _ => rfl⟩, rfl⟩
    | write_waiter batch waiter =>
      cases hstep
      exact ⟨hmu, trivial, fun hzero => ⟨hzero, id⟩, rfl⟩
    | step choice => cases hstep
  | reserve_space batch pc =>
    cases a with
    | commit | write_waiter => cases hstep
    | step choice =>
      simp only [commit_step, Option.map_eq_some_iff, Prod.exists] at hstep
      obtain ⟨commit_sem, progress, hreserve, rfl⟩ := hstep
      obtain ⟨hat, hcommits⟩ := hl
      obtain ⟨hmu', hmove⟩ := reserve_step_move hmu hat hreserve
      cases hmove with
      | next hcount hnext =>
        refine ⟨hmu', ⟨hnext, hcommits⟩, fun hzero => ⟨hcount.trans hzero, fun _ => rfl⟩, ?_⟩
        simp only [PipelineAdmission.available_permits, hcount]
        rfl
      | returned hpos hcount =>
        refine ⟨hmu', trivial, fun hzero => absurd hzero hpos, ?_⟩
        have htaken := toNat_exchanged hpos
        simp only [PipelineAdmission.available_permits, CommitThread.reserved, CommitPc.reserves,
          hcount, Bool.toNat_true, Bool.toNat_false] at hcommits ⊢
        omega
  | signal batch pc =>
    cases a with
    | commit | write_waiter => cases hstep
    | step choice =>
      simp only [commit_step, Option.map_eq_some_iff, Prod.exists] at hstep
      obtain ⟨waiter, next, -, rfl⟩ := hstep
      cases next <;> exact ⟨hmu, trivial, fun hzero => ⟨hzero, nofun⟩, rfl⟩

omit [DecidableEq Tid] in
/-- A step keeps what another thread knows. -/
theorem CommitMove.frame {m l' : CommitThread} {s' : CommitShared Tid}
    (hmove : CommitMove s l s' l') (hm : CommitAt s m) : CommitAt s' m := by
  obtain ⟨pc, commits⟩ := m
  cases pc with
  | idle | signal => trivial
  | reserve_space batch pc => exact ⟨hm.1.frame fun hzero => (hmove.empty hzero).1, hm.2⟩

end moves

variable [Fintype Tid] {N : Nat} {c d : CommitConfig Tid} {t : Tid}

/-- A permit is in the count, or a commit took it and it never came back. -/
structure CommitCensus (N : Nat) (c : CommitConfig Tid) : Prop where
  not_poisoned : c.shared.commit_sem.sem_mu ≠ .poisoned
  thread : ∀ t, CommitAt c.shared (c.threads t)
  permits : c.shared.commit_sem.available_permits + c.total CommitThread.reserved = N

theorem CommitCensus.move (hc : CommitCensus N c) {r : CommitShared Tid × CommitThread}
    (hmove : CommitMove c.shared (c.threads t) r.1 r.2) : CommitCensus N (c.move t r) := by
  refine ⟨hmove.not_poisoned, ?_, ?_⟩
  · intro u
    by_cases hu : u = t
    · subst hu
      rw [Config.move_threads_self]
      exact hmove.own
    · rw [c.move_threads_of_ne r hu]
      exact hmove.frame (hc.thread u)
  · rw [← hc.permits]
    exact c.total_balance CommitThread.reserved (fun s => s.commit_sem.available_permits)
      hmove.balance

theorem commit_census_init (hN : Capacity N) : CommitCensus N (commit_system Tid N).init where
  not_poisoned := nofun
  thread := fun _ => trivial
  permits := by
    rw [System.total_init _ rfl]
    exact Nat.mod_eq_of_lt (Nat.lt_of_le_of_lt hN.le_max (by decide))

theorem commit_census (hN : Capacity N) (hc : (commit_system Tid N).Reachable c) :
    CommitCensus N c := by
  refine System.ReachableUnder.induction (P := CommitCensus N) (commit_census_init hN) ?_ hc
  intro c t a r _ hcensus _ hstep
  exact hcensus.move (commit_step_move hcensus.not_poisoned (hcensus.thread t) hstep)

/-- With no permit left nobody leaves `reserve_space`. -/
theorem CommitCensus.blocked (hc : CommitCensus N c)
    (hempty : c.shared.commit_sem.available_permits = 0)
    (hreserves : (c.threads t).pc.reserves = true) : BlockedForever N c t := by
  intro d hsteps
  have hkept : CommitCensus N d ∧ d.shared.commit_sem.count = 0#16 ∧
      (d.threads t).pc.reserves = true := by
    induction hsteps with
    | refl => exact ⟨hc, BitVec.eq_of_toNat_eq hempty, hreserves⟩
    | tail _ hstep ih =>
      obtain ⟨hcensus, hzero, hpc⟩ := ih
      obtain ⟨u, a, r, -, hr, rfl⟩ := hstep
      have hmove := commit_step_move hcensus.not_poisoned (hcensus.thread u) hr
      obtain ⟨hzero', hstays⟩ := hmove.empty hzero
      refine ⟨hcensus.move hmove, hzero', ?_⟩
      by_cases hu : t = u
      · subst hu
        rw [Config.move_threads_self]
        exact hstays hpc
      · rw [Config.move_threads_of_ne _ _ hu]
        exact hpc
  exact hkept.2.2

/-- With a permit left a thread in `reserve_space` takes it when it moves alone. -/
theorem CommitCensus.proceeds (hc : CommitCensus N c)
    (hsome : 0 < c.shared.commit_sem.available_permits) : ¬ BlockedForever N c t := by
  intro hblocked
  have hreserves := hblocked c .refl
  rcases hthread : c.threads t with ⟨pc, commits⟩
  cases pc with
  | idle | signal =>
    rw [hthread] at hreserves
    cases hreserves
  | reserve_space batch pc =>
    have hat := hc.thread t
    rw [hthread] at hat
    have hpos : c.shared.commit_sem.count ≠ 0#16 := by
      intro hzero
      rw [PipelineAdmission.available_permits, hzero] at hsome
      cases hsome
    -- the step that takes the permit, in any configuration with `t` at `pc`
    have htakes : ∀ d pc sem', (commit_system Tid N).Steps c d →
        d.threads t = ⟨.reserve_space batch pc, commits⟩ →
        reserve_step t {} d.shared.commit_sem pc = some (sem', .done .returned) → False := by
      intro d pc sem' hsteps hd hstep
      have hnext : (commit_system Tid N).step t (.step {}) d.shared (d.threads t) =
          some ({ d.shared with commit_sem := sem' }, ⟨.signal batch .lock, commits⟩) := by
        simp only [commit_system, hd, commit_step, hstep, Option.map_some]
      have hafter := hblocked _ (hsteps.tail ⟨t, _, _, trivial, hnext, rfl⟩)
      rw [Config.move_threads_self] at hafter
      cases hafter
    obtain ⟨sem', hstep⟩ | ⟨pc', hread, sem', hstep⟩ := reserve_takes t {} hpos hat.1
    · exact htakes c pc sem' .refl hthread hstep
    · have hnext : (commit_system Tid N).step t (.step {}) c.shared (c.threads t) =
          some (c.shared, ⟨.reserve_space batch pc', commits⟩) := by
        simp only [commit_system, hthread, commit_step, hread, Option.map_some]
      refine htakes (c.move t _) pc' sem' (.single ⟨t, _, _, trivial, hnext, rfl⟩) ?_ hstep
      rw [Config.move_threads_self]

/-- In every run: with no commit in progress all permits are available only when
no commit was ever called, and a thread in `reserve_space` is blocked forever
only when the commits before it have taken all permits. -/
theorem commits_keep_permits_iff (hN : Capacity N) (hc : (commit_system Tid N).Reachable c) :
    ((∀ t, (c.threads t).pc = .idle) →
      (c.shared.commit_sem.available_permits = N ↔ c.total CommitThread.commits = 0)) ∧
    ∀ t, (c.threads t).pc.reserves = true →
      (¬ BlockedForever N c t ↔ c.total CommitThread.reserved < N) := by
  have hcensus := commit_census hN hc
  have hpermits := hcensus.permits
  refine ⟨?_, ?_⟩
  · intro hidle
    have hall : c.total CommitThread.reserved = c.total CommitThread.commits := by
      apply Finset.sum_congr rfl
      intro t _
      rw [CommitThread.reserved, hidle t]
      rfl
    omega
  · intro t hreserves
    constructor
    · intro hfree
      by_contra hnot
      exact hfree (hcensus.blocked (by omega) hreserves)
    · intro hless
      exact hcensus.proceeds (by omega)

/-- The next `n` steps of thread `t`. -/
def commit_steps_of (t : Bool) (n : Nat) : List (Bool × CommitAct Bool) :=
  List.replicate n (t, .step {})

/-- Thread `false` commits a batch and returns. -/
def one_commit (batch : BatchPtr) : List (Bool × CommitAct Bool) :=
  (false, .commit batch) :: commit_steps_of false 6

theorem commits_keep_permits_iff_two : ∃ c : CommitConfig Bool,
    (c.threads true).pc.reserves = true ∧
    ((∀ t, (c.threads t).pc = .idle) →
      (c.shared.commit_sem.available_permits = 2 ↔ c.total CommitThread.commits = 0)) ∧
    ∀ t, (c.threads t).pc.reserves = true →
      (¬ BlockedForever 2 c t ↔ c.total CommitThread.reserved < 2) := by
  obtain ⟨c, hc, hseen⟩ := System.reachable_showing (commit_system Bool 2) System.anyStep
    (one_commit 10 ++ one_commit 11 ++ [(true, .commit 12)])
    (fun c => (c.threads true).pc.reserves) true (by decide +kernel)
  exact ⟨c, hseen, commits_keep_permits_iff Capacity.two hc⟩

/-- Two commits that have returned leave a pipeline of capacity two without
permits, and the third commit waits for one forever. -/
theorem third_commit_blocked :
    ∃ c d : CommitConfig Bool, (commit_system Bool 2).Reachable c ∧
      (∀ t, (c.threads t).pc = .idle) ∧ c.shared.commit_sem.available_permits = 0 ∧
      (commit_system Bool 2).Steps c d ∧ (d.threads false).pc = .idle ∧
      (d.threads true).pc = .reserve_space 12 .start ∧ BlockedForever 2 d true := by
  obtain ⟨c, d, hc, hd, hseen⟩ := System.steps_showing (commit_system Bool 2) System.anyStep
    System.anyStep (one_commit 10 ++ one_commit 11) [(true, .commit 12)]
    (fun c d => ((c.threads false).pc, (c.threads true).pc,
      c.shared.commit_sem.available_permits, (d.threads false).pc, (d.threads true).pc,
      d.shared.commit_sem.available_permits))
    (.idle, .idle, 0, .idle, .reserve_space 12 .start, 0) (by decide +kernel)
  simp only [Prod.mk.injEq] at hseen
  obtain ⟨hfalse, htrue, hnone, hreturned, hwaits, hempty⟩ := hseen
  refine ⟨c, d, hc, ?_, hnone, hd, hreturned, hwaits, ?_⟩
  · intro t
    cases t <;> assumption
  · apply (commit_census Capacity.two (hc.trans hd)).blocked hempty
    rw [hwaits]
    rfl

end ordinum.write_pipeline
