import Ordinum.Db.WritePipeline.Semaphore
import Ordinum.Interleaving.Alone

open interleaving
open interleaving.System

namespace ordinum.write_pipeline

/-- Program points between taking `sem_mu` and giving it up. -/
def SemPc.in_section : SemPc → Bool
  | .acquire (.try_load slow) | .acquire (.try_cas slow _) => slow
  | .acquire .check | .acquire .wait | .acquire .unlock => true
  | .release .lock => false
  | .release _ => true
  | _ => false

theorem in_section_try_acquire_next (slow : Bool) (cur : BitVec 16) :
    SemPc.in_section (.acquire (try_acquire_next slow cur)) = slow := by
  unfold try_acquire_next
  split
  · cases slow <;> rfl
  · rfl

theorem in_section_of_tries {slow : Bool} {pc : AcquirePc} (hpc : pc.Tries slow) :
    SemPc.in_section (.acquire pc) = slow := by
  cases hpc <;> rfl

variable {Tid : Type} [DecidableEq Tid] {L : Nat}

section section_owner

variable {t : Tid} {a : SemAct Tid} {sem sem' : PipelineAdmission Tid} {l l' : SemThread}

/-- Outside the critical section a poisoned mutex keeps a thread out. -/
theorem not_in_section_of_poisoned (hr : sem_step L t a sem l = some (sem', l'))
    (hpoisoned : sem.sem_mu = .poisoned) (hout : l.pc.in_section = false) :
    l'.pc.in_section = false := by
  obtain ⟨pc, permits, woken⟩ := l
  rcases pc with _ | pc | ((_ | _) | ⟨_ | _, cur⟩ | _ | _ | _ | _ | _ | _) | (_ | _ | prev | _ | _)
  case idle => cases a <;> cases hr <;> rfl
  case try_acquire =>
    cases a with
    | step choice =>
      rcases hstep : try_acquire_step sem pc with ⟨next, progress | acquired⟩
      · simp only [sem_step, hstep] at hr
        cases hr
        rfl
      · simp only [sem_step, hstep] at hr
        cases hr
        rfl
    | _ => cases hr
  case acquire.try_load.false =>
    cases a with
    | step choice =>
      cases hr
      exact in_section_try_acquire_next false sem.count
    | _ => cases hr
  case acquire.try_cas.false =>
    cases a with
    | step choice =>
      by_cases hcur : sem.count = cur
      · simp only [sem_step, acquire_step, if_pos hcur] at hr
        cases hr
        rfl
      · simp only [sem_step, acquire_step, if_neg hcur] at hr
        cases hr
        exact in_section_try_acquire_next false sem.count
    | _ => cases hr
  case acquire.sleep =>
    cases a with
    | step choice =>
      simp only [sem_step, acquire_step] at hr
      split at hr
      · cases hr
        rfl
      · split at hr
        · cases hr
          rfl
        · cases hr
    | _ => cases hr
  case acquire.lock | acquire.relock | release.lock =>
    cases a with
    | step choice =>
      simp only [sem_step, acquire_step, release_step, hpoisoned] at hr
      cases hr
      rfl
    | _ => cases hr
  all_goals cases hout

/-- Every step keeps the owner of the critical section, and changes the mutex only when
its thread takes it or owns it. -/
theorem step_section (hr : sem_step L t a sem l = some (sem', l'))
    (hl : l.pc.in_section = true → sem.sem_mu = .held t) :
    (l'.pc.in_section = true → sem'.sem_mu = .held t) ∧
    (sem'.sem_mu = sem.sem_mu ∨ sem.sem_mu = .free ∨ sem.sem_mu = .held t) := by
  have houtside : ∀ {owned : Prop}, false = true → owned := fun h => absurd h Bool.false_ne_true
  have hmove := sem_step_move hr
  change SemMove L t a sem l sem' l' at hmove
  cases hmove with
  | poisoned hpoisoned =>
    have hout : l.pc.in_section = false := by
      by_contra hin
      have hheld := hl (by simpa using hin)
      rw [hpoisoned] at hheld
      cases hheld
    have hout' := not_in_section_of_poisoned hr hpoisoned hout
    refine ⟨fun hin => ?_, .inl rfl⟩
    rw [hout'] at hin
    cases hin
  | assertion_failed hprev =>
    cases a with
    | step choice =>
      simp only [sem_step, release_step, if_neg hprev] at hr
      cases hr
      exact ⟨houtside, .inr (.inr (hl rfl))⟩
    | _ => cases hr
  | call hpc =>
    obtain rfl | rfl := hpc
    · exact ⟨houtside, .inl rfl⟩
    · exact ⟨houtside, .inl rfl⟩
  | recheck hpc => exact ⟨fun _ => hl (in_section_of_tries hpc), .inl rfl⟩
  | @read _ _ slow _ hpc =>
    refine ⟨fun hin => hl ?_, .inl rfl⟩
    rw [in_section_of_tries hpc]
    exact hin
  | lock hfree | relock hfree | release_lock hfree => exact ⟨fun _ => rfl, .inr (.inl hfree)⟩
  | wait | unlock | release_unlock => exact ⟨houtside, .inr (.inr (hl rfl))⟩
  | take_slow | check_zero | check_some | fetch_add | below_limit | notify_nobody | notify =>
    exact ⟨fun _ => hl rfl, .inl rfl⟩
  | _ => exact ⟨houtside, .inl rfl⟩

end section_owner

variable (Tid) in
/-- Whoever is in the critical section holds the mutex. -/
def section_outline : Outline Tid (PipelineAdmission Tid) SemThread where
  shared := fun _ => True
  thread := fun t sem l => l.pc.in_section = true → sem.sem_mu = .held t
  apart := fun _ _ => True

theorem section_outline_valid :
    Outline.trivial.ValidOver (section_outline Tid) (sem_system Tid L) anyStep where
  init_shared := trivial
  init_thread := fun _ => nofun
  init_apart := trivial
  step_own := fun _ _ _ _ _ _ _ _ hl _ hr => ⟨trivial, (step_section hr hl).1⟩
  step_other := by
    intro t u a s l m r hne _ hpair _ hr
    refine ⟨fun hin => ?_, trivial, trivial⟩
    have hheld : s.sem_mu = .held u := hpair.other hin
    obtain hsame | hfree | hown := (step_section hr hpair.own).2
    · rw [hsame, hheld]
    · rw [hheld] at hfree
      cases hfree
    · rw [hheld] at hown
      cases hown
      exact absurd rfl hne

variable {c d : SemConfig Tid}

/-- A poisoned mutex stays poisoned. -/
theorem poisoned_forever (hc : (sem_system Tid L).Reachable c)
    (hpoisoned : c.shared.sem_mu = .poisoned) (hsteps : (sem_system Tid L).Steps c d) :
    d.shared.sem_mu = .poisoned := by
  induction hsteps with
  | refl => exact hpoisoned
  | tail hcd hstep ih =>
    obtain ⟨t, a, r, -, hr, rfl⟩ := hstep
    have houtline := section_outline_valid.holds_of_trivial (hc.trans hcd)
    obtain hsame | hfree | hown := (step_section hr (houtline.thread t)).2
    · exact hsame.trans ih
    · rw [ih] at hfree
      cases hfree
    · rw [ih] at hown
      cases hown

/-- The step ends a call of `acquire` or `release` by a panic. -/
def Panics (L : Nat) (t : Tid) (a : SemAct Tid) (sem : PipelineAdmission Tid) (l : SemThread) :
    Prop :=
  match a, l.pc with
  | .step choice, .acquire pc =>
    (acquire_step t choice sem pc).map Prod.snd = some (.done .panicked)
  | .step choice, .release pc =>
    (release_step L t choice sem pc).map Prod.snd = some (.done .panicked)
  | _, _ => False

/-- A run from `c` to `d` whose last step is the failing assertion of a `release`
of `t`. -/
def RejectedRelease (L : Nat) (t : Tid) (c d : SemConfig Tid) : Prop :=
  ∃ e prev choice r, (sem_system Tid L).Steps c e ∧ (e.threads t).pc = .release (.check prev) ∧
    ¬ prev.toNat < L ∧ sem_step L t (.step choice) e.shared (e.threads t) = some r ∧ d = e.move t r

/-- What is promised after a rejected release: the count is at the limit, and whatever
is acquired and, by its holders, released later, at most `L` permits are held at once
and no call panics. -/
structure Unharmed [Fintype Tid] (L : Nat) (d : SemConfig Tid) : Prop where
  count : d.shared.count = BitVec.ofNat 16 L
  permits : ∀ e, (sem_system Tid L).StepsUnder releases_held d e →
    e.total SemThread.permits_held ≤ L
  usable : ∀ e, (sem_system Tid L).StepsUnder releases_held d e → ∀ t a,
    releases_held t a e.shared (e.threads t) → ¬ Panics L t a e.shared (e.threads t)

/-- The failing assertion poisons the mutex. -/
theorem RejectedRelease.poisons {t : Tid} (hd : RejectedRelease L t c d) :
    d.shared.sem_mu = .poisoned ∧ (d.threads t).pc = .idle := by
  obtain ⟨e, prev, choice, r, -, hpc, hprev, hr, rfl⟩ := hd
  rcases hl : e.threads t with ⟨pc, permits, woken⟩
  rw [hl] at hpc hr
  change pc = _ at hpc
  subst hpc
  simp only [sem_step, release_step, if_neg hprev] at hr
  cases hr
  rw [Config.move_threads_self]
  exact ⟨rfl, rfl⟩

/-- `acquire` of a thread that runs alone takes a permit if there is one. -/
theorem takes_permit {t : Tid} {sem : PipelineAdmission Tid} {permits : Nat} {woken : Bool}
    (hsteps : (sem_system Tid L).StepsUnder releases_held c
      (c.move t (sem, ⟨.idle, permits, woken⟩))) (hcount : sem.count ≠ 0#16) :
    (sem_system Tid L).StepsUnder releases_held c
      (c.move t ({ sem with count := sem.count - 1#16 }, ⟨.idle, permits + 1, woken⟩)) := by
  have hcall : sem_step L t .try_acquire sem ⟨.idle, permits, woken⟩ =
      some (sem, ⟨.try_acquire .load, permits, woken⟩) := rfl
  have hload : sem_step L t (.step {}) sem ⟨.try_acquire .load, permits, woken⟩ =
      some (sem, ⟨.try_acquire (.cas sem.count), permits, woken⟩) := by
    simp only [sem_step, try_acquire_step, if_neg hcount]
  have hcas : sem_step L t (.step {}) sem ⟨.try_acquire (.cas sem.count), permits, woken⟩ =
      some ({ sem with count := sem.count - 1#16 }, ⟨.idle, permits + 1, woken⟩) := by
    simp only [sem_step, try_acquire_step, if_true]
    rfl
  have hcalled := StepsUnder.and_step hsteps (a := .try_acquire) trivial hcall
  have hloaded := StepsUnder.and_step hcalled (a := .step {}) trivial hload
  exact StepsUnder.and_step hloaded (a := .step {}) trivial hcas

/-- A thread that runs alone takes all permits. -/
theorem takes_all_permits {t : Tid} {woken : Bool} (n : Nat) :
    ∀ {sem : PipelineAdmission Tid} {permits : Nat}, sem.count.toNat = n →
      (sem_system Tid L).StepsUnder releases_held c (c.move t (sem, ⟨.idle, permits, woken⟩)) →
      ∃ sem', (sem_system Tid L).StepsUnder releases_held c
        (c.move t (sem', ⟨.idle, permits + n, woken⟩)) := by
  induction n with
  | zero => exact fun _ hsteps => ⟨_, hsteps⟩
  | succ n ih =>
    intro sem permits hcount hsteps
    have hsome : sem.count ≠ 0#16 := by
      intro hzero
      rw [hzero] at hcount
      cases hcount
    have hrest : (sem.count - 1#16).toNat = n := by
      have hlt := sem.count.isLt
      simp only [BitVec.toNat_sub, BitVec.toNat_ofNat]
      omega
    obtain ⟨sem', hall⟩ := ih hrest (takes_permit hsteps hsome)
    refine ⟨sem', ?_⟩
    rw [show permits + (n + 1) = permits + 1 + n by omega]
    exact hall

/-- With the mutex poisoned, a thread that takes a permit cannot give it back, and
without a permit to take it cannot wait for one. -/
theorem next_call_panics {t : Tid} (hpoisoned : d.shared.sem_mu = .poisoned)
    (hidle : (d.threads t).pc = .idle) :
    ∃ e, (sem_system Tid L).StepsUnder releases_held d e ∧
      Panics L t (.step {}) e.shared (e.threads t) := by
  rcases hl : d.threads t with ⟨pc, permits, woken⟩
  rw [hl] at hidle
  change pc = _ at hidle
  subst hidle
  have hstart := StepsUnder.of_thread (sem_system Tid L) releases_held d t
  rw [hl] at hstart
  by_cases hcount : d.shared.count = 0#16
  · have hcall : sem_step L t .acquire d.shared ⟨.idle, permits, woken⟩ =
        some (d.shared, ⟨.acquire (.try_load false), permits, woken⟩) := rfl
    have hload : sem_step L t (.step {}) d.shared ⟨.acquire (.try_load false), permits, woken⟩ =
        some (d.shared, ⟨.acquire .lock, permits, woken⟩) := by
      simp only [sem_step, acquire_step, try_acquire_next, if_pos hcount]
      rfl
    have hcalled := StepsUnder.and_step hstart (a := .acquire) trivial hcall
    refine ⟨_, StepsUnder.and_step hcalled (a := .step {}) trivial hload, ?_⟩
    rw [Config.move_threads_self]
    simp [Panics, acquire_step, hpoisoned]
  · have htaken := takes_permit hstart hcount
    have hcall : sem_step L t .release { d.shared with count := d.shared.count - 1#16 }
        ⟨.idle, permits + 1, woken⟩ = some ({ d.shared with count := d.shared.count - 1#16 },
          ⟨.release .lock, permits, woken⟩) := rfl
    refine ⟨_, StepsUnder.and_step htaken (a := .release) (Nat.succ_pos permits) hcall, ?_⟩
    rw [Config.move_threads_self]
    simp [Panics, release_step, hpoisoned]

/-- What an undisturbed `release` at the limit does. -/
theorem release_at_limit {t : Tid} (hL : L ≤ 65535) (hcount : c.shared.count = BitVec.ofNat 16 L)
    (hfree : c.shared.sem_mu = .free) (hidle : (c.threads t).pc = .idle) :
    RejectedRelease L t c (c.move t ({ c.shared with
      count := BitVec.ofNat 16 (L + 1), sem_mu := .poisoned },
      ⟨.idle, (c.threads t).permits - 1, (c.threads t).woken⟩)) := by
  rcases hl : c.threads t with ⟨pc, permits, woken⟩
  rw [hl] at hidle
  change pc = _ at hidle
  subst hidle
  have hstart := StepsUnder.of_thread (sem_system Tid L) anyStep c t
  rw [hl] at hstart
  have hcall : sem_step L t .release c.shared ⟨.idle, permits, woken⟩ =
      some (c.shared, ⟨.release .lock, permits - 1, woken⟩) := rfl
  have hlock : sem_step L t (.step {}) c.shared ⟨.release .lock, permits - 1, woken⟩ =
      some ({ c.shared with sem_mu := .held t }, ⟨.release .fetch_add, permits - 1, woken⟩) := by
    simp only [sem_step, release_step, hfree]
    rfl
  have hadd : sem_step L t (.step {}) { c.shared with sem_mu := .held t }
      ⟨.release .fetch_add, permits - 1, woken⟩ =
      some ({ c.shared with count := BitVec.ofNat 16 (L + 1), sem_mu := .held t },
        ⟨.release (.check (BitVec.ofNat 16 L)), permits - 1, woken⟩) := by
    simp only [sem_step, release_step, hcount, BitVec.ofNat_add]
    rfl
  have hcalled := StepsUnder.and_step hstart (a := .release) trivial hcall
  have hlocked := StepsUnder.and_step hcalled (a := .step {}) trivial hlock
  have hadded := StepsUnder.and_step hlocked (a := .step {}) trivial hadd
  have hprev : ¬ (BitVec.ofNat 16 L).toNat < L := by
    rw [BitVec.toNat_ofNat]
    omega
  refine ⟨_, BitVec.ofNat 16 L, {}, ({ c.shared with
      count := BitVec.ofNat 16 (L + 1), sem_mu := .poisoned },
      ⟨.idle, permits - 1, woken⟩), hadded, ?_, hprev, ?_, ?_⟩
  · rw [Config.move_threads_self]
  · rw [Config.move_threads_self]
    simp only [sem_step, release_step, if_neg hprev]
    rfl
  · rw [Config.move_move]

/-- No rejected release is without harm: the mutex is poisoned in every state after it,
and the next permit that is taken cannot be given back. When nothing comes between, the
count is past the limit as well, and, unless it wrapped round, more than `L` permits can
then be held. -/
theorem rejected_release_harms [Fintype Tid] (hL : L ≤ 65535)
    (hc : (sem_system Tid L).Reachable c) (hcount : c.shared.count = BitVec.ofNat 16 L) (t : Tid) :
    (∀ d, RejectedRelease L t c d → ¬ Unharmed L d ∧
      ∀ e, (sem_system Tid L).Steps d e → e.shared.sem_mu = .poisoned) ∧
    (c.shared.sem_mu = .free → (c.threads t).pc = .idle → ∃ d, RejectedRelease L t c d ∧
      d.shared.count ≠ BitVec.ofNat 16 L ∧ (L < 65535 →
        ∃ e, (sem_system Tid L).StepsUnder releases_held d e ∧
          L < e.total SemThread.permits_held)) := by
  constructor
  · intro d hd
    obtain ⟨hpoisoned, hidle⟩ := hd.poisons
    constructor
    · intro hunharmed
      obtain ⟨e, hsteps, hpanics⟩ := next_call_panics hpoisoned hidle
      exact hunharmed.usable e hsteps t (.step {}) trivial hpanics
    · obtain ⟨e, prev, choice, r, hsteps, -, -, hr, rfl⟩ := hd
      have hreach := (hc.trans hsteps).tail ⟨t, .step choice, r, trivial, hr, rfl⟩
      exact fun e he => poisoned_forever hreach hpoisoned he
  · intro hfree hidle
    refine ⟨_, release_at_limit hL hcount hfree hidle, ?_, ?_⟩
    · change BitVec.ofNat 16 (L + 1) ≠ BitVec.ofNat 16 L
      intro heq
      have hnat := congrArg BitVec.toNat heq
      simp only [BitVec.toNat_ofNat] at hnat
      omega
    · intro hlt
      have hstart := StepsUnder.of_thread (sem_system Tid L) releases_held
        (c.move t ({ c.shared with count := BitVec.ofNat 16 (L + 1), sem_mu := .poisoned },
          ⟨.idle, (c.threads t).permits - 1, (c.threads t).woken⟩)) t
      rw [Config.move_threads_self] at hstart
      obtain ⟨sem', hall⟩ := takes_all_permits (L + 1) (by
        change (BitVec.ofNat 16 (L + 1)).toNat = L + 1
        rw [BitVec.toNat_ofNat]
        omega) hstart
      refine ⟨_, hall, ?_⟩
      have hle := Config.le_total SemThread.permits_held ((c.move t ({ c.shared with
        count := BitVec.ofNat 16 (L + 1), sem_mu := .poisoned },
        ⟨.idle, (c.threads t).permits - 1, (c.threads t).woken⟩)).move t (sem',
        ⟨.idle, (c.threads t).permits - 1 + (L + 1), (c.threads t).woken⟩)) t
      rw [Config.move_threads_self] at hle
      simp only [SemThread.permits_held, SemPc.permits] at hle ⊢
      omega

theorem rejected_release_harms_new : ∃ d : SemConfig Bool,
    RejectedRelease 1 true (sem_system Bool 1).init d ∧ ¬ Unharmed 1 d := by
  obtain ⟨hharm, hexists⟩ := rejected_release_harms (L := 1) (by decide) .init rfl true
  obtain ⟨d, hd, -⟩ := hexists rfl rfl
  exact ⟨d, hd, (hharm d hd).1⟩

/-- Nobody holds the one permit when thread `true` releases it; afterwards each of the two
threads takes a permit, and neither can give it back. -/
theorem rejected_release_not_unharmed : ∃ d : SemConfig Bool,
    RejectedRelease 1 true (sem_system Bool 1).init d ∧ d.shared.count = 2#16 ∧
    (∃ e, (sem_system Bool 1).StepsUnder releases_held d e ∧
      e.total SemThread.permits_held = 2 ∧ Panics 1 true (.step {}) e.shared (e.threads true)) ∧
    ¬ Unharmed 1 d := by
  have hd : RejectedRelease 1 true (sem_system Bool 1).init _ :=
    release_at_limit (by decide) rfl rfl rfl
  obtain ⟨e, hrun, hseen⟩ := Option.map_eq_some_iff.mp (show ((sem_system Bool 1).run_under
    releases_held ((sem_system Bool 1).init.move true
      ({ count := 2#16, sem_mu := .poisoned, sem_cv := ⟨[]⟩ }, ⟨.idle, 0, false⟩))
    [(true, .acquire), (true, .step {}), (true, .step {}), (false, .acquire), (false, .step {}),
      (false, .step {}), (true, .release)]).map (fun e => (e.total SemThread.permits_held,
        e.shared.sem_mu, (e.threads true).pc)) = some (2, .poisoned, .release .lock) by
    decide +kernel)
  simp only [Prod.mk.injEq] at hseen
  obtain ⟨htotal, hpoisoned, hpc⟩ := hseen
  refine ⟨_, hd, rfl, ⟨e, stepsUnder_of_run hrun, htotal, ?_⟩, ?_⟩
  · simp [Panics, hpc, release_step, hpoisoned]
  · intro hunharmed
    have hle := hunharmed.permits e (stepsUnder_of_run hrun)
    omega

end ordinum.write_pipeline
