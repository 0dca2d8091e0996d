import Ordinum.Db.WritePipeline.SemaphoreInvariant

open interleaving

namespace ordinum.write_pipeline

variable {Tid : Type} [DecidableEq Tid] {L : Nat}

/-- Program points asleep in `sem_cv`, or with a permit put back and a
notification still to be sent. -/
def SemPc.answers : SemPc → Bool
  | .acquire .sleep | .release (.check _) | .release .notify => true
  | _ => false

/-- Whether a thread is asleep in `sem_cv` or answers for a permit put back while
others sleep: it was woken, or it has put a permit back and is yet to notify. -/
def SemThread.answers (l : SemThread) : Nat := (l.pc.answers || l.woken).toNat

theorem SemThread.answers_le_one (l : SemThread) : l.answers ≤ 1 :=
  Bool.toNat_le _

section moves

variable {t : Tid} {a : SemAct Tid} {sem sem' : PipelineAdmission Tid} {l l' : SemThread}

omit [DecidableEq Tid] in
/-- A successful exchange takes one from a positive count. -/
theorem toNat_exchanged (hne : sem.count ≠ 0#16) :
    (sem.count - 1#16).toNat + 1 = sem.count.toNat := by
  have hpos : sem.count.toNat ≠ 0 := fun h => hne (BitVec.eq_of_toNat_eq h)
  have hlt := sem.count.isLt
  simp only [BitVec.toNat_sub, BitVec.toNat_ofNat]
  omega

/-- A permit is in the count or in the hands of a thread. -/
theorem SemMove.balance (hmove : SemMove L t a sem l sem' l') (hL : L ≤ 65535)
    (hlimit : sem.count.toNat + l.permits_held ≤ L) (hheld : a = .release → 0 < l.permits)
    (hs : SemIntact sem) (hl : SemAt L t sem l.woken l.pc) :
    sem'.count.toNat + l'.permits_held = sem.count.toNat + l.permits_held := by
  cases hmove with
  | poisoned hpoisoned => exact absurd hpoisoned hs.not_poisoned
  | assertion_failed hprev => exact absurd hl.2.2 hprev
  | call hpc => rcases hpc with rfl | rfl <;> rfl
  | call_release hcall =>
    have hpos := hheld hcall
    simp only [SemThread.permits_held, SemPc.permits, ReleasePc.permits] at hpos ⊢
    omega
  | try_take | take_fast | take_slow =>
    have hcount := toNat_exchanged hl.2
    simp only [SemThread.permits_held, SemPc.permits, AcquirePc.permits]
    omega
  | slow_path hpc | recheck hpc | read hpc => cases hpc <;> rfl
  | fetch_add =>
    simp only [SemThread.permits_held, SemPc.permits, ReleasePc.permits] at hlimit ⊢
    rw [BitVec.toNat_add, BitVec.toNat_ofNat]
    omega
  | _ => rfl

/-- While somebody sleeps, a step that raises the count or wakes a sleeper is
answered for by the stepping thread, and a thread stops answering only when it
lowers the count, wakes a sleeper or finds the count at zero. -/
theorem SemMove.answers (hmove : SemMove L t a sem l sem' l') (hs : SemIntact sem)
    (hl : SemAt L t sem l.woken l.pc) : sem'.sem_cv.waiting = [] ∨ sem'.count = 0#16 ∨
      (sem.sem_cv.waiting ≠ [] ∧
        sem'.count.toNat + sem'.sem_cv.waiting.length + l.answers ≤
          sem.count.toNat + sem.sem_cv.waiting.length + l'.answers) := by
  by_cases hempty : sem'.sem_cv.waiting = []
  · exact .inl hempty
  have hle := l.answers_le_one
  cases hmove with
  | poisoned hpoisoned => exact absurd hpoisoned hs.not_poisoned
  | assertion_failed hprev => exact absurd hl.2.2 hprev
  | wait => exact .inr (.inl hl.2)
  | notify_nobody hnobody => exact absurd hnobody hempty
  | call hpc =>
    refine .inr (.inr ⟨hempty, ?_⟩)
    rcases hpc with rfl | rfl <;> exact Nat.add_le_add_left (Nat.le_of_eq rfl) _
  | slow_path hpc | recheck hpc | read hpc =>
    refine .inr (.inr ⟨hempty, ?_⟩)
    cases hpc <;> exact Nat.add_le_add_left (Nat.le_of_eq rfl) _
  | try_take | take_fast | take_slow =>
    have hcount := toNat_exchanged hl.2
    refine .inr (.inr ⟨hempty, ?_⟩)
    simp only
    omega
  | notified => exact .inr (.inr ⟨hempty, Nat.add_le_add_left (Nat.le_of_eq rfl) _⟩)
  | @spurious permits _ hmem =>
    refine .inr (.inr ⟨List.ne_nil_of_mem hmem, ?_⟩)
    have hlen := List.length_erase_of_mem hmem
    have hwoken : SemThread.answers ⟨.acquire .relock, permits, true⟩ = 1 := rfl
    simp only [hlen, hwoken]
    omega
  | notify u hmem =>
    refine .inr (.inr ⟨List.ne_nil_of_mem hmem, ?_⟩)
    have hlen := List.length_erase_of_mem hmem
    have hpos := List.length_pos_of_mem hmem
    simp only [hlen]
    omega
  | @fetch_add permits woken =>
    refine .inr (.inr ⟨hempty, ?_⟩)
    have hadd : (sem.count + 1#16).toNat ≤ sem.count.toNat + 1 := by
      rw [BitVec.toNat_add]
      exact Nat.mod_le _ _
    have hbefore : SemThread.answers ⟨.release .fetch_add, permits, woken⟩ = 0 := by
      rw [show woken = false from hl.2]
      rfl
    have hafter : SemThread.answers ⟨.release (.check sem.count), permits, woken⟩ = 1 := rfl
    simp only [hbefore, hafter]
    omega
  | unlock | release_unlock | lock | relock | release_lock | _ =>
    exact .inr (.inr ⟨hempty, Nat.add_le_add_left (Nat.le_of_eq rfl) _⟩)

end moves

/-- The permits and the wake-ups, counted over all threads. -/
structure SemCensus [Fintype Tid] (L : Nat) (c : SemConfig Tid) : Prop where
  outline : (sem_outline L).Holds c
  permits : c.shared.count.toNat + c.total SemThread.permits_held = L
  answered : c.shared.sem_cv.waiting ≠ [] →
    c.shared.count.toNat + c.shared.sem_cv.waiting.length ≤ c.total SemThread.answers

omit [DecidableEq Tid] in
theorem asleep_answers {c : SemConfig Tid} (hc : (sem_outline L).Holds c) (t : Tid)
    (hmem : t ∈ c.shared.sem_cv.waiting) : 0 < (c.threads t).answers := by
  have hasleep := (hc.thread t).asleep hmem
  rw [SemThread.answers, hasleep]
  exact Nat.zero_lt_one

variable [Fintype Tid]

theorem SemCensus.move {c : SemConfig Tid} {t : Tid} {a : SemAct Tid}
    {r : PipelineAdmission Tid × SemThread} (hc : SemCensus L c) (hL : L ≤ 65535)
    (hheld : releases_held t a c.shared (c.threads t))
    (hmove : SemMove L t a c.shared (c.threads t) r.1 r.2) : SemCensus L (c.move t r) := by
  have hs := hc.outline.shared
  have hl := hc.outline.thread t
  have hlimit : c.shared.count.toNat + (c.threads t).permits_held ≤ L := by
    have hle := c.le_total SemThread.permits_held t
    have hpermits := hc.permits
    omega
  obtain ⟨hshared, hown⟩ := hmove.own hlimit hs hl
  have houtline : (sem_outline L).Holds (c.move t r) :=
    hc.outline.move hshared hown fun u hne =>
      ⟨(hc.outline.thread u).frame (hmove.frame hne.symm hs hl), trivial, trivial⟩
  refine ⟨houtline, ?_, ?_⟩
  · rw [← hc.permits]
    refine c.total_balance SemThread.permits_held (fun sem => sem.count.toNat) (hmove.balance hL hlimit ?_ hs hl)
    rintro rfl
    exact hheld
  · intro hwaiting
    obtain hnobody | hzero | ⟨hsome, hstep⟩ := hmove.answers hs hl
    · exact absurd hnobody hwaiting
    · have hlen := (c.move t r).length_le_total hshared.waiting_nodup (asleep_answers houtline)
      rw [Config.move_shared, hzero]
      simpa using hlen
    · have hbefore := hc.answered hsome
      have htotal := c.total_move SemThread.answers t r
      simp only [Config.move_shared]
      omega

theorem sem_census_init (hL : L ≤ 65535) : SemCensus L (sem_system Tid L).init := by
  refine ⟨⟨⟨nofun, List.nodup_nil⟩, fun _ => ⟨List.not_mem_nil, rfl⟩, fun _ _ _ => trivial⟩, ?_,
    fun hne => absurd rfl hne⟩
  rw [System.total_init _ rfl]
  exact Nat.mod_eq_of_lt (by omega)

theorem sem_census (hL : L ≤ 65535) {c : SemConfig Tid}
    (hc : (sem_system Tid L).ReachableUnder releases_held c) : SemCensus L c := by
  refine System.ReachableUnder.induction (P := SemCensus L) (sem_census_init hL) ?_ hc
  intro c t a r _ hcensus hheld hstep
  exact hcensus.move hL hheld (sem_step_move hstep)

/-- Thread `t` was notified or woken early and has since neither taken a permit
nor gone back to sleep. -/
def Woken (c : SemConfig Tid) (t : Tid) : Prop :=
  ((c.threads t).pc = .acquire .sleep ∧ t ∉ c.shared.sem_cv.waiting) ∨ (c.threads t).woken = true

instance (c : SemConfig Tid) (t : Tid) : Decidable (Woken c t) :=
  inferInstanceAs (Decidable (_ ∨ _))

/-- A call of `release` that has put its permit back and is yet to notify. -/
def SemPc.notifies : SemPc → Bool
  | .release (.check _) | .release .notify => true
  | _ => false

def woken_threads (c : SemConfig Tid) : Finset Tid :=
  Finset.univ.filter (Woken c)

def notifying_threads (c : SemConfig Tid) : Finset Tid :=
  Finset.univ.filter fun t => (c.threads t).pc.notifies = true

/-- Every thread is done, or asleep with nobody having woken it. -/
def AllDone (c : SemConfig Tid) : Prop :=
  ∀ t, (c.threads t).pc = .idle ∨
    ((c.threads t).pc = .acquire .sleep ∧ t ∈ c.shared.sem_cv.waiting)

/-- A thread that answers is asleep, was woken or is yet to notify. -/
theorem total_answers_le (c : SemConfig Tid) :
    c.total SemThread.answers ≤ c.shared.sem_cv.waiting.length + (woken_threads c).card +
      (notifying_threads c).card := by
  have hcover : (Finset.univ.filter fun t => (c.threads t).pc.answers || (c.threads t).woken) ⊆
      c.shared.sem_cv.waiting.toFinset ∪ woken_threads c ∪ notifying_threads c := by
    intro t ht
    simp only [woken_threads, notifying_threads, Finset.mem_union, List.mem_toFinset,
      Finset.mem_filter, Finset.mem_univ, true_and, Woken, Bool.or_eq_true] at ht ⊢
    obtain hpc | hwoken := ht
    · generalize (c.threads t).pc = pc at hpc ⊢
      by_cases hmem : t ∈ c.shared.sem_cv.waiting
      · exact .inl (.inl hmem)
      · obtain _ | _ | (_ | _ | _ | _ | _ | _ | _ | _) | (_ | _ | _ | _ | _) := pc
        case acquire.sleep => exact .inl (.inr (.inl ⟨rfl, hmem⟩))
        case release.check | release.notify => exact .inr rfl
        all_goals cases hpc
    · exact .inl (.inr (.inr hwoken))
  have htotal : c.total SemThread.answers =
      (Finset.univ.filter fun t => (c.threads t).pc.answers || (c.threads t).woken).card := by
    rw [Finset.card_filter]
    apply Finset.sum_congr rfl
    intro t _
    rw [SemThread.answers]
    cases (c.threads t).pc.answers || (c.threads t).woken <;> rfl
  have hlen := c.shared.sem_cv.waiting.toFinset_card_le
  have hcard := Finset.card_le_card hcover
  have hunion := Finset.card_union_le (c.shared.sem_cv.waiting.toFinset ∪ woken_threads c)
    (notifying_threads c)
  have hunion' := Finset.card_union_le c.shared.sem_cv.waiting.toFinset (woken_threads c)
  omega

/-- Nobody was woken and nobody is about to notify once all threads are done. -/
theorem SemCensus.no_wakeups_left {c : SemConfig Tid} (hc : SemCensus L c) (hdone : AllDone c) :
    woken_threads c = ∅ ∧ notifying_threads c = ∅ := by
  constructor
  · apply Finset.filter_eq_empty_iff.mpr
    intro t _ hwoken
    have ht := hc.outline.thread t
    obtain hidle | ⟨hasleep, hmem⟩ := hdone t
    · simp only [Woken, hidle, reduceCtorEq, false_and, false_or] at hwoken
      change SemAt L t c.shared (c.threads t).woken (c.threads t).pc at ht
      rw [hidle] at ht
      rw [ht.not_woken] at hwoken
      cases hwoken
    · change SemAt L t c.shared (c.threads t).woken (c.threads t).pc at ht
      rw [hasleep] at ht
      obtain ⟨_, hnot⟩ | hwoken := hwoken
      · exact hnot hmem
      · rw [show (c.threads t).woken = false from ht] at hwoken
        cases hwoken
  · apply Finset.filter_eq_empty_iff.mpr
    intro t _ hnotifies
    obtain hidle | ⟨hasleep, _⟩ := hdone t
    · rw [hidle] at hnotifies
      cases hnotifies
    · rw [hasleep] at hnotifies
      cases hnotifies

/-- No wake-up is lost: while somebody sleeps, every permit in the count has a
woken thread or a release that is yet to notify. -/
theorem SemCensus.count_le {c : SemConfig Tid} (hc : SemCensus L c)
    (hwaiting : c.shared.sem_cv.waiting ≠ []) :
    c.shared.count.toNat ≤ (woken_threads c).card + (notifying_threads c).card := by
  have hanswered := hc.answered hwaiting
  have hcover := total_answers_le c
  omega

/-- In every run in which permits are released by their holders: the permits
are conserved, the assertion in `release` holds whenever it is reached, no
wake-up is lost, and no thread is left asleep beside a free permit. -/
theorem admission_keeps_permits (hL : L ≤ 65535) {c : SemConfig Tid}
    (hc : (sem_system Tid L).ReachableUnder releases_held c) :
    c.shared.count.toNat + c.total SemThread.permits_held = L ∧
    c.shared.sem_mu ≠ .poisoned ∧
    (∀ t prev, (c.threads t).pc = .release (.check prev) → prev.toNat < L) ∧
    (c.shared.sem_cv.waiting ≠ [] →
      c.shared.count.toNat ≤ (woken_threads c).card + (notifying_threads c).card) ∧
    ¬ (AllDone c ∧ 0 < c.shared.count.toNat ∧ c.shared.sem_cv.waiting ≠ []) := by
  have hcensus := sem_census hL hc
  refine ⟨hcensus.permits, hcensus.outline.shared.not_poisoned, ?_, hcensus.count_le, ?_⟩
  · intro t prev hpc
    have ht := hcensus.outline.thread t
    change SemAt L t c.shared (c.threads t).woken (c.threads t).pc at ht
    rw [hpc] at ht
    exact ht.2.2
  · rintro ⟨hdone, hpos, hwaiting⟩
    obtain ⟨hwoken, hnotifying⟩ := hcensus.no_wakeups_left hdone
    have hle := hcensus.count_le hwaiting
    rw [hwoken, hnotifying, Finset.card_empty] at hle
    omega

/-- The next `n` steps of thread `t`. -/
def sem_steps_of (t : Bool) (n : Nat) : List (Bool × SemAct Bool) :=
  List.replicate n (t, .step {})

/-- Two threads and one permit: `false` takes it and `true` falls asleep. -/
def sleeping_schedule : List (Bool × SemAct Bool) :=
  (false, .acquire) :: sem_steps_of false 2 ++ (true, .acquire) :: sem_steps_of true 4

/-- The sleeper is notified, and the permit is taken before it looks again. -/
def stolen_schedule : List (Bool × SemAct Bool) :=
  sleeping_schedule ++ (false, .release) :: sem_steps_of false 3 ++
    (false, .step { notified := some true }) :: sem_steps_of false 1 ++
    (false, .try_acquire) :: sem_steps_of false 2 ++ sem_steps_of true 4

theorem admission_keeps_permits_stolen :
    ∃ c : SemConfig Bool, c.shared.sem_cv.waiting = [true] ∧
      (c.shared.count.toNat + c.total SemThread.permits_held = 1 ∧
      c.shared.sem_mu ≠ .poisoned ∧
      (∀ t prev, (c.threads t).pc = .release (.check prev) → prev.toNat < 1) ∧
      (c.shared.sem_cv.waiting ≠ [] →
        c.shared.count.toNat ≤ (woken_threads c).card + (notifying_threads c).card) ∧
      ¬ (AllDone c ∧ 0 < c.shared.count.toNat ∧ c.shared.sem_cv.waiting ≠ [])) := by
  obtain ⟨c, hc, hseen⟩ := System.reachable_showing (sem_system Bool 1) releases_held
    stolen_schedule (fun c => c.shared.sem_cv.waiting) [true] (by decide +kernel)
  exact ⟨c, hseen, admission_keeps_permits (by decide) hc⟩

/-- Between the `fetch_add` and the notification of one release the count is
positive, a thread sleeps and nobody was woken. -/
theorem permit_put_back_before_wakeup :
    ∃ c : SemConfig Bool, (sem_system Bool 1).ReachableUnder releases_held c ∧
      c.shared.sem_cv.waiting = [true] ∧ 0 < c.shared.count.toNat ∧
      ¬ c.shared.count.toNat ≤ (woken_threads c).card := by
  obtain ⟨c, hc, hseen⟩ := System.reachable_showing (sem_system Bool 1) releases_held
    (sleeping_schedule ++ (false, .release) :: sem_steps_of false 2)
    (fun c => (c.shared.sem_cv.waiting, c.shared.count.toNat, (woken_threads c).card))
    ([true], 1, 0) (by decide +kernel)
  simp only [Prod.mk.injEq] at hseen
  obtain ⟨hwaiting, hcount, hwoken⟩ := hseen
  exact ⟨c, hc, hwaiting, by omega, by omega⟩

end ordinum.write_pipeline
