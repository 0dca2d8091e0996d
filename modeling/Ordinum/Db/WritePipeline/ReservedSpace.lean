import Ordinum.Db.WritePipeline.Permits
import Ordinum.Db.WritePipeline.Reservation

open interleaving
open ordinum.batch

namespace ordinum.write_pipeline

variable {Tid : Type} [DecidableEq Tid] {N : Nat} {t : Tid}

/-! Permits that a call of the semaphore takes from the count and puts back. -/

section permits

variable {sem sem' : PipelineAdmission Tid} {choice : SemChoice Tid}

def TryAcquirePc.exchanges : TryAcquirePc → Option (BitVec 16)
  | .load => none
  | .cas cur => some cur

def AcquirePc.exchanges : AcquirePc → Option (BitVec 16)
  | .try_cas _ cur => some cur
  | _ => none

/-- The permits of a call of `acquire` that stands at a program point or has
come to its result. -/
def acquired : Progress AcquirePc CallResult → Nat
  | .next pc => pc.permits
  | .done .returned => 1
  | .done .panicked => 0

omit [DecidableEq Tid] in
theorem try_acquire_step_permits (sem : PipelineAdmission Tid) {pc : TryAcquirePc}
    (hpc : pc.exchanges ≠ some 0#16) :
    (try_acquire_step sem pc).1.count.toNat +
        (try_acquire_step sem pc).2.elim (fun _ => 0) Bool.toNat ≤ sem.count.toNat ∧
      ∀ pc', (try_acquire_step sem pc).2 = .next pc' → pc'.exchanges ≠ some 0#16 := by
  have hread : ∀ pc', (if sem.count = 0#16 then Progress.done false
      else .next (TryAcquirePc.cas sem.count)) = .next pc' → pc'.exchanges ≠ some 0#16 := by
    intro pc' hpc'
    split at hpc'
    · cases hpc'
    · rename_i hcount
      cases hpc'
      simpa [TryAcquirePc.exchanges] using hcount
  have hpermits : (if sem.count = 0#16 then Progress.done false
      else .next (TryAcquirePc.cas sem.count)).elim (fun _ => 0) Bool.toNat = 0 := by
    split <;> rfl
  cases pc with
  | load =>
    refine ⟨?_, hread⟩
    simp only [try_acquire_step, hpermits, Nat.add_zero, Nat.le_refl]
  | cas cur =>
    by_cases hcur : sem.count = cur
    · subst hcur
      have htaken := toNat_exchanged fun h => hpc (by rw [TryAcquirePc.exchanges, h])
      simp only [try_acquire_step, if_true, Progress.elim_done, Bool.toNat_true]
      exact ⟨by omega, by intro pc hpc; cases hpc⟩
    · simp only [try_acquire_step, if_neg hcur]
      exact ⟨by rw [hpermits, Nat.add_zero], hread⟩

theorem try_acquire_next_exchanges (slow : Bool) (cur : BitVec 16) :
    (try_acquire_next slow cur).exchanges ≠ some 0#16 ∧
      (try_acquire_next slow cur).permits = 0 := by
  unfold try_acquire_next
  split
  · cases slow <;> exact ⟨(Option.some_ne_none _).symm, rfl⟩
  · rename_i hcur
    exact ⟨by simpa [AcquirePc.exchanges] using hcur, rfl⟩

theorem acquire_step_permits {pc : AcquirePc} {progress : Progress AcquirePc CallResult}
    (hpc : pc.exchanges ≠ some 0#16)
    (hstep : acquire_step t choice sem pc = some (sem', progress)) :
    sem'.count.toNat + acquired progress ≤ sem.count.toNat + pc.permits ∧
      ∀ pc', progress = .next pc' → pc'.exchanges ≠ some 0#16 := by
  cases pc with
  | try_load slow =>
    obtain ⟨hexchanges, hpermits⟩ := try_acquire_next_exchanges slow sem.count
    cases hstep
    refine ⟨by rw [acquired, hpermits]; exact Nat.le_refl _, ?_⟩
    rintro _ ⟨⟩
    exact hexchanges
  | try_cas slow cur =>
    by_cases hcur : sem.count = cur
    · subst hcur
      have htaken := toNat_exchanged fun h => hpc (by rw [AcquirePc.exchanges, h])
      simp only [acquire_step, if_true, Option.some.injEq, Prod.mk.injEq] at hstep
      obtain ⟨rfl, rfl⟩ := hstep
      cases slow with
      | false =>
        exact ⟨show (sem.count - 1#16).toNat + 1 ≤ sem.count.toNat by omega,
          by intro pc hpc; cases hpc⟩
      | true =>
        refine ⟨show (sem.count - 1#16).toNat + 1 ≤ sem.count.toNat by omega, ?_⟩
        rintro _ ⟨⟩ ⟨⟩
    · obtain ⟨hexchanges, hpermits⟩ := try_acquire_next_exchanges slow sem.count
      simp only [acquire_step, if_neg hcur, Option.some.injEq, Prod.mk.injEq] at hstep
      obtain ⟨rfl, rfl⟩ := hstep
      refine ⟨by rw [acquired, hpermits]; exact Nat.le_refl _, ?_⟩
      rintro _ ⟨⟩
      exact hexchanges
  | lock | relock =>
    simp only [acquire_step] at hstep
    split at hstep
    · cases hstep
      exact ⟨Nat.le_refl _, by rintro _ ⟨⟩ ⟨⟩⟩
    · cases hstep
    · cases hstep
      exact ⟨Nat.le_refl _, by intro pc hpc; cases hpc⟩
  | check =>
    simp only [acquire_step, Option.some.injEq, Prod.mk.injEq] at hstep
    obtain ⟨rfl, rfl⟩ := hstep
    split
    · exact ⟨Nat.le_refl _, by rintro _ ⟨⟩ ⟨⟩⟩
    · exact ⟨Nat.le_refl _, by rintro _ ⟨⟩ ⟨⟩⟩
  | wait =>
    cases hstep
    exact ⟨Nat.le_refl _, by rintro _ ⟨⟩ ⟨⟩⟩
  | sleep =>
    simp only [acquire_step] at hstep
    split at hstep
    · cases hstep
      exact ⟨Nat.le_refl _, by rintro _ ⟨⟩ ⟨⟩⟩
    · split at hstep
      · cases hstep
        exact ⟨Nat.le_refl _, by rintro _ ⟨⟩ ⟨⟩⟩
      · cases hstep
  | unlock =>
    cases hstep
    exact ⟨Nat.le_refl _, by intro pc hpc; cases hpc⟩

def ReservePc.exchanges : ReservePc → Option (BitVec 16)
  | .try_reserve_space _ pc => pc.exchanges
  | .acquire pc => pc.exchanges

def ReservePc.permits : ReservePc → Nat
  | .try_reserve_space _ _ => 0
  | .acquire pc => pc.permits

/-- The permits of a call of `reserve_space`, as for `acquire`. -/
def taken_by_reserve : Progress ReservePc CallResult → Nat
  | .next pc => pc.permits
  | .done .returned => 1
  | .done .panicked => 0

theorem reserve_step_permits {pc : ReservePc} {progress : Progress ReservePc CallResult}
    (hpc : pc.exchanges ≠ some 0#16)
    (hstep : reserve_step t choice sem pc = some (sem', progress)) :
    sem'.count.toNat + taken_by_reserve progress ≤ sem.count.toNat + pc.permits ∧
      ∀ pc', progress = .next pc' → pc'.exchanges ≠ some 0#16 := by
  cases pc with
  | try_reserve_space left pc =>
    obtain ⟨hpermits, hexchanges⟩ := try_acquire_step_permits sem hpc
    rcases htry : try_acquire_step sem pc with ⟨after, pc' | (_ | _)⟩
    · rw [htry] at hpermits hexchanges
      simp only [reserve_step, htry, Option.some.injEq, Prod.mk.injEq] at hstep
      obtain ⟨rfl, rfl⟩ := hstep
      refine ⟨hpermits, ?_⟩
      rintro _ ⟨⟩
      exact hexchanges pc' rfl
    · rw [htry] at hpermits
      cases left with
      | zero | succ left =>
        simp only [reserve_step, htry, Option.some.injEq, Prod.mk.injEq] at hstep
        obtain ⟨rfl, rfl⟩ := hstep
        refine ⟨hpermits, ?_⟩
        rintro _ ⟨⟩ ⟨⟩
    · rw [htry] at hpermits
      simp only [reserve_step, htry, Option.some.injEq, Prod.mk.injEq] at hstep
      obtain ⟨rfl, rfl⟩ := hstep
      exact ⟨hpermits, by intro pc hpc; cases hpc⟩
  | acquire pc =>
    simp only [reserve_step, Option.map_eq_some_iff, Prod.exists, Prod.mk.injEq] at hstep
    obtain ⟨after, progress, hacquire, rfl, rfl⟩ := hstep
    obtain ⟨hpermits, hexchanges⟩ := acquire_step_permits hpc hacquire
    obtain pc' | (_ | _) := progress
    · refine ⟨hpermits, ?_⟩
      rintro _ ⟨⟩
      exact hexchanges pc' rfl
    · exact ⟨hpermits, by intro pc hpc; cases hpc⟩
    · exact ⟨hpermits, by intro pc hpc; cases hpc⟩

theorem release_step_permits {pc : ReleasePc} {progress : Progress ReleasePc CallResult}
    (hstep : release_step N t choice sem pc = some (sem', progress)) :
    sem'.count.toNat + progress.elim ReleasePc.permits (fun _ => 0) ≤
      sem.count.toNat + pc.permits := by
  cases pc with
  | lock =>
    simp only [release_step] at hstep
    split at hstep
    · cases hstep
      exact Nat.le_refl _
    · cases hstep
    · cases hstep
      exact Nat.le_add_right _ _
  | fetch_add =>
    cases hstep
    simp only [Progress.elim_next, ReleasePc.permits, BitVec.toNat_add, Nat.add_zero]
    exact Nat.mod_le _ _
  | check prev =>
    simp only [release_step] at hstep
    split at hstep
    · cases hstep
      exact Nat.le_refl _
    · cases hstep
      exact Nat.le_refl _
  | notify =>
    simp only [release_step, Option.map_eq_some_iff] at hstep
    obtain ⟨cv, _, hstep⟩ := hstep
    cases hstep
    exact Nat.le_refl _
  | unlock =>
    cases hstep
    exact Nat.le_refl _

end permits

def ReservationPc.exchanges : ReservationPc → Option (BitVec 16)
  | .reserve pc => pc.exchanges
  | _ => none

def ReservationPc.permits : ReservationPc → Nat
  | .reserve pc => pc.permits
  | .release pc => pc.permits
  | _ => 0

/-- The program point as the queue sees it. -/
def ReservationPc.queue_pc : ReservationPc → QueuePc
  | .enqueue pc => .enqueue pc
  | .dequeue pc => .dequeue pc
  | _ => .idle

/-- Permits in the hands of a thread: for batches still to be enqueued, for
batches it enqueued, and inside its call of the semaphore. -/
def ReservationThread.permits_held (l : ReservationThread) : Nat :=
  l.reserved + l.queued.length + l.pc.permits

/-- A consumer that has claimed a position and not yet returned its batch. -/
def ReservationThread.claims (l : ReservationThread) : Nat :=
  match l.pc with
  | .dequeue (.clear _ _ _) => 1
  | _ => 0

/-- What a thread knows between its atomic steps, whatever the others do. -/
structure ReservationAt (N : Nat) (t : Tid) (s : ReservationShared Tid) (l : ReservationThread) :
    Prop where
  queue : QueueAt N t s.pipeline l.pc.queue_pc
  exchanges : l.pc.exchanges ≠ some 0#16
  reserved : ∀ pc, l.pc = .enqueue pc → 0 < l.reserved

/-- Everything a step can do, as far as the queue and the counts are concerned. -/
structure ReservationMove (N : Nat) (t : Tid) (s : ReservationShared Tid) (l : ReservationThread)
    (s' : ReservationShared Tid) (l' : ReservationThread) : Prop where
  queue : ∃ a, (∀ batch, a = .enqueue batch → s.pipeline.producer = none) ∧
    QueueMove N t s.pipeline a l.pc.queue_pc s'.pipeline l'.pc.queue_pc
  exchanges : l'.pc.exchanges ≠ some 0#16
  reserved : ∀ pc, l'.pc = .enqueue pc → 0 < l'.reserved
  permits : s'.pipeline.admission.count.toNat + l'.permits_held ≤
    s.pipeline.admission.count.toNat + l.permits_held
  queued : l'.queued.length + s'.pipeline.queue.returned.length +
      (s.pipeline.queue.enqueued.length + s.unreleased.length) =
    l.queued.length + s.pipeline.queue.returned.length +
      (s'.pipeline.queue.enqueued.length + s'.unreleased.length)
  returned : l'.claims + s'.pipeline.queue.returned.length + s.pipeline.queue.claimed.length =
    l.claims + s.pipeline.queue.returned.length + s'.pipeline.queue.claimed.length

section moves

variable {s : ReservationShared Tid} {reserved : Nat} {queued : List BatchPtr}
  {choice : SemChoice Tid} {r : ReservationShared Tid × ReservationThread}

omit [DecidableEq Tid] in
/-- A step of a semaphore call leaves the queue as it is. -/
theorem ReservationMove.of_semaphore {l l' : ReservationThread} (admission : PipelineAdmission Tid)
    (hpc : l.pc.queue_pc = .idle) (hpc' : l'.pc.queue_pc = .idle)
    (hqueued : l'.queued = l.queued) (hexchanges : l'.pc.exchanges ≠ some 0#16)
    (hpermits : admission.count.toNat + l'.permits_held ≤
      s.pipeline.admission.count.toNat + l.permits_held) :
    ReservationMove N t s l { s with pipeline := { s.pipeline with admission } } l' where
  queue := by
    refine ⟨.acquire, (by intro batch hact; cases hact), ?_⟩
    rw [hpc, hpc']
    exact .semaphore admission trivial trivial
  exchanges := hexchanges
  reserved := by
    intro pc h
    rw [h] at hpc'
    cases hpc'
  permits := hpermits
  queued := by rw [hqueued]
  returned := by
    have hnone : ∀ {m : ReservationThread}, m.pc.queue_pc = .idle → m.claims = 0 := by
      intro m hm
      unfold ReservationThread.claims
      split
      · rename_i h
        rw [h] at hm
        cases hm
      · rfl
    rw [hnone hpc, hnone hpc']

/-- Nothing is added to a history, and no permit moves. -/
structure Quiet (s : QueueShared Tid) (l : ReservationThread) (s' : QueueShared Tid)
    (l' : ReservationThread) : Prop where
  admission : s'.admission = s.admission
  enqueued : s'.queue.enqueued = s.queue.enqueued
  claimed : s'.queue.claimed = s.queue.claimed
  returned : s'.queue.returned = s.queue.returned
  reserved : l'.reserved = l.reserved
  queued : l'.queued = l.queued
  exchanges : l'.pc.exchanges = none
  permits : l'.pc.permits = l.pc.permits
  claims : l'.claims = l.claims

omit [DecidableEq Tid] in
theorem ReservationMove.of_quiet {l l' : ReservationThread} {pipeline : QueueShared Tid}
    {a : QueueAct Tid} (hone : ∀ batch, a = .enqueue batch → s.pipeline.producer = none)
    (hmove : QueueMove N t s.pipeline a l.pc.queue_pc pipeline l'.pc.queue_pc)
    (hreserved : ∀ pc, l'.pc = .enqueue pc → 0 < l'.reserved)
    (hquiet : Quiet s.pipeline l pipeline l') :
    ReservationMove N t s l { s with pipeline } l' where
  queue := ⟨a, hone, hmove⟩
  exchanges := by
    rw [hquiet.exchanges]
    exact (Option.some_ne_none _).symm
  reserved := hreserved
  permits := by
    simp only [ReservationThread.permits_held, hquiet.admission, hquiet.reserved, hquiet.queued,
      hquiet.permits, Nat.le_refl]
  queued := by
    simp only [hquiet.queued, hquiet.returned, hquiet.enqueued]
  returned := by
    simp only [hquiet.claims, hquiet.returned, hquiet.claimed]

omit [DecidableEq Tid] in
/-- A quiet step inside a call: only the call's start looks at the producer. -/
theorem ReservationMove.of_quiet_step {l l' : ReservationThread} {pipeline : QueueShared Tid}
    (choice : SemChoice Tid)
    (hmove : QueueMove N t s.pipeline (.step choice) l.pc.queue_pc pipeline l'.pc.queue_pc)
    (hreserved : ∀ pc, l'.pc = .enqueue pc → 0 < l'.reserved)
    (hquiet : Quiet s.pipeline l pipeline l') :
    ReservationMove N t s l { s with pipeline } l' := by
  refine .of_quiet ?_ hmove hreserved hquiet
  intro batch hact
  cases hact

theorem reserve_move {pc : ReservePc}
    (hl : ReservationAt N t s ⟨.reserve pc, reserved, queued⟩)
    (hstep : reservation_step N t (.step choice) s ⟨.reserve pc, reserved, queued⟩ = some r) :
    ReservationMove N t s ⟨.reserve pc, reserved, queued⟩ r.1 r.2 := by
  simp only [reservation_step, Option.map_eq_some_iff] at hstep
  obtain ⟨⟨admission, progress⟩, hreserve, rfl⟩ := hstep
  obtain ⟨hpermits, hexchanges⟩ := reserve_step_permits hl.exchanges hreserve
  obtain pc' | (_ | _) := progress
  · refine .of_semaphore admission rfl rfl rfl (hexchanges pc' rfl) ?_
    simp only [taken_by_reserve, ReservationThread.permits_held, ReservationPc.permits] at *
    omega
  · refine .of_semaphore admission rfl rfl rfl (Option.some_ne_none _).symm ?_
    simp only [taken_by_reserve, ReservationThread.permits_held, ReservationPc.permits] at *
    omega
  · refine .of_semaphore admission rfl rfl rfl (Option.some_ne_none _).symm ?_
    simp only [taken_by_reserve, ReservationThread.permits_held, ReservationPc.permits] at *
    omega

theorem release_call_move {pc : ReleasePc}
    (hstep : reservation_step N t (.step choice) s ⟨.release pc, reserved, queued⟩ = some r) :
    ReservationMove N t s ⟨.release pc, reserved, queued⟩ r.1 r.2 := by
  simp only [reservation_step, Option.map_eq_some_iff] at hstep
  obtain ⟨⟨admission, progress⟩, hrelease, rfl⟩ := hstep
  have hpermits := release_step_permits hrelease
  obtain pc' | result := progress
  · refine .of_semaphore admission rfl rfl rfl (Option.some_ne_none _).symm ?_
    simp only [Progress.elim_next, ReservationThread.permits_held, ReservationPc.permits] at *
    omega
  · refine .of_semaphore admission rfl rfl rfl (Option.some_ne_none _).symm ?_
    simp only [Progress.elim_done, ReservationThread.permits_held, ReservationPc.permits] at *
    omega

omit [DecidableEq Tid] in
/-- Publishing a batch turns a reservation into a permit for the batch. -/
theorem ReservationMove.published {batch : BatchPtr} {word : BitVec 64}
    (hword : word = s.pipeline.queue.head_tail + (1#64 <<< HeadTail.DEQUEUE_BITS))
    (hreserved : 0 < reserved) :
    ReservationMove N t s ⟨.enqueue (.publish batch), reserved, queued⟩
      { s with pipeline := { s.pipeline with
        queue := s.pipeline.queue.published word batch, producer := none } }
      ⟨.idle, reserved - 1, queued ++ [batch]⟩ where
  queue := ⟨.step {}, (by intro batch hact; cases hact), .publish hword⟩
  exchanges := (Option.some_ne_none _).symm
  reserved := by
    intro pc hpc
    cases hpc
  permits := by
    simp only [ReservationThread.permits_held, ReservationPc.permits, List.length_append,
      List.length_singleton]
    omega
  queued := by
    simp only [List.length_append, BatchQueue.published_enqueued, BatchQueue.published_returned,
      List.length_singleton]
    omega
  returned := by
    simp only [ReservationThread.claims, BatchQueue.published_returned,
      BatchQueue.published_claimed]

theorem enqueue_call_move {pc : EnqueuePc}
    (hl : ReservationAt N t s ⟨.enqueue pc, reserved, queued⟩)
    (hstep : reservation_step N t (.step choice) s ⟨.enqueue pc, reserved, queued⟩ = some r) :
    ReservationMove N t s ⟨.enqueue pc, reserved, queued⟩ r.1 r.2 := by
  have hreserved : 0 < reserved := hl.reserved pc rfl
  cases pc with
  | load batch =>
    rcases hunpack : HeadTail.unpack_unchecked s.pipeline.queue.head_tail with ⟨head, tail⟩
    by_cases hfull : tail + BitVec.ofNat 32 N = head
    · simp only [reservation_step, enqueue_step, hunpack, if_pos hfull] at hstep
      cases hstep
      exact .of_quiet_step choice .full (by intro pc hpc; cases hpc) (by constructor <;> rfl)
    · simp only [reservation_step, enqueue_step, hunpack, if_neg hfull] at hstep
      cases hstep
      exact .of_quiet_step choice (.load_head hunpack hfull) (fun _ _ => hreserved)
        (by constructor <;> rfl)
  | load_slot batch head =>
    cases hstep
    exact .of_quiet_step choice .load_slot (fun _ _ => hreserved) (by constructor <;> rfl)
  | store batch head =>
    cases hstep
    exact .of_quiet_step choice .store (fun _ _ => hreserved) (by constructor <;> rfl)
  | publish batch =>
    simp only [reservation_step, enqueue_step_publish, BatchQueue.published_enqueued,
      List.drop_left, Option.some.injEq] at hstep
    rw [← hstep]
    exact .published rfl hreserved

theorem dequeue_call_move {pc : DequeuePc}
    (hstep : reservation_step N t (.step choice) s ⟨.dequeue pc, reserved, queued⟩ = some r) :
    ReservationMove N t s ⟨.dequeue pc, reserved, queued⟩ r.1 r.2 := by
  cases pc with
  | load =>
    cases hstep
    exact .of_quiet_step choice .load (by intro pc hpc; cases hpc) (by constructor <;> rfl)
  | load_slot ht =>
    rcases hunpack : HeadTail.unpack_unchecked ht with ⟨head, tail⟩
    by_cases hempty : tail = head
    · simp only [reservation_step, dequeue_step, hunpack, if_pos hempty, Option.toList_none,
        List.append_nil] at hstep
      cases hstep
      exact .of_quiet_step choice (.give_up (by intro _ _ _ hpc; cases hpc))
        (by intro pc hpc; cases hpc) (by constructor <;> rfl)
    · rcases hslot : s.pipeline.queue.slots (slot_index N tail) with _ | batch
      · simp only [reservation_step, dequeue_step, hunpack, if_neg hempty, hslot,
          Option.toList_none, List.append_nil] at hstep
        cases hstep
        exact .of_quiet_step choice (.give_up (by intro _ _ _ hpc; cases hpc))
          (by intro pc hpc; cases hpc) (by constructor <;> rfl)
      · simp only [reservation_step, dequeue_step, hunpack, if_neg hempty, hslot] at hstep
        cases hstep
        exact .of_quiet_step choice (.read_slot hunpack hempty hslot) (by intro pc hpc; cases hpc)
          (by constructor <;> rfl)
  | is_applied ht batch =>
    by_cases happlied : s.pipeline.is_applied batch = true
    · simp only [reservation_step, dequeue_step, if_pos happlied] at hstep
      cases hstep
      exact .of_quiet_step choice (.saw_applied happlied) (by intro pc hpc; cases hpc)
        (by constructor <;> rfl)
    · simp only [reservation_step, dequeue_step, if_neg happlied, Option.toList_none,
        List.append_nil] at hstep
      cases hstep
      exact .of_quiet_step choice (.give_up (by intro _ _ _ hpc; cases hpc))
        (by intro pc hpc; cases hpc) (by constructor <;> rfl)
  | cas ht batch =>
    rcases hunpack : HeadTail.unpack_unchecked ht with ⟨head, tail⟩
    by_cases hcur : s.pipeline.queue.head_tail = ht
    · simp only [reservation_step, dequeue_step, hunpack, if_pos hcur] at hstep
      cases hstep
      subst hcur
      refine ⟨⟨.step choice, (by intro batch hact; cases hact), .claim hunpack⟩,
        (Option.some_ne_none _).symm, (by intro pc hpc; cases hpc), Nat.le_refl _, rfl, ?_⟩
      simp only [ReservationThread.claims, List.length_append, List.length_singleton]
      omega
    · simp only [reservation_step, dequeue_step, if_neg hcur] at hstep
      cases hstep
      exact .of_quiet_step choice .retry (by intro pc hpc; cases hpc) (by constructor <;> rfl)
  | clear position tail batch =>
    cases hstep
    refine ⟨⟨.step choice, (by intro batch hact; cases hact), .clear⟩,
      (Option.some_ne_none _).symm, (by intro pc hpc; cases hpc), Nat.le_refl _, ?_, ?_⟩
    · simp only [List.length_append, Option.toList_some, List.length_singleton]
      omega
    · simp only [ReservationThread.claims, List.length_append, List.length_singleton]
      omega

theorem reservation_step_move {a : ReservationAct Tid} {l : ReservationThread}
    (hG : space_reserved t a s l) (hl : ReservationAt N t s l)
    (hstep : reservation_step N t a s l = some r) : ReservationMove N t s l r.1 r.2 := by
  obtain ⟨pc, reserved, queued⟩ := l
  cases pc with
  | idle =>
    cases a with
    | reserve_space =>
      cases hstep
      exact .of_semaphore s.pipeline.admission rfl rfl rfl (Option.some_ne_none _).symm
        (Nat.le_refl _)
    | enqueue batch =>
      rcases hfree : s.pipeline.producer with _ | holder
      · simp only [reservation_step, hfree] at hstep
        cases hstep
        exact .of_quiet (a := .enqueue batch) (fun _ _ => hfree) (.start_enqueue batch)
          (fun _ _ => hG) (by constructor <;> rfl)
      · simp only [reservation_step, hfree] at hstep
        cases hstep
    | try_dequeue =>
      cases hstep
      exact .of_quiet (a := .try_dequeue) (by intro pc hpc; cases hpc) .start_dequeue
        (by intro pc hpc; cases hpc) (by constructor <;> rfl)
    | release_queue_space batch =>
      obtain ⟨hmem, hreturned⟩ : batch ∈ queued ∧ batch ∈ s.unreleased := hG
      have hlen := List.length_erase_of_mem hmem
      have hpos := List.length_pos_of_mem hmem
      have hlen' := List.length_erase_of_mem hreturned
      have hpos' := List.length_pos_of_mem hreturned
      cases hstep
      refine ⟨⟨.acquire, (by intro batch hact; cases hact),
        .semaphore s.pipeline.admission trivial trivial⟩, (Option.some_ne_none _).symm,
        (by intro pc hpc; cases hpc), ?_, ?_,
        by simp only [ReservationThread.claims]⟩
      · simp only [ReservationThread.permits_held, ReservationPc.permits, ReleasePc.permits, hlen]
        omega
      · simp only [hlen, hlen']
        omega
    | set_runtime_state batch state =>
      cases hstep
      exact .of_quiet (a := .set_runtime_state batch state) (by intro pc hpc; cases hpc)
        (.set_state batch state) (by intro pc hpc; cases hpc)
        (by constructor <;> rfl)
    | step choice => cases hstep
  | reserve pc =>
    cases a with
    | step choice => exact reserve_move hl hstep
    | _ => cases hstep
  | enqueue pc =>
    cases a with
    | step choice => exact enqueue_call_move hl hstep
    | _ => cases hstep
  | dequeue pc =>
    cases a with
    | step choice => exact dequeue_call_move hstep
    | _ => cases hstep
  | release pc =>
    cases a with
    | step choice => exact release_call_move hstep
    | _ => cases hstep

end moves

omit [DecidableEq Tid] in
theorem ReservationAt.frame {u : Tid} {s s' : ReservationShared Tid} {l : ReservationThread}
    (hne : u ≠ t) (hl : ReservationAt N u s l) (hframe : QueueFrame t s.pipeline s'.pipeline) :
    ReservationAt N u s' l :=
  ⟨hl.queue.frame hne hframe, hl.exchanges, hl.reserved⟩

def reservation_outline (N : Nat) :
    System.Outline Tid (ReservationShared Tid) ReservationThread where
  shared := fun s => QueueCounters N s.pipeline
  thread := ReservationAt N
  apart := fun _ _ => True

theorem reservation_outline_valid : System.Outline.trivial.ValidOver (reservation_outline N)
    (reservation_system Tid N) space_reserved where
  init_shared := ⟨HeadTail.counters_zero.symm, Nat.le_refl 0, List.prefix_rfl, Nat.zero_le _,
    Nat.zero_le _, fun _ => rfl⟩
  init_thread := fun _ => ⟨trivial, (Option.some_ne_none _).symm, by intro pc hpc; cases hpc⟩
  init_apart := trivial
  step_own := by
    intro t a s l r _ _ hs hl hG hstep
    have hmove := reservation_step_move hG hl hstep
    obtain ⟨b, hone, hqueue⟩ := hmove.queue
    obtain ⟨hs', hpc⟩ := hqueue.counters hone hs hl.queue
    exact ⟨hs', hpc, hmove.exchanges, hmove.reserved⟩
  step_other := by
    intro t u a s l m r hne _ hpair hG hstep
    obtain ⟨b, hone, hqueue⟩ := (reservation_step_move hG hpair.own hstep).queue
    exact ⟨ReservationAt.frame hne.symm hpair.other (hqueue.frame hone hpair.own.queue), trivial,
      trivial⟩

/-- The permits, the batches and the returns, counted over all threads: a
position that is not claimed yet is covered by a permit. -/
structure SpaceCensus [Fintype Tid] (N : Nat) (c : ReservationConfig Tid) : Prop where
  permits : c.shared.pipeline.admission.count.toNat +
    c.total ReservationThread.permits_held ≤ N
  queued : c.total (fun l => l.queued.length) + c.shared.pipeline.queue.returned.length =
    c.shared.pipeline.queue.enqueued.length + c.shared.unreleased.length
  returned : c.total ReservationThread.claims + c.shared.pipeline.queue.returned.length =
    c.shared.pipeline.queue.claimed.length

variable [Fintype Tid]

theorem SpaceCensus.move {c : ReservationConfig Tid} {r : ReservationShared Tid × ReservationThread}
    (hc : SpaceCensus N c) (hmove : ReservationMove N t c.shared (c.threads t) r.1 r.2) :
    SpaceCensus N (c.move t r) := by
  have hpermits := c.total_move ReservationThread.permits_held t r
  have hqueued := c.total_move (fun l => l.queued.length) t r
  have hreturned := c.total_move ReservationThread.claims t r
  constructor
  · have hstep := hmove.permits
    have hbefore := hc.permits
    simp only [Config.move_shared]
    omega
  · have hstep := hmove.queued
    have hbefore := hc.queued
    simp only [Config.move_shared]
    omega
  · have hstep := hmove.returned
    have hbefore := hc.returned
    simp only [Config.move_shared]
    omega

theorem space_census {c : ReservationConfig Tid}
    (hc : (reservation_system Tid N).ReachableUnder space_reserved c) : SpaceCensus N c := by
  refine System.ReachableUnder.induction (P := SpaceCensus N) ⟨?_, ?_, ?_⟩ ?_ hc
  · rw [System.total_init _ rfl]
    exact Nat.mod_le _ _
  · rw [System.total_init _ rfl]
    rfl
  · rw [System.total_init _ rfl]
    rfl
  · intro c t a r hreach hcensus hG hstep
    have houtline := reservation_outline_valid.holds_of_trivial hreach
    exact hcensus.move (reservation_step_move hG (houtline.thread t) hstep)

omit [DecidableEq Tid] in
/-- A thread inside `enqueue` holds a reservation on top of the permits that
cover the queued batches. -/
theorem SpaceCensus.queued_lt {c : ReservationConfig Tid} (hc : SpaceCensus N c)
    (hreserved : 0 < (c.threads t).reserved) : c.shared.pipeline.queue.queued.length < N := by
  have hsplit : c.total ReservationThread.permits_held =
      c.total (fun l => l.queued.length) + c.total (fun l => l.reserved + l.pc.permits) := by
    rw [← c.total_add]
    apply Finset.sum_congr rfl
    intro u _
    simp only [ReservationThread.permits_held]
    omega
  have hown := c.le_total (fun l => l.reserved + l.pc.permits) t
  have hpermits := hc.permits
  have hqueued := hc.queued
  have hreturned := hc.returned
  rw [BatchQueue.queued, List.length_drop]
  omega

/-- In every run in which space is reserved before each `enqueue` and released
only for a returned batch, `enqueue` finds room: its full test does not fire. -/
theorem reserved_space_suffices (hN : Capacity N) {c : ReservationConfig Tid}
    (hc : (reservation_system Tid N).ReachableUnder space_reserved c) {pc : EnqueuePc}
    (hpc : (c.threads t).pc = .enqueue pc) :
    c.shared.pipeline.queue.queued.length < N ∧
      (enqueue_step N c.shared.pipeline.queue pc).2 ≠ .done .panicked := by
  have houtline := reservation_outline_valid.holds_of_trivial hc
  have hroom := (space_census hc).queued_lt ((houtline.thread t).reserved pc hpc)
  refine ⟨hroom, ?_⟩
  cases pc with
  | load_slot | store | publish => rintro ⟨⟩
  | load batch =>
    have hcounters : QueueCounters N c.shared.pipeline := houtline.shared
    have hle := hcounters.claimed_le
    rcases hunpack : HeadTail.unpack_unchecked c.shared.pipeline.queue.head_tail with ⟨head, tail⟩
    have hnotfull : ¬ tail + BitVec.ofNat 32 N = head := by
      rw [hcounters.head_tail, HeadTail.counters, HeadTail.unpack_unchecked_pack] at hunpack
      obtain ⟨rfl, rfl⟩ := Prod.mk.inj hunpack
      intro hfull
      have hmod := congrArg BitVec.toNat hfull
      have hmax := hN.le_max
      rw [BatchQueue.queued, List.length_drop] at hroom
      simp only [BitVec.toNat_add, BitVec.toNat_ofNat] at hmod
      omega
    simp only [enqueue_step, hunpack, if_neg hnotfull]
    rintro ⟨⟩

/-- Two threads fill a queue of capacity two. One of them returns the older batch,
whose owner releases its space, reserves again and is about to enqueue. -/
def reuse_schedule : List (Bool × ReservationAct Bool) :=
  let steps (t : Bool) (n : Nat) : List (Bool × ReservationAct Bool) :=
    List.replicate n (t, .step {})
  (false, .reserve_space) :: steps false 2 ++ (true, .reserve_space) :: steps true 2 ++
    (false, .enqueue 10) :: steps false 4 ++ (true, .enqueue 11) :: steps true 4 ++
    [(false, .set_runtime_state 10 .Applied), (false, .set_runtime_state 11 .Applied)] ++
    (true, .try_dequeue) :: steps true 5 ++ (false, .release_queue_space 10) :: steps false 5 ++
    (false, .reserve_space) :: steps false 2 ++ [(false, .enqueue 12)]

theorem reserved_space_suffices_reuse : ∃ c : ReservationConfig Bool,
    (c.threads false).pc = .enqueue (.load 12) ∧ c.shared.pipeline.queue.queued = [11] ∧
      c.shared.pipeline.queue.queued.length < 2 ∧
      (enqueue_step 2 c.shared.pipeline.queue (.load 12)).2 ≠ .done .panicked := by
  obtain ⟨c, hc, hseen⟩ := System.reachable_showing (reservation_system Bool 2) space_reserved
    reuse_schedule (fun c => ((c.threads false).pc, c.shared.pipeline.queue.queued))
    (.enqueue (.load 12), [11]) (by decide +kernel)
  obtain ⟨hpc, hqueued⟩ := Prod.mk.inj hseen
  exact ⟨c, hpc, hqueued, reserved_space_suffices Capacity.two hc hpc⟩

end ordinum.write_pipeline
