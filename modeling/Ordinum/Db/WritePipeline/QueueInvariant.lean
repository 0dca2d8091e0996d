import Mathlib.Data.List.Basic
import Ordinum.Db.WritePipeline.QueueSystem

open interleaving
open ordinum.batch

namespace ordinum.write_pipeline

variable {Tid : Type} {N : Nat}

/-- Program points at which a thread runs the semaphore or nothing. -/
def QueuePc.quiet : QueuePc → Prop
  | .idle | .acquire _ | .release _ => True
  | .enqueue _ | .dequeue _ => False

/-- Everything a step can do, as far as the queue and the runtime states are
concerned. -/
inductive QueueMove (N : Nat) (t : Tid) (s : QueueShared Tid) :
    QueueAct Tid → QueuePc → QueueShared Tid → QueuePc → Prop
  | start_enqueue (batch : BatchPtr) :
    QueueMove N t s (.enqueue batch) .idle { s with producer := some t } (.enqueue (.load batch))
  | load_head {choice : SemChoice Tid} {batch : BatchPtr} {head tail : BitVec 32}
    (hunpack : HeadTail.unpack_unchecked s.queue.head_tail = (head, tail))
    (hroom : tail + BitVec.ofNat 32 N ≠ head) :
    QueueMove N t s (.step choice) (.enqueue (.load batch)) s (.enqueue (.load_slot batch head))
  | full {choice : SemChoice Tid} {batch : BatchPtr} :
    QueueMove N t s (.step choice) (.enqueue (.load batch)) { s with producer := none } .idle
  | load_slot {choice : SemChoice Tid} {batch : BatchPtr} {head : BitVec 32} :
    QueueMove N t s (.step choice) (.enqueue (.load_slot batch head)) s
      (.enqueue (.store batch head))
  | store {choice : SemChoice Tid} {batch : BatchPtr} {head : BitVec 32} :
    QueueMove N t s (.step choice) (.enqueue (.store batch head))
      { s with queue := { s.queue with
        slots := Function.update s.queue.slots (slot_index N head) (some batch)
        stored := s.queue.stored ++ [batch] } } (.enqueue (.publish batch))
  | publish {choice : SemChoice Tid} {batch : BatchPtr} {head_tail : BitVec 64}
    (hword : head_tail = s.queue.head_tail + (1#64 <<< HeadTail.DEQUEUE_BITS)) :
    QueueMove N t s (.step choice) (.enqueue (.publish batch))
      { s with queue := s.queue.published head_tail batch, producer := none } .idle
  | start_dequeue : QueueMove N t s .try_dequeue .idle s (.dequeue .load)
  | load {choice : SemChoice Tid} :
    QueueMove N t s (.step choice) (.dequeue .load) s (.dequeue (.load_slot s.queue.head_tail))
  | read_slot {choice : SemChoice Tid} {ht : BitVec 64} {head tail : BitVec 32} {batch : BatchPtr}
    (hunpack : HeadTail.unpack_unchecked ht = (head, tail)) (hne : tail ≠ head)
    (hslot : s.queue.slots (slot_index N tail) = some batch) :
    QueueMove N t s (.step choice) (.dequeue (.load_slot ht)) s (.dequeue (.is_applied ht batch))
  | saw_applied {choice : SemChoice Tid} {ht : BitVec 64} {batch : BatchPtr}
    (happlied : s.is_applied batch = true) :
    QueueMove N t s (.step choice) (.dequeue (.is_applied ht batch)) s (.dequeue (.cas ht batch))
  | give_up {choice : SemChoice Tid} {pc : DequeuePc} (hpc : ∀ position tail batch,
    pc ≠ .clear position tail batch) : QueueMove N t s (.step choice) (.dequeue pc) s .idle
  | claim {choice : SemChoice Tid} {head tail : BitVec 32} {batch : BatchPtr}
    (hunpack : HeadTail.unpack_unchecked s.queue.head_tail = (head, tail)) :
    QueueMove N t s (.step choice) (.dequeue (.cas s.queue.head_tail batch))
      { s with queue := { s.queue with
        head_tail := (HeadTail.pack head (tail + 1#32)).raw
        claimed := s.queue.claimed ++ [(batch, s.is_applied batch)] } }
      (.dequeue (.clear s.queue.claimed.length tail batch))
  | retry {choice : SemChoice Tid} {ht : BitVec 64} {batch : BatchPtr} :
    QueueMove N t s (.step choice) (.dequeue (.cas ht batch)) s
      (.dequeue (.load_slot s.queue.head_tail))
  | clear {choice : SemChoice Tid} {position : Nat} {tail : BitVec 32} {batch : BatchPtr} :
    QueueMove N t s (.step choice) (.dequeue (.clear position tail batch))
      { s with queue := { s.queue with
        slots := Function.update s.queue.slots (slot_index N tail) none
        returned := s.queue.returned ++ [(position, batch)] } } .idle
  | set_state (batch : BatchPtr) (state : BatchRuntimeState) :
    QueueMove N t s (.set_runtime_state batch state) .idle
      { s with runtime_commit_state := Function.update s.runtime_commit_state batch state } .idle
  | semaphore {a : QueueAct Tid} {pc pc' : QueuePc} (admission : PipelineAdmission Tid)
    (hpc : pc.quiet) (hpc' : pc'.quiet) : QueueMove N t s a pc { s with admission } pc'

section moves

variable [DecidableEq Tid] {t : Tid} {s : QueueShared Tid} {permit : Permit}
  {r : QueueShared Tid × QueueThread}

theorem enqueue_move {pc : EnqueuePc} {choice : SemChoice Tid}
    (hstep : queue_step N t (.step choice) s { pc := .enqueue pc, permit } = some r) :
    QueueMove N t s (.step choice) (.enqueue pc) r.1 r.2.pc := by
  cases pc with
  | load batch =>
    rcases hunpack : HeadTail.unpack_unchecked s.queue.head_tail with ⟨head, tail⟩
    by_cases hfull : tail + BitVec.ofNat 32 N = head
    · simp only [queue_step, enqueue_step, hunpack, if_pos hfull] at hstep
      cases hstep
      exact .full
    · simp only [queue_step, enqueue_step, hunpack, if_neg hfull] at hstep
      cases hstep
      exact .load_head hunpack hfull
  | load_slot batch head =>
    cases hstep
    exact .load_slot
  | store batch head =>
    cases hstep
    exact .store
  | publish batch =>
    simp only [queue_step, enqueue_step_publish, Option.some.injEq] at hstep
    rw [← hstep]
    exact .publish rfl

theorem dequeue_move {pc : DequeuePc} {choice : SemChoice Tid}
    (hstep : queue_step N t (.step choice) s { pc := .dequeue pc, permit } = some r) :
    QueueMove N t s (.step choice) (.dequeue pc) r.1 r.2.pc := by
  cases pc with
  | load =>
    cases hstep
    exact .load
  | load_slot ht =>
    rcases hunpack : HeadTail.unpack_unchecked ht with ⟨head, tail⟩
    by_cases hempty : tail = head
    · simp only [queue_step, dequeue_step, hunpack, if_pos hempty] at hstep
      cases hstep
      exact .give_up nofun
    · rcases hslot : s.queue.slots (slot_index N tail) with _ | batch
      · simp only [queue_step, dequeue_step, hunpack, if_neg hempty, hslot] at hstep
        cases hstep
        exact .give_up nofun
      · simp only [queue_step, dequeue_step, hunpack, if_neg hempty, hslot] at hstep
        cases hstep
        exact .read_slot hunpack hempty hslot
  | is_applied ht batch =>
    by_cases happlied : s.is_applied batch = true
    · simp only [queue_step, dequeue_step, if_pos happlied] at hstep
      cases hstep
      exact .saw_applied happlied
    · simp only [queue_step, dequeue_step, if_neg happlied] at hstep
      cases hstep
      exact .give_up nofun
  | cas ht batch =>
    rcases hunpack : HeadTail.unpack_unchecked ht with ⟨head, tail⟩
    by_cases hcur : s.queue.head_tail = ht
    · simp only [queue_step, dequeue_step, hunpack, if_pos hcur] at hstep
      cases hstep
      subst hcur
      exact .claim hunpack
    · simp only [queue_step, dequeue_step, if_neg hcur] at hstep
      cases hstep
      exact .retry
  | clear position tail batch =>
    cases hstep
    exact .clear

theorem queue_step_move {a : QueueAct Tid} {l : QueueThread}
    (hstep : queue_step N t a s l = some r) : QueueMove N t s a l.pc r.1 r.2.pc := by
  obtain ⟨pc, permit⟩ := l
  cases pc with
  | idle =>
    cases a with
    | enqueue batch =>
      cases hstep
      exact .start_enqueue batch
    | try_dequeue =>
      cases hstep
      exact .start_dequeue
    | acquire | release =>
      cases hstep
      exact .semaphore s.admission trivial trivial
    | set_runtime_state batch state =>
      cases hstep
      exact .set_state batch state
    | step choice => cases hstep
  | enqueue pc =>
    cases a with
    | step choice => exact enqueue_move hstep
    | _ => cases hstep
  | dequeue pc =>
    cases a with
    | step choice => exact dequeue_move hstep
    | _ => cases hstep
  | acquire pc | release pc =>
    cases a with
    | step choice =>
      simp only [queue_step, Option.map_eq_some_iff] at hstep
      obtain ⟨⟨admission, progress⟩, _, rfl⟩ := hstep
      rcases progress with pc' | (_ | _) <;> exact .semaphore _ trivial trivial
    | _ => cases hstep

end moves

/-- The counters against the history, and the room that the full test leaves. -/
structure QueueCounters (N : Nat) (s : QueueShared Tid) : Prop where
  head_tail : s.queue.head_tail =
    HeadTail.counters s.queue.enqueued.length s.queue.claimed.length
  claimed_le : s.queue.claimed.length ≤ s.queue.enqueued.length
  stored_prefix : s.queue.enqueued <+: s.queue.stored
  stored_le : s.queue.stored.length ≤ s.queue.enqueued.length + 1
  room : s.queue.stored.length ≤ s.queue.claimed.length + N
  settled : s.producer = none → s.queue.stored = s.queue.enqueued

/-- What the producer knows between its atomic steps. -/
def EnqueueAt (N : Nat) (t : Tid) (s : QueueShared Tid) : EnqueuePc → Prop
  | .load _ => s.producer = some t ∧ s.queue.stored = s.queue.enqueued
  | .load_slot _ head | .store _ head =>
    s.producer = some t ∧ s.queue.stored = s.queue.enqueued ∧
      head = BitVec.ofNat 32 s.queue.enqueued.length ∧
      s.queue.stored.length < s.queue.claimed.length + N
  | .publish batch => s.producer = some t ∧ s.queue.stored = s.queue.enqueued ++ [batch]

/-- What a consumer knows between its atomic steps, whatever the others do. -/
def DequeueAt (s : QueueShared Tid) : DequeuePc → Prop
  | .load | .load_slot _ => True
  | .is_applied ht _ | .cas ht _ =>
    (HeadTail.unpack_unchecked ht).2 ≠ (HeadTail.unpack_unchecked ht).1
  | .clear position tail _ =>
    position < s.queue.claimed.length ∧ tail = BitVec.ofNat 32 position

def QueueAt (N : Nat) (t : Tid) (s : QueueShared Tid) : QueuePc → Prop
  | .enqueue pc => EnqueueAt N t s pc
  | .dequeue pc => DequeueAt s pc
  | _ => True

def counters_outline (N : Nat) : System.Outline Tid (QueueShared Tid) QueueThread where
  shared := QueueCounters N
  thread := fun t s l => QueueAt N t s l.pc
  apart := fun _ _ => True

theorem QueueAt.of_quiet {t : Tid} {s : QueueShared Tid} {pc : QueuePc} (hpc : pc.quiet) :
    QueueAt N t s pc := by
  cases pc <;> trivial

/-- The room left when the full test passes: `head` is not `N` ahead of the
tail that was read with it. -/
theorem QueueCounters.room_of_not_full {s : QueueShared Tid} (hs : QueueCounters N s)
    (hstored : s.queue.stored = s.queue.enqueued)
    (hfull : ¬ (HeadTail.unpack_unchecked s.queue.head_tail).2 + BitVec.ofNat 32 N =
      (HeadTail.unpack_unchecked s.queue.head_tail).1) :
    s.queue.stored.length < s.queue.claimed.length + N := by
  have hroom := hs.room
  rw [hs.head_tail, HeadTail.counters, HeadTail.unpack_unchecked_pack] at hfull
  by_contra hnot
  apply hfull
  rw [hstored] at hroom hnot
  apply BitVec.eq_of_toNat_eq
  have hlen : s.queue.enqueued.length = s.queue.claimed.length + N := by omega
  simp [hlen, BitVec.toNat_add]

/-- A consumer whose snapshot is current is at a nonempty queue. -/
theorem QueueCounters.claimed_lt {s : QueueShared Tid} (hs : QueueCounters N s)
    {ht : BitVec 64} (hcur : s.queue.head_tail = ht)
    (hne : (HeadTail.unpack_unchecked ht).2 ≠ (HeadTail.unpack_unchecked ht).1) :
    s.queue.claimed.length < s.queue.enqueued.length := by
  have hle := hs.claimed_le
  rw [← hcur, hs.head_tail, HeadTail.counters, HeadTail.unpack_unchecked_pack] at hne
  obtain hlt | heq := Nat.lt_or_eq_of_le hle
  · exact hlt
  · exact absurd (by rw [heq]) hne

/-- Publishing the stored batch advances the head and nothing else. -/
theorem QueueCounters.published {s : QueueShared Tid} {batch : BatchPtr}
    {head_tail : BitVec 64} (hs : QueueCounters N s)
    (hstored : s.queue.stored = s.queue.enqueued ++ [batch])
    (hword : head_tail = s.queue.head_tail + (1#64 <<< HeadTail.DEQUEUE_BITS)) :
    QueueCounters N { s with queue := s.queue.published head_tail batch, producer := none } := by
  have hle := hs.claimed_le
  constructor
  · simp only [BatchQueue.published_head_tail, BatchQueue.published_enqueued,
      BatchQueue.published_claimed, List.length_append, List.length_singleton, hword, hs.head_tail,
      HeadTail.counters_add_head]
  · simp only [BatchQueue.published_enqueued, BatchQueue.published_claimed, List.length_append]
    omega
  · simp only [BatchQueue.published_enqueued, BatchQueue.published_stored, hstored, List.prefix_rfl]
  · simp only [BatchQueue.published_enqueued, BatchQueue.published_stored, hstored, Nat.le_succ]
  · exact hs.room
  · intro _
    simp only [BatchQueue.published_enqueued, BatchQueue.published_stored, hstored]

/-- A claim advances the tail by one, because the exchanged word is the current
one. -/
theorem QueueCounters.claim {s : QueueShared Tid} {head tail : BitVec 32} {batch : BatchPtr}
    {applied : Bool} (hs : QueueCounters N s)
    (hunpack : HeadTail.unpack_unchecked s.queue.head_tail = (head, tail))
    (hne : (HeadTail.unpack_unchecked s.queue.head_tail).2 ≠
      (HeadTail.unpack_unchecked s.queue.head_tail).1) :
    tail = BitVec.ofNat 32 s.queue.claimed.length ∧
      QueueCounters N { s with queue := { s.queue with
        head_tail := (HeadTail.pack head (tail + 1#32)).raw
        claimed := s.queue.claimed ++ [(batch, applied)] } } := by
  have hlt := hs.claimed_lt rfl hne
  rw [hs.head_tail, HeadTail.counters, HeadTail.unpack_unchecked_pack] at hunpack
  obtain ⟨rfl, rfl⟩ := Prod.mk.inj hunpack
  refine ⟨rfl, ⟨?_, ?_, hs.stored_prefix, hs.stored_le, ?_, hs.settled⟩⟩
  · simp only [HeadTail.counters, List.length_append, List.length_singleton, BitVec.ofNat_add]
  · simp only [List.length_append, List.length_singleton]
    omega
  · have hroom := hs.room
    simp only [List.length_append, List.length_singleton]
    omega

/-- Every step keeps the counters and moves its thread on. -/
theorem QueueMove.counters {t : Tid} {a : QueueAct Tid} {s s' : QueueShared Tid}
    {pc pc' : QueuePc} (hmove : QueueMove N t s a pc s' pc')
    (hone : ∀ batch, a = .enqueue batch → s.producer = none) (hs : QueueCounters N s)
    (hpc : QueueAt N t s pc) : QueueCounters N s' ∧ QueueAt N t s' pc' := by
  cases hmove with
  | start_enqueue batch =>
    have hsettled := hs.settled (hone batch rfl)
    exact ⟨⟨hs.head_tail, hs.claimed_le, hs.stored_prefix, hs.stored_le, hs.room,
      fun h => by cases h⟩, rfl, hsettled⟩
  | load_head hunpack hroom =>
    obtain ⟨hproducer, hstored⟩ := hpc
    refine ⟨hs, hproducer, hstored, ?_, ?_⟩
    · rw [hs.head_tail, HeadTail.counters, HeadTail.unpack_unchecked_pack] at hunpack
      exact (Prod.mk.inj hunpack).1.symm
    · apply hs.room_of_not_full hstored
      rw [hunpack]
      exact hroom
  | full =>
    exact ⟨⟨hs.head_tail, hs.claimed_le, hs.stored_prefix, hs.stored_le, hs.room,
      fun _ => hpc.2⟩, trivial⟩
  | load_slot => exact ⟨hs, hpc⟩
  | store =>
    obtain ⟨hproducer, hstored, _, hroom⟩ := hpc
    refine ⟨⟨hs.head_tail, hs.claimed_le, ?_, ?_, ?_, ?_⟩, hproducer, ?_⟩
    · exact hs.stored_prefix.trans (List.prefix_append _ _)
    · simp [hstored]
    · simp only [List.length_append, List.length_singleton]
      omega
    · intro hnone
      rw [hproducer] at hnone
      cases hnone
    · simp [hstored]
  | publish hword => exact ⟨hs.published hpc.2 hword, trivial⟩
  | claim hunpack =>
    obtain ⟨htail, hclaimed⟩ := hs.claim hunpack hpc
    exact ⟨hclaimed, by simp, htail⟩
  | read_slot hunpack hne =>
    refine ⟨hs, ?_⟩
    simpa only [QueueAt, DequeueAt, hunpack] using hne
  | saw_applied => exact ⟨hs, hpc⟩
  | start_dequeue | load | retry | give_up => exact ⟨hs, trivial⟩
  | clear | set_state =>
    exact ⟨⟨hs.head_tail, hs.claimed_le, hs.stored_prefix, hs.stored_le, hs.room, hs.settled⟩,
      trivial⟩
  | semaphore _ _ hpc' =>
    exact ⟨⟨hs.head_tail, hs.claimed_le, hs.stored_prefix, hs.stored_le, hs.room, hs.settled⟩,
      .of_quiet hpc'⟩

/-- What a step leaves for the other threads: only the producer stores and
publishes, and claims only accumulate. -/
structure QueueFrame (t : Tid) (s s' : QueueShared Tid) : Prop where
  producer : ∀ u, u ≠ t → s.producer = some u → s'.producer = some u
  stored : ∀ u, u ≠ t → s.producer = some u → s'.queue.stored = s.queue.stored
  enqueued : ∀ u, u ≠ t → s.producer = some u → s'.queue.enqueued = s.queue.enqueued
  claimed : s.queue.claimed <+: s'.queue.claimed

theorem QueueFrame.of_enqueue {t : Tid} {s s' : QueueShared Tid} (hproducer : s.producer = some t)
    (hclaimed : s'.queue.claimed = s.queue.claimed) : QueueFrame t s s' := by
  have hother : ∀ u, u ≠ t → ¬ s.producer = some u := by
    intro u hne hu
    rw [hproducer] at hu
    exact hne (Option.some.inj hu).symm
  refine ⟨fun u hne hu => absurd hu (hother u hne), fun u hne hu => absurd hu (hother u hne),
    fun u hne hu => absurd hu (hother u hne), ?_⟩
  simp only [hclaimed, List.prefix_rfl]

theorem QueueAt.frame {t u : Tid} {s s' : QueueShared Tid} {pc : QueuePc} (hne : u ≠ t)
    (hpc : QueueAt N u s pc) (hframe : QueueFrame t s s') : QueueAt N u s' pc := by
  have hlen := hframe.claimed.length_le
  cases pc with
  | enqueue pc =>
    cases pc with
    | load batch =>
      obtain ⟨hproducer, hstored⟩ := hpc
      refine ⟨hframe.producer u hne hproducer, ?_⟩
      rw [hframe.stored u hne hproducer, hframe.enqueued u hne hproducer, hstored]
    | load_slot batch head | store batch head =>
      obtain ⟨hproducer, hstored, hhead, hroom⟩ := hpc
      refine ⟨hframe.producer u hne hproducer, ?_, ?_, ?_⟩
      · rw [hframe.stored u hne hproducer, hframe.enqueued u hne hproducer, hstored]
      · rw [hframe.enqueued u hne hproducer, hhead]
      · rw [hframe.stored u hne hproducer]
        omega
    | publish batch =>
      obtain ⟨hproducer, hstored⟩ := hpc
      refine ⟨hframe.producer u hne hproducer, ?_⟩
      rw [hframe.stored u hne hproducer, hframe.enqueued u hne hproducer, hstored]
  | dequeue pc =>
    cases pc with
    | clear position tail batch => exact ⟨hpc.1.trans_le hlen, hpc.2⟩
    | _ => exact hpc
  | _ => trivial

/-- Every step respects the frame of the other threads. -/
theorem QueueMove.frame {t : Tid} {a : QueueAct Tid} {s s' : QueueShared Tid} {pc pc' : QueuePc}
    (hmove : QueueMove N t s a pc s' pc') (hone : ∀ batch, a = .enqueue batch → s.producer = none)
    (hpc : QueueAt N t s pc) : QueueFrame t s s' := by
  cases hmove with
  | start_enqueue batch =>
    have hnone := hone batch rfl
    have habsurd : ∀ {u : Tid} {P : Prop}, s.producer = some u → P := by
      intro u P hu
      rw [hnone] at hu
      cases hu
    exact ⟨fun _ _ => habsurd, fun _ _ => habsurd, fun _ _ => habsurd, List.prefix_rfl⟩
  | load_head | full | load_slot | store | publish => exact .of_enqueue hpc.1 rfl
  | claim => exact ⟨fun _ _ h => h, fun _ _ _ => rfl, fun _ _ _ => rfl, List.prefix_append _ _⟩
  | start_dequeue | load | read_slot | saw_applied | give_up | retry | clear | set_state
  | semaphore =>
    exact ⟨fun _ _ h => h, fun _ _ _ => rfl, fun _ _ _ => rfl, List.prefix_rfl⟩

/-- The history only grows. -/
structure QueueGrows (s s' : QueueShared Tid) : Prop where
  stored : s.queue.stored <+: s'.queue.stored
  enqueued : s.queue.enqueued <+: s'.queue.enqueued
  claimed : s.queue.claimed <+: s'.queue.claimed

theorem QueueMove.grows {t : Tid} {a : QueueAct Tid} {s s' : QueueShared Tid} {pc pc' : QueuePc}
    (hmove : QueueMove N t s a pc s' pc') : QueueGrows s s' := by
  cases hmove with
  | store => exact ⟨List.prefix_append _ _, List.prefix_rfl, List.prefix_rfl⟩
  | publish => exact ⟨List.prefix_rfl, List.prefix_append _ _, List.prefix_rfl⟩
  | claim => exact ⟨List.prefix_rfl, List.prefix_rfl, List.prefix_append _ _⟩
  | _ => exact ⟨List.prefix_rfl, List.prefix_rfl, List.prefix_rfl⟩

theorem one_producer_enqueue {t : Tid} {a : QueueAct Tid} {s : QueueShared Tid} {l : QueueThread}
    (hone : one_producer t a s l) : ∀ batch, a = .enqueue batch → s.producer = none := by
  rintro batch rfl
  exact hone

/-- With one producer at a time the counters follow the history in every run. -/
theorem counters_outline_valid [DecidableEq Tid] {G : QueueCondition Tid}
    (hG : ∀ t a s l, G t a s l → one_producer t a s l) :
    System.Outline.trivial.ValidOver (counters_outline N) (queue_system Tid N) G where
  init_shared := ⟨HeadTail.counters_zero.symm, Nat.le_refl 0, List.prefix_rfl, Nat.zero_le _,
    Nat.zero_le _, fun _ => rfl⟩
  init_thread := fun _ => trivial
  init_apart := trivial
  step_own := by
    intro t a s l r _ _ hs hl hGs hstep
    exact (queue_step_move hstep).counters (one_producer_enqueue (hG _ _ _ _ hGs)) hs hl
  step_other := by
    intro t u a s l m r hne _ hpair hGs hstep
    have hframe :=
      (queue_step_move hstep).frame (one_producer_enqueue (hG _ _ _ _ hGs)) hpair.own
    exact ⟨QueueAt.frame hne.symm hpair.other hframe, trivial, trivial⟩

/-- The counters in every configuration reached with one producer at a time. -/
theorem counters_outline_holds [DecidableEq Tid] {G : QueueCondition Tid}
    (hG : ∀ t a s l, G t a s l → one_producer t a s l)
    {c : QueueConfig Tid}
    (hc : (queue_system Tid N).ReachableUnder G c) : (counters_outline N).Holds c :=
  (counters_outline_valid hG).holds_of_trivial hc

end ordinum.write_pipeline
