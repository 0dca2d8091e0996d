import Mathlib.Data.Fintype.Basic
import Ordinum.Db.WritePipeline.QueueInvariant
import Ordinum.Db.WritePipeline.ClaimOrder

open interleaving
open ordinum.batch

namespace ordinum.write_pipeline

/-- The queue with a history of what its consumers dereference: the batch that
each consumer has loaded from a slot and is about to read, the batches that a
`try_dequeue` returned and nobody enqueued since, and the reads of such a
batch. -/
structure ReaderShared (Tid : Type) where
  pipeline : QueueShared Tid
  reading : Tid → Option BatchPtr
  departed : BatchPtr → Bool
  stale_reads : List (Tid × BatchPtr)

/-- The batch whose runtime state the thread reads next. -/
def QueuePc.reads : QueuePc → Option BatchPtr
  | .dequeue (.is_applied _ batch) => some batch
  | _ => none

variable {Tid : Type} [DecidableEq Tid] {N : Nat}

/-- A batch departs when a `try_dequeue` returns it, until it is stored again. -/
def departed_after (departed : BatchPtr → Bool) : QueuePc → BatchPtr → Bool
  | .enqueue (.store batch _) => Function.update departed batch false
  | .dequeue (.clear _ _ batch) => Function.update departed batch true
  | _ => departed

/-- The history after the step of a thread from `pc` to `pc'`. -/
def ReaderShared.observe (t : Tid) (s : ReaderShared Tid) (pc : QueuePc)
    (pipeline : QueueShared Tid) (pc' : QueuePc) : ReaderShared Tid :=
  { pipeline
    reading := Function.update s.reading t pc'.reads
    departed := departed_after s.departed pc
    stale_reads := (pc.reads.filter s.departed).toList.map (t, ·) ++ s.stale_reads }

def reader_step (N : Nat) (t : Tid) (a : QueueAct Tid) (s : ReaderShared Tid) (l : QueueThread) :
    Option (ReaderShared Tid × QueueThread) :=
  (queue_step N t a s.pipeline l).map fun (pipeline, l') =>
    (s.observe t l.pc pipeline l'.pc, l')

def reader_system (Tid : Type) [DecidableEq Tid] (N : Nat) :
    System Tid (QueueAct Tid) (ReaderShared Tid) QueueThread where
  shared₀ :=
    { pipeline := (queue_system Tid N).shared₀
      reading := fun _ => none
      departed := fun _ => false
      stale_reads := [] }
  local₀ := (queue_system Tid N).local₀
  step := reader_step N

abbrev ReaderConfig (Tid : Type) := Config Tid (ReaderShared Tid) QueueThread

/-- A batch is returned while no other consumer is between its load of that
batch from a slot and its read of the runtime state, and while no other slot
holds the batch. -/
def returns_unread (N : Nat) : System.StepCondition Tid (QueueAct Tid) (ReaderShared Tid)
    QueueThread :=
  fun t _ s l =>
    match l.pc with
    | .dequeue (.clear _ tail batch) =>
      (∀ u, u ≠ t → s.reading u ≠ some batch) ∧
        ∀ i, i < N → i ≠ slot_index N tail → s.pipeline.queue.slots i ≠ some batch
    | _ => True

instance [Fintype Tid] (t : Tid) (a : QueueAct Tid) (s : ReaderShared Tid) (l : QueueThread) :
    Decidable (returns_unread N t a s l) :=
  match l with
  | ⟨.dequeue (.clear _ _ _), _⟩ => inferInstanceAs (Decidable (_ ∧ _))
  | ⟨.idle, _⟩ | ⟨.enqueue _, _⟩ | ⟨.dequeue .load, _⟩ | ⟨.dequeue (.load_slot _), _⟩
  | ⟨.dequeue (.is_applied _ _), _⟩ | ⟨.dequeue (.cas _ _), _⟩ | ⟨.acquire _, _⟩
  | ⟨.release _, _⟩ => .isTrue trivial

/-- No slot holds a departed batch, and nothing departed was read. -/
structure NothingStale (N : Nat) (s : ReaderShared Tid) : Prop where
  slots : ∀ i batch, i < N → s.pipeline.queue.slots i = some batch → s.departed batch = false
  stale_reads : s.stale_reads = []

/-- The history follows the thread, and what it is about to read is in the queue. -/
structure ReaderAt (t : Tid) (s : ReaderShared Tid) (l : QueueThread) : Prop where
  reading : s.reading t = l.pc.reads
  present : ∀ batch, l.pc.reads = some batch → s.departed batch = false

def reader_outline (N : Nat) : System.Outline Tid (ReaderShared Tid) QueueThread where
  shared := NothingStale N
  thread := ReaderAt
  apart := fun _ _ => True

section moves

variable {t : Tid} {a : QueueAct Tid} {s : ReaderShared Tid} {l l' : QueueThread}
  {pipeline : QueueShared Tid}

omit [DecidableEq Tid] in
/-- A thread that is about to read a batch reads it while it is in the queue. -/
theorem ReaderAt.reads_present (hl : ReaderAt t s l) : l.pc.reads.filter s.departed = none := by
  rw [Option.filter_eq_none_iff]
  intro batch hbatch
  simp [hl.present batch hbatch]

/-- A batch in the queue departs only when it is returned. -/
theorem departed_after_of_present {departed : BatchPtr → Bool} {pc : QueuePc} {batch : BatchPtr}
    (hpresent : departed batch = false)
    (hpc : ∀ position tail, pc ≠ .dequeue (.clear position tail batch)) :
    departed_after departed pc batch = false := by
  unfold departed_after
  split
  · rename_i stored _
    by_cases hbatch : batch = stored
    · rw [hbatch, Function.update_self]
    · rw [Function.update_of_ne hbatch, hpresent]
  · rename_i returned
    have hbatch : batch ≠ returned := by
      rintro rfl
      exact hpc _ _ rfl
    rw [Function.update_of_ne hbatch, hpresent]
  · exact hpresent

omit [DecidableEq Tid] in
/-- A batch in a slot after the step was there before, or was just stored. -/
theorem slots_present {pc pc' : QueuePc} (hmove : QueueMove N t s.pipeline a pc pipeline pc')
    (hs : NothingStale N s)
    (hother : ∀ position tail batch, pc = .dequeue (.clear position tail batch) →
      ∀ i, i < N → i ≠ slot_index N tail → s.pipeline.queue.slots i ≠ some batch)
    {i : Nat} {batch : BatchPtr} (hi : i < N) (hslot : pipeline.queue.slots i = some batch) :
    departed_after s.departed pc batch = false := by
  cases hmove with
  | @store _ stored head =>
    change Function.update s.pipeline.queue.slots (slot_index N head) (some stored) i = _ at hslot
    by_cases hidx : i = slot_index N head
    · rw [hidx, Function.update_self] at hslot
      cases hslot
      exact Function.update_self ..
    · rw [Function.update_of_ne hidx] at hslot
      exact departed_after_of_present (hs.slots i batch hi hslot) nofun
  | @clear _ position tail returned =>
    change Function.update s.pipeline.queue.slots (slot_index N tail) none i = _ at hslot
    have hidx : i ≠ slot_index N tail := by
      rintro rfl
      rw [Function.update_self] at hslot
      cases hslot
    rw [Function.update_of_ne hidx] at hslot
    apply departed_after_of_present (hs.slots i batch hi hslot)
    rintro _ _ ⟨⟩
    exact hother _ _ _ rfl i hi hidx hslot
  | give_up hpc =>
    apply departed_after_of_present (hs.slots i batch hi hslot)
    rintro _ _ ⟨⟩
    exact hpc _ _ _ rfl
  | semaphore _ hpc =>
    apply departed_after_of_present (hs.slots i batch hi hslot)
    rintro _ _ rfl
    exact hpc
  | _ => exact departed_after_of_present (hs.slots i batch hi hslot) nofun

omit [DecidableEq Tid] in
/-- A thread about to read a batch has just loaded it from its slot. -/
theorem read_from_slot {pc pc' : QueuePc} (hmove : QueueMove N t s.pipeline a pc pipeline pc')
    {batch : BatchPtr} (hreads : pc'.reads = some batch) :
    ∃ tail, pipeline.queue.slots (slot_index N tail) = some batch := by
  cases hmove with
  | read_slot _ _ hslot =>
    cases hreads
    exact ⟨_, hslot⟩
  | semaphore _ _ hpc' =>
    cases pc' with
    | enqueue | dequeue => exact hpc'.elim
    | _ => cases hreads
  | _ => cases hreads

end moves

theorem reader_outline_valid (hN : Capacity N) : System.Outline.trivial.ValidOver
    (reader_outline N) (reader_system Tid N) (returns_unread N) where
  init_shared := ⟨nofun, rfl⟩
  init_thread := fun _ => ⟨rfl, nofun⟩
  init_apart := trivial
  step_own := by
    intro t a s l r _ _ hs hl hG hstep
    obtain ⟨⟨pipeline, l'⟩, hqueue, rfl⟩ := Option.map_eq_some_iff.mp hstep
    have hmove := queue_step_move hqueue
    have hslots : ∀ i batch, i < N → pipeline.queue.slots i = some batch →
        departed_after s.departed l.pc batch = false := by
      intro i batch hi hslot
      refine slots_present hmove hs ?_ hi hslot
      intro position tail returned hpc
      simp only [returns_unread, hpc] at hG
      exact hG.2
    refine ⟨⟨hslots, ?_⟩, Function.update_self .., ?_⟩
    · change (l.pc.reads.filter s.departed).toList.map (t, ·) ++ s.stale_reads = []
      rw [hl.reads_present, hs.stale_reads]
      rfl
    · intro batch hreads
      obtain ⟨tail, hslot⟩ := read_from_slot hmove hreads
      exact hslots _ batch (slot_index_lt hN tail) hslot
  step_other := by
    intro t u a s l m r hne _ hpair hG hstep
    obtain ⟨⟨pipeline, l'⟩, hqueue, rfl⟩ := Option.map_eq_some_iff.mp hstep
    refine ⟨⟨?_, ?_⟩, trivial, trivial⟩
    · exact (Function.update_of_ne hne.symm ..).trans hpair.other.reading
    · intro batch hreads
      apply departed_after_of_present (hpair.other.present batch hreads)
      intro position tail hpc
      simp only [returns_unread, hpc] at hG
      exact hG.1 u hne.symm (hpair.other.reading.trans hreads)

/-- In every run in which batches are returned while no other consumer is about
to read them, no consumer reads a batch that has left the queue. -/
theorem no_stale_reads (hN : Capacity N) {c : ReaderConfig Tid}
    (hc : (reader_system Tid N).ReachableUnder (returns_unread N) c) :
    c.shared.stale_reads = [] :=
  ((reader_outline_valid hN).holds_of_trivial hc).shared.stale_reads

theorem clear_departs {t : Tid} {s : ReaderShared Tid} {l : QueueThread} {position : Nat}
    {tail : BitVec 32} {batch : BatchPtr} (hpc : l.pc = .dequeue (.clear position tail batch)) :
    ∃ r, reader_step N t (.step {}) s l = some r ∧ r.1.departed batch = true := by
  obtain ⟨pc, permit⟩ := l
  cases hpc
  exact ⟨_, rfl, Function.update_self ..⟩

theorem departed_read {u : Tid} {s : ReaderShared Tid} {l : QueueThread} {ht : BitVec 64}
    {batch : BatchPtr} (hpc : l.pc = .dequeue (.is_applied ht batch))
    (hdeparted : s.departed batch = true) :
    ∃ r, reader_step N u (.step {}) s l = some r ∧ (u, batch) ∈ r.1.stale_reads := by
  obtain ⟨pc, permit⟩ := l
  cases hpc
  refine ⟨_, rfl, ?_⟩
  change (u, batch) ∈ ((some batch).filter s.departed).toList.map (u, ·) ++ s.stale_reads
  simp [Option.filter, hdeparted]

/-- Conversely, a batch that is returned while another consumer is about to read
it is read after it has left, as soon as that consumer moves. -/
theorem returned_before_read {c : ReaderConfig Tid} {t u : Tid} {position : Nat}
    {tail : BitVec 32} {ht : BitVec 64} {batch : BatchPtr} (hne : u ≠ t)
    (hclear : (c.threads t).pc = .dequeue (.clear position tail batch))
    (hread : (c.threads u).pc = .dequeue (.is_applied ht batch)) :
    ∃ d, (reader_system Tid N).Steps c d ∧ (u, batch) ∈ d.shared.stale_reads := by
  obtain ⟨r, hr, hdeparted⟩ := clear_departs (N := N) (t := t) (s := c.shared) hclear
  rw [← c.move_threads_of_ne r hne] at hread
  obtain ⟨q, hq, hstale⟩ := departed_read (N := N) (u := u) hread hdeparted
  refine ⟨(c.move t r).move u q, ?_, hstale⟩
  exact .tail (.single ⟨t, .step {}, r, trivial, hr, rfl⟩) ⟨u, .step {}, q, trivial, hq, rfl⟩

/-- Two consumers load batch 10 from its slot; one of them returns it before the
other reads its runtime state. -/
def overtaken_consumer {Tid : Type} (t u : Tid) : List (Tid × QueueAct Tid) :=
  (t, .enqueue 10) :: steps_of t 4 ++ [(t, .set_runtime_state 10 .Applied)] ++
    (u, .try_dequeue) :: steps_of u 2 ++ (t, .try_dequeue) :: steps_of t 5 ++ steps_of u 1

theorem overtaken_consumer_reads_departed : ∃ c : ReaderConfig (Fin 2),
    (reader_system (Fin 2) 2).Reachable c ∧ ¬ c.shared.stale_reads = [] := by
  obtain ⟨c, hc, hseen⟩ := System.reachable_showing (reader_system (Fin 2) 2) System.anyStep
    (overtaken_consumer 0 1) (fun c => c.shared.stale_reads) [(1, 10)] (by decide +kernel)
  exact ⟨c, hc, by rw [hseen]; exact List.cons_ne_nil _ _⟩

/-- Two consumers race for a batch that both have read before it is returned. -/
def read_in_time {Tid : Type} (t u : Tid) : List (Tid × QueueAct Tid) :=
  (t, .enqueue 10) :: steps_of t 4 ++ [(t, .set_runtime_state 10 .Applied)] ++
    (u, .try_dequeue) :: steps_of u 3 ++ (t, .try_dequeue) :: steps_of t 5 ++ steps_of u 1

theorem no_stale_reads_race : ∃ c : ReaderConfig (Fin 2),
    c.shared.pipeline.queue.returned = [(0, 10)] ∧ c.shared.stale_reads = [] := by
  obtain ⟨c, hc, hseen⟩ := System.reachable_showing (reader_system (Fin 2) 2) (returns_unread 2)
    (read_in_time 0 1) (fun c => c.shared.pipeline.queue.returned) [(0, 10)] (by decide +kernel)
  exact ⟨c, hseen, no_stale_reads Capacity.two hc⟩

end ordinum.write_pipeline
