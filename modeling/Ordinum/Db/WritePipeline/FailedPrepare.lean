import Ordinum.Db.WritePipeline.Fifo
import Ordinum.Db.WritePipeline.Prepare

open interleaving
open ordinum.batch
open refinement

namespace ordinum.write_pipeline

variable {Tid : Type} {N : Nat} {overflow_checks : Bool} {t : Tid}

/-- `prepare` with no other thread moving; `env_ok` is the answer of
`WriterEnv::prepare_commit`. -/
def prepare_call (N : Nat) (overflow_checks : Bool) (t : Tid) (s : PipelineShared Tid)
    (batch : BatchPtr) (env_ok : Bool) : Option (PipelineShared Tid × PrepareResult) :=
  run_unblocked (prepare_step N overflow_checks t batch env_ok) 10 s .lock

/-- What a caller that gets an error back may rely on. -/
structure RolledBack (N : Nat) (s s' : PipelineShared Tid) (batch : BatchPtr) : Prop where
  in_no_slot : ∀ i, i < N → s'.queue.slots i ≠ some batch
  same_slots : s'.queue.slots = s.queue.slots
  same_counters : s'.queue.head_tail = s.queue.head_tail
  reset_safe : (s'.batches batch).runtime_commit_state.is_reset_safe = true

/-- The full test of `enqueue` passed at `head`. -/
def RoomAt (N : Nat) (q : BatchQueue) (head : BitVec 32) : Prop :=
  ∃ tail, HeadTail.unpack_unchecked q.head_tail = (head, tail) ∧ tail + BitVec.ofNat 32 N ≠ head

/-- The batch was stored at the head; in `q'` it is published as well. -/
structure StoredAt (N : Nat) (q q' : BatchQueue) (head : BitVec 32) (batch : BatchPtr) : Prop where
  room : RoomAt N q head
  slots : q'.slots = Function.update q.slots (slot_index N head) (some batch)

/-- The batch was enqueued and marked `InQueue`; the other batches are as they
were. -/
structure Enqueued (N : Nat) (s s' : PipelineShared Tid) (batch : BatchPtr) : Prop where
  stored : ∃ head, StoredAt N s.queue s'.queue head batch
  head_tail : s'.queue.head_tail = s.queue.head_tail + (1#64 <<< HeadTail.DEQUEUE_BITS)
  in_queue : (s'.batches batch).runtime_commit_state = .InQueue
  others : ∀ other, other ≠ batch → s'.batches other = s.batches other

/-- Nothing that the queue or the owners see has changed. -/
structure Untouched (s s' : PipelineShared Tid) : Prop where
  queue : s'.queue = s.queue
  batches : s'.batches = s.batches

/-- What holds at the program points of `prepare(batch)` called in `s₀`. -/
def PrepareAlone (N : Nat) (s₀ : PipelineShared Tid) (batch : BatchPtr) (env_ok : Bool)
    (s : PipelineShared Tid) : PreparePc → Prop
  | .lock => Untouched s₀ s
  | .enqueue (.load b) => Untouched s₀ s ∧ b = batch
  | .enqueue (.load_slot b head) | .enqueue (.store b head) =>
    Untouched s₀ s ∧ b = batch ∧ RoomAt N s₀.queue head
  | .enqueue (.publish b) => s.batches = s₀.batches ∧ b = batch ∧
      s.queue.head_tail = s₀.queue.head_tail ∧ ∃ head, StoredAt N s₀.queue s.queue head batch
  | .set_in_queue => s.batches = s₀.batches ∧
      s.queue.head_tail = s₀.queue.head_tail + (1#64 <<< HeadTail.DEQUEUE_BITS) ∧
      ∃ head, StoredAt N s₀.queue s.queue head batch
  | .fetch_add | .assign _ | .prepare_commit => Enqueued N s₀ s batch
  | .unlock result => Enqueued N s₀ s batch ∧ (result = .error → env_ok = false)
  | .unwind => Untouched s₀ s ∨ Enqueued N s₀ s batch

/-- How a call of `prepare` ends: it has enqueued the batch, whatever it returns,
or it has panicked before it touched the queue. -/
def PrepareEnd (N : Nat) (s₀ : PipelineShared Tid) (batch : BatchPtr) (env_ok : Bool)
    (s : PipelineShared Tid) (result : PrepareResult) : Prop :=
  (result = .panicked ∧ Untouched s₀ s) ∨
    (Enqueued N s₀ s batch ∧ (result = .error → env_ok = false))

theorem assign_seq_num_once_state {inner inner' : BatchInner} {seq_num : BitVec 64}
    (hassign : inner.assign_seq_num_once seq_num = some inner') :
    inner'.runtime_commit_state = inner.runtime_commit_state := by
  unfold BatchInner.assign_seq_num_once at hassign
  split at hassign
  · obtain ⟨data, _, rfl⟩ := Option.map_eq_some_iff.mp hassign
    rfl
  · cases hassign

section steps

variable {s₀ s s' : PipelineShared Tid} {batch : BatchPtr} {env_ok : Bool}

theorem Enqueued.stamped (h : Enqueued N s₀ s batch) {inner : BatchInner}
    (hstate : inner.runtime_commit_state = (s.batches batch).runtime_commit_state) :
    Enqueued N s₀ (s.with_batch batch inner) batch where
  stored := h.stored
  head_tail := h.head_tail
  in_queue := by
    rw [PipelineShared.with_batch_self, hstate, h.in_queue]
  others := fun other hne => by
    rw [PipelineShared.with_batch_of_ne _ _ hne, h.others other hne]

theorem prepare_enqueue_step {pc : EnqueuePc} {progress : Progress PreparePc PrepareResult}
    (hpc : PrepareAlone N s₀ batch env_ok s (.enqueue pc))
    (hstep : prepare_step N overflow_checks t batch env_ok s (.enqueue pc) =
      some (s', progress)) :
    progress.elim (PrepareAlone N s₀ batch env_ok s') (PrepareEnd N s₀ batch env_ok s') := by
  cases pc with
  | load b =>
    obtain ⟨hsame, rfl⟩ := hpc
    rcases hunpack : HeadTail.unpack_unchecked s.queue.head_tail with ⟨head, tail⟩
    by_cases hfull : tail + BitVec.ofNat 32 N = head
    · simp only [prepare_step, enqueue_step, hunpack, if_pos hfull] at hstep
      cases hstep
      exact .inl hsame
    · simp only [prepare_step, enqueue_step, hunpack, if_neg hfull] at hstep
      cases hstep
      rw [hsame.queue] at hunpack
      exact ⟨hsame, rfl, tail, hunpack, hfull⟩
  | load_slot b head =>
    cases hstep
    exact hpc
  | store b head =>
    obtain ⟨hsame, rfl, hroom⟩ := hpc
    cases hstep
    refine ⟨hsame.batches, rfl, ?_, head, hroom, ?_⟩
    · rw [← hsame.queue]
    · rw [← hsame.queue]
  | publish b =>
    obtain ⟨hbatches, rfl, hword, head, hroom, hslots⟩ := hpc
    simp only [prepare_step, enqueue_step_publish, Option.some.injEq, Prod.mk.injEq] at hstep
    obtain ⟨rfl, rfl⟩ := hstep
    refine ⟨hbatches, ?_, head, hroom, ?_⟩
    · rw [BatchQueue.published_head_tail, hword]
    · rw [BatchQueue.published_slots, hslots]

theorem prepare_step_keeps {pc : PreparePc} {progress : Progress PreparePc PrepareResult}
    (hpc : PrepareAlone N s₀ batch env_ok s pc)
    (hstep : prepare_step N overflow_checks t batch env_ok s pc = some (s', progress)) :
    progress.elim (PrepareAlone N s₀ batch env_ok s') (PrepareEnd N s₀ batch env_ok s') := by
  cases pc with
  | lock =>
    rcases hmu : s.q_mu with _ | owner | _
    · simp only [prepare_step, hmu] at hstep
      cases hstep
      exact ⟨⟨hpc.queue, hpc.batches⟩, rfl⟩
    · simp only [prepare_step, hmu, reduceCtorEq] at hstep
    · simp only [prepare_step, hmu] at hstep
      cases hstep
      exact .inl ⟨rfl, hpc⟩
  | enqueue pc => exact prepare_enqueue_step hpc hstep
  | set_in_queue =>
    obtain ⟨hbatches, hword, hstored⟩ := hpc
    cases hstep
    refine ⟨hstored, hword, ?_, fun other hne => ?_⟩
    · rw [PipelineShared.with_batch_self]
      rfl
    · rw [PipelineShared.with_batch_of_ne _ _ hne, hbatches]
  | fetch_add =>
    cases hstep
    split
    · exact .inr ⟨hpc.stored, hpc.head_tail, hpc.in_queue, hpc.others⟩
    · exact ⟨hpc.stored, hpc.head_tail, hpc.in_queue, hpc.others⟩
  | assign base =>
    rcases hassign : (s.batches batch).assign_seq_num_once base with _ | inner
    · simp only [prepare_step, hassign] at hstep
      cases hstep
      exact .inr hpc
    · simp only [prepare_step, hassign] at hstep
      cases hstep
      exact hpc.stamped (assign_seq_num_once_state hassign)
  | prepare_commit =>
    cases hstep
    refine ⟨hpc, fun herror => ?_⟩
    cases env_ok with
    | true => cases herror
    | false => rfl
  | unlock result =>
    cases hstep
    exact .inr ⟨⟨hpc.1.stored, hpc.1.head_tail, hpc.1.in_queue, hpc.1.others⟩, hpc.2⟩
  | unwind =>
    cases hstep
    obtain hsame | henqueued := hpc
    · exact .inl ⟨rfl, hsame.queue, hsame.batches⟩
    · exact .inr ⟨⟨henqueued.stored, henqueued.head_tail, henqueued.in_queue, henqueued.others⟩,
        nofun⟩

theorem prepare_call_end {result : PrepareResult}
    (hcall : prepare_call N overflow_checks t s batch env_ok = some (s', result)) :
    PrepareEnd N s batch env_ok s' result := by
  have hstart : PrepareAlone N s batch env_ok s .lock := ⟨rfl, rfl⟩
  exact run_unblocked_keeps (fun _ _ _ _ => prepare_step_keeps) 10 hstart hcall

end steps

/-! What a batch that stays in the queue does to the ones behind it. -/

inductive PipelineCall where
  | prepare (batch : BatchPtr) (env_ok : Bool)
  | mark_applied (batch : BatchPtr)
  | try_dequeue
  deriving DecidableEq, Repr

inductive PipelineOutcome where
  | prepared (result : PrepareResult)
  | marked
  | dequeued (batch : Option BatchPtr)
  deriving DecidableEq, Repr

/-- The batch that a call returned. -/
def PipelineOutcome.returned : PipelineOutcome → Option BatchPtr
  | .dequeued batch => batch
  | _ => none

/-- Complete calls on the pipeline. -/
def pipeline_machine (N : Nat) (overflow_checks : Bool) (t : Tid) :
    Machine PipelineCall PipelineOutcome (PipelineShared Tid) where
  step s
    | .prepare batch env_ok =>
      (prepare_call N overflow_checks t s batch env_ok).map fun (s, result) =>
        (s, .prepared result)
    | .mark_applied batch =>
      some (s.with_batch batch ((s.batches batch).set_runtime_state .Applied), .marked)
    | .try_dequeue =>
      (try_dequeue_alone N s.is_applied s.queue).map fun (queue, batch) =>
        ({ s with queue }, .dequeued batch)

/-- The queue and the runtime states of the pipeline. -/
def PipelineShared.sequential (s : PipelineShared Tid) : SequentialQueue :=
  { queue := s.queue, runtime_commit_state := fun batch => (s.batches batch).runtime_commit_state }

/-- The pipeline's queue holds these batches, oldest first. -/
def Contents (N : Nat) (s : PipelineShared Tid) (batches : List BatchPtr) : Prop :=
  ∃ start f, Represents N start s.sequential f ∧ f.batches = batches

section blocked

variable {s s' : PipelineShared Tid} {batch : BatchPtr}

theorem Contents.queue_only {batches : List BatchPtr} (h : Contents N s batches)
    (hqueue : s'.queue = s.queue) : Contents N s' batches := by
  obtain ⟨start, f, hrep, hbatches⟩ := h
  refine ⟨start, { f with applied := s'.sequential.is_applied }, ⟨?_, ?_, rfl⟩, hbatches⟩
  · exact (congrArg BatchQueue.head_tail hqueue).trans hrep.head_tail
  · intro i hi
    exact (congrArg (fun q => q.slots ((start + f.left + i) % N)) hqueue).trans (hrep.slots i hi)

/-- A batch that was enqueued stands behind the others. -/
theorem Contents.enqueued (hN : Capacity N) {batches : List BatchPtr} (h : Contents N s batches)
    (hs' : Enqueued N s s' batch) : Contents N s' (batches ++ [batch]) := by
  obtain ⟨start, f, hrep, rfl⟩ := h
  obtain ⟨head, ⟨tail, hunpack, hnotfull⟩, hslots⟩ := hs'.stored
  have hcounters := hrep.unpack
  rw [show s.sequential.queue = s.queue from rfl, hunpack] at hcounters
  obtain ⟨rfl, rfl⟩ := Prod.mk.inj hcounters
  have hroom : f.batches.length < N :=
    Nat.lt_of_le_of_ne f.bounded (mt (f.full_test hN start).mpr hnotfull)
  rw [hN.slot_index] at hslots
  let f' : Fifo N := { f with
    batches := f.batches ++ [batch]
    bounded := by rw [List.length_append]; exact hroom }
  have happended : Represents N start { s.sequential with queue := s'.queue } f' :=
    hrep.append hroom hs'.head_tail hslots rfl rfl rfl
  exact Contents.queue_only (s := { s with queue := s'.queue }) ⟨start, _, happended, rfl⟩ rfl

theorem Contents.in_slot (hN : Capacity N) {batches : List BatchPtr} (h : Contents N s batches)
    (hmem : batch ∈ batches) : ∃ i, i < N ∧ s.queue.slots i = some batch := by
  obtain ⟨start, f, hrep, rfl⟩ := h
  obtain ⟨i, hi, hget⟩ := List.mem_iff_getElem.mp hmem
  refine ⟨_, Nat.mod_lt _ hN.pos, (hrep.slots i (hi.trans_le f.bounded)).trans ?_⟩
  rw [List.getElem?_eq_getElem hi, hget]

/-- The batches `front` stand in the queue before `batch`, which is not applied. -/
structure Blocked (N : Nat) (s : PipelineShared Tid) (front : List BatchPtr) (batch : BatchPtr) :
    Prop where
  contents : ∃ back, Contents N s (front ++ batch :: back)
  waits : (s.batches batch).runtime_commit_state ≠ .Applied

theorem Enqueued.waits {other : BatchPtr} (h : Enqueued N s s' other)
    (hwaits : (s.batches batch).runtime_commit_state ≠ .Applied) :
    (s'.batches batch).runtime_commit_state ≠ .Applied := by
  by_cases hbatch : batch = other
  · rw [hbatch, h.in_queue]
    exact nofun
  · rwa [h.others batch hbatch]

theorem Blocked.dequeue (hN : Capacity N) {front : List BatchPtr} (h : Blocked N s front batch)
    {queue : BatchQueue} {found : Option BatchPtr}
    (hcall : try_dequeue_alone N s.is_applied s.queue = some (queue, found)) :
    ∃ front', front = found.toList ++ front' ∧ Blocked N { s with queue } front' batch := by
  obtain ⟨⟨back, start, f, hrep, hbatches⟩, hwaits⟩ := h
  obtain ⟨queue', hcall', hrep', _⟩ := hrep.try_dequeue hN
  obtain ⟨rfl, rfl⟩ : queue = queue' ∧ found = f.try_dequeue.2 := by
    have hsame := hcall.symm.trans hcall'
    simpa using hsame
  have happlied : f.applied batch = false := by
    rw [← hrep.applied]
    simpa [SequentialQueue.is_applied, PipelineShared.sequential] using hwaits
  cases front with
  | nil =>
    have hnone := Fifo.try_dequeue_of_waiting hbatches (by rw [happlied]; rintro ⟨⟩)
    rw [hnone] at hrep' ⊢
    exact ⟨[], rfl, ⟨back, start, f, hrep', hbatches⟩, hwaits⟩
  | cons first rest =>
    by_cases hfirst : f.applied first = true
    · obtain ⟨hfound, hrest, _, _⟩ := Fifo.try_dequeue_of_applied hbatches hfirst
      rw [hfound]
      exact ⟨rest, rfl, ⟨back, start, _, hrep', hrest⟩, hwaits⟩
    · have hnone := Fifo.try_dequeue_of_waiting hbatches hfirst
      rw [hnone] at hrep' ⊢
      exact ⟨first :: rest, rfl, ⟨back, start, f, hrep', hbatches⟩, hwaits⟩

/-- No call gets past a batch that is not marked applied. -/
theorem Blocked.step (hN : Capacity N) {front : List BatchPtr} (h : Blocked N s front batch)
    {call : PipelineCall} {outcome : PipelineOutcome} (hcall : call ≠ .mark_applied batch)
    (hstep : (pipeline_machine N overflow_checks t).step s call = some (s', outcome)) :
    ∃ front', front = outcome.returned.toList ++ front' ∧ Blocked N s' front' batch := by
  cases call with
  | prepare other env_ok =>
    obtain ⟨⟨after, result⟩, hprepare, hend⟩ := Option.map_eq_some_iff.mp hstep
    obtain ⟨rfl, rfl⟩ := Prod.mk.inj hend
    refine ⟨front, rfl, ?_⟩
    obtain ⟨back, hcontents⟩ := h.contents
    obtain ⟨_, hsame⟩ | ⟨henqueued, _⟩ := prepare_call_end hprepare
    · exact ⟨⟨back, hcontents.queue_only hsame.queue⟩, by rw [hsame.batches]; exact h.waits⟩
    · refine ⟨⟨back ++ [other], ?_⟩, henqueued.waits h.waits⟩
      simpa using hcontents.enqueued hN henqueued
  | mark_applied other =>
    have hne : batch ≠ other := by
      rintro rfl
      exact hcall rfl
    cases hstep
    obtain ⟨back, hcontents⟩ := h.contents
    refine ⟨front, rfl, ⟨back, hcontents.queue_only rfl⟩, ?_⟩
    rw [PipelineShared.with_batch_of_ne _ _ hne]
    exact h.waits
  | try_dequeue =>
    obtain ⟨⟨queue, found⟩, hdequeue, hend⟩ := Option.map_eq_some_iff.mp hstep
    obtain ⟨rfl, rfl⟩ := Prod.mk.inj hend
    exact h.dequeue hN hdequeue

theorem Blocked.run (hN : Capacity N) {calls : List PipelineCall}
    (hcalls : PipelineCall.mark_applied batch ∉ calls) :
    ∀ {s s' : PipelineShared Tid} {front : List BatchPtr} {outcomes : List PipelineOutcome},
      Blocked N s front batch →
      (pipeline_machine N overflow_checks t).run s calls = some (s', outcomes) →
      ∃ front', front = outcomes.filterMap PipelineOutcome.returned ++ front' ∧
        Blocked N s' front' batch := by
  induction calls with
  | nil =>
    intro s s' front outcomes h hrun
    cases hrun
    exact ⟨front, rfl, h⟩
  | cons call calls ih =>
    intro s s' front outcomes h hrun
    obtain ⟨hcall, hrest⟩ := not_or.mp (mt List.mem_cons.mpr hcalls)
    rcases hstep : (pipeline_machine N overflow_checks t).step s call with _ | ⟨next, outcome⟩
    · simp only [Machine.run, hstep, reduceCtorEq] at hrun
    · simp only [Machine.run, hstep, Option.map_eq_some_iff, Prod.exists, Prod.mk.injEq] at hrun
      obtain ⟨last, outcomes, hrun, rfl, rfl⟩ := hrun
      obtain ⟨front₁, rfl, hnext⟩ := h.step hN (Ne.symm hcall) hstep
      obtain ⟨front', rfl, hlast⟩ := ih hrest hnext hrun
      refine ⟨front', ?_, hlast⟩
      cases hreturned : outcome.returned <;> simp [hreturned]

end blocked

/-- A `prepare` that returns an error never rolls back: its batch is in a slot,
behind the batches that were queued before the call, the head has moved, and
the batch is not safe to reset. From then on, until somebody marks the failed
batch applied, no sequence of calls gets a batch out of the queue that was not
queued before it. -/
theorem failed_prepare_never_rolls_back (hN : Capacity N) {s s' : PipelineShared Tid}
    {batch : BatchPtr} {env_ok : Bool}
    (hcall : prepare_call N overflow_checks t s batch env_ok = some (s', .error)) :
    ¬ RolledBack N s s' batch ∧
    (∃ i, i < N ∧ s'.queue.slots i = some batch) ∧
    s'.queue.head_tail ≠ s.queue.head_tail ∧
    (s'.batches batch).runtime_commit_state.is_reset_safe = false ∧
    ∀ batches, Contents N s batches → Contents N s' (batches ++ [batch]) ∧
      ∀ calls s'' outcomes, PipelineCall.mark_applied batch ∉ calls →
        (pipeline_machine N overflow_checks t).run s' calls = some (s'', outcomes) →
        outcomes.filterMap PipelineOutcome.returned <+: batches ∧
          ∃ i, i < N ∧ s''.queue.slots i = some batch := by
  have henqueued : Enqueued N s s' batch := by
    obtain ⟨hpanicked, _⟩ | ⟨henqueued, _⟩ := prepare_call_end hcall
    · cases hpanicked
    · exact henqueued
  have hslot : ∃ i, i < N ∧ s'.queue.slots i = some batch := by
    obtain ⟨head, _, hslots⟩ := henqueued.stored
    exact ⟨_, slot_index_lt hN head, by rw [hslots, Function.update_self]⟩
  refine ⟨?_, hslot, ?_, ?_, ?_⟩
  · intro hrolled
    obtain ⟨i, hi, hin⟩ := hslot
    exact hrolled.in_no_slot i hi hin
  · rw [henqueued.head_tail]
    intro hsame
    have hword : (1#64 <<< HeadTail.DEQUEUE_BITS) = 0#64 := by
      simpa using hsame
    exact absurd hword (by decide)
  · rw [henqueued.in_queue]
    rfl
  · intro batches hcontents
    have hafter := hcontents.enqueued hN henqueued
    refine ⟨hafter, fun calls s'' outcomes hcalls hrun => ?_⟩
    have hblocked : Blocked N s' batches batch :=
      ⟨⟨[], hafter⟩, by rw [henqueued.in_queue]; exact nofun⟩
    obtain ⟨front', hfront, hlast⟩ := hblocked.run hN hcalls hrun
    obtain ⟨back, hin⟩ := hlast.contents
    refine ⟨⟨front', hfront.symm⟩, hin.in_slot hN ?_⟩
    exact List.mem_append_right _ List.mem_cons_self

/-- A pipeline of capacity two with nothing in it. -/
def fresh_pipeline : PipelineShared Bool :=
  { queue := .new
    batches := fun _ => BatchInner.new
    seq_state := .new
    q_mu := .free
    stamps := []
    prepared := [] }

/-- Batch 10 is refused by the environment; the prepared and applied batch 11 is
stuck behind it. -/
theorem failed_prepare_never_rolls_back_refused :
    ∃ s', prepare_call 2 true false fresh_pipeline 10 false = some (s', .error) ∧
      (∃ s'', (pipeline_machine 2 true false).run s'
        [.prepare 11 true, .mark_applied 11, .try_dequeue] =
          some (s'', [.prepared .ok, .marked, .dequeued none])) ∧
      ¬ RolledBack 2 fresh_pipeline s' 10 := by
  have hseen : (prepare_call 2 true false fresh_pipeline 10 false).map (fun r => (r.2,
      ((pipeline_machine 2 true false).run r.1
        [.prepare 11 true, .mark_applied 11, .try_dequeue]).map Prod.snd)) =
      some (.error, some [.prepared .ok, .marked, .dequeued none]) := by decide +kernel
  obtain ⟨⟨s', result⟩, hcall, hrest⟩ := Option.map_eq_some_iff.mp hseen
  obtain ⟨rfl, hrun⟩ := Prod.mk.inj hrest
  obtain ⟨⟨s'', outcomes⟩, hrun, rfl⟩ := Option.map_eq_some_iff.mp hrun
  exact ⟨s', hcall, ⟨s'', hrun⟩, (failed_prepare_never_rolls_back Capacity.two hcall).1⟩

/-- After the refusal the slot of the queue holds batch 10. -/
theorem refused_batch_stays :
    ∃ s', prepare_call 2 true false fresh_pipeline 10 false = some (s', .error) ∧
      ¬ RolledBack 2 fresh_pipeline s' 10 := by
  have hseen : (prepare_call 2 true false fresh_pipeline 10 false).map
      (fun r => (r.2, r.1.queue.slots 0)) = some (.error, some 10) := by decide +kernel
  obtain ⟨⟨s', result⟩, hcall, hrest⟩ := Option.map_eq_some_iff.mp hseen
  obtain ⟨rfl, hslot⟩ := Prod.mk.inj hrest
  exact ⟨s', hcall, fun hrolled => hrolled.in_no_slot 0 (by decide) hslot⟩

end ordinum.write_pipeline
