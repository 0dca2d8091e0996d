import Mathlib.Data.List.Chain
import Ordinum.Db.Batch.Format
import Ordinum.Db.WritePipeline.Prepare
import Ordinum.Db.WritePipeline.QueueInvariant

open interleaving
open ordinum.batch

namespace ordinum.write_pipeline

/-- The operations of a batch as the 64-bit word that is added to the counter. -/
def Stamp.width (e : Stamp) : BitVec 64 := e.count.setWidth 64

/-- `n` is one of the sequence numbers of the batch. -/
def Stamp.assigns (e : Stamp) (n : Nat) : Prop :=
  e.base.toNat ≤ n ∧ n < e.base.toNat + e.count.toNat

/-- Sequence numbers as they should be: no subtraction underflows, no number is
given to two batches, and each batch begins where the one before it ends. -/
structure Consecutive (stamps : List Stamp) : Prop where
  no_underflow : ∀ e ∈ stamps, e.underflow = false
  disjoint : stamps.Pairwise fun e f => ∀ n, ¬ (e.assigns n ∧ f.assigns n)
  consecutive : stamps.IsChain fun e f => f.base.toNat = e.base.toNat + e.count.toNat

/-- The stamps computed while the counter moves from `start` to `stop`. -/
def StampsFrom (start : BitVec 64) : List Stamp → BitVec 64 → Prop
  | [], stop => stop = start
  | e :: stamps, stop =>
    e.base = start - e.width ∧ e.underflow = decide (start < e.width) ∧
      StampsFrom (start + e.width) stamps stop

theorem StampsFrom.concat {start : BitVec 64} {stamps : List Stamp} : ∀ {stop : BitVec 64},
    StampsFrom start stamps stop → ∀ batch inner,
    StampsFrom start (stamps ++ [stamp_of batch inner stop])
      (stop + (stamp_of batch inner stop).width) := by
  induction stamps generalizing start with
  | nil =>
    rintro stop rfl batch inner
    exact ⟨rfl, rfl, rfl⟩
  | cons e stamps ih =>
    rintro stop ⟨hbase, hunderflow, hrest⟩ batch inner
    exact ⟨hbase, hunderflow, ih hrest batch inner⟩

/-- The first batch with an operation makes the subtraction underflow: it takes
its own count off a counter that is still zero. -/
theorem StampsFrom.consecutive_iff {stamps : List Stamp} {stop : BitVec 64}
    (h : StampsFrom 0 stamps stop) : Consecutive stamps ↔ ∀ e ∈ stamps, e.count = 0 := by
  constructor
  · intro hgood
    have hclear := hgood.no_underflow
    clear hgood
    induction stamps with
    | nil => simp
    | cons e stamps ih =>
      obtain ⟨_, hunderflow, hrest⟩ := h
      have hnot : ¬ (0 : BitVec 64) < e.width := by
        have := hunderflow.symm.trans (hclear e List.mem_cons_self)
        simpa using this
      have hcount : e.count = 0 := by
        have hwidth : e.width.toNat = e.count.toNat := by
          rw [Stamp.width, BitVec.toNat_setWidth]
          exact Nat.mod_eq_of_lt (Nat.lt_trans e.count.isLt (by decide))
        apply BitVec.eq_of_toNat_eq
        rw [BitVec.lt_def, hwidth] at hnot
        simpa using hnot
      have hwidth : e.width = 0 := by rw [Stamp.width, hcount]; rfl
      have hrest : StampsFrom 0 stamps stop := by simpa [hwidth] using hrest
      intro f hf
      obtain rfl | hf := List.mem_cons.mp hf
      · exact hcount
      · exact ih hrest (fun g hg => hclear g (List.mem_cons_of_mem e hg)) f hf
  · intro hzero
    have hstamps : ∀ e ∈ stamps, e.base = 0 ∧ e.underflow = false := by
      induction stamps with
      | nil => simp
      | cons e stamps ih =>
        obtain ⟨hbase, hunderflow, hrest⟩ := h
        have hwidth : e.width = 0 := by
          rw [Stamp.width, hzero e List.mem_cons_self]
          rfl
        rw [hwidth] at hbase hunderflow hrest
        intro f hf
        obtain rfl | hf := List.mem_cons.mp hf
        · exact ⟨by simpa using hbase, by simpa using hunderflow⟩
        · exact ih (by simpa using hrest) (fun g hg => hzero g (List.mem_cons_of_mem e hg)) f hf
    refine ⟨fun e he => (hstamps e he).2, ?_, ?_⟩
    · apply List.pairwise_of_forall_mem_list
      rintro e he f _ n ⟨⟨hle, hlt⟩, _⟩
      have hcount : e.count.toNat = 0 := by
        rw [hzero e he]
        rfl
      omega
    · apply List.Pairwise.isChain
      apply List.pairwise_of_forall_mem_list
      intro e he f hf
      rw [(hstamps e he).1, (hstamps f hf).1, hzero e he]
      rfl

/-- Program points inside the critical section of `prepare`. -/
def PipelinePc.critical : PipelinePc → Prop
  | .idle | .dequeue _ | .prepare _ .lock => False
  | .prepare _ _ => True

def EnqueuePc.batch : EnqueuePc → BatchPtr
  | .load batch | .load_slot batch _ | .store batch _ | .publish batch => batch

variable {Tid : Type} {N : Nat} {overflow_checks : Bool}

/-- The stamped batches are the enqueued ones, in that order, but for a batch
whose `prepare` panicked in between. -/
structure StampsFollowQueue (s : PipelineShared Tid) : Prop where
  order : s.stamps.map Stamp.batch <+: s.queue.enqueued
  free : s.q_mu = .free → s.queue.enqueued = s.stamps.map Stamp.batch

/-- What the holder of the queue mutex knows of the queue and the stamps. -/
def PrepareAt (s : PipelineShared Tid) (batch : BatchPtr) : PreparePc → Prop
  | .lock | .unwind => True
  | .enqueue pc => pc.batch = batch ∧ s.queue.enqueued = s.stamps.map Stamp.batch
  | .set_in_queue | .fetch_add => s.queue.enqueued = s.stamps.map Stamp.batch ++ [batch]
  | .assign _ | .prepare_commit | .unlock _ => s.queue.enqueued = s.stamps.map Stamp.batch

def PipelinePc.prepare_at (s : PipelineShared Tid) : PipelinePc → Prop
  | .prepare batch pc => PrepareAt s batch pc
  | _ => True

def stamps_outline : System.Outline Tid (PipelineShared Tid) PipelinePc where
  shared := StampsFollowQueue
  thread := fun t s pc => (pc.critical → s.q_mu = .held t) ∧ pc.prepare_at s
  apart := fun _ _ => True

theorem enqueue_step_enqueued {q queue : BatchQueue} {pc : EnqueuePc}
    {progress : Progress EnqueuePc CallResult} (hstep : enqueue_step N q pc = (queue, progress)) :
    (∃ pc', progress = .next pc' ∧ pc'.batch = pc.batch ∧ queue.enqueued = q.enqueued) ∨
    (progress = .done .returned ∧ queue.enqueued = q.enqueued ++ [pc.batch]) ∨
    (progress = .done .panicked ∧ queue.enqueued = q.enqueued) := by
  cases pc with
  | load batch =>
    simp only [enqueue_step] at hstep
    split at hstep <;> cases hstep
    · exact .inr (.inr ⟨rfl, rfl⟩)
    · exact .inl ⟨_, rfl, rfl, rfl⟩
  | load_slot batch head | store batch head =>
    cases hstep
    exact .inl ⟨_, rfl, rfl, rfl⟩
  | publish batch =>
    rw [enqueue_step_publish, Prod.mk.injEq] at hstep
    rw [← hstep.1, ← hstep.2]
    exact .inr (.inl ⟨rfl, rfl⟩)

theorem dequeue_step_enqueued {applied : BatchPtr → Bool} {q queue : BatchQueue} {pc : DequeuePc}
    {progress : Progress DequeuePc (Option BatchPtr)}
    (hstep : dequeue_step N applied q pc = (queue, progress)) : queue.enqueued = q.enqueued := by
  cases pc with
  | load | clear position tail batch =>
    cases hstep
    rfl
  | load_slot ht =>
    simp only [dequeue_step] at hstep
    split at hstep
    · cases hstep
      rfl
    · split at hstep <;> cases hstep <;> rfl
  | is_applied ht batch | cas ht batch =>
    simp only [dequeue_step] at hstep
    split at hstep <;> cases hstep <;> rfl

/-- Each step of `prepare` keeps the stamps in queue order. -/
theorem prepare_step_follows {t : Tid} {batch : BatchPtr} {env_ok : Bool}
    {s s' : PipelineShared Tid} {pc : PreparePc} {progress : Progress PreparePc PrepareResult}
    (hstep : prepare_step N overflow_checks t batch env_ok s pc = some (s', progress))
    (hs : StampsFollowQueue s) (hlock : pc = .lock ∨ s.q_mu = .held t)
    (hat : PrepareAt s batch pc) :
    StampsFollowQueue s' ∧
      ∀ pc', progress = .next pc' → s'.q_mu = .held t ∧ PrepareAt s' batch pc' := by
  cases pc with
  | lock =>
    simp only [prepare_step] at hstep
    split at hstep
    · rename_i hfree
      cases hstep
      refine ⟨⟨hs.order, fun h => by cases h⟩, ?_⟩
      rintro pc' ⟨⟩
      exact ⟨rfl, rfl, hs.free hfree⟩
    · cases hstep
    · cases hstep
      exact ⟨hs, by rintro pc' ⟨⟩⟩
  | enqueue pc =>
    have hheld : s.q_mu = .held t := hlock.resolve_left nofun
    obtain ⟨hbatch, henqueued⟩ := hat
    simp only [prepare_step] at hstep
    rcases hnext : enqueue_step N s.queue pc with ⟨queue, result⟩
    rw [hnext] at hstep
    have hheld' : ¬ s.q_mu = .free := by
      rw [hheld]
      nofun
    rcases enqueue_step_enqueued hnext with ⟨pc', rfl, hsame, hqueue⟩ | ⟨rfl, hqueue⟩ |
      ⟨rfl, hqueue⟩ <;> cases hstep
    · refine ⟨⟨?_, fun h => absurd h hheld'⟩, ?_⟩
      · simp only [hqueue]
        exact hs.order
      · rintro pc'' ⟨⟩
        exact ⟨hheld, hsame.trans hbatch, hqueue.trans henqueued⟩
    · refine ⟨⟨?_, fun h => absurd h hheld'⟩, ?_⟩
      · simp only [hqueue]
        exact hs.order.trans (List.prefix_append _ _)
      · rintro pc'' ⟨⟩
        refine ⟨hheld, ?_⟩
        simp only [PrepareAt, hqueue, hbatch, henqueued]
    · refine ⟨⟨?_, fun h => absurd h hheld'⟩, ?_⟩
      · simp only [hqueue]
        exact hs.order
      · rintro pc'' ⟨⟩
        exact ⟨hheld, trivial⟩
  | set_in_queue =>
    have hheld : s.q_mu = .held t := hlock.resolve_left nofun
    cases hstep
    exact ⟨⟨hs.order, hs.free⟩, by rintro pc' ⟨⟩; exact ⟨hheld, hat⟩⟩
  | fetch_add =>
    have hheld : s.q_mu = .held t := hlock.resolve_left nofun
    cases hstep
    have hqueue : s.queue.enqueued = (s.stamps ++
        [stamp_of batch (s.batches batch) s.seq_state.log_seq_num]).map Stamp.batch := by
      rw [List.map_append]
      exact hat
    refine ⟨⟨?_, fun _ => hqueue⟩, ?_⟩
    · simp only [hqueue]
      exact List.prefix_rfl
    · rintro pc' hpc'
      refine ⟨hheld, ?_⟩
      split at hpc' <;> cases hpc'
      · trivial
      · exact hqueue
  | assign base =>
    have hheld : s.q_mu = .held t := hlock.resolve_left nofun
    simp only [prepare_step] at hstep
    split at hstep <;> cases hstep
    · exact ⟨⟨hs.order, hs.free⟩, by rintro pc' ⟨⟩; exact ⟨hheld, hat⟩⟩
    · exact ⟨hs, by rintro pc' ⟨⟩; exact ⟨hheld, trivial⟩⟩
  | prepare_commit =>
    have hheld : s.q_mu = .held t := hlock.resolve_left nofun
    cases hstep
    exact ⟨hs, by rintro pc' ⟨⟩; exact ⟨hheld, hat⟩⟩
  | unlock result =>
    cases hstep
    exact ⟨⟨hs.order, fun _ => hat⟩, by rintro pc' ⟨⟩⟩
  | unwind =>
    cases hstep
    exact ⟨⟨hs.order, fun h => by cases h⟩, by rintro pc' ⟨⟩⟩

/-- Outside the critical section a step leaves the mutex, the queue's history and
the stamps alone, unless it takes a free mutex. -/
theorem outside_step {t : Tid} {a : PipelineAct} {s : PipelineShared Tid} {pc : PipelinePc}
    {r : PipelineShared Tid × PipelinePc}
    (hstep : pipeline_step N overflow_checks t a s pc = some r) (hout : ¬ pc.critical)
    (hheld : s.q_mu ≠ .free) :
    r.1.q_mu = s.q_mu ∧ r.1.queue.enqueued = s.queue.enqueued ∧ r.1.stamps = s.stamps := by
  cases pc with
  | idle => cases a <;> cases hstep <;> exact ⟨rfl, rfl, rfl⟩
  | dequeue pc =>
    cases a with
    | step env_ok =>
      rcases hnext : dequeue_step N s.is_applied s.queue pc with ⟨queue, progress⟩
      simp only [pipeline_step, hnext, Option.some.injEq] at hstep
      rw [← hstep]
      exact ⟨rfl, dequeue_step_enqueued hnext, rfl⟩
    | _ => cases hstep
  | prepare batch pc =>
    cases pc with
    | lock =>
      cases a with
      | step env_ok =>
        simp only [pipeline_step, prepare_step] at hstep
        split at hstep
        · rename_i hfree
          exact absurd hfree hheld
        · cases hstep
        · cases hstep
          exact ⟨rfl, rfl, rfl⟩
      | _ => cases hstep
    | _ => exact absurd trivial hout

theorem stamps_outline_valid [DecidableEq Tid] {batches : BatchPtr → BatchInner} :
    System.Outline.trivial.ValidOver stamps_outline
      (pipeline_system Tid N overflow_checks batches) System.anyStep where
  init_shared := ⟨List.prefix_rfl, fun _ => rfl⟩
  init_thread := fun _ => ⟨fun h => h.elim, trivial⟩
  init_apart := trivial
  step_own := by
    intro t a s pc r _ _ hs hl _ hstep
    by_cases hprepare : ∃ batch ppc, pc = .prepare batch ppc
    · obtain ⟨batch, ppc, rfl⟩ := hprepare
      cases a with
      | step env_ok =>
        simp only [pipeline_system, pipeline_step, Option.map_eq_some_iff] at hstep
        obtain ⟨⟨s', progress⟩, hnext, rfl⟩ := hstep
        have hlock : ppc = .lock ∨ s.q_mu = .held t := by
          cases ppc with
          | lock => exact .inl rfl
          | _ => exact .inr (hl.1 trivial)
        obtain ⟨hfollows, hat⟩ := prepare_step_follows hnext hs hlock hl.2
        cases progress with
        | next pc' =>
          obtain ⟨hheld, hprepare⟩ := hat pc' rfl
          exact ⟨hfollows, fun _ => hheld, hprepare⟩
        | done result => exact ⟨⟨hfollows.order, hfollows.free⟩, fun h => h.elim, trivial⟩
      | _ => cases hstep
    · cases pc with
      | idle =>
        cases a <;> cases hstep
        · exact ⟨hs, fun h => h.elim, trivial⟩
        · exact ⟨hs, fun h => h.elim, trivial⟩
        · exact ⟨⟨hs.order, hs.free⟩, fun h => h.elim, trivial⟩
      | dequeue pc =>
        cases a with
        | step env_ok =>
          rcases hnext : dequeue_step N s.is_applied s.queue pc with ⟨queue, progress⟩
          simp only [pipeline_system, pipeline_step, hnext, Option.some.injEq] at hstep
          have hqueue := dequeue_step_enqueued hnext
          rw [← hstep]
          refine ⟨⟨?_, ?_⟩, ?_⟩
          · simp only [hqueue]
            exact hs.order
          · simp only [hqueue]
            exact hs.free
          · cases progress <;> exact ⟨fun h => h.elim, trivial⟩
        | _ => cases hstep
      | prepare batch pc => exact absurd ⟨batch, pc, rfl⟩ hprepare
  step_other := by
    intro t u a s l m r hne _ hpair _ hstep
    refine ⟨?_, trivial, trivial⟩
    by_cases hu : m.critical
    · have hheld := hpair.other.1 hu
      have hout : ¬ l.critical := by
        intro hl
        have hmine := hpair.own.1 hl
        rw [hheld] at hmine
        exact hne (Mutex.held.inj hmine).symm
      obtain ⟨hmu, henqueued, hstamps⟩ := outside_step hstep hout (by rw [hheld]; nofun)
      refine ⟨fun _ => hmu.trans hheld, ?_⟩
      have hat := hpair.other.2
      cases m with
      | prepare batch pc =>
        cases pc <;> simp only [PipelinePc.prepare_at, PrepareAt, henqueued, hstamps] at hat ⊢ <;>
          exact hat
      | _ => trivial
    · refine ⟨fun h => absurd h hu, ?_⟩
      cases m with
      | prepare batch pc =>
        cases pc with
        | lock => trivial
        | _ => exact absurd trivial hu
      | _ => trivial

/-- A step leaves the counter and the stamps alone or adds one stamp. -/
theorem pipeline_step_stamps {t : Tid} {a : PipelineAct} {s : PipelineShared Tid}
    {pc : PipelinePc} {r : PipelineShared Tid × PipelinePc}
    (hstep : pipeline_step N overflow_checks t a s pc = some r) :
    r.1.stamps = s.stamps ∧ r.1.seq_state = s.seq_state ∨
      ∃ batch inner, r.1.stamps = s.stamps ++ [stamp_of batch inner s.seq_state.log_seq_num] ∧
        r.1.seq_state.log_seq_num =
          s.seq_state.log_seq_num + (stamp_of batch inner s.seq_state.log_seq_num).width := by
  cases pc with
  | idle => cases a <;> cases hstep <;> exact .inl ⟨rfl, rfl⟩
  | dequeue pc =>
    cases a with
    | step env_ok =>
      cases hstep
      exact .inl ⟨rfl, rfl⟩
    | _ => cases hstep
  | prepare batch pc =>
    cases a with
    | step env_ok =>
      simp only [pipeline_step, Option.map_eq_some_iff] at hstep
      obtain ⟨⟨s', progress⟩, hnext, hr⟩ := hstep
      -- The result of the call is recorded beside the counter and the stamps.
      obtain ⟨hstamps, hseq⟩ : r.1.stamps = s'.stamps ∧ r.1.seq_state = s'.seq_state := by
        rw [← hr]
        cases progress with
        | next pc => exact ⟨rfl, rfl⟩
        | done result => exact ⟨rfl, rfl⟩
      rw [hstamps, hseq]
      cases pc with
      | lock =>
        simp only [prepare_step] at hnext
        split at hnext <;> cases hnext <;> exact .inl ⟨rfl, rfl⟩
      | fetch_add =>
        cases hnext
        exact .inr ⟨batch, _, rfl, rfl⟩
      | assign base =>
        simp only [prepare_step] at hnext
        split at hnext <;> cases hnext <;> exact .inl ⟨rfl, rfl⟩
      | enqueue _ | set_in_queue | prepare_commit | unlock _ | unwind =>
        cases hnext
        exact .inl ⟨rfl, rfl⟩
    | _ => cases hstep

/-- The counter moves by the stamped counts, in every run. -/
theorem stamps_from_zero [DecidableEq Tid] {batches : BatchPtr → BatchInner}
    {c : Config Tid (PipelineShared Tid) PipelinePc}
    (hc : (pipeline_system Tid N overflow_checks batches).Reachable c) :
    StampsFrom 0 c.shared.stamps c.shared.seq_state.log_seq_num := by
  refine System.ReachableUnder.induction
    (P := fun c => StampsFrom 0 c.shared.stamps c.shared.seq_state.log_seq_num) ?_ ?_ hc
  · exact rfl
  · intro c t a r _ ih _ hstep
    rw [Config.move_shared]
    obtain ⟨hstamps, hseq⟩ | ⟨batch, inner, hstamps, hseq⟩ := pipeline_step_stamps hstep
    · rw [hstamps, hseq]
      exact ih
    · rw [hstamps, hseq]
      exact ih.concat batch inner

/-- In every run the batches are stamped in queue order, and their sequence
numbers are what they should be exactly when no batch has an operation. -/
theorem stamps_consecutive_iff [DecidableEq Tid] {batches : BatchPtr → BatchInner}
    {c : Config Tid (PipelineShared Tid) PipelinePc}
    (hc : (pipeline_system Tid N overflow_checks batches).Reachable c) :
    c.shared.stamps.map Stamp.batch <+: c.shared.queue.enqueued ∧
      (Consecutive c.shared.stamps ↔ ∀ e ∈ c.shared.stamps, e.count = 0) :=
  ⟨(stamps_outline_valid.holds_of_trivial hc).shared.order, (stamps_from_zero hc).consecutive_iff⟩

/-- Two threads prepare a batch each. -/
def prepare_both (batch other : BatchPtr) : List (Bool × PipelineAct) :=
  (true, .prepare batch) :: (false, .prepare other) :: List.replicate 10 (true, .step true) ++
    List.replicate 10 (false, .step true)

theorem stamps_consecutive_iff_empty_batches :
    ∃ c : Config Bool (PipelineShared Bool) PipelinePc,
      c.shared.stamps.map Stamp.batch = [3, 4] ∧ Consecutive c.shared.stamps := by
  obtain ⟨c, hc, hstamps⟩ := System.reachable_showing
    (pipeline_system Bool 2 true fun _ => BatchInner.new) System.anyStep (prepare_both 3 4)
    (fun c => c.shared.stamps) [{ batch := 3, count := 0, base := 0, underflow := false },
      { batch := 4, count := 0, base := 0, underflow := false }] (by decide +kernel)
  refine ⟨c, by rw [hstamps]; rfl, (stamps_consecutive_iff hc).2.mpr ?_⟩
  rw [hstamps]
  intro e he
  obtain rfl | he := List.mem_cons.mp he
  · rfl
  · rw [List.mem_singleton.mp he]

/-- A new batch after the two puts. -/
def two_put_batch : BatchInner :=
  ((put_all two_puts).run.run BatchInner.new).elim .new Prod.snd

/-- The very first batch with an operation underflows. -/
theorem first_batch_underflows :
    ∃ c : Config (Fin 1) (PipelineShared (Fin 1)) PipelinePc,
      (pipeline_system (Fin 1) 2 true fun _ => two_put_batch).Reachable c ∧
      c.shared.stamps = [{ batch := 3, count := 2, base := -2, underflow := true }] ∧
      ¬ Consecutive c.shared.stamps := by
  obtain ⟨c, hc, hstamps⟩ := System.reachable_showing
    (pipeline_system (Fin 1) 2 true fun _ => two_put_batch)
    System.anyStep ((0, .prepare 3) :: List.replicate 8 (0, .step true))
    (fun c => c.shared.stamps) [{ batch := 3, count := 2, base := -2, underflow := true }]
    (by decide +kernel)
  refine ⟨c, hc, hstamps, fun hgood => ?_⟩
  have hflag := hgood.no_underflow { batch := 3, count := 2, base := -2, underflow := true }
    (by rw [hstamps]; exact List.mem_singleton_self _)
  cases hflag

end ordinum.write_pipeline
