import Mathlib.Data.Fintype.Basic
import Ordinum.Db.WritePipeline.FailedPrepare

open interleaving
open ordinum.batch

namespace ordinum.write_pipeline

/-- The pipeline with a history of the lives of its batches: which batches were
enqueued and not marked applied since, the batch that each consumer has claimed
and not returned, the number of enqueues before each consumer's last load of the
counters, and the batches that a `try_dequeue` returned too early. -/
structure LivesShared (Tid : Type) where
  pipeline : PipelineShared Tid
  pending : BatchPtr → Bool
  returning : Tid → Option BatchPtr
  loaded : Tid → Nat
  early : List BatchPtr

def PipelinePc.returns : PipelinePc → Option BatchPtr
  | .dequeue (.clear _ _ batch) => some batch
  | _ => none

/-- A batch is pending from its `enqueue` to the next time it is marked applied. -/
def pending_after (a : PipelineAct) (pc : PipelinePc) (pending : BatchPtr → Bool) :
    BatchPtr → Bool :=
  match pc, a with
  | .prepare _ (.enqueue (.publish batch)), _ => Function.update pending batch true
  | .idle, .write batch inner =>
    if inner.runtime_commit_state = .Applied then Function.update pending batch false else pending
  | _, _ => pending

section pending

variable (a : PipelineAct) (pending : BatchPtr → Bool)

theorem pending_after_publish (of batch : BatchPtr) :
    pending_after a (.prepare of (.enqueue (.publish batch))) pending =
      Function.update pending batch true := by
  cases a <;> rfl

theorem pending_after_dequeue (pc : DequeuePc) :
    pending_after a (.dequeue pc) pending = pending := by
  cases a <;> rfl

end pending

/-- A consumer stands at `load_slot` only right after it has loaded the counters. -/
def loaded_after (enqueued : Nat) (pc' : PipelinePc) (loaded : Nat) : Nat :=
  match pc' with
  | .dequeue (.load_slot _) => enqueued
  | _ => loaded

variable {Tid : Type} [DecidableEq Tid] {N : Nat} {overflow_checks : Bool}
  {batches : BatchPtr → BatchInner}

/-- The history after the step of a thread from `pc` to `pc'`. -/
def LivesShared.observe (t : Tid) (a : PipelineAct) (s : LivesShared Tid) (pc : PipelinePc)
    (pipeline : PipelineShared Tid) (pc' : PipelinePc) : LivesShared Tid :=
  { pipeline
    pending := pending_after a pc s.pending
    returning := Function.update s.returning t pc'.returns
    loaded := Function.update s.loaded t
      (loaded_after s.pipeline.queue.enqueued.length pc' (s.loaded t))
    early := (pc.returns.filter s.pending).toList ++ s.early }

def lives_step (N : Nat) (overflow_checks : Bool) (t : Tid) (a : PipelineAct)
    (s : LivesShared Tid) (pc : PipelinePc) : Option (LivesShared Tid × PipelinePc) :=
  (pipeline_step N overflow_checks t a s.pipeline pc).map fun (pipeline, pc') =>
    (s.observe t a pc pipeline pc', pc')

def lives_system (Tid : Type) [DecidableEq Tid] (N : Nat) (overflow_checks : Bool)
    (batches : BatchPtr → BatchInner) :
    System Tid PipelineAct (LivesShared Tid) PipelinePc where
  shared₀ :=
    { pipeline := (pipeline_system Tid N overflow_checks batches).shared₀
      pending := fun _ => false
      returning := fun _ => none
      loaded := fun _ => 0
      early := [] }
  local₀ := .idle
  step := lives_step N overflow_checks

abbrev LivesConfig (Tid : Type) := Config Tid (LivesShared Tid) PipelinePc

/-- A batch is published while it is not applied and while no `try_dequeue` is
about to return it from an earlier life, and no exchange succeeds on counters
loaded `2 ^ 32` enqueues ago. -/
def lives_apart : System.StepCondition Tid PipelineAct (LivesShared Tid) PipelinePc :=
  fun t _ s pc =>
    match pc with
    | .prepare _ (.enqueue (.publish batch)) =>
      s.pipeline.is_applied batch = false ∧ ∀ u, s.returning u ≠ some batch
    | .dequeue (.cas ht _) =>
      s.pipeline.queue.head_tail = ht →
        s.pipeline.queue.enqueued.length < s.loaded t + 2 ^ 32
    | _ => True

instance [Fintype Tid] (t : Tid) (a : PipelineAct) (s : LivesShared Tid) (pc : PipelinePc) :
    Decidable (lives_apart t a s pc) := by
  unfold lives_apart
  split <;> infer_instance

/-- Program points at which a thread knows nothing of the queue. -/
def PipelinePc.outside : PipelinePc → Prop
  | .idle | .prepare _ _ | .dequeue .load => True
  | .dequeue _ => False

/-- Everything a step can do, as far as the counters, the applied flags and the
lives of the batches are concerned. -/
inductive LivesMove (s : PipelineShared Tid) (a : PipelineAct) :
    PipelinePc → PipelineShared Tid → PipelinePc → Prop
  | quiet {pc pc' : PipelinePc} {s' : PipelineShared Tid}
    (hword : s'.queue.head_tail = s.queue.head_tail)
    (henqueued : s'.queue.enqueued = s.queue.enqueued)
    (happlied : ∀ batch, s'.is_applied batch = true → s.is_applied batch = true)
    (hpending : ∀ pending, pending_after a pc pending = pending) (hpc : pc.returns = none)
    (hpc' : pc'.outside) : LivesMove s a pc s' pc'
  | write (batch : BatchPtr) (inner : BatchInner) (hact : a = .write batch inner) :
    LivesMove s a .idle (s.with_batch batch inner) .idle
  | publish {of batch : BatchPtr} : LivesMove s a (.prepare of (.enqueue (.publish batch)))
      { s with queue :=
        s.queue.published (s.queue.head_tail + (1#64 <<< HeadTail.DEQUEUE_BITS)) batch }
      (.prepare of .set_in_queue)
  | load {pc : DequeuePc} (hpc : pc = .load ∨ ∃ ht batch, pc = .cas ht batch) :
    LivesMove s a (.dequeue pc) s (.dequeue (.load_slot s.queue.head_tail))
  | read_slot {ht : BitVec 64} {batch : BatchPtr} :
    LivesMove s a (.dequeue (.load_slot ht)) s (.dequeue (.is_applied ht batch))
  | saw_applied {ht : BitVec 64} {batch : BatchPtr} (happlied : s.is_applied batch = true) :
    LivesMove s a (.dequeue (.is_applied ht batch)) s (.dequeue (.cas ht batch))
  | claim {batch : BatchPtr} {head tail : BitVec 32} {claimed : List (BatchPtr × Bool)}
    {position : Nat} (hunpack : HeadTail.unpack_unchecked s.queue.head_tail = (head, tail)) :
    LivesMove s a (.dequeue (.cas s.queue.head_tail batch))
      { s with queue := { s.queue with
        head_tail := (HeadTail.pack head (tail + 1#32)).raw
        claimed } } (.dequeue (.clear position tail batch))
  | clear {position : Nat} {tail : BitVec 32} {batch : BatchPtr} {slots : Nat → Option BatchPtr}
    {returned : List (Nat × BatchPtr)} : LivesMove s a (.dequeue (.clear position tail batch))
      { s with queue := { s.queue with slots, returned } } .idle

section moves

variable {t : Tid} {a : PipelineAct} {s s' : PipelineShared Tid} {pc pc' : PipelinePc}

theorem pending_after_prepare {of : BatchPtr} {pc : PreparePc} {pending : BatchPtr → Bool}
    (hpc : ∀ published, pc ≠ .enqueue (.publish published)) :
    pending_after a (.prepare of pc) pending = pending := by
  cases pc with
  | enqueue pc =>
    cases pc with
    | publish published => exact absurd rfl (hpc published)
    | _ => rfl
  | _ => rfl

/-- A batch becomes pending only when it is published. -/
theorem pending_after_of_not {pending : BatchPtr → Bool} {batch : BatchPtr}
    (hnot : pending batch = false) (hpc : ∀ of, pc ≠ .prepare of (.enqueue (.publish batch))) :
    pending_after a pc pending batch = false := by
  unfold pending_after
  split
  · rename_i of published
    have hne : batch ≠ published := by
      rintro rfl
      exact hpc of rfl
    rw [Function.update_of_ne hne, hnot]
  · rename_i written inner
    split
    · by_cases hbatch : batch = written
      · rw [hbatch, Function.update_self]
      · rw [Function.update_of_ne hbatch, hnot]
    · exact hnot
  · exact hnot

omit [DecidableEq Tid] in
/-- A step of `prepare` other than the publication leaves the counters alone and
marks nothing applied. -/
theorem prepare_step_lives {batch : BatchPtr} {env_ok : Bool} {pc : PreparePc}
    {progress : Progress PreparePc PrepareResult}
    (hpc : ∀ published, pc ≠ .enqueue (.publish published))
    (hstep : prepare_step N overflow_checks t batch env_ok s pc = some (s', progress)) :
    s'.queue.head_tail = s.queue.head_tail ∧ s'.queue.enqueued = s.queue.enqueued ∧
      ∀ other, s'.is_applied other = true → s.is_applied other = true := by
  cases pc with
  | lock =>
    simp only [prepare_step] at hstep
    split at hstep <;> cases hstep <;> exact ⟨rfl, rfl, fun _ => id⟩
  | enqueue pc =>
    cases pc with
    | load enqueued =>
      simp only [prepare_step, enqueue_step] at hstep
      split at hstep <;> cases hstep <;> exact ⟨rfl, rfl, fun _ => id⟩
    | load_slot | store =>
      cases hstep
      exact ⟨rfl, rfl, fun _ => id⟩
    | publish published => exact absurd rfl (hpc published)
  | set_in_queue =>
    cases hstep
    refine ⟨rfl, rfl, fun other hother => ?_⟩
    by_cases hbatch : other = batch
    · rw [hbatch, PipelineShared.is_applied, PipelineShared.with_batch_self] at hother
      cases hother
    · rwa [PipelineShared.is_applied, PipelineShared.with_batch_of_ne _ _ hbatch] at hother
  | assign base =>
    simp only [prepare_step] at hstep
    split at hstep
    · rename_i inner hassign
      cases hstep
      refine ⟨rfl, rfl, fun other hother => ?_⟩
      by_cases hbatch : other = batch
      · rw [hbatch, PipelineShared.is_applied, PipelineShared.with_batch_self,
          assign_seq_num_once_state hassign] at hother
        rwa [hbatch]
      · rwa [PipelineShared.is_applied, PipelineShared.with_batch_of_ne _ _ hbatch] at hother
    · cases hstep
      exact ⟨rfl, rfl, fun _ => id⟩
  | fetch_add | prepare_commit | unlock | unwind =>
    cases hstep
    exact ⟨rfl, rfl, fun _ => id⟩

omit [DecidableEq Tid] in
theorem dequeue_step_lives {env_ok : Bool} {pc : DequeuePc}
    (hstep : pipeline_step N overflow_checks t (.step env_ok) s (.dequeue pc) = some (s', pc')) :
    LivesMove s (.step env_ok) (.dequeue pc) s' pc' := by
  have hgive_up : ∀ pc, PipelinePc.returns (.dequeue pc) = none →
      LivesMove s (.step env_ok) (.dequeue pc) s .idle :=
    fun _ hpc => .quiet rfl rfl (fun _ => id) (fun _ => rfl) hpc trivial
  cases pc with
  | load =>
    cases hstep
    exact .load (.inl rfl)
  | load_slot ht =>
    rcases hunpack : HeadTail.unpack_unchecked ht with ⟨head, tail⟩
    by_cases hempty : tail = head
    · simp only [pipeline_step, dequeue_step, hunpack, if_pos hempty] at hstep
      cases hstep
      exact hgive_up _ rfl
    · cases hslot : s.queue.slots (slot_index N tail) with
      | none =>
        simp only [pipeline_step, dequeue_step, hunpack, if_neg hempty, hslot] at hstep
        cases hstep
        exact hgive_up _ rfl
      | some batch =>
        simp only [pipeline_step, dequeue_step, hunpack, if_neg hempty, hslot] at hstep
        cases hstep
        exact .read_slot
  | is_applied ht batch =>
    cases happlied : s.is_applied batch with
    | false =>
      simp only [pipeline_step, dequeue_step, happlied] at hstep
      cases hstep
      exact hgive_up _ rfl
    | true =>
      simp only [pipeline_step, dequeue_step, happlied, if_true] at hstep
      cases hstep
      exact .saw_applied happlied
  | cas ht batch =>
    rcases hunpack : HeadTail.unpack_unchecked ht with ⟨head, tail⟩
    by_cases hword : s.queue.head_tail = ht
    · subst hword
      simp only [pipeline_step, dequeue_step, hunpack, if_true] at hstep
      cases hstep
      exact .claim hunpack
    · simp only [pipeline_step, dequeue_step, hunpack, if_neg hword] at hstep
      cases hstep
      exact .load (.inr ⟨ht, batch, rfl⟩)
  | clear position tail batch =>
    cases hstep
    exact .clear

omit [DecidableEq Tid] in
theorem pipeline_step_lives
    (hstep : pipeline_step N overflow_checks t a s pc = some (s', pc')) :
    LivesMove s a pc s' pc' := by
  cases pc with
  | idle =>
    cases a with
    | prepare batch | try_dequeue =>
      cases hstep
      exact .quiet rfl rfl (fun _ => id) (fun _ => rfl) rfl trivial
    | write batch inner =>
      cases hstep
      exact .write batch inner rfl
    | step env_ok => cases hstep
  | prepare of pc =>
    cases a with
    | step env_ok =>
      by_cases hpublish : ∃ batch, pc = .enqueue (.publish batch)
      · obtain ⟨batch, rfl⟩ := hpublish
        simp only [pipeline_step, prepare_step, enqueue_step_publish, Option.map_some,
          Option.some.injEq, Prod.mk.injEq] at hstep
        obtain ⟨rfl, rfl⟩ := hstep
        exact .publish
      · have hother : ∀ batch, pc ≠ .enqueue (.publish batch) := fun batch h => hpublish ⟨batch, h⟩
        simp only [pipeline_step, Option.map_eq_some_iff, Prod.exists] at hstep
        obtain ⟨s₁, progress, hprepare, heq⟩ := hstep
        obtain ⟨hword, henqueued, happlied⟩ := prepare_step_lives hother hprepare
        cases progress <;> cases heq <;>
          exact .quiet hword henqueued happlied (fun _ => pending_after_prepare hother) rfl trivial
    | _ => cases hstep
  | dequeue pc =>
    cases a with
    | step env_ok => exact dequeue_step_lives hstep
    | _ => cases hstep

end moves

/-- The counters hold the number of enqueues, no pending batch is applied, and
none was returned. -/
structure LivesApart (s : LivesShared Tid) : Prop where
  word : ∃ dequeued, s.pipeline.queue.head_tail =
    HeadTail.counters s.pipeline.queue.enqueued.length dequeued
  pending : ∀ batch, s.pending batch = true → s.pipeline.is_applied batch = false
  early : s.early = []

/-- The counters that a consumer works on are those of its last load. -/
structure LoadedAt (t : Tid) (s : LivesShared Tid) (ht : BitVec 64) : Prop where
  before : s.loaded t ≤ s.pipeline.queue.enqueued.length
  word : ∃ dequeued, ht = HeadTail.counters (s.loaded t) dequeued

/-- What a consumer knows of the batch in its hands. -/
def ConsumesAt (t : Tid) (s : LivesShared Tid) : PipelinePc → Prop
  | .idle | .prepare _ _ | .dequeue .load => True
  | .dequeue (.load_slot ht) | .dequeue (.is_applied ht _) => LoadedAt t s ht
  | .dequeue (.cas ht batch) => LoadedAt t s ht ∧
    (s.loaded t = s.pipeline.queue.enqueued.length → s.pending batch = false)
  | .dequeue (.clear _ _ batch) => s.pending batch = false

structure LivesAt (t : Tid) (s : LivesShared Tid) (pc : PipelinePc) : Prop where
  returning : s.returning t = pc.returns
  consumes : ConsumesAt t s pc

def lives_outline : System.Outline Tid (LivesShared Tid) PipelinePc where
  shared := LivesApart
  thread := LivesAt
  apart := fun _ _ => True

section outline

variable {t u : Tid} {a : PipelineAct} {s : LivesShared Tid} {pc pc' : PipelinePc}
  {pipeline : PipelineShared Tid}

omit [DecidableEq Tid] in
/-- An exchange that succeeds within a lap of the enqueue counter succeeds on the
counters of the present. -/
theorem LoadedAt.current {ht : BitVec 64} (h : LoadedAt t s ht) (hs : LivesApart s)
    (hword : s.pipeline.queue.head_tail = ht)
    (hlap : s.pipeline.queue.enqueued.length < s.loaded t + 2 ^ 32) :
    s.loaded t = s.pipeline.queue.enqueued.length := by
  obtain ⟨_, hnow⟩ := hs.word
  obtain ⟨_, hthen⟩ := h.word
  rw [hnow, hthen, HeadTail.counters_eq_iff] at hword
  have hbefore := h.before
  omega

theorem LivesShared.observe_pending :
    (s.observe t a pc pipeline pc').pending = pending_after a pc s.pending := rfl

omit [DecidableEq Tid] in
theorem is_applied_with_queue (queue : BatchQueue) (batch : BatchPtr) :
    PipelineShared.is_applied { pipeline with queue } batch = pipeline.is_applied batch := rfl

omit [DecidableEq Tid] in
/-- A batch in the hands of a consumer that is about to return it is not pending. -/
theorem LivesAt.returns_applied (hl : LivesAt t s pc) : pc.returns.filter s.pending = none := by
  rw [Option.filter_eq_none_iff]
  intro batch hbatch
  unfold PipelinePc.returns at hbatch
  split at hbatch
  · cases hbatch
    rw [show s.pending batch = false from hl.consumes]
    exact Bool.false_ne_true
  · cases hbatch

omit [DecidableEq Tid] in
theorem LivesMove.word (hmove : LivesMove s.pipeline a pc pipeline pc') (hs : LivesApart s) :
    ∃ dequeued, pipeline.queue.head_tail =
      HeadTail.counters pipeline.queue.enqueued.length dequeued := by
  obtain ⟨dequeued, hword⟩ := hs.word
  cases hmove with
  | quiet hsame henqueued => exact ⟨dequeued, by rw [hsame, henqueued, hword]⟩
  | publish =>
    refine ⟨dequeued, ?_⟩
    simp only [BatchQueue.published_head_tail, BatchQueue.published_enqueued, List.length_append,
      List.length_singleton, hword, HeadTail.counters_add_head]
  | claim hunpack =>
    refine ⟨dequeued + 1, ?_⟩
    rw [hword, HeadTail.counters, HeadTail.unpack_unchecked_pack] at hunpack
    obtain ⟨rfl, rfl⟩ := Prod.mk.inj hunpack
    rw [HeadTail.counters, BitVec.ofNat_add]
  | _ => exact ⟨dequeued, hword⟩

omit [DecidableEq Tid] in
/-- A pending batch is not applied, after every step as before it. -/
theorem LivesMove.pending (hmove : LivesMove s.pipeline a pc pipeline pc') (hs : LivesApart s)
    (hG : lives_apart t a s pc) {batch : BatchPtr}
    (hpending : pending_after a pc s.pending batch = true) :
    pipeline.is_applied batch = false := by
  cases hmove with
  | quiet _ _ happlied hsame =>
    rw [hsame] at hpending
    have hbefore := hs.pending batch hpending
    by_contra hnow
    rw [happlied batch (by simpa using hnow)] at hbefore
    cases hbefore
  | write written inner hact =>
    subst hact
    by_cases hbatch : batch = written
    · subst hbatch
      rw [PipelineShared.is_applied, PipelineShared.with_batch_self, beq_eq_false_iff_ne]
      intro happlied
      rw [pending_after, if_pos happlied, Function.update_self] at hpending
      cases hpending
    · rw [PipelineShared.is_applied, PipelineShared.with_batch_of_ne _ _ hbatch]
      apply hs.pending batch
      by_contra hnot
      have hstill : pending_after (.write written inner) .idle s.pending batch = false :=
        pending_after_of_not (by simpa using hnot) fun _ => nofun
      rw [hstill] at hpending
      cases hpending
  | @publish _ published =>
    rw [is_applied_with_queue]
    by_cases hbatch : batch = published
    · rw [hbatch]
      exact hG.1
    · rw [pending_after_publish, Function.update_of_ne hbatch] at hpending
      exact hs.pending batch hpending
  | _ =>
    rw [pending_after_dequeue] at hpending
    exact hs.pending batch hpending

/-- A step of a consumer keeps its loaded counters, unless it loads them again. -/
theorem LoadedAt.observe {ht : BitVec 64} (h : LoadedAt t s ht)
    (henqueued : pipeline.queue.enqueued = s.pipeline.queue.enqueued)
    (hloaded : loaded_after s.pipeline.queue.enqueued.length pc' (s.loaded t) = s.loaded t) :
    LoadedAt t (s.observe t a pc pipeline pc') ht := by
  have hsame : (s.observe t a pc pipeline pc').loaded t = s.loaded t :=
    (Function.update_self ..).trans hloaded
  refine ⟨?_, ?_⟩
  · rw [hsame]
    exact h.before.trans_eq (congrArg List.length henqueued.symm)
  · rw [hsame]
    exact h.word

theorem LivesMove.own (hmove : LivesMove s.pipeline a pc pipeline pc') (hs : LivesApart s)
    (hl : LivesAt t s pc) (hG : lives_apart t a s pc) :
    ConsumesAt t (s.observe t a pc pipeline pc') pc' := by
  cases hmove with
  | quiet _ _ _ _ _ hpc' =>
    cases pc' with
    | idle | prepare => trivial
    | dequeue pc' =>
      cases pc' with
      | load => trivial
      | _ => exact hpc'.elim
  | write | publish | clear => trivial
  | @load pc =>
    have hloaded : (s.observe t a (.dequeue pc) s.pipeline
        (.dequeue (.load_slot s.pipeline.queue.head_tail))).loaded t =
        s.pipeline.queue.enqueued.length := Function.update_self ..
    refine ⟨hloaded.le, ?_⟩
    rw [hloaded]
    exact hs.word
  | read_slot => exact LoadedAt.observe hl.consumes rfl rfl
  | saw_applied happlied =>
    refine ⟨LoadedAt.observe hl.consumes rfl rfl, fun _ => ?_⟩
    rw [LivesShared.observe_pending, pending_after_dequeue]
    by_contra hpending
    rw [hs.pending _ (by simpa using hpending)] at happlied
    cases happlied
  | claim =>
    obtain ⟨hloaded, hpending⟩ := hl.consumes
    rw [ConsumesAt, LivesShared.observe_pending, pending_after_dequeue]
    exact hpending (hloaded.current hs rfl (hG rfl))

omit [DecidableEq Tid] in
/-- Every step enqueues nothing or is the publication of one batch. -/
theorem LivesMove.enqueues (hmove : LivesMove s.pipeline a pc pipeline pc') :
    (pipeline.queue.enqueued = s.pipeline.queue.enqueued ∧
      ∀ of batch, pc ≠ .prepare of (.enqueue (.publish batch))) ∨
    pipeline.queue.enqueued.length = s.pipeline.queue.enqueued.length + 1 := by
  cases hmove with
  | quiet _ henqueued _ hpending =>
    refine .inl ⟨henqueued, ?_⟩
    rintro of batch rfl
    have hsame := congrFun (hpending fun _ => false) batch
    rw [pending_after_publish, Function.update_self] at hsame
    cases hsame
  | publish => exact .inr (List.length_append ..)
  | _ => exact .inl ⟨rfl, fun _ _ => nofun⟩

theorem LivesMove.other (hne : u ≠ t) (hmove : LivesMove s.pipeline a pc pipeline pc')
    (hG : lives_apart t a s pc) {m : PipelinePc} (hm : LivesAt u s m) :
    ConsumesAt u (s.observe t a pc pipeline pc') m := by
  have hloaded : (s.observe t a pc pipeline pc').loaded u = s.loaded u :=
    Function.update_of_ne hne ..
  have hload : ∀ {ht}, LoadedAt u s ht → LoadedAt u (s.observe t a pc pipeline pc') ht := by
    intro ht h
    refine ⟨?_, by rw [hloaded]; exact h.word⟩
    rw [hloaded]
    have hbefore := h.before
    change s.loaded u ≤ pipeline.queue.enqueued.length
    obtain ⟨hsame, -⟩ | hmore := hmove.enqueues
    · rwa [hsame]
    · omega
  cases m with
  | idle | prepare => trivial
  | dequeue m =>
    cases m with
    | load => trivial
    | load_slot | is_applied => exact hload hm.consumes
    | cas ht batch =>
      obtain ⟨hl, hpending⟩ := hm.consumes
      refine ⟨hload hl, fun hpresent => ?_⟩
      change (s.observe t a pc pipeline pc').loaded u = pipeline.queue.enqueued.length at hpresent
      rw [hloaded] at hpresent
      obtain ⟨hsame, hpc⟩ | hmore := hmove.enqueues
      · rw [hsame] at hpresent
        exact pending_after_of_not (hpending hpresent) fun of => hpc of batch
      · have hbefore := hl.before
        omega
    | clear position tail batch =>
      apply pending_after_of_not hm.consumes
      rintro of rfl
      exact hG.2 u hm.returning

end outline

theorem lives_outline_valid : System.Outline.trivial.ValidOver lives_outline
    (lives_system Tid N overflow_checks batches) lives_apart where
  init_shared := ⟨⟨0, HeadTail.counters_zero.symm⟩, nofun, rfl⟩
  init_thread := fun _ => ⟨rfl, trivial⟩
  init_apart := trivial
  step_own := by
    intro t a s pc r _ _ hs hl hG hstep
    obtain ⟨⟨pipeline, pc'⟩, hpipeline, rfl⟩ := Option.map_eq_some_iff.mp hstep
    have hmove := pipeline_step_lives hpipeline
    refine ⟨⟨hmove.word hs, fun batch => hmove.pending hs hG, ?_⟩, Function.update_self ..,
      hmove.own hs hl hG⟩
    change (pc.returns.filter s.pending).toList ++ s.early = []
    rw [hl.returns_applied, hs.early]
    rfl
  step_other := by
    intro t u a s pc m r hne _ hpair hG hstep
    obtain ⟨⟨pipeline, pc'⟩, hpipeline, rfl⟩ := Option.map_eq_some_iff.mp hstep
    have hmove := pipeline_step_lives hpipeline
    refine ⟨⟨?_, hmove.other hne.symm hG hpair.other⟩, trivial, trivial⟩
    exact (Function.update_of_ne hne.symm ..).trans hpair.other.returning

/-- In every run in which the lives of the batches are kept apart, no
`try_dequeue` returns a batch between its `enqueue` and the time it is marked
applied. -/
theorem no_early_dequeue {c : LivesConfig Tid}
    (hc : (lives_system Tid N overflow_checks batches).ReachableUnder lives_apart c) :
    c.shared.early = [] :=
  (lives_outline_valid.holds_of_trivial hc).shared.early

/-- The next `n` steps of thread `t`. -/
def pipeline_steps_of (t : Bool) (n : Nat) : List (Bool × PipelineAct) :=
  List.replicate n (t, .step true)

def applied_batch : BatchInner := BatchInner.new.set_runtime_state .Applied

/-- Thread `false` prepares batch 10, which is then marked applied, and thread
`true` dequeues it. -/
def one_life : List (Bool × PipelineAct) :=
  (false, .prepare 10) :: pipeline_steps_of false 10 ++ [(false, .write 10 applied_batch)] ++
    (true, .try_dequeue) :: pipeline_steps_of true 5

/-- Batch 10 is reset between its two lives. -/
theorem no_early_dequeue_two_lives : ∃ c : LivesConfig Bool,
    c.shared.pipeline.queue.returned = [(0, 10), (1, 10)] ∧ c.shared.early = [] := by
  obtain ⟨c, hc, hseen⟩ := System.reachable_showing
    (lives_system Bool 2 true fun _ => BatchInner.new) lives_apart
    (one_life ++ (false, .write 10 BatchInner.new) :: one_life)
    (fun c => c.shared.pipeline.queue.returned) [(0, 10), (1, 10)] (by decide +kernel)
  exact ⟨c, hseen, no_early_dequeue hc⟩

/-- Batch 10, still marked applied from its first life, is committed again and
dequeued right after it is published. -/
theorem applied_batch_dequeued_early : ∃ c : LivesConfig Bool,
    (lives_system Bool 2 true fun _ => BatchInner.new).Reachable c ∧
      c.threads false = .prepare 10 .set_in_queue ∧ ¬ c.shared.early = [] := by
  obtain ⟨c, hc, hseen⟩ := System.reachable_showing
    (lives_system Bool 2 true fun _ => BatchInner.new) System.anyStep
    (one_life ++ (false, .prepare 10) :: pipeline_steps_of false 5 ++
      (true, .try_dequeue) :: pipeline_steps_of true 5)
    (fun c => (c.threads false, c.shared.early)) (.prepare 10 .set_in_queue, [10])
    (by decide +kernel)
  obtain ⟨hpc, hearly⟩ := Prod.mk.inj hseen
  exact ⟨c, hc, hpc, by rw [hearly]; exact List.cons_ne_nil _ _⟩

end ordinum.write_pipeline
