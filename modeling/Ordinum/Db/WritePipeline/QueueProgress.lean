import Ordinum.Db.WritePipeline.QueueInvariant
import Ordinum.Interleaving.LockFree

open interleaving
open interleaving.System
open ordinum.batch

namespace ordinum.write_pipeline

variable {Tid : Type} {N : Nat}

/-- What the call of a thread has still to do before it returns, apart from its accesses
to claim a batch. Outside of the queue a thread has its next call before it. -/
def QueuePc.work : QueuePc → Nat
  | .idle | .acquire _ | .release _ => 5
  | .enqueue (.load _) => 4
  | .enqueue (.load_slot _ _) => 3
  | .enqueue (.store _ _) => 2
  | .enqueue (.publish _) => 1
  | .dequeue (.clear _ _ _) => 0
  | .dequeue _ => 1

/-- The accesses up to an exchange that is made on the counters as they are now: one on
older counters fails, and the call begins again. -/
def QueuePc.accesses (head_tail : BitVec 64) : QueuePc → Nat
  | .dequeue .load => 6
  | .dequeue (.load_slot ht) => if head_tail = ht then 2 else 5
  | .dequeue (.is_applied ht _) => if head_tail = ht then 1 else 4
  | .dequeue (.cas ht _) => if head_tail = ht then 0 else 3
  | _ => 0

section moves

variable {t : Tid} {a : QueueAct Tid} {s s' : QueueShared Tid} {pc pc' : QueuePc}

theorem QueuePc.work_of_quiet (h : pc.quiet) : pc.work = 5 := by
  cases pc with
  | idle | acquire | release => rfl
  | enqueue | dequeue => exact h.elim

theorem QueuePc.accesses_of_quiet (head_tail : BitVec 64) (h : pc.quiet) :
    pc.accesses head_tail = 0 := by
  cases pc with
  | idle | acquire | release => rfl
  | enqueue | dequeue => exact h.elim

/-- An exchange on the counters as they are now claims a batch; one on older counters
begins again with these. -/
theorem cas_forward [DecidableEq Tid] {choice : SemChoice Tid} {permit : Permit} {ht : BitVec 64}
    {batch : BatchPtr} {r : QueueShared Tid × QueueThread}
    (hstep : queue_step N t (.step choice) s { pc := .dequeue (.cas ht batch), permit } = some r) :
    r.2.pc.work = 0 ∨ s.queue.head_tail ≠ ht ∧ r.1 = s ∧
      r.2.pc = .dequeue (.load_slot s.queue.head_tail) := by
  rcases hunpack : HeadTail.unpack_unchecked ht with ⟨head, tail⟩
  by_cases hcur : s.queue.head_tail = ht
  · simp only [queue_step, dequeue_step, hunpack, if_pos hcur] at hstep
    cases hstep
    exact .inl rfl
  · simp only [queue_step, dequeue_step, if_neg hcur] at hstep
    cases hstep
    exact .inr ⟨hcur, rfl, rfl⟩

/-- A step after which its call has not returned brings the call forward. -/
theorem queue_step_forward [DecidableEq Tid] {l : QueueThread}
    {r : QueueShared Tid × QueueThread} (hstep : queue_step N t a s l = some r)
    (hcall : ¬ l.pc.quiet) (hbusy : ¬ r.2.pc.quiet) :
    r.2.pc.work < l.pc.work ∨ r.2.pc.work = l.pc.work ∧
      r.1.queue.head_tail = s.queue.head_tail ∧
      r.2.pc.accesses s.queue.head_tail < l.pc.accesses s.queue.head_tail := by
  have hmove := queue_step_move hstep
  obtain ⟨pc, permit⟩ := l
  cases pc with
  | idle | acquire | release => exact absurd trivial hcall
  | enqueue pc =>
    left
    generalize r.1 = s', r.2.pc = pc' at hmove hbusy
    cases hmove with
    | load_head | load_slot | store => exact Nat.lt_succ_self _
    | full | publish => exact absurd trivial hbusy
    | semaphore _ hpc => exact hpc.elim
  | dequeue pc =>
    cases pc with
    | cas ht batch =>
      cases a with
      | step choice =>
        obtain hclaimed | ⟨hold, hshared, hpc⟩ := cas_forward hstep
        · exact .inl (hclaimed ▸ Nat.one_pos)
        · refine .inr ⟨by rw [hpc]; rfl, by rw [hshared], ?_⟩
          rw [hpc]
          simp only [QueuePc.accesses, if_true, if_neg hold]
          exact Nat.lt_succ_self 2
      | _ => cases hstep
    | load =>
      generalize r.1 = s', r.2.pc = pc' at hmove hbusy
      cases hmove with
      | load =>
        refine .inr ⟨rfl, rfl, ?_⟩
        simp only [QueuePc.accesses, if_true]
        decide
      | give_up => exact absurd trivial hbusy
      | semaphore _ hpc => exact hpc.elim
    | load_slot | is_applied =>
      generalize r.1 = s', r.2.pc = pc' at hmove hbusy
      cases hmove with
      | give_up => exact absurd trivial hbusy
      | semaphore _ hpc => exact hpc.elim
      | _ =>
        refine .inr ⟨rfl, rfl, ?_⟩
        simp only [QueuePc.accesses]
        split
        · decide
        · decide
    | clear =>
      generalize r.1 = s', r.2.pc = pc' at hmove hbusy
      cases hmove with
      | clear | give_up => exact absurd trivial hbusy
      | semaphore _ hpc => exact hpc.elim

/-- A step outside of the calls to the queue leaves the counters as they are. -/
theorem QueueMove.quiet_step (hmove : QueueMove N t s a pc s' pc') (hquiet : pc.quiet) :
    s'.queue.head_tail = s.queue.head_tail ∧ (pc'.quiet ∨ pc'.work < pc.work) := by
  cases hmove with
  | start_enqueue => exact ⟨rfl, .inr (Nat.lt_succ_self 4)⟩
  | start_dequeue => exact ⟨rfl, .inr (by decide)⟩
  | set_state => exact ⟨rfl, .inl trivial⟩
  | semaphore _ _ hpc' => exact ⟨rfl, .inl hpc'⟩
  | _ => exact hquiet.elim

end moves

section runs

variable [Fintype Tid] [DecidableEq Tid]

/-- What the threads have left to do together. -/
def queue_left (c : QueueConfig Tid) : Left :=
  .of (c.total fun l => l.pc.work) (c.total fun l => l.pc.accesses c.shared.queue.head_tail) 0

/-- A thread whose call goes on leaves less to do, and one outside of the queue no more. -/
theorem queue_left_step {c : QueueConfig Tid} {t : Tid} {a : QueueAct Tid}
    {r : QueueShared Tid × QueueThread}
    (hstep : queue_step N t a c.shared (c.threads t) = some r)
    (hbusy : ¬ (c.threads t).pc.quiet → ¬ r.2.pc.quiet) :
    queue_left (c.move t r) ≤ queue_left c ∧
      (¬ (c.threads t).pc.quiet → queue_left (c.move t r) < queue_left c) := by
  have hwork := c.total_move (fun l => l.pc.work) t r
  have haccesses : r.1.queue.head_tail = c.shared.queue.head_tail →
      (c.move t r).total (fun l => l.pc.accesses r.1.queue.head_tail) +
        (c.threads t).pc.accesses c.shared.queue.head_tail =
      c.total (fun l => l.pc.accesses c.shared.queue.head_tail) +
        r.2.pc.accesses c.shared.queue.head_tail := by
    intro hsame
    rw [hsame]
    exact c.total_move (fun l => l.pc.accesses c.shared.queue.head_tail) t r
  by_cases hquiet : (c.threads t).pc.quiet
  · refine ⟨?_, fun h => absurd hquiet h⟩
    obtain ⟨hsame, hpc⟩ := (queue_step_move hstep).quiet_step hquiet
    have haccesses := haccesses hsame
    rw [QueuePc.accesses_of_quiet _ hquiet] at haccesses
    obtain hquiet' | hless := hpc
    · rw [QueuePc.work_of_quiet hquiet, QueuePc.work_of_quiet hquiet'] at hwork
      rw [QueuePc.accesses_of_quiet _ hquiet'] at haccesses
      rw [queue_left, queue_left, Config.move_shared]
      refine le_of_eq (congrArg₂ (Left.of · · 0) ?_ ?_)
      · omega
      · omega
    · refine le_of_lt (Left.of_lt (.inl ?_))
      omega
  · have hless : queue_left (c.move t r) < queue_left c := by
      apply Left.of_lt
      obtain hless | ⟨hsame, hhead, hless⟩ := queue_step_forward hstep hquiet (hbusy hquiet)
      · exact .inl (by omega)
      · have haccesses := haccesses hhead
        exact .inr ⟨by omega, .inl (by rw [Config.move_shared]; omega)⟩
    exact ⟨hless.le, fun _ => hless⟩

/-- The step is one of a call to `enqueue` or `try_dequeue`. -/
def in_queue_call (run : Nat → QueueConfig Tid) (schedule : Nat → Tid × QueueAct Tid) (n : Nat) :
    Prop :=
  ¬ ((run n).threads (schedule n).1).pc.quiet

/-- The step is the last one of such a call. -/
def queue_call_returns (run : Nat → QueueConfig Tid) (schedule : Nat → Tid × QueueAct Tid)
    (n : Nat) : Prop :=
  in_queue_call run schedule n ∧ ((run (n + 1)).threads (schedule n).1).pc.quiet

/-- The queue is lock-free: no run, in which threads use the semaphore and store runtime
states as well, takes steps of `enqueue` and `try_dequeue` without end and none of these
calls returns. -/
theorem batch_queue_lock_free :
    ¬ ∃ (run : Nat → QueueConfig Tid) (schedule : Nat → Tid × QueueAct Tid),
      (queue_system Tid N).Endless anyStep run schedule ∧
      (∀ n, ∃ m, n ≤ m ∧ in_queue_call run schedule m) ∧
      ∀ n, ¬ queue_call_returns run schedule n := by
  rintro ⟨run, schedule, hrun, hbusy, hreturns⟩
  have hstep : ∀ n, queue_left (run (n + 1)) ≤ queue_left (run n) ∧
      (in_queue_call run schedule n → queue_left (run (n + 1)) < queue_left (run n)) := by
    intro n
    obtain ⟨r, hr, hnext⟩ := hrun.step n
    rw [hnext]
    refine queue_left_step hr fun hcall hquiet => hreturns n ⟨hcall, ?_⟩
    rw [hnext, Config.move_threads_self]
    exact hquiet
  obtain ⟨n, hn⟩ := shrinks_finitely_often (fun n => queue_left (run n)) fun n =>
    (hstep n).1
  obtain ⟨m, hm, hcall⟩ := hbusy n
  exact hn m hm ((hstep m).2 hcall)

end runs

end ordinum.write_pipeline
