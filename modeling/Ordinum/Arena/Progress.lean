import Ordinum.Arena.Outcome
import Ordinum.Interleaving.LockFree

open interleaving

namespace ordinum.arena

/-- What is left of a call beside its retries: it is to begin, to move a bump, and
to store the chunk that it has counted. -/
def ArenaPc.work : ArenaPc → Nat
  | .idle => 2
  | .alloc _ _ (.count ..) => 0
  | .alloc _ _ .push => 3
  | .alloc _ _ (.publish _) => 2
  | .alloc _ _ _ => 1

section accesses

variable {Tid : Type}

/-- The current chunk passes the check for the layout. -/
def ArenaShared.has_room (s : ArenaShared Tid) (layout : Layout) : Bool :=
  (alignment_check s.current_len s.current_bump layout).toBool

/-- The steps that a call has left at most while no bump moves and no chunk is
stored. Without room the way leads through the lock to a new chunk; what was read
before the last store leads back to the start once. -/
def AllocPc.accesses (s : ArenaShared Tid) (layout : Layout) : AllocPc → Nat
  | .get_chunk => if s.has_room layout then 4 else 9
  | .load_bump chunk =>
    if chunk = s.current_chunk then if s.has_room layout then 3 else 8 else 13
  | .check chunk bump =>
    if chunk = s.current_chunk ∧ bump = s.current_bump then
      if s.has_room layout then 2 else 7
    else 12
  | .cas chunk bump _ _ => if (s.chunk chunk).bump = bump then 1 else 11
  | .count .. => 0
  | .lock => if s.has_room layout then 9 else 6
  | .current => if s.has_room layout then 8 else 5
  | .reload chunk =>
    if chunk = s.current_chunk then if s.has_room layout then 7 else 4 else 13
  | .recheck bump => if bump = s.current_bump then if s.has_room layout then 6 else 3 else 12
  | .load_allocated => 2
  | .fetch_add => 1
  | .push | .publish _ => 0
  | .unlock none => if s.has_room layout then 5 else 10
  | .unlock (some _) => 1

def ArenaPc.accesses (s : ArenaShared Tid) : ArenaPc → Nat
  | .idle => 0
  | .alloc _ layout pc => pc.accesses s layout

/-- The chunks are the same, with their bumps, and so is the current one. -/
structure SameChunks (s s' : ArenaShared Tid) : Prop where
  chunks : s'.chunks = s.chunks
  current : s'.current_chunk = s.current_chunk

theorem SameChunks.refl (s : ArenaShared Tid) : SameChunks s s := ⟨rfl, rfl⟩

variable {s s' : ArenaShared Tid} {layout : Layout}

theorem SameChunks.chunk (h : SameChunks s s') (i : Nat) : s'.chunk i = s.chunk i :=
  congrArg (fun chunks => chunks.getD i ⟨0, 0, 0⟩) h.chunks

theorem SameChunks.current_bump (h : SameChunks s s') : s'.current_bump = s.current_bump := by
  rw [ArenaShared.current_bump, h.current, h.chunk, ArenaShared.current_bump]

theorem SameChunks.has_room (h : SameChunks s s') : s'.has_room layout = s.has_room layout := by
  rw [ArenaShared.has_room, h.current_bump, ArenaShared.current_len, h.current, h.chunk]
  rfl

theorem SameChunks.accesses (h : SameChunks s s') (pc : ArenaPc) :
    pc.accesses s' = pc.accesses s := by
  cases pc with
  | idle => rfl
  | alloc call layout pc =>
    simp only [ArenaPc.accesses]
    cases pc with
    | unlock result => cases result <;> simp only [AllocPc.accesses, h.has_room]
    | _ => simp only [AllocPc.accesses, h.has_room, h.current, h.current_bump, h.chunk]

end accesses

section steps

variable {Tid : Type} {policy : ArenaPolicy} {t : Tid} {s : ArenaShared Tid}

/-- What brings a call forward: it counts a block, has a store or its beginning
behind it, or is an access closer to one. -/
def Forward (policy : ArenaPolicy) (s : ArenaShared Tid) (pc : ArenaPc) (s' : ArenaShared Tid)
    (pc' : ArenaPc) : Prop :=
  (∃ call layout, pc = .alloc call layout .fetch_add ∧
    s'.allocated_bytes = s.allocated_bytes + policy.block_size) ∨
  s'.allocated_bytes = s.allocated_bytes ∧ (pc'.work < pc.work ∨
    pc'.work = pc.work ∧ SameChunks s s' ∧ pc'.accesses s < pc.accesses s)

theorem Forward.access {call : AllocCall} {layout : Layout} {pc pc' : AllocPc}
    (hwork : (ArenaPc.alloc call layout pc').work = (ArenaPc.alloc call layout pc).work)
    (hless : pc'.accesses s layout < pc.accesses s layout) :
    Forward policy s (.alloc call layout pc) s (.alloc call layout pc') :=
  .inr ⟨rfl, .inr ⟨hwork, .refl s, hless⟩⟩

/-- A check of the bump that is current says whether there is room. -/
theorem has_room_of_check {layout : Layout} {bump : Nat}
    {result : Except ArenaError (Nat × Nat)}
    (hcheck : alignment_check s.current_len bump layout = result)
    (hbump : bump = s.current_bump) : s.has_room layout = result.toBool := by
  rw [← hcheck, hbump]
  rfl

/-- The check before the exchange sends the call to the lock only if there is no
room, unless what it checks is out of date. -/
theorem check_forward {call : AllocCall} {layout : Layout} {choice : AllocChoice}
    {chunk bump : Nat} {s' : ArenaShared Tid} {progress : Progress AllocPc AllocResult}
    (hstep : alloc_step policy t call layout choice s (.check chunk bump) =
      some (s', progress)) :
    Forward policy s (.alloc call layout (.check chunk bump)) s'
      (progress.elim (.alloc call layout) fun _ => .idle) := by
  simp only [alloc_step] at hstep
  cases hcheck : alignment_check s.current_len bump layout with
  | error e =>
    rw [hcheck] at hstep
    cases hstep
    refine Forward.access rfl ?_
    simp only [AllocPc.accesses]
    by_cases hfresh : chunk = s.current_chunk ∧ bump = s.current_bump
    · have hfull : s.has_room layout = false := has_room_of_check hcheck hfresh.2
      rw [if_pos hfresh, hfull]
      decide
    · rw [if_neg hfresh]
      split <;> decide
  | ok offsets =>
    rw [hcheck] at hstep
    cases hstep
    refine Forward.access rfl ?_
    simp only [AllocPc.accesses]
    by_cases hfresh : chunk = s.current_chunk ∧ bump = s.current_bump
    · have hbump : (s.chunk chunk).bump = bump := by
        rw [hfresh.1, hfresh.2]
        rfl
      have hfits : s.has_room layout = true := has_room_of_check hcheck hfresh.2
      rw [if_pos hfresh, if_pos hbump, hfits]
      decide
    · rw [if_neg hfresh]
      split <;> decide

/-- Likewise the check under the lock, which sends the call back if there is room. -/
theorem recheck_forward {call : AllocCall} {layout : Layout} {choice : AllocChoice}
    {bump : Nat} {s' : ArenaShared Tid} {progress : Progress AllocPc AllocResult}
    (hstep : alloc_step policy t call layout choice s (.recheck bump) = some (s', progress)) :
    Forward policy s (.alloc call layout (.recheck bump)) s'
      (progress.elim (.alloc call layout) fun _ => .idle) := by
  simp only [alloc_step] at hstep
  cases hcheck : alignment_check s.current_len bump layout with
  | error e =>
    rw [hcheck] at hstep
    cases hstep
    refine Forward.access rfl ?_
    simp only [AllocPc.accesses]
    split
    · split <;> decide
    · decide
  | ok offsets =>
    rw [hcheck] at hstep
    cases hstep
    refine Forward.access rfl ?_
    simp only [AllocPc.accesses]
    by_cases hfresh : bump = s.current_bump
    · have hfits : s.has_room layout = true := has_room_of_check hcheck hfresh
      rw [if_pos hfresh, hfits]
      decide
    · rw [if_neg hfresh]
      split <;> decide

/-- A step after which its call has not returned brings the call forward, unless
an exchange fails for no reason. -/
theorem alloc_forward {call : AllocCall} {layout : Layout} {choice : AllocChoice} {pc : AllocPc}
    {s' : ArenaShared Tid} {progress : Progress AllocPc AllocResult}
    (hstep : alloc_step policy t call layout choice s pc = some (s', progress))
    (hspurious : ¬ FailsSpuriously choice pc)
    (hbusy : progress.elim (.alloc call layout) (fun _ => ArenaPc.idle) ≠ .idle) :
    Forward policy s (.alloc call layout pc) s'
      (progress.elim (.alloc call layout) fun _ => .idle) := by
  cases pc with
  | get_chunk =>
    cases hstep
    refine Forward.access rfl ?_
    simp only [AllocPc.accesses, if_true]
    split <;> decide
  | load_bump chunk =>
    cases hstep
    refine Forward.access rfl ?_
    simp only [AllocPc.accesses]
    by_cases hcurrent : chunk = s.current_chunk
    · have hbump : (s.chunk chunk).bump = s.current_bump := by rw [hcurrent]; rfl
      rw [if_pos hcurrent, if_pos ⟨hcurrent, hbump⟩]
      split <;> decide
    · rw [if_neg hcurrent, if_neg fun h => hcurrent h.1]
      decide
  | check chunk bump => exact check_forward hstep
  | cas chunk bump aligned next =>
    simp only [alloc_step] at hstep
    split at hstep
    · cases hstep
      exact .inr ⟨rfl, .inl Nat.one_pos⟩
    · rename_i hfailed
      cases hstep
      have hold : ¬ (s.chunk chunk).bump = bump := by
        intro hbump
        refine hspurious ⟨?_, chunk, bump, aligned, next, rfl⟩
        cases hchoice : choice.spurious with
        | true => rfl
        | false => exact absurd ⟨hbump, hchoice⟩ hfailed
      refine Forward.access rfl ?_
      simp only [AllocPc.accesses, if_neg hold]
      split <;> decide
  | count =>
    cases hstep
    exact absurd rfl hbusy
  | lock =>
    simp only [alloc_step] at hstep
    split at hstep
    · cases hstep
      refine .inr ⟨rfl, .inr ⟨rfl, ⟨rfl, rfl⟩, ?_⟩⟩
      simp only [Progress.elim, ArenaPc.accesses, AllocPc.accesses]
      split <;> decide
    · cases hstep
  | current =>
    cases hstep
    refine Forward.access rfl ?_
    simp only [AllocPc.accesses, if_true]
    split <;> decide
  | reload chunk =>
    cases hstep
    refine Forward.access rfl ?_
    simp only [AllocPc.accesses]
    by_cases hcurrent : chunk = s.current_chunk
    · have hbump : (s.chunk chunk).bump = s.current_bump := by rw [hcurrent]; rfl
      rw [if_pos hcurrent, if_pos hbump]
      split <;> decide
    · rw [if_neg hcurrent]
      split
      · split <;> decide
      · decide
  | recheck bump => exact recheck_forward hstep
  | load_allocated =>
    simp only [alloc_step] at hstep
    split at hstep <;>
    · cases hstep
      exact Forward.access rfl Nat.one_lt_two
  | fetch_add =>
    cases hstep
    exact .inl ⟨call, layout, rfl, rfl⟩
  | push =>
    cases hstep
    exact .inr ⟨rfl, .inl (Nat.lt_succ_self 2)⟩
  | publish =>
    cases hstep
    exact .inr ⟨rfl, .inl (Nat.lt_succ_self 1)⟩
  | unlock result =>
    cases result with
    | none =>
      cases hstep
      refine .inr ⟨rfl, .inr ⟨rfl, ⟨rfl, rfl⟩, ?_⟩⟩
      simp only [Progress.elim, ArenaPc.accesses, AllocPc.accesses]
      split <;> decide
    | some e =>
      cases hstep
      exact absurd rfl hbusy

theorem arena_step_forward {a : ArenaAct} {pc : ArenaPc} {r : ArenaShared Tid × ArenaPc}
    (hstep : arena_step policy t a s pc = some r)
    (hspurious : ∀ choice call layout here, a = .step choice → pc = .alloc call layout here →
      ¬ FailsSpuriously choice here) (hbusy : r.2 ≠ .idle) :
    Forward policy s pc r.1 r.2 := by
  cases a with
  | alloc call layout =>
    cases pc with
    | idle =>
      injection hstep with hr
      subst hr
      unfold alloc_start at hbusy ⊢
      split at hbusy
      · exact absurd rfl hbusy
      · rename_i hsize
        rw [if_neg hsize]
        exact .inr ⟨rfl, .inl (Nat.lt_succ_self 1)⟩
    | alloc => cases hstep
  | step choice =>
    cases pc with
    | idle => cases hstep
    | alloc call layout pc =>
      obtain ⟨next, hnext, rfl⟩ := Option.map_eq_some_iff.mp hstep
      exact alloc_forward hnext (hspurious choice call layout pc rfl rfl) hbusy

/-- A call that does not wait for the lock can take its step. -/
theorem alloc_step_enabled {call : AllocCall} {layout : Layout} (choice : AllocChoice)
    {pc : AllocPc} (hready : pc = .lock → s.chunks_mu = none) :
    ∃ next, alloc_step policy t call layout choice s pc = some next := by
  cases pc with
  | check chunk bump =>
    simp only [alloc_step]
    split <;> exact ⟨_, rfl⟩
  | cas chunk bump aligned next =>
    simp only [alloc_step]
    split <;> exact ⟨_, rfl⟩
  | lock => exact ⟨_, if_pos (hready rfl)⟩
  | recheck bump =>
    simp only [alloc_step]
    split <;> exact ⟨_, rfl⟩
  | load_allocated =>
    simp only [alloc_step]
    split <;> exact ⟨_, rfl⟩
  | unlock result => cases result <;> exact ⟨_, rfl⟩
  | _ => exact ⟨_, rfl⟩

theorem arena_step_enabled {call : AllocCall} {layout : Layout} (choice : AllocChoice)
    {pc : AllocPc} (hready : pc = .lock → s.chunks_mu = none) :
    ∃ r, arena_step policy t (.step choice) s (.alloc call layout pc) = some r := by
  have hsome : ∃ next, alloc_step policy t call layout choice s pc = some next :=
    alloc_step_enabled choice hready
  obtain ⟨next, hnext⟩ := hsome
  rw [arena_step, hnext]
  exact ⟨_, rfl⟩

end steps

section runs

variable {Tid : Type} [DecidableEq Tid] {policy : ArenaPolicy} {base : Nat}

/-- A call that holds the lock can take its step, and else the lock is free for the
one that waits for it. -/
theorem call_enabled (hvalid : policy.Valid) {c : ArenaConfig Tid}
    (hc : (arena_system Tid policy base).Reachable c) {t : Tid} (hcall : c.threads t ≠ .idle) :
    ∃ u, c.threads u ≠ .idle ∧ ∀ choice,
      ∃ r, arena_step policy u (.step choice) c.shared (c.threads u) = some r := by
  have hbudget := budget_outline_holds hvalid hc
  obtain hfree | ⟨u, hu⟩ := Option.eq_none_or_eq_some c.shared.chunks_mu
  · refine ⟨t, hcall, fun choice => ?_⟩
    cases hpc : c.threads t with
    | idle => exact absurd hpc hcall
    | alloc call layout pc => exact arena_step_enabled choice fun _ => hfree
  · have hlocks := (hbudget.thread u).locked.mpr hu
    refine ⟨u, ?_, fun choice => ?_⟩
    · intro hidle
      rw [hidle] at hlocks
      cases hlocks
    · cases hpc : c.threads u with
      | idle =>
        rw [hpc] at hlocks
        cases hlocks
      | alloc call layout pc =>
        refine arena_step_enabled choice fun hlock => ?_
        rw [hpc, hlock] at hlocks
        cases hlocks

variable [Fintype Tid]

/-- What the threads have left to do together. -/
def arena_left (policy : ArenaPolicy) (c : ArenaConfig Tid) : Left :=
  .of (policy.cap - c.shared.allocated_bytes) (c.total ArenaPc.work)
    (c.total (ArenaPc.accesses c.shared))

/-- A step that brings its thread forward leaves less to do. -/
theorem arena_left_less (hvalid : policy.Valid) {c : ArenaConfig Tid}
    (hc : (arena_system Tid policy base).Reachable c) {t : Tid} {r : ArenaShared Tid × ArenaPc}
    (hforward : Forward policy c.shared (c.threads t) r.1 r.2) :
    arena_left policy (c.move t r) < arena_left policy c := by
  have hwork := c.total_move ArenaPc.work t r
  rw [arena_left, arena_left, Config.move_shared]
  apply Left.of_lt
  obtain ⟨_, _, hpc, hbytes⟩ | ⟨hbytes, hless | ⟨hsame, hchunks, hless⟩⟩ := hforward
  · have hroom := ((budget_outline_holds hvalid hc).thread t).room _ _ hpc
    have hpos := hvalid.block_pos
    exact .inl (by omega)
  · exact .inr ⟨by rw [hbytes], .inl (by omega)⟩
  · have hleft := c.total_step ArenaPc.accesses (t := t) (r := r) fun u _ =>
      hchunks.accesses (c.threads u)
    rw [hchunks.accesses r.2] at hleft
    exact .inr ⟨by rw [hbytes], .inr ⟨by omega, by omega⟩⟩

/-- The step's exchange fails for no reason. -/
def fails_spuriously (run : Nat → ArenaConfig Tid) (schedule : Nat → Tid × ArenaAct)
    (n : Nat) : Prop :=
  ∃ choice call layout pc, (schedule n).2 = .step choice ∧
    (run n).threads (schedule n).1 = .alloc call layout pc ∧ FailsSpuriously choice pc

/-- The step is the last one of its call. -/
def alloc_returns (run : Nat → ArenaConfig Tid) (schedule : Nat → Tid × ArenaAct)
    (n : Nat) : Prop :=
  (run (n + 1)).threads (schedule n).1 = .idle

/-- Calls to the arena do not wait for one another for ever: while one is in
progress some call can take a step, and no run goes on without end in which from
some step on no call returns, unless exchanges fail for no reason without end. -/
theorem alloc_calls_return (hvalid : policy.Valid) :
    (∀ c t, (arena_system Tid policy base).Reachable c → c.threads t ≠ .idle →
      ∃ u, c.threads u ≠ .idle ∧ ∀ choice,
        ∃ r, arena_step policy u (.step choice) c.shared (c.threads u) = some r) ∧
    ∀ run schedule, (arena_system Tid policy base).Endless System.anyStep run schedule →
      (∃ n, ∀ m, n ≤ m → ¬ fails_spuriously run schedule m) →
      ∀ n, ∃ m, n ≤ m ∧ alloc_returns run schedule m := by
  refine ⟨fun c t hc hcall => call_enabled hvalid hc hcall, ?_⟩
  intro run schedule hrun hcalm
  refine returns_often (fun n => arena_left policy (run n)) (fun n hcalm hbusy => ?_) hcalm
  obtain ⟨r, hr, hnext⟩ := hrun.step n
  have hreach : (arena_system Tid policy base).Reachable (run n) := hrun.reachable n
  have hrunning : r.2 ≠ .idle := by
    intro hidle
    apply hbusy
    rw [alloc_returns, hnext, Config.move_threads_self]
    exact hidle
  simp only [hnext]
  apply arena_left_less hvalid hreach
  apply arena_step_forward hr (fun choice call layout pc hact hpc hfails => ?_) hrunning
  exact hcalm ⟨choice, call, layout, pc, hact, hpc, hfails⟩

end runs

/-- One thread allocates, and has the lock in its second call when another thread
comes to it. -/
def wait_for_lock : List (Bool × ArenaAct) :=
  (count_second_block twelve_bytes).map (fun a => (false, a.2)) ++
    (true, .alloc .alloc_raw twelve_bytes) :: List.replicate 3 (true, .step {})

theorem alloc_calls_return_waiting : ∃ c : ArenaConfig Bool,
    (arena_system Bool ⟨16, 32⟩ 8).Reachable c ∧ c.shared.chunks_mu = some false ∧
      c.threads true ≠ .idle ∧ ∃ u, c.threads u ≠ .idle ∧ ∀ choice,
        ∃ r, arena_step ⟨16, 32⟩ u (.step choice) c.shared (c.threads u) = some r := by
  obtain ⟨c, hc, hseen⟩ := System.reachable_showing (arena_system Bool ⟨16, 32⟩ 8)
    System.anyStep wait_for_lock (fun c => (c.shared.chunks_mu, (c.threads true).work))
    (some false, 1) (by decide +kernel)
  injection hseen with hlock hwork
  have hcall : c.threads true ≠ .idle := by
    intro hidle
    rw [hidle] at hwork
    cases hwork
  refine ⟨c, hc, hlock, hcall, ?_⟩
  exact (alloc_calls_return ⟨by decide, by decide, by decide, by decide⟩).1 c true hc hcall

end ordinum.arena
