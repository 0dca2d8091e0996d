import Ordinum.Wal.SyncWaiter

open interleaving

namespace ordinum.wal

variable {Tid : Type} [DecidableEq Tid] {debug_assertions : Bool}

/-- The moves of a waiter whose result is final: from `Init` to `Primed` or a
result, and from `Primed` to a result. -/
def Advances (a b : WalSyncResultState) : Prop :=
  a = b ∨ a = .Init ∨ (a = .Primed ∧ b.is_terminal = true)

instance (a b : WalSyncResultState) : Decidable (Advances a b) :=
  inferInstanceAs (Decidable (_ ∨ _ ∨ _))

theorem Advances.trans {a b c : WalSyncResultState} (hab : Advances a b) (hbc : Advances b c) :
    Advances a c := by
  revert hab hbc
  cases a <;> cases b <;> cases c <;> decide

/-- `prime`'s store finds the waiter before its result, and `signal` stores a
result where there is none yet, or what is there already. -/
def stores_before_result :
    System.StepCondition Tid WaiterAct (SyncLogWaiter Tid) WaiterPc :=
  fun _ _ w l =>
    match l with
    | .prime .store => w.state.is_terminal = false
    | .signal state .store =>
      state = w.state ∨ (w.state.is_terminal = false ∧ state.is_terminal = true)
    | _ => True

instance (t : Tid) (a : WaiterAct) (w : SyncLogWaiter Tid) (l : WaiterPc) :
    Decidable (stores_before_result t a w l) := by
  unfold stores_before_result
  split <;> infer_instance

/-- What `wait` returns for a result. -/
def wait_end (result : WalSyncResultState) : WaitEnd :=
  match result.to_result with
  | some answer => .returned answer
  | none => .panicked

/-- The first result is the one in the state, and the calls of `wait` that
started after it have returned it. -/
structure ResultKept (w : SyncLogWaiter Tid) : Prop where
  first_result : w.first_result = if w.state.is_terminal then some w.state else none
  waits : ∀ result ended, (some result, ended) ∈ w.waits → ended = wait_end result

/-- A call of `wait` that started after the first result is at its first load. -/
def WaiterAt (w : SyncLogWaiter Tid) : WaiterPc → Prop
  | .wait (some result) pc => pc = .spin 199 ∧ w.first_result = some result
  | .signal state _ => state ≠ .Primed
  | _ => True

def waiter_outline : System.Outline Tid (SyncLogWaiter Tid) WaiterPc where
  shared := ResultKept
  thread := fun _ => WaiterAt
  apart := fun _ _ => True

section moves

variable {t : Tid} {w : SyncLogWaiter Tid}

omit [DecidableEq Tid] in
theorem ResultKept.state_of_first {result : WalSyncResultState} (hw : ResultKept w)
    (hfirst : w.first_result = some result) : w.state = result ∧ result.is_terminal = true := by
  rw [hw.first_result] at hfirst
  split at hfirst
  · rename_i hterminal
    cases hfirst
    exact ⟨rfl, hterminal⟩
  · cases hfirst

omit [DecidableEq Tid] in
/-- What a step on the mutex and the condition variable leaves. -/
theorem ResultKept.of_same {w' : SyncLogWaiter Tid} (hw : ResultKept w)
    (hstate : w'.state = w.state) (hfirst : w'.first_result = w.first_result)
    (hwaits : w'.waits = w.waits) : ResultKept w' where
  first_result := by rw [hfirst, hstate, hw.first_result]
  waits := by rw [hwaits]; exact hw.waits

omit [DecidableEq Tid] in
theorem ResultKept.prime_store (hw : ResultKept w) (hstate : w.state.is_terminal = false) :
    ResultKept { w with state := .Primed } where
  first_result := by
    rw [hw.first_result, hstate]
    rfl
  waits := hw.waits

omit [DecidableEq Tid] in
theorem ResultKept.signal_store {state : WalSyncResultState} (hw : ResultKept w)
    (hstate : state = w.state ∨ (w.state.is_terminal = false ∧ state.is_terminal = true)) :
    ResultKept (w.store state) ∧
      ∀ result, w.first_result = some result → (w.store state).first_result = some result := by
  refine ⟨⟨?_, hw.waits⟩, ?_⟩
  · rw [SyncLogWaiter.store, hw.first_result]
    obtain rfl | ⟨hold, hnew⟩ := hstate
    · cases w.state.is_terminal <;> rfl
    · rw [hold, hnew]
      rfl
  · intro result hfirst
    rw [SyncLogWaiter.store, hfirst]
    rfl

omit [DecidableEq Tid] in
/-- A finished call of `wait`: if it started after the first result it has
returned it. -/
theorem ResultKept.finish_wait {started : Option WalSyncResultState} {ended : WaitEnd}
    (hw : ResultKept w) (hended : ∀ result, started = some result → ended = wait_end result) :
    ResultKept (w.finish_wait started ended) where
  first_result := hw.first_result
  waits := by
    intro result ended' hmem
    obtain hold | hnew := List.mem_append.mp hmem
    · exact hw.waits result ended' hold
    · obtain ⟨hstarted, rfl⟩ := Prod.mk.inj (List.mem_singleton.mp hnew)
      exact hended result hstarted.symm

/-- What a step leaves behind: the state has advanced and the first result is
kept. -/
structure Keeps (w w' : SyncLogWaiter Tid) : Prop where
  kept : ResultKept w'
  advances : Advances w.state w'.state
  first_result : ∀ result, w.first_result = some result → w'.first_result = some result

omit [DecidableEq Tid] in
theorem Keeps.of_same {w' : SyncLogWaiter Tid} (hw : ResultKept w) (hstate : w'.state = w.state)
    (hfirst : w'.first_result = w.first_result) (hwaits : w'.waits = w.waits) : Keeps w w' :=
  ⟨hw.of_same hstate hfirst hwaits, .inl hstate.symm, fun _ h => hfirst.trans h⟩

omit [DecidableEq Tid] in
theorem Keeps.finish_wait {w' : SyncLogWaiter Tid} {started : Option WalSyncResultState}
    {ended : WaitEnd} (hw : Keeps w w')
    (hended : ∀ result, started = some result → ended = wait_end result) :
    Keeps w (w'.finish_wait started ended) :=
  ⟨hw.kept.finish_wait hended, hw.advances, hw.first_result⟩

omit [DecidableEq Tid] in
theorem locked_by_pc {next panicked : WaiterPc} {r : SyncLogWaiter Tid × WaiterPc}
    (hstep : w.locked_by t next panicked = some r) : r.2 = next ∨ r.2 = panicked := by
  unfold SyncLogWaiter.locked_by at hstep
  split at hstep <;> cases hstep
  · exact .inl rfl
  · exact .inr rfl

omit [DecidableEq Tid] in
theorem locked_by_keeps {next panicked : WaiterPc} {r : SyncLogWaiter Tid × WaiterPc}
    (hw : ResultKept w) (hstep : w.locked_by t next panicked = some r) : Keeps w r.1 := by
  unfold SyncLogWaiter.locked_by at hstep
  split at hstep <;> cases hstep
  · exact .of_same hw rfl rfl rfl
  · exact .of_same hw rfl rfl rfl

omit [DecidableEq Tid] in
theorem prime_step_keeps {pc : PrimePc} {r : SyncLogWaiter Tid × WaiterPc} (hw : ResultKept w)
    (hstore : pc = .store → w.state.is_terminal = false)
    (hstep : prime_step debug_assertions t w pc = some r) : Keeps w r.1 ∧ WaiterAt r.1 r.2 := by
  cases pc with
  | load =>
    simp only [prime_step] at hstep
    split at hstep
    · cases hstep
      exact ⟨.of_same hw rfl rfl rfl, trivial⟩
    · split at hstep
      · cases hstep
        exact ⟨.of_same hw rfl rfl rfl, trivial⟩
      · cases hstep
        exact ⟨.of_same hw rfl rfl rfl, trivial⟩
  | lock =>
    refine ⟨locked_by_keeps hw hstep, ?_⟩
    rcases locked_by_pc hstep with hpc | hpc <;> rw [hpc] <;> trivial
  | store =>
    have hstate := hstore rfl
    cases hstep
    refine ⟨⟨hw.prime_store hstate, ?_, fun _ h => h⟩, trivial⟩
    change Advances w.state .Primed
    generalize w.state = old at hstate
    revert hstate
    cases old <;> decide
  | unlock =>
    cases hstep
    exact ⟨.of_same hw rfl rfl rfl, trivial⟩

omit [DecidableEq Tid] in
theorem signal_step_keeps {state : WalSyncResultState} {pc : SignalPc}
    {r : SyncLogWaiter Tid × WaiterPc} (hw : ResultKept w) (hne : state ≠ .Primed)
    (hstore : pc = .store →
      state = w.state ∨ (w.state.is_terminal = false ∧ state.is_terminal = true))
    (hstep : signal_step t w state pc = some r) : Keeps w r.1 ∧ WaiterAt r.1 r.2 := by
  cases pc with
  | lock =>
    refine ⟨locked_by_keeps hw hstep, ?_⟩
    rcases locked_by_pc hstep with hpc | hpc <;> rw [hpc]
    · exact hne
    · trivial
  | store =>
    have hstate := hstore rfl
    obtain ⟨hkept, hfirst⟩ := hw.signal_store hstate
    cases hstep
    refine ⟨⟨hkept, ?_, hfirst⟩, hne⟩
    change Advances w.state state
    obtain rfl | ⟨hold, hnew⟩ := hstate
    · exact .inl rfl
    · generalize w.state = old at hold
      revert hold hnew
      cases old <;> cases state <;> decide
  | notify =>
    cases hstep
    exact ⟨.of_same hw rfl rfl rfl, hne⟩
  | unlock =>
    cases hstep
    exact ⟨.of_same hw rfl rfl rfl, trivial⟩

/-- A call of `wait` that started before any result. -/
theorem wait_step_keeps {spurious : Bool} {pc : WaitPc} {r : SyncLogWaiter Tid × WaiterPc}
    (hw : ResultKept w) (hstep : wait_step t spurious w none pc = some r) :
    Keeps w r.1 ∧ WaiterAt r.1 r.2 := by
  have hsame : Keeps w w := .of_same hw rfl rfl rfl
  cases pc with
  | spin left =>
    simp only [wait_step] at hstep
    split at hstep
    · cases left with
      | zero | succ left =>
        cases hstep
        exact ⟨hsame, trivial⟩
    · split at hstep
      · cases hstep
        exact ⟨hsame.finish_wait nofun, trivial⟩
      · cases hstep
        exact ⟨hsame.finish_wait nofun, trivial⟩
  | lock | relock =>
    refine ⟨locked_by_keeps hw hstep, ?_⟩
    rcases locked_by_pc hstep with hpc | hpc <;> rw [hpc] <;> trivial
  | check | read =>
    cases hstep
    exact ⟨hsame, trivial⟩
  | wait =>
    cases hstep
    exact ⟨.of_same hw rfl rfl rfl, trivial⟩
  | sleep =>
    simp only [wait_step] at hstep
    split at hstep
    · cases hstep
      exact ⟨hsame, trivial⟩
    · split at hstep
      · cases hstep
        exact ⟨.of_same hw rfl rfl rfl, trivial⟩
      · cases hstep
  | unlock result =>
    cases hstep
    refine ⟨Keeps.finish_wait ?_ nofun, trivial⟩
    exact .of_same hw rfl rfl rfl

/-- A call of `wait` that started after the first result returns it from its
first load. -/
theorem wait_returns_first (t : Tid) (spurious : Bool) {result : WalSyncResultState}
    (hw : ResultKept w) (hfirst : w.first_result = some result) : wait_step t spurious w (some result) (.spin 199) =
      some (w.finish_wait (some result) (wait_end result), .idle) := by
  obtain ⟨hstate, hterminal⟩ := hw.state_of_first hfirst
  have hne : w.state ≠ .Primed := by
    rw [hstate]
    rintro rfl
    cases hterminal
  rw [wait_step, if_neg hne, hstate, wait_end]
  cases result with
  | Init | Primed => cases hterminal
  | SyncDone | IoError | WalError => rfl

omit [DecidableEq Tid] in
theorem WaiterAt.of_keeps {w' : SyncLogWaiter Tid} {m : WaiterPc} (hm : WaiterAt w m)
    (hkeeps : Keeps w w') : WaiterAt w' m := by
  cases m with
  | idle | prime => trivial
  | signal => exact hm
  | wait started pc =>
    cases started with
    | none => trivial
    | some result => exact ⟨hm.1, hkeeps.first_result result hm.2⟩

theorem waiter_step_keeps {a : WaiterAct} {l : WaiterPc} {r : SyncLogWaiter Tid × WaiterPc}
    (hw : ResultKept w) (hl : WaiterAt w l) (hG : stores_before_result t a w l)
    (hstep : waiter_step debug_assertions t a w l = some r) : Keeps w r.1 ∧ WaiterAt r.1 r.2 := by
  have hsame : Keeps w w := .of_same hw rfl rfl rfl
  cases l with
  | idle =>
    cases a with
    | prime | state =>
      cases hstep
      exact ⟨hsame, trivial⟩
    | signal state =>
      cases hstep
      refine ⟨hsame, ?_⟩
      split
      · trivial
      · rename_i hne
        exact hne
    | wait =>
      cases hstep
      refine ⟨hsame, ?_⟩
      rcases hfirst : w.first_result with _ | result
      · trivial
      · exact ⟨rfl, hfirst⟩
    | step spurious => cases hstep
  | prime pc =>
    cases a with
    | step spurious =>
      refine prime_step_keeps hw ?_ hstep
      rintro rfl
      exact hG
    | _ => cases hstep
  | signal state pc =>
    cases a with
    | step spurious =>
      refine signal_step_keeps hw hl ?_ hstep
      rintro rfl
      exact hG
    | _ => cases hstep
  | wait started pc =>
    cases a with
    | step spurious =>
      cases started with
      | none => exact wait_step_keeps hw hstep
      | some result =>
        obtain ⟨rfl, hfirst⟩ := hl
        have hreturns := (wait_returns_first t spurious hw hfirst).symm.trans hstep
        cases hreturns
        exact ⟨hsame.finish_wait (by rintro _ ⟨⟩; rfl), trivial⟩
    | _ => cases hstep

end moves

theorem waiter_outline_valid :
    System.Outline.trivial.ValidOver waiter_outline (waiter_system Tid debug_assertions)
      stores_before_result where
  init_shared := ⟨rfl, fun _ _ h => by cases h⟩
  init_thread := fun _ => trivial
  init_apart := trivial
  step_own := by
    intro t a w l r _ _ hw hl hG hstep
    obtain ⟨hkeeps, hl'⟩ := waiter_step_keeps hw hl hG hstep
    exact ⟨hkeeps.kept, hl'⟩
  step_other := by
    intro t u a w l m r _ _ hpair hG hstep
    obtain ⟨hkeeps, -⟩ := waiter_step_keeps hpair.shared hpair.own hG hstep
    exact ⟨hpair.other.of_keeps hkeeps, trivial, trivial⟩

theorem waiter_outline_holds {c : WaiterConfig Tid}
    (hc : (waiter_system Tid debug_assertions).ReachableUnder stores_before_result c) :
    waiter_outline.Holds c :=
  waiter_outline_valid.holds_of_trivial hc

/-- A run between two configurations keeps the first result and only advances
the state. -/
theorem run_keeps {c d : WaiterConfig Tid}
    (hc : (waiter_system Tid debug_assertions).ReachableUnder stores_before_result c)
    (hsteps : (waiter_system Tid debug_assertions).StepsUnder stores_before_result c d) :
    Advances c.shared.state d.shared.state ∧
      ∀ result, c.shared.first_result = some result → d.shared.first_result = some result := by
  refine hsteps.related
    (R := fun c d => Advances c.shared.state d.shared.state ∧
      ∀ result, c.shared.first_result = some result → d.shared.first_result = some result)
    (fun c => ⟨.inl rfl, fun _ h => h⟩) ?_ hc ?_
  · intro c d e hcd hde
    exact ⟨hcd.1.trans hde.1, fun result h => hde.2 result (hcd.2 result h)⟩
  · intro c t a r hc hG hstep
    have hO := waiter_outline_holds hc
    obtain ⟨hkeeps, -⟩ := waiter_step_keeps hO.shared (hO.thread t) hG hstep
    exact ⟨hkeeps.advances, hkeeps.first_result⟩

/-- `signal` has asserted that it is not given `Primed`. -/
def SignalAt : WaiterPc → Prop
  | .signal state _ => state ≠ .Primed
  | _ => True

omit [DecidableEq Tid] in
theorem prime_step_signal {t : Tid} {w : SyncLogWaiter Tid} {pc : PrimePc}
    {r : SyncLogWaiter Tid × WaiterPc} (hstep : prime_step debug_assertions t w pc = some r) :
    SignalAt r.2 := by
  cases pc with
  | load =>
    simp only [prime_step] at hstep
    repeat' split at hstep
    all_goals
      cases hstep
      trivial
  | lock => rcases locked_by_pc hstep with hpc | hpc <;> rw [hpc] <;> trivial
  | store | unlock =>
    cases hstep
    trivial

omit [DecidableEq Tid] in
theorem signal_step_signal {t : Tid} {w : SyncLogWaiter Tid} {state : WalSyncResultState}
    {pc : SignalPc} {r : SyncLogWaiter Tid × WaiterPc} (hne : state ≠ .Primed)
    (hstep : signal_step t w state pc = some r) : SignalAt r.2 := by
  cases pc with
  | lock =>
    rcases locked_by_pc hstep with hpc | hpc <;> rw [hpc]
    · exact hne
    · trivial
  | store | notify =>
    cases hstep
    exact hne
  | unlock =>
    cases hstep
    trivial

theorem wait_step_signal {t : Tid} {spurious : Bool} {w : SyncLogWaiter Tid}
    {started : Option WalSyncResultState} {pc : WaitPc} {r : SyncLogWaiter Tid × WaiterPc}
    (hstep : wait_step t spurious w started pc = some r) : SignalAt r.2 := by
  cases pc with
  | spin left =>
    simp only [wait_step] at hstep
    repeat' split at hstep
    all_goals
      cases hstep
      trivial
  | lock | relock => rcases locked_by_pc hstep with hpc | hpc <;> rw [hpc] <;> trivial
  | check | wait | read | unlock =>
    cases hstep
    trivial
  | sleep =>
    simp only [wait_step] at hstep
    repeat' split at hstep
    all_goals
      cases hstep
      try trivial

theorem waiter_step_signal {t : Tid} {a : WaiterAct} {w : SyncLogWaiter Tid} {l : WaiterPc}
    {r : SyncLogWaiter Tid × WaiterPc} (hl : SignalAt l)
    (hstep : waiter_step debug_assertions t a w l = some r) : SignalAt r.2 := by
  cases l with
  | idle =>
    cases a with
    | prime | state | wait =>
      cases hstep
      trivial
    | signal state =>
      cases hstep
      split
      · trivial
      · rename_i hne
        exact hne
    | step => cases hstep
  | prime pc =>
    cases a with
    | step => exact prime_step_signal hstep
    | _ => cases hstep
  | signal state pc =>
    cases a with
    | step => exact signal_step_signal hl hstep
    | _ => cases hstep
  | wait started pc =>
    cases a with
    | step => exact wait_step_signal hstep
    | _ => cases hstep

theorem reachable_signal {c : WaiterConfig Tid}
    (hc : (waiter_system Tid debug_assertions).Reachable c) (t : Tid) :
    SignalAt (c.threads t) := by
  revert t
  refine System.ReachableUnder.induction (P := fun c => ∀ t, SignalAt (c.threads t))
    ?_ ?_ hc
  · intro t
    exact trivial
  · intro c t a r _ ih _ hstep u
    by_cases hu : u = t
    · subst hu
      rw [Config.move_threads_self]
      exact waiter_step_signal (ih u) hstep
    · rw [c.move_threads_of_ne r hu]
      exact ih u

/-- A store that comes too late makes a move that no final result allows. -/
theorem late_store_not_advances {c : WaiterConfig Tid} {t : Tid} {a : WaiterAct}
    {r : SyncLogWaiter Tid × WaiterPc}
    (hc : (waiter_system Tid debug_assertions).Reachable c)
    (hstep : (waiter_system Tid debug_assertions).step t a c.shared (c.threads t) = some r)
    (hlate : ¬ stores_before_result t a c.shared (c.threads t)) :
    ¬ Advances c.shared.state r.1.state := by
  have hsignal := reachable_signal hc t
  generalize hl : c.threads t = l at hstep hlate hsignal
  generalize c.shared = w at hstep hlate
  have hstep : waiter_step debug_assertions t a w l = some r := hstep
  cases l with
  | idle | wait => exact absurd trivial hlate
  | prime pc =>
    cases pc with
    | load | lock | unlock => exact absurd trivial hlate
    | store =>
      cases a with
      | step =>
        cases hstep
        change ¬ w.state.is_terminal = false at hlate
        change ¬ Advances w.state .Primed
        generalize w.state = old at hlate ⊢
        revert hlate
        cases old <;> decide
      | _ => cases hstep
  | signal state pc =>
    cases pc with
    | lock | notify | unlock => exact absurd trivial hlate
    | store =>
      cases a with
      | step =>
        cases hstep
        change ¬ (state = w.state ∨ (w.state.is_terminal = false ∧ state.is_terminal = true))
          at hlate
        change ¬ Advances w.state state
        change state ≠ .Primed at hsignal
        generalize w.state = old at hlate ⊢
        revert hlate hsignal
        cases old <;> cases state <;> decide
      | _ => cases hstep

/-- While no store comes too late, the state only moves from `Init` to `Primed`
or a result and from `Primed` to a result, the first result stays, and every
`wait` that started after it returns it, from its first load. A store that comes
too late makes another move. -/
theorem sync_result_final {c d : WaiterConfig Tid}
    (hc : (waiter_system Tid debug_assertions).ReachableUnder stores_before_result c)
    (hsteps : (waiter_system Tid debug_assertions).StepsUnder stores_before_result c d) :
    Advances c.shared.state d.shared.state ∧
      (∀ result, c.shared.first_result = some result → d.shared.state = result) ∧
      (∀ result ended, (some result, ended) ∈ d.shared.waits → ended = wait_end result) ∧
      (∀ t result pc spurious, d.threads t = .wait (some result) pc →
        (waiter_system Tid debug_assertions).step t (.step spurious) d.shared (d.threads t) =
          some (d.shared.finish_wait (some result) (wait_end result), .idle)) ∧
      ∀ (e : WaiterConfig Tid) t a r, (waiter_system Tid debug_assertions).Reachable e →
        (waiter_system Tid debug_assertions).step t a e.shared (e.threads t) = some r →
        ¬ stores_before_result t a e.shared (e.threads t) →
        ¬ Advances e.shared.state r.1.state := by
  have hd := waiter_outline_holds (hc.trans hsteps)
  obtain ⟨hadvances, hfirst⟩ := run_keeps hc hsteps
  refine ⟨hadvances, ?_, hd.shared.waits, ?_, ?_⟩
  · intro result hresult
    exact (hd.shared.state_of_first (hfirst result hresult)).1
  · intro t result pc spurious hpc
    have hat := hd.thread t
    rw [hpc] at hat ⊢
    obtain ⟨rfl, hresult⟩ := hat
    exact wait_returns_first t spurious hd.shared hresult
  · intro e t a r he hstep hlate
    exact late_store_not_advances he hstep hlate

/-- The schedule of a call and of its next `steps` steps. -/
def waiter_call {Tid : Type} (t : Tid) (a : WaiterAct) (steps : Nat) :
    List (Tid × WaiterAct) :=
  (t, a) :: List.replicate steps (t, .step false)

/-- Two threads: the first signals, the second primes before it and waits after
it. -/
def signal_then_wait {Tid : Type} (t u : Tid) : List (Tid × WaiterAct) :=
  waiter_call u .prime 4 ++ waiter_call t (.signal .SyncDone) 4 ++ waiter_call u .wait 0

theorem sync_result_final_wait :
    ∃ c d : WaiterConfig (Fin 2),
      ((waiter_system (Fin 2) false).ReachableUnder stores_before_result c ∧
        (waiter_system (Fin 2) false).StepsUnder stores_before_result c d ∧
        c.shared.first_result = some .SyncDone) ∧
      d.shared.state = .SyncDone ∧
      (waiter_system (Fin 2) false).step 1 (.step true) d.shared (d.threads 1) =
        some (d.shared.finish_wait (some .SyncDone) (.returned none), .idle) := by
  obtain ⟨c, hc, hseen⟩ := System.reachable_showing (waiter_system (Fin 2) false)
    stores_before_result (signal_then_wait 0 1)
    (fun c => (c.shared.first_result, c.threads 1))
    (some .SyncDone, .wait (some .SyncDone) (.spin 199)) (by decide +kernel)
  obtain ⟨hfirst, hpc⟩ := Prod.mk.inj hseen
  obtain ⟨-, hstate, -, hwait, -⟩ := sync_result_final hc .refl
  exact ⟨c, c, ⟨hc, .refl, hfirst⟩, hstate _ hfirst, hwait 1 _ _ true hpc⟩

/-- A second `signal` replaces the result of the first. -/
def signal_twice {Tid : Type} (t u : Tid) : List (Tid × WaiterAct) :=
  waiter_call u .prime 4 ++ waiter_call t (.signal .SyncDone) 4 ++
    waiter_call t (.signal .IoError) 4 ++ waiter_call u .wait 1

theorem later_signal_replaces_result :
    ∃ c : WaiterConfig (Fin 2), (waiter_system (Fin 2) false).Reachable c ∧
      (c.shared.first_result, c.shared.state, c.shared.waits) =
        (some .SyncDone, .IoError, [(some .SyncDone, .returned (some .IoError))]) :=
  System.reachable_showing (waiter_system (Fin 2) false) System.anyStep (signal_twice 0 1) _ _
    (by decide +kernel)

end ordinum.wal
