import Ordinum.Interleaving.Alone
import Ordinum.Interleaving.History
import Ordinum.Wal.SyncWaiter

open interleaving
open interleaving.System

namespace ordinum.wal

variable {Tid : Type} [DecidableEq Tid] {debug_assertions : Bool}

/-- A waiter that has just been primed. -/
def SyncLogWaiter.primed (Tid : Type) : SyncLogWaiter Tid :=
  { SyncLogWaiter.default Tid with state := .Primed }

/-- It is what a call of `prime` leaves. -/
theorem primed_by_prime (t : Tid) : (waiter_system Tid debug_assertions).Reachable
    { shared := .primed Tid, threads := fun _ => .idle } := by
  have hstart := StepsUnder.of_thread (waiter_system Tid debug_assertions) anyStep
    (waiter_system Tid debug_assertions).init t
  have hcalled := StepsUnder.and_step hstart (a := .prime) trivial rfl
  have hload : prime_step debug_assertions t (.default Tid) .load =
      some (.default Tid, .prime .lock) := by
    simp [prime_step, SyncLogWaiter.default]
  have hloaded := StepsUnder.and_step hcalled (a := .step false) trivial hload
  have hlocked := StepsUnder.and_step hloaded (a := .step false) trivial rfl
  have hstored := StepsUnder.and_step hlocked (a := .step false) trivial rfl
  have hunlocked := StepsUnder.and_step hstored (a := .step false) trivial rfl
  have hidle : Function.update (fun _ => WaiterPc.idle) t .idle = fun _ : Tid => WaiterPc.idle :=
    Function.update_eq_self t _
  change (waiter_system Tid debug_assertions).Reachable
    { shared := .primed Tid, threads := Function.update (fun _ => .idle) t .idle } at hunlocked
  rw [hidle] at hunlocked
  exact hunlocked

/-- Calls of `wait` and of `signal` with terminal states. -/
def waits_and_signals : StepCondition Tid WaiterAct (SyncLogWaiter Tid) WaiterPc := fun _ a _ _ =>
  match a with
  | .prime => False
  | .signal state => state.is_terminal = true
  | _ => True

instance (t : Tid) (a : WaiterAct) (w : SyncLogWaiter Tid) (l : WaiterPc) :
    Decidable (waits_and_signals t a w l) := by
  unfold waits_and_signals
  split <;> infer_instance

/-- A signal is executed when it stores its state. -/
def record_signal :
    Record Tid WaiterAct (SyncLogWaiter Tid) WaiterPc (List WalSyncResultState) Unit :=
  fun _ _ _ l _ signalled _ =>
    match l with
    | .signal state .store => (state :: signalled, ())
    | _ => (signalled, ())

variable (Tid) in
/-- Any number of threads on a primed waiter, with the states that were signalled. -/
def primed_system (debug_assertions : Bool) :
    System Tid WaiterAct (SyncLogWaiter Tid × List WalSyncResultState) (WaiterPc × Unit) :=
  System.with_history
    { waiter_system Tid debug_assertions with shared₀ := SyncLogWaiter.primed Tid } [] ()
    record_signal

/-- What a `wait` may answer once these states were signalled. -/
def WaitEnd.Justified (signalled : List WalSyncResultState) : WaitEnd → Prop
  | .returned none => .SyncDone ∈ signalled
  | .returned (some error) => error ∈ signalled
  | .panicked => False

/-- Program points between taking the mutex and giving it up. -/
def WaiterPc.in_section : WaiterPc → Bool
  | .prime .store | .prime .unlock => true
  | .signal _ .lock => false
  | .signal _ _ => true
  | .wait _ .check | .wait _ .wait | .wait _ .read | .wait _ (.unlock _) => true
  | _ => false

/-- The waiter as long as it is only waited for and signalled: its state is primed or was
signalled, answers are justified, and nobody sleeps past a result while the mutex is
free. -/
structure Sound (w : SyncLogWaiter Tid) (signalled : List WalSyncResultState) : Prop where
  not_poisoned : w.mu ≠ .poisoned
  state : w.state = .Primed ∨ (w.state.is_terminal = true ∧ w.state ∈ signalled)
  waits : ∀ wait ∈ w.waits, wait.2.Justified signalled
  awake : w.mu = .free → w.state.is_terminal = true → w.cv.waiting = []

/-- What a thread knows at its program point. Between its store and its `notify_all` a
signal may have sleepers; everywhere else in the critical section a result has none. -/
def SoundAt (w : SyncLogWaiter Tid) (signalled : List WalSyncResultState) : WaiterPc → Prop
  | .idle | .wait _ (.spin _) | .wait _ .lock | .wait _ .sleep | .wait _ .relock => True
  | .prime _ => False
  | .signal state .lock => state.is_terminal = true
  | .signal state .store =>
    state.is_terminal = true ∧ (w.state.is_terminal = true → w.cv.waiting = [])
  | .signal _ .notify => True
  | .signal _ .unlock => w.cv.waiting = []
  | .wait _ .check => w.state.is_terminal = true → w.cv.waiting = []
  | .wait _ .wait => w.state = .Primed
  | .wait _ .read => w.state.is_terminal = true ∧ w.cv.waiting = []
  | .wait _ (.unlock result) =>
    WaitEnd.Justified signalled (.returned result) ∧
      (w.state.is_terminal = true → w.cv.waiting = [])

/-- A thread is in the critical section exactly when it holds the mutex. -/
structure ThreadSound (t : Tid) (w : SyncLogWaiter Tid) (signalled : List WalSyncResultState)
    (l : WaiterPc) : Prop where
  owner : l.in_section = true ↔ w.mu = .held t
  at_point : SoundAt w signalled l

variable (Tid) in
def sound_outline :
    Outline Tid (SyncLogWaiter Tid × List WalSyncResultState) (WaiterPc × Unit) where
  shared := fun s => Sound s.1 s.2
  thread := fun t s l => ThreadSound t s.1 s.2 l.1
  apart := fun _ _ => True

section steps

variable {t u : Tid} {w w' : SyncLogWaiter Tid} {signalled signalled' : List WalSyncResultState}
  {l l' : WaiterPc}

/-- What a step leaves for another thread `u`: what `u` knows under the mutex. -/
structure SoundFrame (u : Tid) (w w' : SyncLogWaiter Tid)
    (signalled signalled' : List WalSyncResultState) : Prop where
  owner : w'.mu = .held u ↔ w.mu = .held u
  state : w.mu = .held u → w'.state = w.state
  waiting : w.mu = .held u → w.cv.waiting = [] → w'.cv.waiting = []
  signalled : signalled ⊆ signalled'

/-- A step keeps the waiter sound and leaves the other threads what they know. -/
structure SoundStep (t : Tid) (w : SyncLogWaiter Tid) (signalled : List WalSyncResultState)
    (w' : SyncLogWaiter Tid) (signalled' : List WalSyncResultState) (l' : WaiterPc) : Prop where
  sound : Sound w' signalled'
  own : ThreadSound t w' signalled' l'
  frame : ∀ u, u ≠ t → SoundFrame u w w' signalled signalled'

omit [DecidableEq Tid] in
theorem WaitEnd.Justified.mono {ended : WaitEnd} (h : ended.Justified signalled)
    (hsubset : signalled ⊆ signalled') : ended.Justified signalled' := by
  obtain (_ | error) | _ := ended
  · exact hsubset h
  · exact hsubset h
  · exact h

omit [DecidableEq Tid] in
/-- What a `wait` answers to a state that was signalled. -/
theorem justified_of_signalled {state : WalSyncResultState} (hterminal : state.is_terminal = true)
    (hsignalled : state ∈ signalled) :
    ∃ result, state.to_result = some result ∧ WaitEnd.Justified signalled (.returned result) := by
  cases state with
  | Init | Primed => cases hterminal
  | SyncDone => exact ⟨none, rfl, hsignalled⟩
  | IoError | WalError => exact ⟨_, rfl, hsignalled⟩

omit [DecidableEq Tid] in
theorem Sound.result (hw : Sound w signalled) (hne : w.state ≠ .Primed) :
    w.state.is_terminal = true ∧ ∃ result, w.state.to_result = some result ∧
      WaitEnd.Justified signalled (.returned result) := by
  obtain hprimed | ⟨hterminal, hsignalled⟩ := hw.state
  · exact absurd hprimed hne
  · exact ⟨hterminal, justified_of_signalled hterminal hsignalled⟩

omit [DecidableEq Tid] in
theorem SoundAt.frame (hl : ThreadSound u w signalled l)
    (hframe : SoundFrame u w w' signalled signalled') : ThreadSound u w' signalled' l := by
  obtain ⟨howner, hat⟩ := hl
  have hin : l.in_section = true → w.mu = .held u := howner.mp
  refine ⟨howner.trans hframe.owner.symm, ?_⟩
  rcases l with _ | pc | ⟨state, _ | _ | _ | _⟩ | ⟨started, left | _ | _ | _ | _ | _ | _ | result⟩
  case prime => exact hat
  case signal.lock => exact hat
  case signal.store =>
    refine ⟨hat.1, fun hterminal => hframe.waiting (hin rfl) (hat.2 ?_)⟩
    rw [← hframe.state (hin rfl)]
    exact hterminal
  case signal.unlock => exact hframe.waiting (hin rfl) hat
  case wait.check =>
    refine fun hterminal => hframe.waiting (hin rfl) (hat ?_)
    rw [← hframe.state (hin rfl)]
    exact hterminal
  case wait.wait => exact (hframe.state (hin rfl)).trans hat
  case wait.read =>
    refine ⟨?_, hframe.waiting (hin rfl) hat.2⟩
    rw [hframe.state (hin rfl)]
    exact hat.1
  case wait.unlock =>
    refine ⟨hat.1.mono hframe.signalled, fun hterminal => hframe.waiting (hin rfl) (hat.2 ?_)⟩
    rw [← hframe.state (hin rfl)]
    exact hterminal
  all_goals trivial

omit [DecidableEq Tid] in
/-- A step that changes nothing shared. -/
theorem SoundStep.of_same (hw : Sound w signalled) (hown : ThreadSound t w signalled l') :
    SoundStep t w signalled w signalled l' :=
  ⟨hw, hown, fun _ _ => ⟨Iff.rfl, fun _ => rfl, fun _ h => h, List.Subset.refl _⟩⟩

omit [DecidableEq Tid] in
/-- Taking the mutex: whoever finds it free finds nobody asleep past a result. -/
theorem locked_by_sound {next panicked : WaiterPc} {r : SyncLogWaiter Tid × WaiterPc}
    (hw : Sound w signalled) (hstep : w.locked_by t next panicked = some r)
    (hnext : next.in_section = true)
    (hat : (w.state.is_terminal = true → w.cv.waiting = []) →
      SoundAt { w with mu := .held t } signalled next) :
    SoundStep t w signalled r.1 signalled r.2 := by
  unfold SyncLogWaiter.locked_by at hstep
  split at hstep
  · rename_i hfree
    cases hstep
    refine ⟨⟨nofun, hw.state, hw.waits, nofun⟩, ⟨?_, hat (hw.awake hfree)⟩, ?_⟩
    · exact ⟨fun _ => rfl, fun _ => hnext⟩
    · intro u hne
      refine ⟨⟨?_, ?_⟩, fun _ => rfl, fun _ h => h, List.Subset.refl _⟩
      · intro hheld
        cases hheld
        exact absurd rfl hne
      · intro hheld
        rw [hfree] at hheld
        cases hheld
  · cases hstep
  · rename_i hpoisoned
    exact absurd hpoisoned hw.not_poisoned

omit [DecidableEq Tid] in
/-- Another thread than the holder of the mutex does not hold it. -/
theorem not_held_of_ne {P : Prop} (hheld : w.mu = .held t) (hne : u ≠ t) (hu : w.mu = .held u) :
    P := by
  rw [hheld] at hu
  cases hu
  exact absurd rfl hne

omit [DecidableEq Tid] in
/-- Giving the mutex up. -/
theorem unlocked_sound (hw : Sound w signalled) (hheld : w.mu = .held t)
    (hawake : w.state.is_terminal = true → w.cv.waiting = []) {waits}
    (hwaits : ∀ wait ∈ waits, wait.2.Justified signalled) :
    SoundStep t w signalled { w with mu := .free, waits } signalled .idle := by
  refine ⟨⟨nofun, hw.state, hwaits, fun _ => hawake⟩, ⟨⟨nofun, nofun⟩, trivial⟩, ?_⟩
  intro u hne
  refine ⟨⟨nofun, fun hu => not_held_of_ne hheld hne hu⟩, fun _ => rfl, fun _ h => h,
    List.Subset.refl _⟩

omit [DecidableEq Tid] in
theorem signal_step_sound {state : WalSyncResultState} {pc : SignalPc}
    {r : SyncLogWaiter Tid × WaiterPc} (hw : Sound w signalled)
    (hl : ThreadSound t w signalled (.signal state pc))
    (hstep : signal_step t w state pc = some r) :
    SoundStep t w signalled r.1 (if pc = .store then state :: signalled else signalled) r.2 := by
  obtain ⟨howner, hat⟩ := hl
  cases pc with
  | lock => exact locked_by_sound hw hstep rfl fun hawake => ⟨hat, hawake⟩
  | store =>
    have hheld : w.mu = .held t := howner.mp rfl
    cases hstep
    refine ⟨⟨hw.not_poisoned, .inr ⟨hat.1, List.mem_cons_self ..⟩, ?_, ?_⟩,
      ⟨⟨fun _ => hheld, fun _ => rfl⟩, trivial⟩, ?_⟩
    · exact fun wait hmem => (hw.waits wait hmem).mono (List.subset_cons_self _ _)
    · intro hfree
      rw [show w.mu = .free from hfree] at hheld
      cases hheld
    · intro u hne
      exact ⟨Iff.rfl, not_held_of_ne hheld hne, fun _ h => h, List.subset_cons_self _ _⟩
  | notify =>
    have hheld : w.mu = .held t := howner.mp rfl
    cases hstep
    exact ⟨⟨hw.not_poisoned, hw.state, hw.waits, fun _ _ => rfl⟩,
      ⟨⟨fun _ => hheld, fun _ => rfl⟩, rfl⟩,
      fun u _ => ⟨Iff.rfl, fun _ => rfl, fun _ _ => rfl, List.Subset.refl _⟩⟩
  | unlock =>
    cases hstep
    exact unlocked_sound hw (howner.mp rfl) (fun _ => hat) hw.waits

theorem wait_step_sound {started : Option WalSyncResultState} {pc : WaitPc} {spurious : Bool}
    {r : SyncLogWaiter Tid × WaiterPc} (hw : Sound w signalled)
    (hl : ThreadSound t w signalled (.wait started pc))
    (hstep : wait_step t spurious w started pc = some r) :
    SoundStep t w signalled r.1 signalled r.2 := by
  obtain ⟨howner, hat⟩ := hl
  have hended : ∀ {result}, WaitEnd.Justified signalled (.returned result) →
      ∀ wait ∈ w.waits ++ [(started, WaitEnd.returned result)], wait.2.Justified signalled := by
    intro result hjustified wait hmem
    obtain hold | hnew := List.mem_append.mp hmem
    · exact hw.waits wait hold
    · rw [List.mem_singleton.mp hnew]
      exact hjustified
  cases pc with
  | spin left =>
    by_cases hprimed : w.state = .Primed
    · simp only [wait_step, if_pos hprimed] at hstep
      cases left with
      | zero | succ left =>
        cases hstep
        exact .of_same hw ⟨howner, trivial⟩
    · obtain ⟨-, result, hresult, hjustified⟩ := hw.result hprimed
      simp only [wait_step, if_neg hprimed, hresult] at hstep
      cases hstep
      exact ⟨⟨hw.not_poisoned, hw.state, hended hjustified, hw.awake⟩, ⟨howner, trivial⟩,
        fun u _ => ⟨Iff.rfl, fun _ => rfl, fun _ h => h, List.Subset.refl _⟩⟩
  | lock | relock => exact locked_by_sound hw hstep rfl fun hawake => hawake
  | check =>
    cases hstep
    by_cases hprimed : w.state = .Primed
    · simp only [if_pos hprimed]
      exact .of_same hw ⟨howner, hprimed⟩
    · simp only [if_neg hprimed]
      have hterminal := (hw.result hprimed).1
      exact .of_same hw ⟨howner, hterminal, hat hterminal⟩
  | wait =>
    have hheld : w.mu = .held t := howner.mp rfl
    cases hstep
    refine ⟨⟨nofun, hw.state, hw.waits, ?_⟩, ⟨⟨nofun, nofun⟩, trivial⟩, ?_⟩
    · -- the mutex is given up in the step that puts the caller to sleep
      intro _ hterminal
      rw [show w.state = .Primed from hat] at hterminal
      cases hterminal
    · intro u hne
      exact ⟨⟨nofun, not_held_of_ne hheld hne⟩, fun _ => rfl, not_held_of_ne hheld hne,
        List.Subset.refl _⟩
  | sleep =>
    by_cases hasleep : t ∈ w.cv.waiting
    · cases spurious with
      | false => simp [wait_step, hasleep] at hstep
      | true =>
        simp only [wait_step, hasleep, not_true_eq_false, if_true, if_false] at hstep
        cases hstep
        refine ⟨⟨hw.not_poisoned, hw.state, hw.waits, ?_⟩, ⟨howner, trivial⟩, ?_⟩
        · intro hfree hterminal
          rw [hw.awake hfree hterminal] at hasleep
          cases hasleep
        · intro u _
          refine ⟨Iff.rfl, fun _ => rfl, fun _ h => ?_, List.Subset.refl _⟩
          rw [h] at hasleep
          cases hasleep
    · simp only [wait_step, if_pos hasleep] at hstep
      cases hstep
      exact .of_same hw ⟨howner, trivial⟩
  | read =>
    obtain ⟨hterminal, hawake⟩ := hat
    have hne : w.state ≠ .Primed := by
      intro hprimed
      rw [hprimed] at hterminal
      cases hterminal
    obtain ⟨-, result, hresult, hjustified⟩ := hw.result hne
    simp only [wait_step, hresult, Option.getD_some] at hstep
    cases hstep
    exact .of_same hw ⟨howner, hjustified, fun _ => hawake⟩
  | unlock result =>
    cases hstep
    exact unlocked_sound hw (howner.mp rfl) hat.2 (hended hat.1)

/-- Every step of a call of `wait` or `signal` is sound. -/
theorem waiter_step_sound {a : WaiterAct} {r : SyncLogWaiter Tid × WaiterPc}
    (hw : Sound w signalled) (hl : ThreadSound t w signalled l) (hG : waits_and_signals t a w l)
    (hstep : waiter_step debug_assertions t a w l = some r) :
    SoundStep t w signalled r.1 (record_signal t a w l r signalled ()).1 r.2 := by
  cases l with
  | idle =>
    cases a with
    | prime => exact hG.elim
    | step => cases hstep
    | wait | state =>
      cases hstep
      exact .of_same hw ⟨hl.owner, trivial⟩
    | signal state =>
      cases hstep
      have hterminal : state.is_terminal = true := hG
      have hne : state ≠ .Primed := by
        rintro rfl
        cases hterminal
      simp only [if_neg hne]
      exact .of_same hw ⟨hl.owner, hterminal⟩
  | prime pc => exact hl.at_point.elim
  | signal state pc =>
    cases a with
    | step spurious =>
      have hsound := signal_step_sound hw hl hstep
      cases pc with
      | lock | store | notify | unlock => exact hsound
    | _ => cases hstep
  | wait started pc =>
    cases a with
    | step spurious => exact wait_step_sound hw hl hstep
    | _ => cases hstep

end steps

theorem sound_outline_valid :
    Outline.trivial.ValidOver (sound_outline Tid) (primed_system Tid debug_assertions)
      (forgetful waits_and_signals) where
  init_shared := ⟨nofun, .inl rfl, fun _ h => (List.not_mem_nil h).elim, nofun⟩
  init_thread := fun _ => ⟨⟨nofun, nofun⟩, trivial⟩
  init_apart := trivial
  step_own := by
    intro t a s l r _ _ hs hl hG hr
    obtain ⟨r', hr', rfl⟩ := Option.map_eq_some_iff.mp hr
    have hstep := waiter_step_sound hs hl hG hr'
    exact ⟨hstep.sound, hstep.own⟩
  step_other := by
    intro t u a s l m r hne _ hpair hG hr
    obtain ⟨r', hr', rfl⟩ := Option.map_eq_some_iff.mp hr
    have hstep := waiter_step_sound hpair.shared hpair.own hG hr'
    exact ⟨SoundAt.frame hpair.other (hstep.frame u (Ne.symm hne)), trivial, trivial⟩

/-- In every run on a primed waiter the calls of `wait` that ended have answered what was
signalled before, none by a panic, and a thread asleep past a result has its wake-up
pending: some `signal` has yet to notify all. -/
theorem wait_sound_and_woken
    {c : Config Tid (SyncLogWaiter Tid × List WalSyncResultState) (WaiterPc × Unit)}
    (hc : (primed_system Tid debug_assertions).ReachableUnder (forgetful waits_and_signals) c) :
    (∀ wait ∈ c.shared.1.waits, wait.2.Justified c.shared.2) ∧
    ∀ t ∈ c.shared.1.cv.waiting, c.shared.1.state.is_terminal = true →
      ∃ u state, (c.threads u).1 = .signal state .notify := by
  have houtline := sound_outline_valid.holds_of_trivial hc
  refine ⟨houtline.shared.waits, ?_⟩
  intro t hasleep hterminal
  cases hmu : c.shared.1.mu with
  | free =>
    rw [houtline.shared.awake hmu hterminal] at hasleep
    cases hasleep
  | poisoned => exact absurd hmu houtline.shared.not_poisoned
  | held u =>
    have hnone : c.shared.1.cv.waiting ≠ [] := List.ne_nil_of_mem hasleep
    obtain ⟨howner, hat⟩ : ThreadSound u c.shared.1 c.shared.2 (c.threads u).1 :=
      houtline.thread u
    refine ⟨u, ?_⟩
    have hin := howner.mpr hmu
    generalize (c.threads u).1 = l at hin hat
    rcases l with _ | pc | ⟨state, _ | _ | _ | _⟩ | ⟨started, left | _ | _ | _ | _ | _ | _ | result⟩
    case prime => exact hat.elim
    case signal.notify => exact ⟨state, rfl⟩
    case signal.store => exact absurd (hat.2 hterminal) hnone
    case signal.unlock => exact absurd hat hnone
    case wait.check => exact absurd (hat hterminal) hnone
    case wait.wait =>
      rw [show c.shared.1.state = .Primed from hat] at hterminal
      cases hterminal
    case wait.read => exact absurd hat.2 hnone
    case wait.unlock => exact absurd (hat.2 hterminal) hnone
    all_goals cases hin

/-- Thread `true` spins, falls asleep and is woken by a signal of thread `false`. -/
def wait_asleep : List (Bool × WaiterAct) :=
  (true, .wait) :: List.replicate 203 (true, .step false) ++
    (false, .signal .IoError) :: List.replicate 4 (false, .step false) ++
      List.replicate 5 (true, .step false)

theorem wait_sound_and_woken_asleep :
    ∃ c, (primed_system Bool true).ReachableUnder (forgetful waits_and_signals) c ∧
      c.shared.1.waits = [(none, .returned (some .IoError))] ∧
      ((∀ wait ∈ c.shared.1.waits, wait.2.Justified c.shared.2) ∧
      ∀ t ∈ c.shared.1.cv.waiting, c.shared.1.state.is_terminal = true →
        ∃ u state, (c.threads u).1 = .signal state .notify) := by
  obtain ⟨c, hc, hseen⟩ := reachable_showing (primed_system Bool true)
    (forgetful waits_and_signals) wait_asleep (fun c => c.shared.1.waits)
    [(none, .returned (some .IoError))] (by decide +kernel)
  exact ⟨c, hc, hseen, wait_sound_and_woken hc⟩

end ordinum.wal
