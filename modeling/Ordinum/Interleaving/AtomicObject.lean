import Mathlib.Data.List.Induction
import Mathlib.Logic.Function.Basic
import Mathlib.Logic.Relation

namespace interleaving

/-- An object by its operations, one at a time: what an operation may answer in a
state, and the state that it leaves. -/
structure Object (Op Ret State : Type*) where
  init : State
  effect : Op → State → Ret → State → Prop

/-- What is seen of a call from outside. -/
inductive Event (Process Op Ret : Type*) where
  | called (p : Process) (op : Op)
  | returned (p : Process) (op : Op) (ret : Ret)
  | panicked (p : Process) (op : Op)
  deriving DecidableEq, Repr

/-- How far the call of a process has come. -/
inductive Pending (Op Ret : Type*) where
  | idle
  | called (op : Op)
  | answered (op : Op) (ret : Ret)

structure Trace (Process Op Ret State : Type*) where
  history : List (Event Process Op Ret)
  pending : Process → Pending Op Ret
  state : State

variable {Process Op Ret State : Type*}

def Event.process : Event Process Op Ret → Process
  | .called p _ | .returned p _ _ | .panicked p _ => p

/-- The operation of a call that runs. -/
def Pending.op : Pending Op Ret → Option Op
  | .idle => none
  | .called op | .answered op _ => some op

variable [DecidableEq Process]

/-- The trace after a process has come to `y`, seen as `es`, with the object in
the state `b`. -/
def Trace.goes (x : Trace Process Op Ret State) (p : Process) (es : List (Event Process Op Ret))
    (y : Pending Op Ret) (b : State) : Trace Process Op Ret State :=
  { history := x.history ++ es, pending := Function.update x.pending p y, state := b }

theorem Trace.goes_pending_self (x : Trace Process Op Ret State) (p : Process)
    (es : List (Event Process Op Ret)) (u : Pending Op Ret) (b : State) :
    (x.goes p es u b).pending p = u :=
  Function.update_self ..

theorem Trace.goes_pending_of_ne (x : Trace Process Op Ret State) {p q : Process} (hne : q ≠ p)
    (es : List (Event Process Op Ret)) (u : Pending Op Ret) (b : State) :
    (x.goes p es u b).pending q = x.pending q :=
  Function.update_of_ne hne ..

namespace Object

variable (O : Object Op Ret State)

/-- A call of an atomic object begins, takes effect at once at some later moment,
and returns later still what it answered then; a call that panics has no effect. -/
inductive Step (x : Trace Process Op Ret State) : Trace Process Op Ret State → Prop where
  | call {p op} (hidle : x.pending p = .idle) :
    Step x (x.goes p [.called p op] (.called op) x.state)
  | take_effect {p op ret b} (hcalled : x.pending p = .called op)
    (heffect : O.effect op x.state ret b) : Step x (x.goes p [] (.answered op ret) b)
  | answer {p op ret} (hanswered : x.pending p = .answered op ret) :
    Step x (x.goes p [.returned p op ret] .idle x.state)
  | panic {p op} (hcalled : x.pending p = .called op) :
    Step x (x.goes p [.panicked p op] .idle x.state)

abbrev Steps : Trace Process Op Ret State → Trace Process Op Ret State → Prop :=
  Relation.ReflTransGen O.Step

def start : Trace Process Op Ret State :=
  { history := [], pending := fun _ => .idle, state := O.init }

/-- The traces of the atomic object. -/
def Atomic (x : Trace Process Op Ret State) : Prop := O.Steps O.start x

/-- A history in which every call can be given a moment between its begin and its
return such that the calls, made one at a time at these moments, answer as they did. -/
def Linearizable (history : List (Event Process Op Ret)) : Prop :=
  ∃ x, O.Atomic x ∧ x.history = history

variable {O} {x y z : Trace Process Op Ret State}

/-- Induction over the traces of the object. -/
theorem Atomic.induction {P : Trace Process Op Ret State → Prop} (hstart : P O.start)
    (hstep : ∀ x y, O.Atomic x → P x → O.Step x y → P y) (hx : O.Atomic x) : P x := by
  induction hx with
  | refl => exact hstart
  | tail hy hlast ih => exact hstep _ _ hy ih hlast

section does

/-- What a process may do from `y`, with the object in the state `a`. -/
def Does (O : Object Op Ret State) (p : Process) (y : Pending Op Ret) (a : State)
    (es : List (Event Process Op Ret)) (y' : Pending Op Ret) (b : State) : Prop :=
  ∀ x : Trace Process Op Ret State, x.pending p = y → x.state = a → O.Steps x (x.goes p es y' b)

variable {p : Process} {op : Op} {ret : Ret} {a b : State} {u v w : Pending Op Ret}
  {es es' : List (Event Process Op Ret)}

theorem Does.stay : O.Does p u a [] u a := by
  rintro x rfl rfl
  have hsame : x.goes p [] (x.pending p) x.state = x := by simp [Trace.goes]
  rw [hsame]

theorem Does.call : O.Does p .idle a [.called p op] (.called op) a := by
  rintro x hx rfl
  exact .single (.call hx)

theorem Does.take_effect (heffect : O.effect op a ret b) :
    O.Does p (.called op) a [] (.answered op ret) b := by
  rintro x hx rfl
  exact .single (.take_effect hx heffect)

theorem Does.answer : O.Does p (.answered op ret) a [.returned p op ret] .idle a := by
  rintro x hx rfl
  exact .single (.answer hx)

theorem Does.panic : O.Does p (.called op) a [.panicked p op] .idle a := by
  rintro x hx rfl
  exact .single (.panic hx)

theorem Does.trans {c : State} (h : O.Does p u a es v b) (h' : O.Does p v b es' w c) :
    O.Does p u a (es ++ es') w c := by
  intro x hx ha
  have hgoes : (x.goes p es v b).goes p es' w c = x.goes p (es ++ es') w c := by
    simp [Trace.goes]
  rw [← hgoes]
  exact (h x hx ha).trans (h' _ (by simp [Trace.goes]) rfl)

/-- A call may return at the moment at which it takes effect. -/
theorem Does.take_effect_and_answer (heffect : O.effect op a ret b) :
    O.Does p (.called op) a [.returned p op ret] .idle b :=
  (Does.take_effect heffect).trans .answer

end does

section within

/-- Every event of a step is the last of the history. -/
theorem Step.history (hstep : O.Step x y) :
    y.history = x.history ∨ ∃ e, y.history = x.history ++ [e] := by
  cases hstep with
  | take_effect => exact .inl (List.append_nil _)
  | call | answer | panic => exact .inr ⟨_, rfl⟩

theorem Steps.history (hsteps : O.Steps x y) : x.history <+: y.history := by
  induction hsteps with
  | refl => exact List.prefix_rfl
  | tail _ hstep ih =>
    obtain hsame | ⟨e, hmore⟩ := hstep.history
    · rw [hsame]
      exact ih
    · rw [hmore]
      exact ih.trans (List.prefix_append _ _)

/-- A call that runs has begun. -/
theorem Atomic.called_mem (hx : O.Atomic x) {p : Process} {op : Op}
    (hrunning : (x.pending p).op = some op) : .called p op ∈ x.history := by
  revert p op
  refine Atomic.induction (P := fun x => ∀ {p op}, (x.pending p).op = some op →
    .called p op ∈ x.history) ?_ ?_ hx
  · intro p op hrunning
    cases hrunning
  · intro x y _ ih hstep p op hrunning
    have hmore := (Steps.history (.single hstep)).subset
    have hother : ∀ {q es u b}, p ≠ q → y = x.goes q es u b → .called p op ∈ y.history := by
      rintro q es u b hne rfl
      rw [x.goes_pending_of_ne hne] at hrunning
      exact hmore (ih hrunning)
    cases hstep with
    | @call q op' hidle =>
      by_cases hq : p = q
      · subst hq
        rw [x.goes_pending_self] at hrunning
        cases hrunning
        exact List.mem_append_right _ (List.mem_singleton_self _)
      · exact hother hq rfl
    | @take_effect q op' ret b hcalled heffect =>
      by_cases hq : p = q
      · subst hq
        rw [x.goes_pending_self] at hrunning
        cases hrunning
        apply hmore
        apply ih
        rw [hcalled]
        rfl
      · exact hother hq rfl
    | @answer q op' ret hanswered =>
      by_cases hq : p = q
      · subst hq
        rw [x.goes_pending_self] at hrunning
        cases hrunning
      · exact hother hq rfl
    | @panic q op' hcalled =>
      by_cases hq : p = q
      · subst hq
        rw [x.goes_pending_self] at hrunning
        cases hrunning
      · exact hother hq rfl

/-- The step that added an event to the history. -/
theorem Atomic.at_event {h₁ h₂ : List (Event Process Op Ret)} {e : Event Process Op Ret}
    (hx : O.Atomic x) (hhistory : x.history = h₁ ++ e :: h₂) : ∃ y z, O.Atomic y ∧
      y.history = h₁ ∧ O.Step y z ∧ z.history = h₁ ++ [e] ∧ O.Steps z x := by
  revert h₂
  refine Atomic.induction (P := fun x => ∀ {h₂}, x.history = h₁ ++ e :: h₂ → ∃ y z, O.Atomic y ∧
    y.history = h₁ ∧ O.Step y z ∧ z.history = h₁ ++ [e] ∧ O.Steps z x) ?_ ?_ hx
  · intro h₂ hhistory
    exact absurd hhistory.symm (List.append_ne_nil_of_right_ne_nil h₁ (List.cons_ne_nil e h₂))
  · intro x y hx ih hstep h₂ hhistory
    have hgoes : ∀ {h₂}, x.history = h₁ ++ e :: h₂ → ∃ y' z, O.Atomic y' ∧
        y'.history = h₁ ∧ O.Step y' z ∧ z.history = h₁ ++ [e] ∧ O.Steps z y := by
      intro h₂ hold
      obtain ⟨y', z, hy', hbefore, hstep', hz, hlater⟩ := ih hold
      exact ⟨y', z, hy', hbefore, hstep', hz, hlater.tail hstep⟩
    obtain hsame | ⟨e', hmore⟩ := hstep.history
    · exact hgoes (hsame.symm.trans hhistory)
    · rw [hmore] at hhistory
      cases h₂ using List.reverseRecOn with
      | nil =>
        obtain ⟨hbefore, he⟩ := List.append_inj' hhistory rfl
        exact ⟨x, y, hx, hbefore, hstep, by rw [hmore, hbefore, he], .refl⟩
      | append_singleton h₂ e'' =>
        rw [← List.cons_append, ← List.append_assoc] at hhistory
        exact hgoes (List.append_inj' hhistory rfl).1

/-- Where the call of a process stands that has not returned. -/
structure Running (O : Object Op Ret State) (p : Process) (op : Op)
    (x y : Trace Process Op Ret State) : Prop where
  steps : O.Steps x y
  pending : y.pending p = .called op ∨ ∃ ret u b, y.pending p = .answered op ret ∧
    O.Steps x u ∧ O.Steps u y ∧ O.effect op u.state ret b

/-- The call goes on until there is an event of its process. -/
theorem Running.step {p : Process} {op : Op} (h : Running O p op x y) (hstep : O.Step y z) :
    Running O p op x z ∨ ∃ e, e.process = p ∧ z.history = y.history ++ [e] := by
  have hsteps := h.steps.tail hstep
  have hlast : O.Steps y z := .single hstep
  have hother : ∀ {q es u b}, q ≠ p → z = y.goes q es u b → Running O p op x z := by
    rintro q es u b hne rfl
    refine ⟨hsteps, ?_⟩
    rw [y.goes_pending_of_ne (Ne.symm hne)]
    exact h.pending.imp_right fun ⟨ret, v, b, hret, hv, hlater, heffect⟩ =>
      ⟨ret, v, b, hret, hv, hlater.trans hlast, heffect⟩
  cases hstep with
  | @call q op' hidle =>
    by_cases hq : q = p
    · exact .inr ⟨.called q op', hq, rfl⟩
    · exact .inl (hother hq rfl)
  | @take_effect q op' ret b hcalled heffect =>
    by_cases hq : q = p
    · subst hq
      obtain hpending | ⟨ret', v, b', hpending, -⟩ := h.pending
      · obtain rfl : op = op' := Pending.called.inj (hpending.symm.trans hcalled)
        exact .inl ⟨hsteps, .inr ⟨ret, y, b, y.goes_pending_self .., h.steps, hlast, heffect⟩⟩
      · cases hpending.symm.trans hcalled
    · exact .inl (hother hq rfl)
  | @answer q op' ret hanswered =>
    by_cases hq : q = p
    · exact .inr ⟨.returned q op' ret, hq, rfl⟩
    · exact .inl (hother hq rfl)
  | @panic q op' hcalled =>
    by_cases hq : q = p
    · exact .inr ⟨.panicked q op', hq, rfl⟩
    · exact .inl (hother hq rfl)

/-- The call goes on as long as there is no event of its process. -/
theorem Running.run {p : Process} {op : Op} (h : Running O p op x y) (hsteps : O.Steps y z)
    (hquiet : ∀ es, z.history = y.history ++ es → ∀ e ∈ es, e.process ≠ p) :
    Running O p op x z := by
  induction hsteps with
  | refl => exact h
  | @tail z w hyz hstep ih =>
    obtain ⟨es, hes⟩ := Steps.history hyz
    obtain ⟨es', hes'⟩ := Steps.history (.single hstep)
    have hrunning : Running O p op x z := by
      apply ih
      intro es'' hes'' e he
      apply hquiet (es'' ++ es') _ e (List.mem_append_left _ he)
      rw [← hes', hes'', List.append_assoc]
    obtain hmore | ⟨e, hprocess, hmore⟩ := hrunning.step hstep
    · exact hmore
    · refine absurd hprocess (hquiet (es ++ [e]) ?_ e (by simp))
      rw [hmore, ← hes, List.append_assoc]

theorem Step.called {p : Process} {op : Op} (hstep : O.Step x y)
    (hhistory : y.history = x.history ++ [.called p op]) : y.pending p = .called op := by
  cases hstep with
  | call hidle =>
    cases List.append_cancel_left hhistory
    exact x.goes_pending_self ..
  | take_effect | answer | panic => cases List.append_cancel_left hhistory

theorem Step.returned {p : Process} {op : Op} {ret : Ret} (hstep : O.Step x y)
    (hhistory : y.history = x.history ++ [.returned p op ret]) :
    x.pending p = .answered op ret := by
  cases hstep with
  | answer hanswered =>
    cases List.append_cancel_left hhistory
    exact hanswered
  | call | take_effect | panic => cases List.append_cancel_left hhistory

/-- A call that has returned took effect between its begin and its return, and
answered then what it returned. -/
theorem Atomic.returned_within {h₁ h₂ h₃ : List (Event Process Op Ret)} {p : Process} {op : Op}
    {ret : Ret} (hx : O.Atomic x)
    (hhistory : x.history = h₁ ++ .called p op :: (h₂ ++ .returned p op ret :: h₃))
    (hquiet : ∀ e ∈ h₂, e.process ≠ p) :
    ∃ u y b, O.Atomic u ∧ u.history = h₁ ∧ O.Steps u y ∧ y.history <+: h₁ ++ .called p op :: h₂ ∧
      O.effect op y.state ret b := by
  have hsplit : x.history = (h₁ ++ .called p op :: h₂) ++ .returned p op ret :: h₃ := by
    rw [hhistory, List.append_assoc, List.cons_append]
  obtain ⟨w, z, hw, hbefore, hreturn, hz, -⟩ := hx.at_event hsplit
  obtain ⟨u, v, hu, hstart, hcall, hv, hlater⟩ := hw.at_event hbefore
  have hcalled : v.pending p = .called op := hcall.called (by rw [hv, hstart])
  have hanswered : w.pending p = .answered op ret := hreturn.returned (by rw [hz, hbefore])
  have hrunning : Running O p op v v := ⟨.refl, .inl hcalled⟩
  have hpending := (hrunning.run hlater ?_).pending
  · obtain hpending | ⟨ret', y, b, hpending, hy, hyw, heffect⟩ := hpending
    · cases hpending.symm.trans hanswered
    · cases hpending.symm.trans hanswered
      exact ⟨u, y, b, hu, hstart, .head hcall hy, hbefore ▸ Steps.history hyw, heffect⟩
  · intro es hes
    rw [hv, hbefore, List.append_assoc, List.append_cancel_left_eq, List.singleton_append,
      List.cons_inj_right] at hes
    rwa [← hes]

end within

end Object

end interleaving
