import Ordinum.Interleaving.AtomicObject
import Ordinum.Interleaving.History

namespace interleaving

variable {Op Op' Ret State State' : Type*}

section refinement

variable {Process : Type*}

def Event.map (f : Op' → Op) : Event Process Op' Ret → Event Process Op Ret
  | .called p op => .called p (f op)
  | .returned p op ret => .returned p (f op) ret
  | .panicked p op => .panicked p (f op)

def Pending.map (f : Op' → Op) : Pending Op' Ret → Pending Op Ret
  | .idle => .idle
  | .called op => .called (f op)
  | .answered op ret => .answered (f op) ret

/-- The operations `f op` of `A` do what the operations `op` of `B` do, in states
that `R` relates. -/
structure Object.Refines (A : Object Op Ret State) (B : Object Op' Ret State') (f : Op' → Op)
    (R : State → State' → Prop) : Prop where
  init : R A.init B.init
  effect : ∀ op a b ret a', R a b → A.effect (f op) a ret a' →
    ∃ b', B.effect op b ret b' ∧ R a' b'

variable [DecidableEq Process] {A : Object Op Ret State} {B : Object Op' Ret State'} {f : Op' → Op}
  {R : State → State' → Prop}

/-- A trace of `A` is one of `B`, in the operations of `B`. -/
structure Trace.Means (f : Op' → Op) (R : State → State' → Prop)
    (x : Trace Process Op Ret State) (y : Trace Process Op' Ret State') : Prop where
  history : x.history = y.history.map (Event.map f)
  pending : ∀ p, x.pending p = (y.pending p).map f
  state : R x.state y.state

omit [DecidableEq Process] in
theorem Pending.map_eq_idle {u : Pending Op' Ret} (h : u.map f = .idle) : u = .idle := by
  cases u with
  | idle => rfl
  | called | answered => cases h

omit [DecidableEq Process] in
theorem Pending.map_eq_called {u : Pending Op' Ret} {op : Op} (h : u.map f = .called op) :
    ∃ op', f op' = op ∧ u = .called op' := by
  cases u with
  | called op' => exact ⟨op', Pending.called.inj h, rfl⟩
  | idle | answered => cases h

omit [DecidableEq Process] in
theorem Pending.map_eq_answered {u : Pending Op' Ret} {op : Op} {ret : Ret}
    (h : u.map f = .answered op ret) : ∃ op', f op' = op ∧ u = .answered op' ret := by
  cases u with
  | answered op' ret' =>
    obtain ⟨hop, rfl⟩ := Pending.answered.inj h
    exact ⟨op', hop, rfl⟩
  | idle | called => cases h

omit [DecidableEq Process] in
theorem Event.map_eq_called {e : Event Process Op' Ret} {p : Process} {op : Op}
    (h : e.map f = .called p op) : ∃ op', f op' = op ∧ e = .called p op' := by
  cases e with
  | called q op' =>
    obtain ⟨rfl, hop⟩ := Event.called.inj h
    exact ⟨op', hop, rfl⟩
  | returned | panicked => cases h

omit [DecidableEq Process] in
theorem Event.map_eq_returned {e : Event Process Op' Ret} {p : Process} {op : Op} {ret : Ret}
    (h : e.map f = .returned p op ret) : ∃ op', f op' = op ∧ e = .returned p op' ret := by
  cases e with
  | returned q op' ret' =>
    obtain ⟨rfl, hop, rfl⟩ := Event.returned.inj h
    exact ⟨op', hop, rfl⟩
  | called | panicked => cases h

omit [DecidableEq Process] in
theorem Event.map_process (e : Event Process Op' Ret) : (e.map f).process = e.process := by
  cases e with
  | called | returned | panicked => rfl

theorem Trace.Means.goes {x : Trace Process Op Ret State} {y : Trace Process Op' Ret State'}
    (h : x.Means f R y) (p : Process) (es : List (Event Process Op' Ret)) (u : Pending Op' Ret)
    {a : State} {b : State'} (hstate : R a b) :
    (x.goes p (es.map (Event.map f)) (u.map f) a).Means f R (y.goes p es u b) := by
  refine ⟨?_, fun q => ?_, hstate⟩
  · simp [Trace.goes, h.history]
  · by_cases hq : q = p
    · subst hq
      simp [Trace.goes]
    · simp [Trace.goes, hq, h.pending q]

/-- One step of `A` is one of `B`. -/
theorem Object.Refines.step (hrefines : A.Refines B f R) {x z : Trace Process Op Ret State}
    {y : Trace Process Op' Ret State'} (h : x.Means f R y) (hstep : A.Step x z)
    (hcalls : ∀ p op, .called p op ∈ z.history → ∃ op', f op' = op) :
    ∃ w, z.Means f R w ∧ B.Step y w := by
  cases hstep with
  | @call p op hidle =>
    obtain ⟨op', rfl⟩ := hcalls p op (by simp [Trace.goes])
    rw [h.pending] at hidle
    exact ⟨_, h.goes p [.called p op'] (.called op') h.state, .call (Pending.map_eq_idle hidle)⟩
  | @take_effect p op ret a hcalled heffect =>
    rw [h.pending] at hcalled
    obtain ⟨op', rfl, hcalled'⟩ := Pending.map_eq_called hcalled
    obtain ⟨b, heffect', hstate⟩ := hrefines.effect op' _ _ ret a h.state heffect
    exact ⟨_, h.goes p [] (.answered op' ret) hstate, .take_effect hcalled' heffect'⟩
  | @answer p op ret hanswered =>
    rw [h.pending] at hanswered
    obtain ⟨op', rfl, hanswered'⟩ := Pending.map_eq_answered hanswered
    exact ⟨_, h.goes p [.returned p op' ret] .idle h.state, .answer hanswered'⟩
  | @panic p op hcalled =>
    rw [h.pending] at hcalled
    obtain ⟨op', rfl, hcalled'⟩ := Pending.map_eq_called hcalled
    exact ⟨_, h.goes p [.panicked p op'] .idle h.state, .panic hcalled'⟩

/-- A trace of `A` that calls no other operations is a trace of `B`. -/
theorem Object.Refines.atomic (hrefines : A.Refines B f R) {x : Trace Process Op Ret State}
    (hx : A.Atomic x) (hcalls : ∀ p op, .called p op ∈ x.history → ∃ op', f op' = op) :
    ∃ y, x.Means f R y ∧ B.Atomic y := by
  revert hcalls
  refine Object.Atomic.induction (P := fun x => (∀ p op, .called p op ∈ x.history →
    ∃ op', f op' = op) → ∃ y, x.Means f R y ∧ B.Atomic y) ?_ ?_ hx
  · exact fun _ => ⟨B.start, ⟨rfl, fun _ => rfl, hrefines.init⟩, .refl⟩
  · intro x z _ ih hstep hcalls
    obtain ⟨y, hmeans, hy⟩ := ih fun p op hop =>
      hcalls p op ((Object.Steps.history (.single hstep)).subset hop)
    obtain ⟨w, hw, hlast⟩ := hrefines.step hmeans hstep hcalls
    exact ⟨w, hw, hy.tail hlast⟩

end refinement

section programs

variable {Tid Role Act Shared Local : Type*}

namespace System

/-- The events of the steps of a program; a thread carries out calls in one or more
roles. -/
abbrev Events (Tid Role Act Shared Local Op Ret : Type*) :=
  Tid → Act → Shared → Local → Shared × Local → List (Event (Tid × Role) Op Ret)

/-- The system with the history of its calls. -/
def with_events (sys : System Tid Act Shared Local)
    (events : Events Tid Role Act Shared Local Op Ret) :
    System Tid Act (Shared × List (Event (Tid × Role) Op Ret)) (Local × Unit) :=
  sys.with_history [] () fun t a s l r log _ => (log ++ events t a s l r, ())

variable [DecidableEq Tid] [DecidableEq Role]

/-- The program carries out the operations of an atomic object, in states of the
memory that `abstracts` relates to those of the object. -/
structure CarriesOut (sys : System Tid Act Shared Local) (G : StepCondition Tid Act Shared Local)
    (O : Object Op Ret State) (events : Events Tid Role Act Shared Local Op Ret)
    (abstracts : Shared → State → Prop) (pending : Shared → Local → Role → Pending Op Ret) :
    Prop where
  init : abstracts sys.shared₀ O.init
  idle : ∀ role, pending sys.shared₀ sys.local₀ role = .idle
  own : ∀ (c : Config Tid Shared Local) t a r state, sys.ReachableUnder G c →
    G t a c.shared (c.threads t) → sys.step t a c.shared (c.threads t) = some r →
    abstracts c.shared state → ∃ role state', abstracts r.1 state' ∧
      O.Does (t, role) (pending c.shared (c.threads t) role) state
        (events t a c.shared (c.threads t) r) (pending r.1 r.2 role) state' ∧
      ∀ other, other ≠ role → pending r.1 r.2 other = pending c.shared (c.threads t) other
  other : ∀ (c : Config Tid Shared Local) t a r, sys.ReachableUnder G c →
    G t a c.shared (c.threads t) → sys.step t a c.shared (c.threads t) = some r →
    ∀ u, u ≠ t → ∀ role, pending r.1 (c.threads u) role = pending c.shared (c.threads u) role

omit [DecidableEq Role] in
/-- What holds of the events of every step holds of the history. -/
theorem ReachableUnder.seen {sys : System Tid Act Shared Local}
    {G : StepCondition Tid Act Shared Local}
    {events : Events Tid Role Act Shared Local Op Ret} {P : Event (Tid × Role) Op Ret → Prop}
    (hstep : ∀ t a s l r, G t a s l → ∀ e ∈ events t a s l r, P e)
    {c : Config Tid (Shared × List (Event (Tid × Role) Op Ret)) (Local × Unit)}
    (hc : (sys.with_events events).ReachableUnder (forgetful G) c) : ∀ e ∈ c.shared.2, P e := by
  refine ReachableUnder.history_induction (P := fun c => ∀ e ∈ c.shared.2, P e) ?_ ?_ hc
  · exact fun _ h => absurd h List.not_mem_nil
  · intro c t a r _ ih hG _ e he
    obtain hold | hnew := List.mem_append.mp he
    · exact ih e hold
    · exact hstep t a _ _ r hG e hnew

/-- What a program with its history looks like from the atomic object. -/
def seen_as (pending : Shared → Local → Role → Pending Op Ret)
    (c : Config Tid (Shared × List (Event (Tid × Role) Op Ret)) (Local × Unit)) (state : State) :
    Trace (Tid × Role) Op Ret State :=
  { history := c.shared.2
    pending := fun p => pending c.shared.1 (c.threads p.1).1 p.2
    state }

variable {sys : System Tid Act Shared Local} {G : StepCondition Tid Act Shared Local}
  {O : Object Op Ret State} {events : Events Tid Role Act Shared Local Op Ret}
  {abstracts : Shared → State → Prop} {pending : Shared → Local → Role → Pending Op Ret}

/-- Every run of the program is a run of the atomic object. -/
theorem CarriesOut.atomic (h : sys.CarriesOut G O events abstracts pending)
    {c : Config Tid (Shared × List (Event (Tid × Role) Op Ret)) (Local × Unit)}
    (hc : (sys.with_events events).ReachableUnder (forgetful G) c) :
    ∃ state, abstracts c.shared.1 state ∧ O.Atomic (seen_as pending c state) := by
  refine ReachableUnder.history_induction
    (P := fun c => ∃ state, abstracts c.shared.1 state ∧ O.Atomic (seen_as pending c state))
    ?_ ?_ hc
  · refine ⟨O.init, h.init, ?_⟩
    have hstart : seen_as pending (sys.with_events events).init O.init = O.start := by
      rw [Object.start, seen_as, Trace.mk.injEq]
      exact ⟨rfl, funext fun p => h.idle p.2, rfl⟩
    exact hstart ▸ .refl
  · intro c t a r hreach ⟨state, hstate, hatomic⟩ hG hr
    obtain ⟨role, state', hstate', hdoes, hother⟩ := h.own c.forget t a r state hreach hG hr hstate
    refine ⟨state', hstate', hatomic.trans ?_⟩
    have hgoes : O.Steps (seen_as pending c state) ((seen_as pending c state).goes (t, role)
        (events t a c.shared.1 (c.threads t).1 r) (pending r.1 r.2 role) state') :=
      hdoes (seen_as pending c state) rfl rfl
    have hsame : seen_as pending (c.move t ((r.1, c.shared.2 ++ events t a c.shared.1
        (c.threads t).1 r), r.2, ())) state' = (seen_as pending c state).goes (t, role)
        (events t a c.shared.1 (c.threads t).1 r) (pending r.1 r.2 role) state' := by
      rw [seen_as, Trace.goes, Trace.mk.injEq]
      refine ⟨rfl, ?_, rfl⟩
      funext p
      obtain ⟨u, other⟩ := p
      by_cases hu : u = t
      · subst hu
        rw [Config.move_threads_self]
        by_cases hrole : other = role
        · subst hrole
          rw [Function.update_self]
          rfl
        · have hne : (u, other) ≠ (u, role) := fun h => hrole (congrArg Prod.snd h)
          rw [Function.update_of_ne hne]
          exact hother other hrole
      · have hne : (u, other) ≠ (t, role) := fun h => hu (congrArg Prod.fst h)
        rw [c.move_threads_of_ne _ hu, Function.update_of_ne hne]
        exact h.other c.forget t a r hreach hG hr u hu other
    rw [← hsame] at hgoes
    exact hgoes

end System

end programs

end interleaving
