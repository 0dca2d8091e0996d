import Ordinum.Interleaving.System

namespace interleaving

/-- The local state of a thread next to that of what it reads. -/
structure Observing (Local Reads : Type*) where
  own : Local
  reads : Reads

inductive ObservingAct (Act ReadAct : Type*) where
  | own (a : Act)
  | read (a : ReadAct)
  deriving DecidableEq, Repr

variable {Tid Act ReadAct Shared Local Reads : Type*}

/-- What the threads do apart from reading. -/
def Config.unobserved (c : Config Tid Shared (Observing Local Reads)) :
    Config Tid Shared Local :=
  { shared := c.shared, threads := fun t => (c.threads t).own }

namespace System

/-- The system whose threads may also read, each in steps that leave the shared
memory as it is. -/
def observed (sys : System Tid Act Shared Local) (reads₀ : Reads)
    (read : ReadAct → Shared → Reads → Option Reads) :
    System Tid (ObservingAct Act ReadAct) Shared (Observing Local Reads) where
  shared₀ := sys.shared₀
  local₀ := { own := sys.local₀, reads := reads₀ }
  step
    | t, .own a, s, l => (sys.step t a s l.own).map fun r => (r.1, { l with own := r.2 })
    | _, .read a, s, l => (read a s l.reads).map fun reads => (s, { l with reads })

/-- A condition on the steps that are no reads. -/
def underneath (G : StepCondition Tid Act Shared Local) :
    StepCondition Tid (ObservingAct Act ReadAct) Shared (Observing Local Reads) :=
  fun t a s l =>
    match a with
    | .own a => G t a s l.own
    | .read _ => True

instance (G : StepCondition Tid Act Shared Local) [∀ t a s l, Decidable (G t a s l)] (t : Tid)
    (a : ObservingAct Act ReadAct) (s : Shared) (l : Observing Local Reads) :
    Decidable (underneath G t a s l) :=
  match a with
  | .own a => inferInstanceAs (Decidable (G t a s l.own))
  | .read _ => .isTrue trivial

variable [DecidableEq Tid] {sys : System Tid Act Shared Local} {reads₀ : Reads}
  {read : ReadAct → Shared → Reads → Option Reads} {G : StepCondition Tid Act Shared Local}
  {c d : Config Tid Shared (Observing Local Reads)}

theorem unobserved_move (c : Config Tid Shared (Observing Local Reads)) (t : Tid)
    (r : Shared × Observing Local Reads) :
    (c.move t r).unobserved = c.unobserved.move t (r.1, r.2.own) := by
  rw [Config.mk.injEq]
  refine ⟨rfl, ?_⟩
  funext u
  by_cases hu : u = t
  · subst hu
    simp [Config.unobserved, Config.move]
  · simp [Config.unobserved, Config.move, hu]

theorem unobserved_read (c : Config Tid Shared (Observing Local Reads)) (t : Tid)
    (reads : Reads) :
    (c.move t (c.shared, { c.threads t with reads })).unobserved = c.unobserved := by
  rw [unobserved_move, Config.mk.injEq]
  exact ⟨rfl, Function.update_eq_self t c.unobserved.threads⟩

/-- A step of the observed system is a step of the system or a read. -/
theorem StepUnder.observed_cases
    (h : (sys.observed reads₀ read).StepUnder (underneath G) c d) :
    (∃ t a r, G t a c.shared (c.threads t).own ∧
      sys.step t a c.shared (c.threads t).own = some r ∧
      d = c.move t (r.1, { c.threads t with own := r.2 })) ∨
    ∃ t a reads, read a c.shared (c.threads t).reads = some reads ∧
      d = c.move t (c.shared, { c.threads t with reads }) := by
  obtain ⟨t, a | a, r, hG, hstep, rfl⟩ := h
  · obtain ⟨r, hr, rfl⟩ := Option.map_eq_some_iff.mp hstep
    exact .inl ⟨t, a, r, hG, hr, rfl⟩
  · obtain ⟨reads, hreads, rfl⟩ := Option.map_eq_some_iff.mp hstep
    exact .inr ⟨t, a, reads, hreads, rfl⟩

/-- Without its reads, a run of the observed system is a run of the system. -/
theorem StepsUnder.unobserved
    (hsteps : (sys.observed reads₀ read).StepsUnder (underneath G) c d) :
    sys.StepsUnder G c.unobserved d.unobserved := by
  induction hsteps with
  | refl => exact .refl
  | tail _ hstep ih =>
    obtain ⟨t, a, r, hG, hr, rfl⟩ | ⟨t, a, reads, -, rfl⟩ := hstep.observed_cases
    · rw [unobserved_move]
      exact ih.tail ⟨t, a, r, hG, hr, rfl⟩
    · rw [unobserved_read]
      exact ih

theorem ReachableUnder.unobserved
    (hc : (sys.observed reads₀ read).ReachableUnder (underneath G) c) :
    sys.ReachableUnder G c.unobserved :=
  StepsUnder.unobserved hc

/-- What a thread knows of its reads, if its reads keep it and no step of the
system takes it back. -/
theorem StepsUnder.observer (hsteps : (sys.observed reads₀ read).StepsUnder (underneath G) c d)
    (t : Tid) {P : Shared → Reads → Prop} (hP : P c.shared (c.threads t).reads)
    (hread : ∀ e a reads reads', sys.StepsUnder G c.unobserved e → P e.shared reads →
      read a e.shared reads = some reads' → P e.shared reads')
    (hstable : ∀ e u a r reads, sys.StepsUnder G c.unobserved e →
      G u a e.shared (e.threads u) → sys.step u a e.shared (e.threads u) = some r →
      P e.shared reads → P r.1 reads) :
    P d.shared (d.threads t).reads := by
  induction hsteps with
  | refl => exact hP
  | @tail e _ hsteps hstep ih =>
    have hbase := StepsUnder.unobserved hsteps
    obtain ⟨u, a, r, hG, hr, rfl⟩ | ⟨u, a, reads, hreads, rfl⟩ := hstep.observed_cases
    · have hkept := hstable e.unobserved u a r _ hbase hG hr ih
      by_cases hu : t = u
      · subst hu
        rw [Config.move_threads_self]
        exact hkept
      · rw [e.move_threads_of_ne _ hu]
        exact hkept
    · by_cases hu : t = u
      · subst hu
        rw [Config.move_threads_self]
        exact hread e.unobserved a _ reads hbase ih hreads
      · rw [e.move_threads_of_ne _ hu]
        exact ih

end System

end interleaving
