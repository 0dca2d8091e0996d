import Ordinum.Interleaving.Linearization
import Ordinum.Interleaving.Observer
import Ordinum.Interleaving.Simulation

namespace interleaving

variable {Tid Act Act' Shared Shared' Local Local' ReadAct Reads Reads' Role Op Ret E : Type*}

namespace System

section observed

/-- What is seen of steps and of reads. -/
def observed_seen (seen : Seen Tid Act Shared Local E)
    (seen_read : Seen Tid ReadAct Shared Reads E) :
    Seen Tid (ObservingAct Act ReadAct) Shared (Observing Local Reads) E
  | t, .own a, s, l, r => seen t a s l.own (r.1, r.2.own)
  | t, .read a, s, l, r => seen_read t a s l.reads (r.1, r.2.reads)

/-- Configurations that are related apart from their reads, and whose threads read the
same. -/
structure ObservedRel (R : Config Tid Shared Local → Config Tid Shared' Local' → Prop)
    (Q : Shared → Reads → Reads' → Prop) (c : Config Tid Shared (Observing Local Reads))
    (b : Config Tid Shared' (Observing Local' Reads')) : Prop where
  own : R c.unobserved b.unobserved
  reads : ∀ t, Q c.shared (c.threads t).reads (b.threads t).reads

variable [DecidableEq Tid] {C : System Tid Act Shared Local} {A : System Tid Act' Shared' Local'}
  {G : StepCondition Tid Act Shared Local} {H : StepCondition Tid Act' Shared' Local'}
  {seen : Seen Tid Act Shared Local E} {seen' : Seen Tid Act' Shared' Local' E}
  {R : Config Tid Shared Local → Config Tid Shared' Local' → Prop}
  {Q : Shared → Reads → Reads' → Prop} {reads₀ : Reads} {reads₀' : Reads'}
  {read : ReadAct → Shared → Reads → Option Reads}
  {read' : ReadAct → Shared' → Reads' → Option Reads'}
  {seen_read : Seen Tid ReadAct Shared Reads E} {seen_read' : Seen Tid ReadAct Shared' Reads' E}

omit [DecidableEq Tid] in
theorem ObservedRel.init (hR : R C.init A.init) (hQ : Q C.shared₀ reads₀ reads₀') :
    ObservedRel R Q (C.observed reads₀ read).init (A.observed reads₀' read').init :=
  ⟨hR, fun _ => hQ⟩

/-- Threads that read more than they did before, where reads go on as they are when the
memory changes, and each read is seen as one. -/
theorem Simulates.observed (hsim : Simulates C A G H seen seen' R)
    (hstable : ∀ c t a r reads reads', C.ReachableUnder G c → G t a c.shared (c.threads t) →
      C.step t a c.shared (c.threads t) = some r → Q c.shared reads reads' → Q r.1 reads reads')
    (hread : ∀ c b t a next, (C.observed reads₀ read).ReachableUnder (underneath G) c →
      (A.observed reads₀' read').ReachableUnder (underneath H) b → ObservedRel R Q c b →
      read a c.shared (c.threads t).reads = some next →
      ∃ next', read' a b.shared (b.threads t).reads = some next' ∧
        seen_read' t a b.shared (b.threads t).reads (b.shared, next') =
          seen_read t a c.shared (c.threads t).reads (c.shared, next) ∧ Q c.shared next next') :
    Simulates (C.observed reads₀ read) (A.observed reads₀' read') (underneath G) (underneath H)
      (observed_seen seen seen_read) (observed_seen seen' seen_read') (ObservedRel R Q) := by
  intro c b t a r hc hb hrel hG hr
  have hc' := ReachableUnder.unobserved hc
  have hb' := ReachableUnder.unobserved hb
  cases a with
  | own a =>
    obtain ⟨r, hr', rfl⟩ := Option.map_eq_some_iff.mp hr
    have hreads : ∀ u, Q r.1 (c.threads u).reads (b.threads u).reads := fun u =>
      hstable c.unobserved t a r _ _ hc' hG hr' (hrel.reads u)
    have hmove : ∀ u, ((c.move t (r.1, { c.threads t with own := r.2 })).threads u).reads =
        (c.threads u).reads := by
      intro u
      by_cases hu : u = t
      · subst hu
        rw [Config.move_threads_self]
      · rw [c.move_threads_of_ne _ hu]
    obtain ⟨hnone, hsame⟩ | ⟨a', r', hH, hstep, hseen, hR⟩ :=
      hsim c.unobserved b.unobserved t a r hc' hb' hrel.own hG hr'
    · refine .inl ⟨hnone, ?_, fun u => ?_⟩
      · rw [unobserved_move]
        exact hsame
      · rw [hmove]
        exact hreads u
    · refine .inr ⟨.own a', (r'.1, { b.threads t with own := r'.2 }), hH,
        Option.map_eq_some_iff.mpr ⟨r', hstep, rfl⟩, hseen, ?_, fun u => ?_⟩
      · rw [unobserved_move, unobserved_move]
        exact hR
      · have hmove' : ((b.move t (r'.1, { b.threads t with own := r'.2 })).threads u).reads =
            (b.threads u).reads := by
          by_cases hu : u = t
          · subst hu
            rw [Config.move_threads_self]
          · rw [b.move_threads_of_ne _ hu]
        rw [hmove, hmove']
        exact hreads u
  | read a =>
    obtain ⟨next, hnext, rfl⟩ := Option.map_eq_some_iff.mp hr
    obtain ⟨next', hnext', hseen, hQ⟩ := hread c b t a next hc hb hrel hnext
    refine .inr ⟨.read a, (b.shared, { b.threads t with reads := next' }), trivial,
      Option.map_eq_some_iff.mpr ⟨next', hnext', rfl⟩, hseen, ?_, fun u => ?_⟩
    · rw [unobserved_read, unobserved_read]
      exact hrel.own
    · by_cases hu : u = t
      · subst hu
        rw [Config.move_threads_self, Config.move_threads_self]
        exact hQ
      · rw [c.move_threads_of_ne _ hu, b.move_threads_of_ne _ hu]
        exact hrel.reads u

/-- A part of a system, next to what its threads read. -/
def observed_part (part : Local → Local') (l : Observing Local Reads) : Observing Local' Reads :=
  { own := part l.own, reads := l.reads }

omit [DecidableEq Tid] in
theorem Contains.observed {A : System Tid Act' Shared Local'}
    {H : StepCondition Tid Act' Shared Local'} {part : Local → Local'}
    (hcontains : C.Contains A G H id part) : (C.observed reads₀ read).Contains
      (A.observed reads₀ read) (underneath G) (underneath H) id (observed_part part) := by
  intro t a s l r hG hr
  cases a with
  | own a =>
    obtain ⟨r, hr', rfl⟩ := Option.map_eq_some_iff.mp hr
    obtain ⟨hmemory, hpart⟩ | ⟨a', hH, hstep⟩ := hcontains t a s l.own r hG hr'
    · refine .inl ⟨hmemory, ?_⟩
      rw [observed_part, observed_part, hpart]
    · exact .inr ⟨.own a', hH, Option.map_eq_some_iff.mpr ⟨_, hstep, rfl⟩⟩
  | read a =>
    obtain ⟨next, hnext, rfl⟩ := Option.map_eq_some_iff.mp hr
    exact .inr ⟨.read a, trivial, Option.map_eq_some_iff.mpr ⟨next, hnext, rfl⟩⟩

end observed

section histories

variable [DecidableEq Tid] {C : System Tid Act Shared Local} {A : System Tid Act' Shared' Local'}
  {G : StepCondition Tid Act Shared Local} {H : StepCondition Tid Act' Shared' Local'}
  {R : Config Tid Shared Local → Config Tid Shared' Local' → Prop}
  {events : Events Tid Role Act Shared Local Op Ret}
  {events' : Events Tid Role Act' Shared' Local' Op Ret}

end histories

end System

end interleaving
