import Ordinum.Interleaving.System

namespace interleaving

variable {Tid Act Shared Local Log Memo : Type*}

/-- A configuration without its history. -/
def Config.forget (c : Config Tid (Shared × Log) (Local × Memo)) : Config Tid Shared Local :=
  { shared := c.shared.1, threads := fun t => (c.threads t).1 }

namespace System

/-- What a step adds to the history: the log of all steps, and what the stepping
thread keeps in mind. -/
abbrev Record (Tid Act Shared Local Log Memo : Type*) :=
  Tid → Act → Shared → Local → Shared × Local → Log → Memo → Log × Memo

/-- The system with a history, which no step depends on. -/
def with_history (sys : System Tid Act Shared Local) (log₀ : Log) (memo₀ : Memo)
    (record : Record Tid Act Shared Local Log Memo) :
    System Tid Act (Shared × Log) (Local × Memo) where
  shared₀ := (sys.shared₀, log₀)
  local₀ := (sys.local₀, memo₀)
  step t a s l := (sys.step t a s.1 l.1).map fun r =>
    ((r.1, (record t a s.1 l.1 r s.2 l.2).1), r.2, (record t a s.1 l.1 r s.2 l.2).2)

/-- A condition on the steps without their history. -/
def forgetful (G : StepCondition Tid Act Shared Local) :
    StepCondition Tid Act (Shared × Log) (Local × Memo) :=
  fun t a s l => G t a s.1 l.1

instance (G : StepCondition Tid Act Shared Local) [∀ t a s l, Decidable (G t a s l)] (t : Tid)
    (a : Act) (s : Shared × Log) (l : Local × Memo) : Decidable (forgetful G t a s l) :=
  inferInstanceAs (Decidable (G t a s.1 l.1))

variable [DecidableEq Tid] {sys : System Tid Act Shared Local} {log₀ : Log} {memo₀ : Memo}
  {record : Record Tid Act Shared Local Log Memo} {G : StepCondition Tid Act Shared Local}
  {c d : Config Tid (Shared × Log) (Local × Memo)}

theorem forget_move (c : Config Tid (Shared × Log) (Local × Memo)) (t : Tid)
    (r : (Shared × Log) × Local × Memo) :
    (c.move t r).forget = c.forget.move t (r.1.1, r.2.1) := by
  rw [Config.mk.injEq]
  refine ⟨rfl, ?_⟩
  funext u
  by_cases hu : u = t
  · subst hu
    simp [Config.forget, Config.move]
  · simp [Config.forget, Config.move, hu]

/-- Without its history, a run is a run of the system. -/
theorem StepsUnder.forget
    (hsteps : (sys.with_history log₀ memo₀ record).StepsUnder (forgetful G) c d) :
    sys.StepsUnder G c.forget d.forget := by
  induction hsteps with
  | refl => exact .refl
  | tail _ hstep ih =>
    obtain ⟨t, a, r, hG, hr, rfl⟩ := hstep
    obtain ⟨r', hr', rfl⟩ := Option.map_eq_some_iff.mp hr
    rw [forget_move]
    exact ih.tail ⟨t, a, r', hG, hr', rfl⟩

theorem ReachableUnder.forget
    (hc : (sys.with_history log₀ memo₀ record).ReachableUnder (forgetful G) c) :
    sys.ReachableUnder G c.forget :=
  StepsUnder.forget hc

/-- Every run has its history. -/
theorem ReachableUnder.exists_history {e : Config Tid Shared Local}
    (he : sys.ReachableUnder G e) (log₀ : Log) (memo₀ : Memo)
    (record : Record Tid Act Shared Local Log Memo) :
    ∃ c, (sys.with_history log₀ memo₀ record).ReachableUnder (forgetful G) c ∧ c.forget = e := by
  refine ReachableUnder.induction
    (P := fun e => ∃ c, (sys.with_history log₀ memo₀ record).ReachableUnder (forgetful G) c ∧
      c.forget = e) ⟨_, .init, rfl⟩ ?_ he
  rintro _ t a r - ⟨c, hc, rfl⟩ hG hr
  have hstep : (sys.with_history log₀ memo₀ record).step t a c.shared (c.threads t) =
      some ((r.1, (record t a c.shared.1 (c.threads t).1 r c.shared.2 (c.threads t).2).1), r.2,
        (record t a c.shared.1 (c.threads t).1 r c.shared.2 (c.threads t).2).2) :=
    Option.map_eq_some_iff.mpr ⟨r, hr, rfl⟩
  refine ⟨_, hc.tail ⟨t, a, _, hG, hstep, rfl⟩, ?_⟩
  rw [forget_move]

/-- What holds of a run and its history, if it holds at first and every step with
its record keeps it. -/
theorem ReachableUnder.history_induction
    {P : Config Tid (Shared × Log) (Local × Memo) → Prop}
    (hinit : P (sys.with_history log₀ memo₀ record).init)
    (hstep : ∀ (c : Config Tid (Shared × Log) (Local × Memo)) t a r,
      sys.ReachableUnder G c.forget → P c → G t a c.shared.1 (c.threads t).1 →
      sys.step t a c.shared.1 (c.threads t).1 = some r →
      P (c.move t ((r.1, (record t a c.shared.1 (c.threads t).1 r c.shared.2 (c.threads t).2).1),
        r.2, (record t a c.shared.1 (c.threads t).1 r c.shared.2 (c.threads t).2).2)))
    (hc : (sys.with_history log₀ memo₀ record).ReachableUnder (forgetful G) c) : P c := by
  refine ReachableUnder.induction (P := P) hinit ?_ hc
  intro c t a r hc hP hG hr
  obtain ⟨r', hr', rfl⟩ := Option.map_eq_some_iff.mp hr
  exact hstep c t a r' hc.forget hP hG hr'

end System

end interleaving
