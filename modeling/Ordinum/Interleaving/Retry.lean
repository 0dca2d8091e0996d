import Ordinum.Interleaving.Sync

namespace interleaving

variable {Choice Shared Pc Result Result' : Type*}

/-- A call after `n` steps with no other thread moving, where `choices` settles
what its steps depend on beside the memory. A call that returned stays there. -/
def run_choosing (step : Choice → Shared → Pc → Option (Shared × Progress Pc Result))
    (choices : Nat → Choice) (start : Shared × Progress Pc Result) :
    Nat → Option (Shared × Progress Pc Result)
  | 0 => some start
  | n + 1 => (run_choosing step choices start n).bind fun r =>
    match r.2 with
    | .next pc => step (choices n) r.1 pc
    | .done _ => some r

/-- Every step of the call can be taken, keeps `P` and lowers the rank, unless
it is one that sends the call back. -/
def Ranked (step : Choice → Shared → Pc → Option (Shared × Progress Pc Result))
    (sends_back : Choice → Pc → Prop) (P : Nat → Shared → Progress Pc Result → Prop) : Prop :=
  ∀ rank s pc choice, P rank s (.next pc) → ∃ rank' next,
    step choice s pc = some next ∧ P rank' next.1 next.2 ∧
      (sends_back choice pc ∨ rank' < rank)

section ranked

variable {step : Choice → Shared → Pc → Option (Shared × Progress Pc Result)}
  {sends_back : Choice → Pc → Prop} {P : Nat → Shared → Progress Pc Result → Prop}
  {choices : Nat → Choice} {s₀ : Shared} {start : Progress Pc Result} {rank : Nat}

/-- The call never blocks, and what its steps keep holds all along. -/
theorem Ranked.holds (hP : Ranked step sends_back P) (choices : Nat → Choice)
    (hstart : P rank s₀ start) (n : Nat) :
    ∃ rank' r, run_choosing step choices (s₀, start) n = some r ∧ P rank' r.1 r.2 := by
  induction n with
  | zero => exact ⟨rank, (s₀, start), rfl, hstart⟩
  | succ n ih =>
    obtain ⟨rank', ⟨s, progress⟩, hrun, hhere⟩ := ih
    cases progress with
    | done result => exact ⟨rank', (s, .done result), by simp [run_choosing, hrun], hhere⟩
    | next pc =>
      obtain ⟨rank'', next, hnext, hthere, -⟩ := hP rank' s pc (choices n) hhere
      exact ⟨rank'', next, by simp [run_choosing, hrun, hnext], hthere⟩

/-- From where it is no longer sent back the call ends within its rank. -/
theorem Ranked.ends_from (hP : Ranked step sends_back P) {n : Nat}
    (hforward : ∀ m, n ≤ m → ∀ s pc,
      run_choosing step choices (s₀, start) m = some (s, .next pc) → ¬ sends_back (choices m) pc) :
    ∀ {rank m r}, n ≤ m → run_choosing step choices (s₀, start) m = some r → P rank r.1 r.2 →
      ∃ m s result, run_choosing step choices (s₀, start) m = some (s, .done result) := by
  intro rank
  induction rank using Nat.strongRecOn with
  | ind rank ih =>
    rintro m ⟨s, progress⟩ hm hrun hhere
    cases progress with
    | done result => exact ⟨m, s, result, hrun⟩
    | next pc =>
      obtain ⟨rank', next, hnext, hthere, hback | hlower⟩ := hP rank s pc (choices m) hhere
      · exact absurd hback (hforward m hm s pc hrun)
      · have hrun' : run_choosing step choices (s₀, start) (m + 1) = some next := by
          simp [run_choosing, hrun, hnext]
        exact ih rank' hlower (Nat.le_succ_of_le hm) hrun' hthere

/-- A call that is not sent back forever ends. -/
theorem Ranked.ends (hP : Ranked step sends_back P) (hstart : P rank s₀ start)
    (hforward : ∃ n, ∀ m, n ≤ m → ∀ s pc,
      run_choosing step choices (s₀, start) m = some (s, .next pc) → ¬ sends_back (choices m) pc) :
    ∃ n s result, run_choosing step choices (s₀, start) n = some (s, .done result) := by
  obtain ⟨n, hforward⟩ := hforward
  obtain ⟨rank', r, hrun, hhere⟩ := hP.holds choices hstart n
  exact hP.ends_from hforward (Nat.le_refl n) hrun hhere

end ranked

/-- A call that differs from another one in how it gives its result. -/
theorem run_choosing_elim {step : Choice → Shared → Pc → Option (Shared × Progress Pc Result)}
    {step' : Choice → Shared → Pc → Option (Shared × Progress Pc Result')}
    (f : Result → Result')
    (hstep : ∀ choice s pc, step' choice s pc =
      (step choice s pc).map fun r => (r.1, r.2.elim .next fun result => .done (f result)))
    (choices : Nat → Choice) (s : Shared) (progress : Progress Pc Result) (n : Nat) :
    run_choosing step' choices (s, progress.elim .next fun result => .done (f result)) n =
      (run_choosing step choices (s, progress) n).map fun r =>
        (r.1, r.2.elim .next fun result => .done (f result)) := by
  induction n with
  | zero => rfl
  | succ n ih =>
    simp only [run_choosing, ih]
    rcases run_choosing step choices (s, progress) n with _ | ⟨s', pc | result⟩
    · rfl
    · exact hstep (choices n) s' pc
    · rfl

end interleaving
