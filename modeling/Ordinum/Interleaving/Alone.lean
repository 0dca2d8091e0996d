import Ordinum.Interleaving.Retry
import Ordinum.Interleaving.System

namespace interleaving

variable {Shared Pc Result Pc' Result' : Type*}

/-- With no other thread moving, the call comes to its end: it leaves `s'` and
returns `result`. -/
inductive Finishes (step : Shared → Pc → Shared × Progress Pc Result) :
    Shared → Progress Pc Result → Shared → Result → Prop where
  | done {s result} : Finishes step s (.done result) s result
  | next {s pc s' result} (rest : Finishes step (step s pc).1 (step s pc).2 s' result) :
    Finishes step s (.next pc) s' result

namespace Finishes

variable {step : Shared → Pc → Shared × Progress Pc Result}

/-- What every step keeps holds at the end. -/
theorem keeps {P : Shared → Progress Pc Result → Prop}
    (hstep : ∀ s pc, P s (.next pc) → P (step s pc).1 (step s pc).2) {s s' : Shared}
    {progress : Progress Pc Result} {result : Result}
    (h : Finishes step s progress s' result) (hP : P s progress) : P s' (.done result) := by
  induction h with
  | done => exact hP
  | next _ ih => exact ih (hstep _ _ hP)

/-- A call inside another one, in memories that `P` holds of: the caller goes on
with the result. -/
theorem call (step' : Shared → Pc' → Shared × Progress Pc' Result') (at_pc : Pc → Pc')
    (return_to : Result → Progress Pc' Result') {P : Shared → Prop}
    (hkeeps : ∀ s pc, P s → P (step s pc).1)
    (hstep : ∀ s pc, P s → step' s (at_pc pc) =
      ((step s pc).1, (step s pc).2.elim (fun pc => .next (at_pc pc)) return_to))
    {s s' s'' : Shared} {progress : Progress Pc Result} {result : Result} {result' : Result'}
    (hP : P s) (h : Finishes step s progress s' result)
    (hreturn : Finishes step' s' (return_to result) s'' result') :
    Finishes step' s (progress.elim (fun pc => .next (at_pc pc)) return_to) s'' result' := by
  induction h with
  | done => exact hreturn
  | @next s pc _ _ _ ih =>
    refine .next ?_
    rw [hstep s pc hP]
    exact ih (hkeeps s pc hP) hreturn

/-- Enough fuel runs the call to its end. -/
theorem run_alone {s s' : Shared} {progress : Progress Pc Result} {result : Result}
    (h : Finishes step s progress s' result) : ∀ pc, progress = .next pc →
      ∃ enough, ∀ fuel, enough ≤ fuel →
        interleaving.run_alone step fuel s pc = some (s', result) := by
  induction h with
  | done => exact fun _ h => by cases h
  | @next s pc s' result _ ih =>
    rintro _ ⟨⟩
    rcases hstep : step s pc with ⟨t, pc' | r⟩
    · simp only [hstep] at ih
      obtain ⟨enough, hrun⟩ := ih pc' rfl
      refine ⟨enough + 1, fun fuel hfuel => ?_⟩
      obtain ⟨fuel, rfl⟩ : ∃ n, fuel = n + 1 := ⟨fuel - 1, by omega⟩
      simp only [interleaving.run_alone, hstep]
      exact hrun fuel (by omega)
    · rename_i hrest
      rw [hstep] at hrest
      cases hrest
      refine ⟨1, fun fuel hfuel => ?_⟩
      obtain ⟨fuel, rfl⟩ : ∃ n, fuel = n + 1 := ⟨fuel - 1, by omega⟩
      simp only [interleaving.run_alone, hstep]

/-- What fuel has run to its end comes to that end. -/
theorem of_run_alone {s' : Shared} {result : Result} : ∀ {fuel s pc},
    interleaving.run_alone step fuel s pc = some (s', result) →
      Finishes step s (.next pc) s' result := by
  intro fuel
  induction fuel with
  | zero => exact fun h => by cases h
  | succ fuel ih =>
    intro s pc hrun
    refine .next ?_
    rcases hstep : step s pc with ⟨t, pc' | r⟩
    · simp only [interleaving.run_alone, hstep] at hrun
      exact ih hrun
    · simp only [interleaving.run_alone, hstep] at hrun
      cases hrun
      exact .done

end Finishes

section one_thread

variable {Tid Act Local : Type*} [DecidableEq Tid] {sys : System Tid Act Shared Local}
  {G : System.StepCondition Tid Act Shared Local} {c : Config Tid Shared Local} {t : Tid}

theorem Config.move_self (c : Config Tid Shared Local) (t : Tid) :
    c.move t (c.shared, c.threads t) = c := by
  simp [Config.move]

theorem Config.move_move (c : Config Tid Shared Local) (t : Tid) (r r' : Shared × Local) :
    (c.move t r).move t r' = c.move t r' := by
  simp [Config.move]

/-- A run of one thread begins where the thread stands. -/
theorem System.StepsUnder.of_thread (sys : System Tid Act Shared Local)
    (G : System.StepCondition Tid Act Shared Local) (c : Config Tid Shared Local) (t : Tid) :
    sys.StepsUnder G c (c.move t (c.shared, c.threads t)) := by
  rw [c.move_self]
  exact .refl

/-- The thread takes one more step. -/
theorem System.StepsUnder.and_step {s : Shared} {l : Local}
    (hsteps : sys.StepsUnder G c (c.move t (s, l)))
    {a : Act} {r : Shared × Local} (hG : G t a s l) (hr : sys.step t a s l = some r) :
    sys.StepsUnder G c (c.move t r) := by
  refine hsteps.tail ⟨t, a, r, ?_, ?_, ?_⟩
  · rw [Config.move_threads_self]
    exact hG
  · rw [Config.move_threads_self]
    exact hr
  · rw [c.move_move]

/-- Configurations reached with calls that do not overlap: a thread moves only
while every other one stands at its starting point. -/
inductive System.Sequential (sys : System Tid Act Shared Local) :
    Config Tid Shared Local → Prop where
  | init : Sequential sys sys.init
  | step {c t a r} (hc : Sequential sys c) (hrest : ∀ u, u ≠ t → c.threads u = sys.local₀)
      (hr : sys.step t a c.shared (c.threads t) = some r) : Sequential sys (c.move t r)

/-- The steps of one call, made one after the other. -/
theorem System.Sequential.call {Choice Pc Result : Type*}
    {step : Choice → Shared → Pc → Option (Shared × Progress Pc Result)} {choices : Nat → Choice}
    {start : Shared × Progress Pc Result} (act : Choice → Act) (at_pc : Pc → Local)
    (return_to : Result → Local) (hrest : ∀ u, u ≠ t → c.threads u = sys.local₀)
    (hcall : ∀ choice s pc r, step choice s pc = some r →
      sys.step t (act choice) s (at_pc pc) = some (r.1, r.2.elim at_pc return_to))
    (hc : sys.Sequential (c.move t (start.1, start.2.elim at_pc return_to))) :
    ∀ {n r}, run_choosing step choices start n = some r →
      sys.Sequential (c.move t (r.1, r.2.elim at_pc return_to)) := by
  intro n
  induction n with
  | zero =>
    rintro r ⟨⟩
    exact hc
  | succ n ih =>
    intro r hrun
    simp only [run_choosing, Option.bind_eq_some_iff] at hrun
    obtain ⟨⟨s, pc | result⟩, hbefore, hlast⟩ := hrun
    · have hnext : sys.step t (act (choices n)) (c.move t (s, at_pc pc)).shared
          ((c.move t (s, at_pc pc)).threads t) = some (r.1, r.2.elim at_pc return_to) := by
        rw [Config.move_threads_self]
        exact hcall _ s pc r hlast
      rw [← c.move_move t (s, at_pc pc)]
      refine .step (ih hbefore) ?_ hnext
      intro u hu
      rw [c.move_threads_of_ne _ hu]
      exact hrest u hu
    · obtain rfl : (s, Progress.done result) = r := Option.some.inj hlast
      exact ih hbefore

/-- A schedule of one thread while all others rest. -/
theorem System.Sequential.run (hc : sys.Sequential c) {schedule : List (Tid × Act)}
    (halone : ∀ e ∈ schedule, e.1 = t) (hrest : ∀ u, u ≠ t → c.threads u = sys.local₀)
    {d : Config Tid Shared Local} (hrun : sys.run_under anyStep c schedule = some d) :
    sys.Sequential d := by
  induction schedule generalizing c with
  | nil =>
    obtain rfl : c = d := Option.some.inj hrun
    exact hc
  | cons e schedule ih =>
    simp only [run_under, List.foldlM_cons, Option.bind_eq_bind, Option.bind_eq_some_iff] at hrun
    obtain ⟨next, hnext, hlater⟩ := hrun
    split at hnext
    · simp only [fire, Option.map_eq_some_iff] at hnext
      obtain ⟨r, hr, rfl⟩ := hnext
      obtain rfl : e.1 = t := halone e List.mem_cons_self
      refine ih (.step hc hrest hr) (fun e he => halone e (List.mem_cons_of_mem _ he))
        (fun u hu => ?_) hlater
      rw [c.move_threads_of_ne r hu]
      exact hrest u hu
    · cases hnext

end one_thread

end interleaving
