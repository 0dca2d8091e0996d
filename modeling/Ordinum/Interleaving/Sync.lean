import Mathlib.Data.List.Defs

namespace interleaving

/-- What a call does next: stand at a further program point, or return. -/
inductive Progress (Pc Result : Type*) where
  | next (pc : Pc)
  | done (result : Result)
  deriving DecidableEq, Repr

/-- Embed a call into the program points of its caller: `at_pc` while it runs,
`return_to` once it has a result. -/
def Progress.elim {Pc Result α : Type*} (at_pc : Pc → α) (return_to : Result → α) :
    Progress Pc Result → α
  | .next pc => at_pc pc
  | .done result => return_to result

@[simp] theorem Progress.elim_next {Pc Result α : Type*} (f : Pc → α) (g : Result → α) (pc : Pc) :
    (Progress.next pc).elim f g = f pc := rfl

@[simp] theorem Progress.elim_done {Pc Result α : Type*} (f : Pc → α) (g : Result → α)
    (result : Result) : (Progress.done result).elim f g = g result := rfl

/-- Run a call with no other thread moving, for at most `fuel` atomic steps. -/
def run_alone {Shared Pc Result : Type*} (step : Shared → Pc → Shared × Progress Pc Result) :
    Nat → Shared → Pc → Option (Shared × Result)
  | 0, _, _ => none
  | fuel + 1, s, pc =>
    match step s pc with
    | (s', .next pc') => run_alone step fuel s' pc'
    | (s', .done result) => some (s', result)

/-- Run a call that may block, with no other thread moving, for at most `fuel`
atomic steps. -/
def run_unblocked {Shared Pc Result : Type*}
    (step : Shared → Pc → Option (Shared × Progress Pc Result)) :
    Nat → Shared → Pc → Option (Shared × Result)
  | 0, _, _ => none
  | fuel + 1, s, pc =>
    match step s pc with
    | none => none
    | some (s', .next pc') => run_unblocked step fuel s' pc'
    | some (s', .done result) => some (s', result)

/-- What holds at the program points of a call that runs alone, step by step,
holds at its end. -/
theorem run_unblocked_keeps {Shared Pc Result : Type*}
    {step : Shared → Pc → Option (Shared × Progress Pc Result)} {P : Shared → Pc → Prop}
    {Q : Shared → Result → Prop}
    (hstep : ∀ s pc s' progress, P s pc → step s pc = some (s', progress) →
      progress.elim (P s') (Q s')) (fuel : Nat) :
    ∀ {s pc s' result}, P s pc → run_unblocked step fuel s pc = some (s', result) →
      Q s' result := by
  induction fuel with
  | zero => exact fun _ hrun => by cases hrun
  | succ fuel ih =>
    intro s pc s' result hP hrun
    rcases hnext : step s pc with _ | ⟨next, pc' | ended⟩
    · simp only [run_unblocked, hnext, reduceCtorEq] at hrun
    · simp only [run_unblocked, hnext] at hrun
      exact ih (hstep s pc next _ hP hnext) hrun
    · simp only [run_unblocked, hnext, Option.some.injEq, Prod.mk.injEq] at hrun
      obtain ⟨rfl, rfl⟩ := hrun
      exact hstep s pc next _ hP hnext

/-- A mutex that a panic of its holder poisons. -/
inductive Mutex (Tid : Type*) where
  | free
  | held (owner : Tid)
  | poisoned
  deriving DecidableEq, Repr

/-- The threads asleep in a condition variable, in no particular order. -/
structure Condvar (Tid : Type*) where
  waiting : List Tid
  deriving DecidableEq, Repr

variable {Tid : Type*} [DecidableEq Tid]

/-- Wake one sleeper: `choice` when it sleeps, nobody when nobody sleeps.
Naming a thread that is awake while another sleeps is not a notification. -/
def Condvar.notify_one (cv : Condvar Tid) (choice : Option Tid) : Option (Condvar Tid) :=
  match choice with
  | none => if cv.waiting = [] then some cv else none
  | some t => if t ∈ cv.waiting then some ⟨cv.waiting.erase t⟩ else none

/-- Wake all sleepers. -/
def Condvar.notify_all (_ : Condvar Tid) : Condvar Tid := ⟨[]⟩

end interleaving
