import Mathlib.Logic.Function.Basic
import Mathlib.Logic.Relation

namespace interleaving

/-- Shared memory together with the local state of every thread. -/
structure Config (Tid Shared Local : Type*) where
  shared : Shared
  threads : Tid → Local

/-- A program run by many threads. `step t a` is one atomic step of thread `t`
on the shared memory and its own local state; the action `a` is what the
scheduler and the environment choose (the call to start, whether a weak
exchange fails). A step that is not enabled is `none`. -/
structure System (Tid Act Shared Local : Type*) where
  shared₀ : Shared
  local₀ : Local
  step : Tid → Act → Shared → Local → Option (Shared × Local)

variable {Tid Act Shared Local : Type*} [DecidableEq Tid]

/-- The configuration in which thread `t` has moved and the others stand still. -/
def Config.move (c : Config Tid Shared Local) (t : Tid) (r : Shared × Local) :
    Config Tid Shared Local :=
  { shared := r.1, threads := Function.update c.threads t r.2 }

@[simp] theorem Config.move_shared (c : Config Tid Shared Local) (t : Tid) (r : Shared × Local) :
    (c.move t r).shared = r.1 := rfl

@[simp] theorem Config.move_threads_self (c : Config Tid Shared Local) (t : Tid)
    (r : Shared × Local) : (c.move t r).threads t = r.2 := by
  simp [Config.move]

theorem Config.move_threads_of_ne (c : Config Tid Shared Local) {t u : Tid} (r : Shared × Local)
    (hne : u ≠ t) : (c.move t r).threads u = c.threads u := by
  simp [Config.move, hne]

namespace System

variable (sys : System Tid Act Shared Local)

/-- Every thread at its starting point over the initial memory. -/
def init : Config Tid Shared Local :=
  { shared := sys.shared₀, threads := fun _ => sys.local₀ }

/-- Thread `t` takes its next step, with the scheduler's choice `a`. -/
def fire (c : Config Tid Shared Local) (e : Tid × Act) : Option (Config Tid Shared Local) :=
  (sys.step e.1 e.2 c.shared (c.threads e.1)).map (c.move e.1)

/-- A predicate on steps: the thread, the choice and what the thread sees. -/
abbrev StepCondition (Tid Act Shared Local : Type*) := Tid → Act → Shared → Local → Prop

/-- One step of some thread, meeting the condition `G` in the state before it. -/
def StepUnder (G : StepCondition Tid Act Shared Local) (c d : Config Tid Shared Local) : Prop :=
  ∃ t a r, G t a c.shared (c.threads t) ∧
    sys.step t a c.shared (c.threads t) = some r ∧ d = c.move t r

/-- Runs all of whose steps meet the condition `G`. -/
def StepsUnder (G : StepCondition Tid Act Shared Local) :
    Config Tid Shared Local → Config Tid Shared Local → Prop :=
  Relation.ReflTransGen (sys.StepUnder G)

/-- Configurations reached by runs all of whose steps meet the condition `G`. -/
def ReachableUnder (G : StepCondition Tid Act Shared Local) (c : Config Tid Shared Local) : Prop :=
  sys.StepsUnder G sys.init c

/-- The condition that every step meets. -/
def anyStep : StepCondition Tid Act Shared Local := fun _ _ _ _ => True

instance (t : Tid) (a : Act) (s : Shared) (l : Local) : Decidable (anyStep t a s l) :=
  .isTrue trivial

/-- The steps that meet both conditions. -/
def both (G H : StepCondition Tid Act Shared Local) : StepCondition Tid Act Shared Local :=
  fun t a s l => G t a s l ∧ H t a s l

instance {G H : StepCondition Tid Act Shared Local} {t : Tid} {a : Act} {s : Shared} {l : Local}
    [Decidable (G t a s l)] [Decidable (H t a s l)] : Decidable (both G H t a s l) :=
  inferInstanceAs (Decidable (G t a s l ∧ H t a s l))

/-- Runs of any schedule. -/
abbrev Steps : Config Tid Shared Local → Config Tid Shared Local → Prop :=
  sys.StepsUnder anyStep

/-- Configurations reached by any schedule. -/
abbrev Reachable (c : Config Tid Shared Local) : Prop :=
  sys.ReachableUnder anyStep c

variable {sys} {G : StepCondition Tid Act Shared Local}

theorem ReachableUnder.init : sys.ReachableUnder G sys.init :=
  Relation.ReflTransGen.refl

theorem ReachableUnder.tail {c d : Config Tid Shared Local} (hc : sys.ReachableUnder G c)
    (hstep : sys.StepUnder G c d) : sys.ReachableUnder G d :=
  Relation.ReflTransGen.tail hc hstep

theorem ReachableUnder.trans {c d : Config Tid Shared Local} (hc : sys.ReachableUnder G c)
    (hsteps : sys.StepsUnder G c d) : sys.ReachableUnder G d :=
  Relation.ReflTransGen.trans hc hsteps

/-- Weakening the condition admits more runs. -/
theorem StepsUnder.mono {H : StepCondition Tid Act Shared Local}
    (himp : ∀ t a s l, G t a s l → H t a s l) {c d : Config Tid Shared Local}
    (hsteps : sys.StepsUnder G c d) : sys.StepsUnder H c d := by
  refine Relation.ReflTransGen.mono ?_ _ _ hsteps
  rintro c d ⟨t, a, r, hG, hstep, rfl⟩
  exact ⟨t, a, r, himp _ _ _ _ hG, hstep, rfl⟩

theorem ReachableUnder.mono {H : StepCondition Tid Act Shared Local}
    (himp : ∀ t a s l, G t a s l → H t a s l) {c : Config Tid Shared Local}
    (hc : sys.ReachableUnder G c) : sys.ReachableUnder H c :=
  StepsUnder.mono himp hc

theorem ReachableUnder.reachable {c : Config Tid Shared Local} (hc : sys.ReachableUnder G c) :
    sys.Reachable c :=
  hc.mono fun _ _ _ _ _ => trivial

/-- Run a schedule, one thread's step at a time, as long as its steps meet `G`. -/
def run_under (sys : System Tid Act Shared Local) (G : StepCondition Tid Act Shared Local)
    [∀ t a s l, Decidable (G t a s l)] (c : Config Tid Shared Local)
    (schedule : List (Tid × Act)) : Option (Config Tid Shared Local) :=
  schedule.foldlM (fun c e =>
    if G e.1 e.2 c.shared (c.threads e.1) then sys.fire c e else none) c

/-- Executing a schedule whose steps all meet `G` is a run under `G`. -/
theorem stepsUnder_of_run [∀ t a s l, Decidable (G t a s l)] {schedule : List (Tid × Act)} :
    ∀ {c d : Config Tid Shared Local},
      sys.run_under G c schedule = some d → sys.StepsUnder G c d := by
  induction schedule with
  | nil =>
    intro c d hrun
    obtain rfl : c = d := by simpa [run_under] using hrun
    exact .refl
  | cons e rest ih =>
    intro c d hrun
    simp only [run_under, List.foldlM_cons, Option.bind_eq_bind, Option.bind_eq_some_iff] at hrun
    obtain ⟨next, hnext, hrest⟩ := hrun
    split at hnext
    · rename_i hG
      simp only [fire, Option.map_eq_some_iff] at hnext
      obtain ⟨r, hr, rfl⟩ := hnext
      exact .head ⟨e.1, e.2, r, hG, hr, rfl⟩ (ih hrest)
    · cases hnext

/-- What a computed run shows is shown by a reachable configuration. -/
theorem reachable_showing {α : Type*} (sys : System Tid Act Shared Local)
    (G : StepCondition Tid Act Shared Local) [∀ t a s l, Decidable (G t a s l)]
    (schedule : List (Tid × Act)) (show_config : Config Tid Shared Local → α) (seen : α)
    (hrun : (sys.run_under G sys.init schedule).map show_config = some seen) :
    ∃ c, sys.ReachableUnder G c ∧ show_config c = seen := by
  obtain ⟨c, hc, hseen⟩ := Option.map_eq_some_iff.mp hrun
  exact ⟨c, stepsUnder_of_run hc, hseen⟩

/-- What a computed run shows of a configuration and a later one. -/
theorem steps_showing {α : Type*} (sys : System Tid Act Shared Local)
    (G H : StepCondition Tid Act Shared Local) [∀ t a s l, Decidable (G t a s l)]
    [∀ t a s l, Decidable (H t a s l)] (schedule later : List (Tid × Act))
    (show_configs : Config Tid Shared Local → Config Tid Shared Local → α) (seen : α)
    (hrun : ((sys.run_under G sys.init schedule).bind fun c =>
      (sys.run_under H c later).map (show_configs c)) = some seen) :
    ∃ c d, sys.ReachableUnder G c ∧ sys.StepsUnder H c d ∧ show_configs c d = seen := by
  obtain ⟨c, hc, hlater⟩ := Option.bind_eq_some_iff.mp hrun
  obtain ⟨d, hd, hseen⟩ := Option.map_eq_some_iff.mp hlater
  exact ⟨c, d, stepsUnder_of_run hc, stepsUnder_of_run hd, hseen⟩

/-- Induction over runs: what holds initially and is preserved by every step
from a configuration that is already known to be reachable. -/
theorem ReachableUnder.induction {P : Config Tid Shared Local → Prop} (hinit : P sys.init)
    (hstep : ∀ c t a r, sys.ReachableUnder G c → P c → G t a c.shared (c.threads t) →
      sys.step t a c.shared (c.threads t) = some r → P (c.move t r))
    {c : Config Tid Shared Local} (hc : sys.ReachableUnder G c) : P c := by
  induction hc with
  | refl => exact hinit
  | tail hd hstepd ih =>
    obtain ⟨t, a, r, hG, hr, rfl⟩ := hstepd
    exact hstep _ t a r hd ih hG hr

/-- The proof outline of a concurrent program: an invariant `shared` of the
memory, an assertion `thread` of every thread at its current point and a
relation `apart` between any two threads. -/
structure Outline (Tid Shared Local : Type*) where
  shared : Shared → Prop
  thread : Tid → Shared → Local → Prop
  apart : Local → Local → Prop

/-- The outline holds in a configuration. -/
structure Outline.Holds (O : Outline Tid Shared Local) (c : Config Tid Shared Local) : Prop where
  shared : O.shared c.shared
  thread : ∀ t, O.thread t c.shared (c.threads t)
  apart : ∀ t u, t ≠ u → O.apart (c.threads t) (c.threads u)

/-- The outline of two different threads, as a step of the first sees it. -/
structure Outline.PairHolds (O : Outline Tid Shared Local) (t u : Tid) (s : Shared)
    (l m : Local) : Prop where
  shared : O.shared s
  own : O.thread t s l
  other : O.thread u s m
  apart : O.apart l m
  apart_symm : O.apart m l

omit [DecidableEq Tid] in
theorem Outline.Holds.pair {O : Outline Tid Shared Local} {c : Config Tid Shared Local}
    (hO : O.Holds c) {t u : Tid} (hne : t ≠ u) :
    O.PairHolds t u c.shared (c.threads t) (c.threads u) :=
  ⟨hO.shared, hO.thread t, hO.thread u, hO.apart t u hne, hO.apart u t hne.symm⟩

/-- The outline is valid over `B`, an outline known to hold: it holds initially,
a step keeps the invariant and establishes the stepping thread's next
assertion, and no step interferes with the assertion of another thread. -/
structure Outline.ValidOver (B O : Outline Tid Shared Local) (sys : System Tid Act Shared Local)
    (G : StepCondition Tid Act Shared Local) : Prop where
  init_shared : O.shared sys.shared₀
  init_thread : ∀ t, O.thread t sys.shared₀ sys.local₀
  init_apart : O.apart sys.local₀ sys.local₀
  step_own : ∀ t a s l r, B.shared s → B.thread t s l → O.shared s → O.thread t s l →
    G t a s l → sys.step t a s l = some r → O.shared r.1 ∧ O.thread t r.1 r.2
  step_other : ∀ t u a s l m r, t ≠ u → B.PairHolds t u s l m → O.PairHolds t u s l m →
    G t a s l → sys.step t a s l = some r → O.thread u r.1 m ∧ O.apart r.2 m ∧ O.apart m r.2

/-- The outline that asserts nothing. -/
def Outline.trivial : Outline Tid Shared Local :=
  { shared := fun _ => True, thread := fun _ _ _ => True, apart := fun _ _ => True }

omit [DecidableEq Tid] in
theorem Outline.trivial_holds (c : Config Tid Shared Local) :
    (Outline.trivial : Outline Tid Shared Local).Holds c :=
  ⟨True.intro, fun _ => True.intro, fun _ _ _ => True.intro⟩

/-- Two outlines taken together. -/
def Outline.and (A B : Outline Tid Shared Local) : Outline Tid Shared Local :=
  { shared := fun s => A.shared s ∧ B.shared s
    thread := fun t s l => A.thread t s l ∧ B.thread t s l
    apart := fun l m => A.apart l m ∧ B.apart l m }

omit [DecidableEq Tid] in
theorem Outline.Holds.and {A B : Outline Tid Shared Local} {c : Config Tid Shared Local}
    (hA : A.Holds c) (hB : B.Holds c) : (A.and B).Holds c :=
  ⟨⟨hA.shared, hB.shared⟩, fun t => ⟨hA.thread t, hB.thread t⟩,
    fun t u hne => ⟨hA.apart t u hne, hB.apart t u hne⟩⟩

/-- The outline after a step: the stepping thread establishes its assertion and
the others keep theirs. -/
theorem Outline.Holds.move {O : Outline Tid Shared Local} {c : Config Tid Shared Local}
    (hO : O.Holds c) {t : Tid} {r : Shared × Local} (hshared : O.shared r.1)
    (hown : O.thread t r.1 r.2)
    (hother : ∀ u, t ≠ u → O.thread u r.1 (c.threads u) ∧ O.apart r.2 (c.threads u) ∧
      O.apart (c.threads u) r.2) : O.Holds (c.move t r) := by
  refine ⟨hshared, ?_, ?_⟩
  · intro u
    by_cases hu : u = t
    · subst hu
      simpa using hown
    · rw [c.move_threads_of_ne r hu]
      exact (hother u (Ne.symm hu)).1
  · intro u v hne
    by_cases hu : u = t
    · subst hu
      rw [Config.move_threads_self, c.move_threads_of_ne r hne.symm]
      exact (hother v hne).2.1
    · rw [c.move_threads_of_ne r hu]
      by_cases hv : v = t
      · subst hv
        rw [Config.move_threads_self]
        exact (hother u (Ne.symm hu)).2.2
      · rw [c.move_threads_of_ne r hv]
        exact hO.apart u v hne

/-- An outline that is valid over one that holds in every run holds in every
run as well. -/
theorem Outline.ValidOver.holds {B O : Outline Tid Shared Local} (hO : B.ValidOver O sys G)
    (hB : ∀ c, sys.ReachableUnder G c → B.Holds c) {c : Config Tid Shared Local}
    (hc : sys.ReachableUnder G c) : O.Holds c := by
  refine ReachableUnder.induction (P := O.Holds)
    ⟨hO.init_shared, hO.init_thread, fun _ _ _ => hO.init_apart⟩ ?_ hc
  intro c t a r hreach ih hG hr
  have hbase := hB c hreach
  obtain ⟨hshared, hown⟩ := hO.step_own t a _ _ r hbase.shared (hbase.thread t) ih.shared
    (ih.thread t) hG hr
  exact ih.move hshared hown fun u hne =>
    hO.step_other t u a _ _ _ r hne (hbase.pair hne) (ih.pair hne) hG hr

/-- An outline that is valid with nothing assumed holds in every run. -/
theorem Outline.ValidOver.holds_of_trivial {O : Outline Tid Shared Local}
    (hO : Outline.trivial.ValidOver O sys G) {c : Config Tid Shared Local}
    (hc : sys.ReachableUnder G c) : O.Holds c :=
  hO.holds (fun c _ => Outline.trivial_holds c) hc

/-- A preorder that every step respects relates the ends of every run. -/
theorem StepsUnder.related {R : Config Tid Shared Local → Config Tid Shared Local → Prop}
    (hrefl : ∀ c, R c c) (htrans : ∀ c d e, R c d → R d e → R c e)
    {c d : Config Tid Shared Local} (hc : sys.ReachableUnder G c) (hsteps : sys.StepsUnder G c d)
    (hstep : ∀ c t a r, sys.ReachableUnder G c → G t a c.shared (c.threads t) →
      sys.step t a c.shared (c.threads t) = some r → R c (c.move t r)) : R c d := by
  induction hsteps with
  | refl => exact hrefl c
  | tail hcd hstepd ih =>
    obtain ⟨t, a, r, hG, hr, rfl⟩ := hstepd
    exact htrans _ _ _ ih (hstep _ t a r (hc.trans hcd) hG hr)

end System

end interleaving
