import Ordinum.Interleaving.Alone

namespace interleaving

variable {Tid Act Act' Shared Shared' Local Local' : Type*}

/-- Two calls stand at related points, or return related results. -/
inductive Progress.Rel {Pc Pc' Result Result' : Type*} (R : Pc → Pc' → Prop)
    (Q : Result → Result' → Prop) : Progress Pc Result → Progress Pc' Result' → Prop
  | next {pc : Pc} {pc' : Pc'} (h : R pc pc') : Rel R Q (.next pc) (.next pc')
  | done {result : Result} {result' : Result'} (h : Q result result') :
    Rel R Q (.done result) (.done result')

/-- A relation between the configurations of two systems with the same threads, by the
memories and by each thread. -/
structure Correspondence (Shared Shared' Local Local' : Type*) where
  shared : Shared → Shared' → Prop
  thread : Shared → Local → Local' → Prop

structure Correspondence.Holds (K : Correspondence Shared Shared' Local Local')
    (c : Config Tid Shared Local) (b : Config Tid Shared' Local') : Prop where
  shared : K.shared c.shared b.shared
  thread : ∀ t, K.thread c.shared (c.threads t) (b.threads t)

section move

variable [DecidableEq Tid] {K : Correspondence Shared Shared' Local Local'}
  {c : Config Tid Shared Local} {b : Config Tid Shared' Local'} {t : Tid}

/-- One thread moves in both systems. -/
theorem Correspondence.Holds.move (h : K.Holds c b) {r : Shared × Local} {r' : Shared' × Local'}
    (hshared : K.shared r.1 r'.1) (hown : K.thread r.1 r.2 r'.2)
    (hother : ∀ u, u ≠ t → K.thread c.shared (c.threads u) (b.threads u) →
      K.thread r.1 (c.threads u) (b.threads u)) : K.Holds (c.move t r) (b.move t r') := by
  refine ⟨hshared, ?_⟩
  intro u
  by_cases hu : u = t
  · subst hu
    rw [Config.move_threads_self, Config.move_threads_self]
    exact hown
  · rw [c.move_threads_of_ne r hu, b.move_threads_of_ne r' hu]
    exact hother u hu (h.thread u)

/-- One thread moves in the first system only. -/
theorem Correspondence.Holds.stutter (h : K.Holds c b) {r : Shared × Local}
    (hshared : K.shared r.1 b.shared) (hown : K.thread r.1 r.2 (b.threads t))
    (hother : ∀ u, u ≠ t → K.thread c.shared (c.threads u) (b.threads u) →
      K.thread r.1 (c.threads u) (b.threads u)) : K.Holds (c.move t r) b := by
  rw [← b.move_self t]
  exact h.move hshared hown hother

end move

namespace System

variable [DecidableEq Tid] {C : System Tid Act Shared Local} {A : System Tid Act' Shared' Local'}
  {G : StepCondition Tid Act Shared Local} {H : StepCondition Tid Act' Shared' Local'}

/-- What is seen of the steps of a system. -/
abbrev Seen (Tid Act Shared Local E : Type*) :=
  Tid → Act → Shared → Local → Shared × Local → List E

variable {E : Type*} {seen : Seen Tid Act Shared Local E} {seen' : Seen Tid Act' Shared' Local' E}
  {R : Config Tid Shared Local → Config Tid Shared' Local' → Prop}

/-- Each step of `C` is seen as a step of `A` by the same thread, or is not seen and leads
to nothing new there. -/
def Simulates (C : System Tid Act Shared Local) (A : System Tid Act' Shared' Local')
    (G : StepCondition Tid Act Shared Local) (H : StepCondition Tid Act' Shared' Local')
    (seen : Seen Tid Act Shared Local E) (seen' : Seen Tid Act' Shared' Local' E)
    (R : Config Tid Shared Local → Config Tid Shared' Local' → Prop) : Prop :=
  ∀ c b t a r, C.ReachableUnder G c → A.ReachableUnder H b → R c b → G t a c.shared (c.threads t) →
    C.step t a c.shared (c.threads t) = some r →
    seen t a c.shared (c.threads t) r = [] ∧ R (c.move t r) b ∨
    ∃ a' r', H t a' b.shared (b.threads t) ∧ A.step t a' b.shared (b.threads t) = some r' ∧
      seen' t a' b.shared (b.threads t) r' = seen t a c.shared (c.threads t) r ∧
      R (c.move t r) (b.move t r')

/-- Every run of `C` goes along one of `A`. -/
theorem Simulates.steps (hsim : Simulates C A G H seen seen' R) {c d : Config Tid Shared Local}
    {b : Config Tid Shared' Local'} (hc : C.ReachableUnder G c) (hb : A.ReachableUnder H b)
    (hR : R c b) (hsteps : C.StepsUnder G c d) : ∃ b', A.StepsUnder H b b' ∧ R d b' := by
  induction hsteps with
  | refl => exact ⟨b, .refl, hR⟩
  | tail hcd hstep ih =>
    obtain ⟨b', hbb', hR'⟩ := ih
    obtain ⟨t, a, r, hG, hr, rfl⟩ := hstep
    obtain ⟨-, hsame⟩ | ⟨a', r', hH, hr', -, hR''⟩ :=
      hsim _ b' t a r (hc.trans hcd) (hb.trans hbb') hR' hG hr
    · exact ⟨b', hbb', hsame⟩
    · exact ⟨_, hbb'.tail ⟨t, a', r', hH, hr', rfl⟩, hR''⟩

theorem Simulates.reachable (hsim : Simulates C A G H seen seen' R) (hinit : R C.init A.init)
    {c : Config Tid Shared Local} (hc : C.ReachableUnder G c) : ∃ b, A.ReachableUnder H b ∧ R c b :=
  hsim.steps .init .init hinit hc

/-- What is seen may be seen in other words. -/
theorem Simulates.map {F : Type*} (hsim : Simulates C A G H seen seen' R) (f : Tid → E → F) :
    Simulates C A G H (fun t a s l r => (seen t a s l r).map (f t))
      (fun t a s l r => (seen' t a s l r).map (f t)) R := by
  intro c b t a r hc hb hR hG hr
  obtain ⟨hnone, hsame⟩ | ⟨a', r', hH, hr', hseen, hR'⟩ := hsim c b t a r hc hb hR hG hr
  · exact .inl ⟨congrArg (List.map (f t)) hnone, hsame⟩
  · exact .inr ⟨a', r', hH, hr', congrArg (List.map (f t)) hseen, hR'⟩

/-- `A` is a part of `C`: what a step of `C` does to that part is a step of `A`, or
nothing. -/
def Contains (C : System Tid Act Shared Local) (A : System Tid Act' Shared' Local')
    (G : StepCondition Tid Act Shared Local) (H : StepCondition Tid Act' Shared' Local')
    (memory : Shared → Shared') (part : Local → Local') : Prop :=
  ∀ t a s l r, G t a s l → C.step t a s l = some r →
    memory r.1 = memory s ∧ part r.2 = part l ∨
    ∃ a', H t a' (memory s) (part l) ∧
      A.step t a' (memory s) (part l) = some (memory r.1, part r.2)

/-- The part of a configuration. -/
def part_config (memory : Shared → Shared') (part : Local → Local') (c : Config Tid Shared Local) :
    Config Tid Shared' Local' :=
  { shared := memory c.shared, threads := fun t => part (c.threads t) }

theorem part_move (memory : Shared → Shared') (part : Local → Local') (c : Config Tid Shared Local)
    (t : Tid) (r : Shared × Local) : part_config memory part (c.move t r) =
      (part_config memory part c).move t (memory r.1, part r.2) := by
  rw [Config.mk.injEq]
  refine ⟨rfl, ?_⟩
  funext u
  by_cases hu : u = t
  · subst hu
    simp [part_config, Config.move]
  · simp [part_config, Config.move, hu]

/-- What the whole reaches, its part reaches. -/
theorem Contains.reachable {memory : Shared → Shared'} {part : Local → Local'}
    (hcontains : C.Contains A G H memory part) (hshared : memory C.shared₀ = A.shared₀)
    (hlocal : part C.local₀ = A.local₀) {c : Config Tid Shared Local} (hc : C.ReachableUnder G c) :
    A.ReachableUnder H (part_config memory part c) := by
  refine ReachableUnder.induction (P := fun c => A.ReachableUnder H (part_config memory part c))
    ?_ ?_ hc
  · have hinit : part_config memory part C.init = A.init := by
      simp only [part_config, System.init, hshared, hlocal]
    rw [hinit]
    exact .init
  · intro c t a r _ ih hG hr
    rw [part_move]
    obtain ⟨hmemory, hpart⟩ | ⟨a', hH, hr'⟩ := hcontains t a _ _ r hG hr
    · rw [hmemory, hpart]
      change A.ReachableUnder H ((part_config memory part c).move t
        ((part_config memory part c).shared, (part_config memory part c).threads t))
      rw [Config.move_self]
      exact ih
    · exact ih.tail ⟨t, a', _, hH, hr', rfl⟩

/-- What is computed of a run of the whole, and of a run of the part that goes on from where
the first one ends. -/
theorem Contains.steps_showing {memory : Shared → Shared'} {part : Local → Local'}
    {H' : StepCondition Tid Act' Shared' Local'} [∀ t a s l, Decidable (G t a s l)]
    [∀ t a s l, Decidable (H' t a s l)] {α : Type*} (hcontains : C.Contains A G H memory part)
    (hshared : memory C.shared₀ = A.shared₀) (hlocal : part C.local₀ = A.local₀)
    (schedule : List (Tid × Act)) (later : List (Tid × Act'))
    (show_configs : Config Tid Shared Local → Config Tid Shared' Local' → α) {seen : α}
    (hrun : ((C.run_under G C.init schedule).bind fun c =>
      (A.run_under H' (part_config memory part c) later).map (show_configs c)) = some seen) :
    ∃ c d, A.ReachableUnder H (part_config memory part c) ∧
      A.StepsUnder H' (part_config memory part c) d ∧ show_configs c d = seen := by
  obtain ⟨c, hc, hlater⟩ := Option.bind_eq_some_iff.mp hrun
  obtain ⟨d, hd, hseen⟩ := Option.map_eq_some_iff.mp hlater
  exact ⟨c, d, hcontains.reachable hshared hlocal (stepsUnder_of_run hc), stepsUnder_of_run hd,
    hseen⟩

/-- What an outline says of a part of the system. -/
def Outline.within (O : Outline Tid Shared' Local') (memory : Shared → Shared')
    (part : Local → Local') : Outline Tid Shared Local where
  shared := fun s => O.shared (memory s)
  thread := fun t s l => O.thread t (memory s) (part l)
  apart := fun l m => O.apart (part l) (part m)

omit [DecidableEq Tid] in
/-- Fewer steps keep an outline that more steps keep. -/
theorem Outline.ValidOver.mono {B O : Outline Tid Shared' Local'}
    {H' : StepCondition Tid Act' Shared' Local'} (hO : B.ValidOver O A H)
    (himp : ∀ t a s l, H' t a s l → H t a s l) : B.ValidOver O A H' where
  init_shared := hO.init_shared
  init_thread := hO.init_thread
  init_apart := hO.init_apart
  step_own := fun t a s l r hBs hBl hs hl hH =>
    hO.step_own t a s l r hBs hBl hs hl (himp t a s l hH)
  step_other := fun t u a s l m r hne hB h hH =>
    hO.step_other t u a s l m r hne hB h (himp t a s l hH)

omit [DecidableEq Tid] in
/-- An outline of the part is one of the whole, if it holds where the whole begins. -/
theorem Outline.ValidOver.within {B O : Outline Tid Shared' Local'} {memory : Shared → Shared'}
    {part : Local → Local'} (hO : B.ValidOver O A H) (hcontains : C.Contains A G H memory part)
    (hshared : O.shared (memory C.shared₀))
    (hthread : ∀ t, O.thread t (memory C.shared₀) (part C.local₀))
    (hapart : O.apart (part C.local₀) (part C.local₀)) :
    (B.within memory part).ValidOver (O.within memory part) C G where
  init_shared := hshared
  init_thread := hthread
  init_apart := hapart
  step_own := by
    intro t a s l r hBs hBl hs hl hG hr
    obtain ⟨hmemory, hpart⟩ | ⟨a', hH, hr'⟩ := hcontains t a s l r hG hr
    · simp only [Outline.within, hmemory, hpart]
      exact ⟨hs, hl⟩
    · exact hO.step_own t a' _ _ _ hBs hBl hs hl hH hr'
  step_other := by
    intro t u a s l m r hne hB hO' hG hr
    obtain ⟨hmemory, hpart⟩ | ⟨a', hH, hr'⟩ := hcontains t a s l r hG hr
    · simp only [Outline.within, hmemory, hpart]
      exact ⟨hO'.other, hO'.apart, hO'.apart_symm⟩
    · exact hO.step_other t u a' _ _ _ _ hne ⟨hB.shared, hB.own, hB.other, hB.apart, hB.apart_symm⟩
        ⟨hO'.shared, hO'.own, hO'.other, hO'.apart, hO'.apart_symm⟩ hH hr'

end System

end interleaving
