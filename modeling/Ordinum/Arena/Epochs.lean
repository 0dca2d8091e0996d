import Ordinum.Arena.Reset

open interleaving

namespace ordinum.arena

variable {Tid : Type} {policy : ArenaPolicy} {s : ArenaShared Tid}

/-- Any number of threads that allocate from the arena `s`. -/
def allocating (policy : ArenaPolicy) (s : ArenaShared Tid) :
    System Tid ArenaAct (ArenaShared Tid) ArenaPc where
  shared₀ := s
  local₀ := .idle
  step := arena_step policy

/-- The arena between two allocations, of whichever thread. -/
structure Ready (policy : ArenaPolicy) (s : ArenaShared Tid) : Prop where
  regions : RegionsIntact policy s
  budget : BudgetIntact policy s
  free : s.chunks_mu = none

theorem Ready.new (hvalid : policy.Valid) (base : Nat) :
    Ready policy (Arena.new Tid policy base) where
  regions := (regions_outline_valid hvalid).init_shared
  budget := (budget_outline_valid hvalid).init_shared
  free := rfl

theorem Ready.reset (hs : Ready policy s) : Ready policy s.reset where
  regions := by
    have hlength : s.reset.chunks.length = s.chunks.length := List.length_map ..
    refine ⟨?_, fun i hi => ?_, fun i hi => ?_, nofun, .nil, nofun, rfl⟩
    · rw [hlength]
      exact Nat.lt_of_le_of_lt (Nat.zero_le _) hs.regions.current
    · rw [hlength] at hi
      rw [ArenaShared.chunk_reset hi]
      exact hs.regions.len i hi
    · rw [hlength] at hi
      rw [ArenaShared.chunk_reset hi]
      exact Nat.zero_le _
  budget := by
    refine ⟨hs.budget.within_cap, fun hfree => ?_⟩
    have hlength : s.reset.chunks.length = s.chunks.length := List.length_map ..
    rw [hlength]
    exact hs.budget.balanced hfree
  free := hs.free

theorem Ready.regions_valid (hvalid : policy.Valid) (hs : Ready policy s) :
    System.Outline.trivial.ValidOver (regions_outline Tid policy) (allocating policy s)
      System.anyStep where
  init_shared := hs.regions
  init_thread := fun _ => trivial
  init_apart := fun _ _ => nofun
  step_own := (@regions_outline_valid Tid policy 0 hvalid).step_own
  step_other := (@regions_outline_valid Tid policy 0 hvalid).step_other

theorem Ready.budget_valid (hvalid : policy.Valid) (hs : Ready policy s) :
    System.Outline.trivial.ValidOver (budget_outline Tid policy) (allocating policy s)
      System.anyStep where
  init_shared := hs.budget
  init_thread := fun t => by
    refine ⟨⟨nofun, fun hheld => ?_⟩, nofun, fun _ _ => nofun⟩
    have hheld : s.chunks_mu = some t := hheld
    rw [hs.free] at hheld
    cases hheld
  init_apart := trivial
  step_own := (@budget_outline_valid Tid policy 0 hvalid).step_own
  step_other := (@budget_outline_valid Tid policy 0 hvalid).step_other

variable [DecidableEq Tid]

theorem Ready.allocations (hvalid : policy.Valid) (hs : Ready policy s) {c : ArenaConfig Tid}
    (hc : (allocating policy s).Reachable c) (hidle : ∀ t, c.threads t = .idle) :
    Ready policy c.shared where
  regions := ((hs.regions_valid hvalid).holds_of_trivial hc).shared
  budget := ((hs.budget_valid hvalid).holds_of_trivial hc).shared
  free := by
    obtain hfree | ⟨t, ht⟩ := Option.eq_none_or_eq_some c.shared.chunks_mu
    · exact hfree
    · have hlocks := (((hs.budget_valid hvalid).holds_of_trivial hc).thread t).locked.mpr ht
      rw [hidle t] at hlocks
      cases hlocks

/-- What allocations, of one thread or of several at once, and resets make of a
new arena. A call that panicked is over as well. -/
inductive Reached (policy : ArenaPolicy) : ArenaShared Tid → Prop
  | new (base : Nat) : Reached policy (Arena.new Tid policy base)
  | allocations {s : ArenaShared Tid} {c : ArenaConfig Tid} (hs : Reached policy s)
      (hc : (allocating policy s).Reachable c) (hidle : ∀ t, c.threads t = .idle) :
      Reached policy c.shared
  | reset {s : ArenaShared Tid} (hs : Reached policy s) : Reached policy s.reset

theorem Reached.ready (hvalid : policy.Valid) (hs : Reached policy s) : Ready policy s := by
  induction hs with
  | new base => exact .new hvalid base
  | allocations _ hc hidle ih => exact ih.allocations hvalid hc hidle
  | reset _ ih => exact ih.reset

end ordinum.arena
