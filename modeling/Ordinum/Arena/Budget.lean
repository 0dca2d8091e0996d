import Ordinum.Arena.Regions

open interleaving

namespace ordinum.arena

/-- Where a block is counted and not yet among the chunks. -/
def ArenaPc.grows : ArenaPc → Bool
  | .alloc _ _ .push => true
  | _ => false

section budget

variable {Tid : Type} {policy : ArenaPolicy} {t u : Tid} {s s' : ArenaShared Tid}
  {pc pc' : ArenaPc}

structure BudgetIntact (policy : ArenaPolicy) (s : ArenaShared Tid) : Prop where
  within_cap : s.allocated_bytes ≤ policy.cap
  balanced : s.chunks_mu = none → s.allocated_bytes = policy.block_size * s.chunks.length

/-- The thread has the lock where it is in `try_new_chunk`, and knows there how
many blocks are counted. -/
structure BudgetAt (policy : ArenaPolicy) (t : Tid) (s : ArenaShared Tid) (pc : ArenaPc) :
    Prop where
  locked : pc.locks = true ↔ s.chunks_mu = some t
  counted : pc.locks = true → s.allocated_bytes =
    policy.block_size * (s.chunks.length + if pc.grows then 1 else 0)
  room : ∀ call layout, pc = .alloc call layout .fetch_add →
    s.allocated_bytes + policy.block_size ≤ policy.cap

/-- A thread outside of `try_new_chunk` that stays there. -/
theorem BudgetAt.outside (hl : BudgetAt policy t s pc) (hpc : pc.locks = false)
    (hpc' : pc'.locks = false) (hmu : s'.chunks_mu = s.chunks_mu) : BudgetAt policy t s' pc' where
  locked := by
    rw [hpc', hmu, ← hl.locked, hpc]
  counted := fun h => by
    rw [hpc'] at h
    cases h
  room := fun call layout h => by
    rw [h] at hpc'
    cases hpc'

/-- A thread inside of `try_new_chunk` that changes neither count. -/
theorem BudgetAt.inside (hl : BudgetAt policy t s pc) (hpc : pc.locks = true)
    (hgrows : pc.grows = false) (hpc' : pc'.locks = true) (hgrows' : pc'.grows = false)
    (hroom : ∀ call layout, pc' = .alloc call layout .fetch_add →
      s.allocated_bytes + policy.block_size ≤ policy.cap) : BudgetAt policy t s pc' where
  locked := by rw [hpc', ← hl.locked, hpc]
  counted := fun _ => by
    rw [hgrows', ← hgrows]
    exact hl.counted hpc
  room := hroom

theorem ArenaMove.own_budget (hmove : ArenaMove policy t s pc s' pc') (hs : BudgetIntact policy s)
    (hl : BudgetAt policy t s pc) : BudgetIntact policy s' ∧ BudgetAt policy t s' pc' := by
  have hheld : pc.locks = true → s.chunks_mu ≠ none := by
    intro hlocks hfree
    rw [hl.locked.mp hlocks] at hfree
    cases hfree
  cases hmove with
  | refuse | alloc | get_chunk | load_bump | full | fits | again =>
    exact ⟨hs, hl.outside rfl rfl rfl⟩
  | current | reload | room | no_room | arena_full =>
    exact ⟨hs, hl.inside rfl rfl rfl rfl fun _ _ => nofun⟩
  | within_cap hcap => exact ⟨hs, hl.inside rfl rfl rfl rfl fun _ _ _ => hcap⟩
  | exchange =>
    refine ⟨⟨hs.within_cap, fun hfree => ?_⟩, hl.outside rfl rfl rfl⟩
    rw [ArenaShared.length_set_bump]
    exact hs.balanced hfree
  | count => exact ⟨⟨hs.within_cap, hs.balanced⟩, hl.outside rfl rfl rfl⟩
  | lock hfree =>
    refine ⟨⟨hs.within_cap, nofun⟩, ⟨⟨fun _ => rfl, fun _ => rfl⟩, fun _ => ?_, fun _ _ => nofun⟩⟩
    exact hs.balanced hfree
  | fetch_add =>
    refine ⟨⟨hl.room _ _ rfl, fun hfree => absurd hfree (hheld rfl)⟩,
      ⟨hl.locked, fun _ => ?_, fun _ _ => nofun⟩⟩
    have hcounted : s.allocated_bytes = policy.block_size * s.chunks.length := hl.counted rfl
    show s.allocated_bytes + policy.block_size = policy.block_size * (s.chunks.length + 1)
    rw [hcounted, Nat.mul_succ]
  | push base =>
    refine ⟨⟨hs.within_cap, fun hfree => absurd hfree (hheld rfl)⟩,
      ⟨hl.locked, fun _ => ?_, fun _ _ => nofun⟩⟩
    have hcounted : s.allocated_bytes = policy.block_size * (s.chunks.length + 1) := hl.counted rfl
    show s.allocated_bytes = policy.block_size * (s.chunks ++ [_]).length
    rw [List.length_append]
    exact hcounted
  | publish =>
    exact ⟨⟨hs.within_cap, hs.balanced⟩, ⟨hl.locked, hl.counted, fun _ _ => nofun⟩⟩
  | unlock | fail =>
    exact ⟨⟨hs.within_cap, fun _ => hl.counted rfl⟩, ⟨⟨nofun, nofun⟩, nofun, fun _ _ => nofun⟩⟩

/-- What a step leaves to a thread that has the lock, or not. -/
theorem BudgetAt.frame {m : ArenaPc} (hne : t ≠ u) (hmove : ArenaMove policy t s pc s' pc')
    (hl : BudgetAt policy t s pc) (hm : BudgetAt policy u s m) : BudgetAt policy u s' m := by
  have hother : pc.locks = true → ¬ s.chunks_mu = some u := by
    intro hlocks hu
    rw [hl.locked.mp hlocks] at hu
    exact hne (Option.some.inj hu)
  have hquiet : s.chunks_mu = some u → s'.chunks_mu = some u ∧
      s'.allocated_bytes = s.allocated_bytes ∧ s'.chunks.length = s.chunks.length := by
    intro hu
    cases hmove with
    | exchange => exact ⟨hu, rfl, s.length_set_bump ..⟩
    | lock hfree =>
      rw [hu] at hfree
      cases hfree
    | fetch_add | push | unlock | fail => exact absurd hu (hother rfl)
    | _ => exact ⟨hu, rfl, rfl⟩
  have hback : s'.chunks_mu = some u → s.chunks_mu = some u := by
    intro hu
    cases hmove with
    | lock => exact absurd (Option.some.inj hu) hne
    | unlock | fail => cases hu
    | _ => exact hu
  refine ⟨?_, fun hlocks => ?_, fun call layout hfetch => ?_⟩
  · rw [hm.locked]
    exact ⟨fun hu => (hquiet hu).1, hback⟩
  · obtain ⟨-, hbytes, hlength⟩ := hquiet (hm.locked.mp hlocks)
    rw [hbytes, hlength]
    exact hm.counted hlocks
  · have hlocks : m.locks = true := by rw [hfetch]; rfl
    rw [(hquiet (hm.locked.mp hlocks)).2.1]
    exact hm.room call layout hfetch

end budget

def budget_outline (Tid : Type) (policy : ArenaPolicy) :
    System.Outline Tid (ArenaShared Tid) ArenaPc where
  shared := BudgetIntact policy
  thread := BudgetAt policy
  apart := fun _ _ => True

variable {Tid : Type} {policy : ArenaPolicy} {base : Nat}

theorem budget_outline_valid (hvalid : policy.Valid) :
    System.Outline.trivial.ValidOver (budget_outline Tid policy) (arena_system Tid policy base)
      System.anyStep where
  init_shared := ⟨hvalid.block_le, fun _ => (Nat.mul_one _).symm⟩
  init_thread := fun _ => ⟨⟨nofun, nofun⟩, nofun, fun _ _ => nofun⟩
  init_apart := trivial
  step_own := fun _ _ _ _ _ _ _ hs hl _ hstep => (arena_step_move hstep).own_budget hs hl
  step_other := fun _ _ _ _ _ _ _ hne _ hpair _ hstep =>
    ⟨.frame hne (arena_step_move hstep) hpair.own hpair.other, trivial, trivial⟩

variable [DecidableEq Tid]

theorem budget_outline_holds (hvalid : policy.Valid) {c : ArenaConfig Tid}
    (hc : (arena_system Tid policy base).Reachable c) : (budget_outline Tid policy).Holds c :=
  (budget_outline_valid hvalid).holds_of_trivial hc

/-- In every run the returned regions do not overlap and lie in their chunks,
`memory_used` is the sum of their sizes, and the bytes counted are those of the
chunks. While a thread has counted a block and not pushed it, they are one block
more; they never exceed the cap. -/
theorem allocations_within_budget (hvalid : policy.Valid) {c : ArenaConfig Tid}
    (hc : (arena_system Tid policy base).Reachable c) :
    (c.shared.returned.Pairwise fun a b => a.region.Apart b.region) ∧
    (∀ a ∈ c.shared.returned, a.chunk < c.shared.chunks.length ∧
      a.offset + a.layout.size ≤ (c.shared.chunk a.chunk).len) ∧
    (∀ chunk ∈ c.shared.chunks, chunk.bump ≤ chunk.len) ∧
    c.shared.allocated_bytes ≤ policy.cap ∧
    ((∀ t, (c.threads t).grows = false) →
      c.shared.allocated_bytes = policy.block_size * c.shared.chunks.length) ∧
    (∀ t, (c.threads t).grows = true →
      c.shared.allocated_bytes = policy.block_size * (c.shared.chunks.length + 1)) ∧
    c.shared.memory_used = (c.shared.returned.map fun a => a.layout.size).sum := by
  have hregions := (regions_outline_holds hvalid hc).shared
  have hbudget := budget_outline_holds hvalid hc
  refine ⟨hregions.apart, fun a ha => ?_, fun chunk hchunk => ?_, hbudget.shared.within_cap,
    fun hquiet => ?_, fun t hgrows => ?_, hregions.memory_used⟩
  · have hinside := hregions.inside a ha
    have hlen : (c.shared.chunk a.chunk).len = policy.block_size := hregions.len _ hinside.chunk
    refine ⟨hinside.chunk, Nat.le_trans hinside.below ?_⟩
    rw [hlen]
    exact hregions.bump _ hinside.chunk
  · obtain ⟨i, hi, rfl⟩ := List.mem_iff_getElem.mp hchunk
    have hget : c.shared.chunk i = c.shared.chunks[i] := List.getD_eq_getElem _ _ hi
    rw [← hget, hregions.len i hi]
    exact hregions.bump i hi
  · obtain hfree | ⟨t, ht⟩ := Option.eq_none_or_eq_some c.shared.chunks_mu
    · exact hbudget.shared.balanced hfree
    · have hcounted := (hbudget.thread t).counted ((hbudget.thread t).locked.mpr ht)
      rw [hquiet t] at hcounted
      exact hcounted
  · have hlocks : (c.threads t).locks = true := by
      unfold ArenaPc.grows at hgrows
      split at hgrows
      · rename_i hpc
        rw [hpc]
        rfl
      · cases hgrows
    have hcounted := (hbudget.thread t).counted hlocks
    rw [hgrows] at hcounted
    exact hcounted

/-- Two allocations of a layout that fills more than half a block, up to where
the second has counted a block for itself. -/
def count_second_block (layout : Layout) : List (Unit × ArenaAct) :=
  alloc_once layout ++ ((), .alloc .alloc_raw layout) :: List.replicate 9 ((), .step {})

def twelve_bytes : Layout := ⟨12, 4, four_power_of_two, by decide⟩

/-- The second block is counted before it is pushed. -/
theorem allocated_bytes_ahead_of_chunks : ∃ c : ArenaConfig Unit,
    (arena_system Unit ⟨16, 32⟩ 8).Reachable c ∧
      c.shared.allocated_bytes ≠ 16 * c.shared.chunks.length := by
  obtain ⟨c, hc, hseen⟩ := System.reachable_showing (arena_system Unit ⟨16, 32⟩ 8) System.anyStep
    (count_second_block twelve_bytes)
    (fun c => (c.shared.allocated_bytes, c.shared.chunks.length)) (32, 1) (by decide +kernel)
  injection hseen with hbytes hlength
  refine ⟨c, hc, ?_⟩
  rw [hbytes, hlength]
  decide

theorem allocations_within_budget_two_chunks : ∃ c : ArenaConfig Unit,
    (arena_system Unit ⟨16, 32⟩ 8).Reachable c ∧
      c.shared.returned.map (fun a => (a.chunk, a.offset)) = [(0, 0), (1, 0)] ∧
      c.shared.memory_used = (c.shared.returned.map fun a => a.layout.size).sum := by
  obtain ⟨c, hc, hseen⟩ := System.reachable_showing (arena_system Unit ⟨16, 32⟩ 8) System.anyStep
    (count_second_block twelve_bytes ++ List.replicate 8 ((), .step {}))
    (fun c => c.shared.returned.map fun a => (a.chunk, a.offset)) [(0, 0), (1, 0)]
    (by decide +kernel)
  refine ⟨c, hc, hseen, ?_⟩
  exact (allocations_within_budget ⟨by decide, by decide, by decide, by decide⟩ hc).2.2.2.2.2.2

end ordinum.arena
