import Ordinum.Arena.Steps

open alignment
open interleaving

namespace ordinum.arena

/-- The bytes from `offset` up to `offset + size` of a chunk. -/
structure Region where
  chunk : Nat
  offset : Nat
  size : Nat

/-- Two regions have no byte in common. -/
def Region.Apart (a b : Region) : Prop :=
  a.chunk = b.chunk → a.offset + a.size ≤ b.offset ∨ b.offset + b.size ≤ a.offset

theorem Region.Apart.symm {a b : Region} (h : a.Apart b) : b.Apart a :=
  fun hchunk => (h hchunk.symm).symm

def Allocation.region (a : Allocation) : Region := ⟨a.chunk, a.offset, a.layout.size⟩

/-- The region that a thread has reserved and not yet returned. -/
def ArenaPc.reserved : ArenaPc → Option Region
  | .alloc _ layout (.count chunk aligned) => some ⟨chunk, aligned, layout.size⟩
  | _ => none

section regions

variable {Tid : Type} {policy : ArenaPolicy} {t : Tid} {s s' : ArenaShared Tid} {pc pc' : ArenaPc}

/-- The region lies below the bump of its chunk. -/
structure ArenaShared.Reserves (s : ArenaShared Tid) (region : Region) : Prop where
  chunk : region.chunk < s.chunks.length
  below : region.offset + region.size ≤ (s.chunk region.chunk).bump

theorem ArenaShared.Reserves.apart {a b : Region} (ha : s.Reserves a)
    (hb : (s.chunk b.chunk).bump ≤ b.offset) : a.Apart b := by
  intro hchunk
  have hbelow := ha.below
  rw [hchunk] at hbelow
  exact .inl (Nat.le_trans hbelow hb)

structure RegionsIntact (policy : ArenaPolicy) (s : ArenaShared Tid) : Prop where
  current : s.current_chunk < s.chunks.length
  len : ∀ i, i < s.chunks.length → (s.chunk i).len = policy.block_size
  bump : ∀ i, i < s.chunks.length → (s.chunk i).bump ≤ policy.block_size
  inside : ∀ a ∈ s.returned, s.Reserves a.region
  apart : s.returned.Pairwise fun a b => a.region.Apart b.region
  address : ∀ a ∈ s.returned,
    a.address = (s.chunk a.chunk).base + a.offset ∧ a.layout.align ∣ a.offset
  memory_used : s.memory_used = (s.returned.map fun a => a.layout.size).sum

/-- What a thread knows of the chunk that it works on. The check compares with
the length of the chunk that is current by then, which all chunks share. -/
def RegionKnown (policy : ArenaPolicy) (s : ArenaShared Tid) : ArenaPc → Prop
  | .idle => True
  | .alloc _ layout pc =>
    match pc with
    | .load_bump chunk | .reload chunk | .publish chunk => chunk < s.chunks.length
    | .check chunk bump => chunk < s.chunks.length ∧ bump ≤ policy.block_size
    | .cas chunk bump aligned next =>
      chunk < s.chunks.length ∧ bump ≤ aligned ∧ layout.align ∣ aligned ∧
        next = aligned + layout.size ∧ next ≤ policy.block_size
    | .count chunk aligned =>
      s.Reserves ⟨chunk, aligned, layout.size⟩ ∧ layout.align ∣ aligned ∧
        ∀ a ∈ s.returned, a.region.Apart ⟨chunk, aligned, layout.size⟩
    | _ => True

/-- Chunks stay where they are and their bumps do not go back. -/
structure ChunksGrow (s s' : ArenaShared Tid) : Prop where
  length : s.chunks.length ≤ s'.chunks.length
  bump : ∀ i, i < s.chunks.length → (s.chunk i).bump ≤ (s'.chunk i).bump
  base : ∀ i, i < s.chunks.length → (s'.chunk i).base = (s.chunk i).base

theorem ChunksGrow.of_eq (hchunks : s'.chunks = s.chunks) : ChunksGrow s s' := by
  refine ⟨?_, fun i _ => ?_, fun i _ => ?_⟩ <;>
  · simp [ArenaShared.chunk, hchunks]

theorem ChunksGrow.set_bump {i bump : Nat} (hbump : (s.chunk i).bump ≤ bump) :
    ChunksGrow s (s.set_bump i bump) where
  length := Nat.le_of_eq (s.length_set_bump i bump).symm
  bump := fun j hj => by
    by_cases hij : i = j
    · subst hij
      rwa [ArenaShared.chunk_set_bump_self bump hj]
    · rw [ArenaShared.chunk_set_bump_of_ne bump hij]
  base := fun j _ => s.base_set_bump i j bump

theorem ChunksGrow.push {chunk : Chunk} (hchunks : s'.chunks = s.chunks ++ [chunk]) :
    ChunksGrow s s' where
  length := by
    rw [hchunks, List.length_append]
    exact Nat.le_add_right ..
  bump := fun i hi => Nat.le_of_eq (by rw [ArenaShared.chunk_push hchunks hi])
  base := fun i hi => by rw [ArenaShared.chunk_push hchunks hi]

theorem ArenaShared.Reserves.grow {region : Region} (h : s.Reserves region)
    (hgrow : ChunksGrow s s') : s'.Reserves region :=
  ⟨Nat.lt_of_lt_of_le h.chunk hgrow.length, Nat.le_trans h.below (hgrow.bump _ h.chunk)⟩

theorem ArenaMove.grow (hmove : ArenaMove policy t s pc s' pc') (hl : RegionKnown policy s pc) :
    ChunksGrow s s' := by
  cases hmove with
  | exchange hbump =>
    obtain ⟨-, hle, -, rfl, -⟩ := hl
    apply ChunksGrow.set_bump
    rw [hbump]
    exact Nat.le_trans hle (Nat.le_add_right ..)
  | push => exact .push rfl
  | _ => exact .of_eq rfl

/-- A region that a step reserves lies above the bump that the step moves. -/
theorem ArenaMove.reserved {region : Region} (hmove : ArenaMove policy t s pc s' pc')
    (hl : RegionKnown policy s pc) (hregion : pc'.reserved = some region) :
    (s.chunk region.chunk).bump ≤ region.offset := by
  cases hmove with
  | exchange hbump =>
    injection hregion with hregion
    subst hregion
    rw [hbump]
    exact hl.2.1
  | _ => cases hregion

/-- What a step returns was returned before, or the stepping thread had it
reserved. -/
theorem ArenaMove.returned {a : Allocation} (hmove : ArenaMove policy t s pc s' pc')
    (ha : a ∈ s'.returned) : a ∈ s.returned ∨ pc.reserved = some a.region := by
  cases hmove with
  | count =>
    obtain hold | hnew := List.mem_append.mp ha
    · exact .inl hold
    · rw [List.mem_singleton.mp hnew]
      exact .inr rfl
  | _ => exact .inl ha

/-- The invariant where the list of allocations stands still. -/
theorem RegionsIntact.grow (hs : RegionsIntact policy s) (hgrow : ChunksGrow s s')
    (hcurrent : s'.current_chunk < s'.chunks.length)
    (hlen : ∀ i, i < s'.chunks.length →
      (s'.chunk i).len = policy.block_size ∧ (s'.chunk i).bump ≤ policy.block_size)
    (hreturned : s'.returned = s.returned) (hused : s'.memory_used = s.memory_used) :
    RegionsIntact policy s' where
  current := hcurrent
  len := fun i hi => (hlen i hi).1
  bump := fun i hi => (hlen i hi).2
  inside := fun a ha => (hs.inside a (hreturned ▸ ha)).grow hgrow
  apart := hreturned ▸ hs.apart
  address := fun a ha => by
    rw [hreturned] at ha
    have hbase : (s'.chunk a.chunk).base = (s.chunk a.chunk).base :=
      hgrow.base _ (hs.inside a ha).chunk
    rw [hbase]
    exact hs.address a ha
  memory_used := by rw [hused, hreturned, hs.memory_used]

/-- A step that leaves the chunks and the allocations. -/
theorem RegionsIntact.same (hs : RegionsIntact policy s) (hchunks : s'.chunks = s.chunks)
    (hcurrent : s'.current_chunk < s.chunks.length) (hreturned : s'.returned = s.returned)
    (hused : s'.memory_used = s.memory_used) : RegionsIntact policy s' := by
  refine hs.grow (.of_eq hchunks) (hchunks ▸ hcurrent) (fun i hi => ?_) hreturned hused
  have hchunk : s'.chunk i = s.chunk i := by simp [ArenaShared.chunk, hchunks]
  rw [hchunks] at hi
  rw [hchunk]
  exact ⟨hs.len i hi, hs.bump i hi⟩

theorem ArenaMove.own_regions (hmove : ArenaMove policy t s pc s' pc')
    (hs : RegionsIntact policy s) (hl : RegionKnown policy s pc) : RegionsIntact policy s' := by
  have hgrow := hmove.grow hl
  cases hmove with
  | @exchange call layout chunk bump aligned next hbump =>
    obtain ⟨hchunk, hle, -, hnext, hfits⟩ := hl
    refine hs.grow hgrow ?_ (fun i hi => ?_) rfl rfl
    · rw [ArenaShared.length_set_bump]
      exact hs.current
    · rw [ArenaShared.length_set_bump] at hi
      by_cases hi' : chunk = i
      · subst hi'
        rw [ArenaShared.chunk_set_bump_self next hi]
        exact ⟨hs.len _ hi, hfits⟩
      · rw [ArenaShared.chunk_set_bump_of_ne next hi']
        exact ⟨hs.len i hi, hs.bump i hi⟩
  | @count call layout chunk aligned =>
    obtain ⟨hreserved, halign, hapart⟩ := hl
    refine ⟨hs.current, hs.len, hs.bump, fun a ha => ?_, ?_, fun a ha => ?_, ?_⟩
    · obtain hold | hnew := List.mem_append.mp ha
      · exact (hs.inside a hold).grow hgrow
      · rw [List.mem_singleton.mp hnew]
        exact hreserved.grow hgrow
    · refine List.pairwise_append.mpr ⟨hs.apart, List.pairwise_singleton .., fun a ha b hb => ?_⟩
      rw [List.mem_singleton.mp hb]
      exact hapart a ha
    · obtain hold | hnew := List.mem_append.mp ha
      · exact hs.address a hold
      · rw [List.mem_singleton.mp hnew]
        exact ⟨rfl, halign⟩
    · simp [hs.memory_used]
  | push base =>
    refine hs.grow hgrow ?_ (fun i hi => ?_) rfl rfl
    · exact Nat.lt_of_lt_of_le hs.current hgrow.length
    · simp only [List.length_append, List.length_singleton] at hi
      obtain hi | hi := Nat.lt_succ_iff_lt_or_eq.mp hi
      · rw [ArenaShared.chunk_push rfl hi]
        exact ⟨hs.len i hi, hs.bump i hi⟩
      · simp [ArenaShared.chunk, hi]
  | publish => exact hs.same rfl hl rfl rfl
  | lock | fetch_add | unlock | fail => exact hs.same rfl hs.current rfl rfl
  | _ => exact hs

theorem ArenaMove.own_known (hvalid : policy.Valid) (hmove : ArenaMove policy t s pc s' pc')
    (hs : RegionsIntact policy s) (hl : RegionKnown policy s pc) : RegionKnown policy s' pc' := by
  have hblock := hvalid.block_le_max
  cases hmove with
  | get_chunk | current => exact hs.current
  | load_bump => exact ⟨hl, hs.bump _ hl⟩
  | fits hcheck =>
    rw [ArenaShared.current_len, hs.len _ hs.current] at hcheck
    obtain ⟨hle, halign, hnext, hfits⟩ :=
      alignment_check_ok hblock (Nat.le_trans hl.2 hblock) hcheck
    exact ⟨hl.1, hle, halign, hnext, hfits⟩
  | @exchange call layout chunk bump aligned next hbump =>
    obtain ⟨hchunk, hle, halign, hnext, -⟩ := hl
    refine ⟨⟨?_, ?_⟩, halign, fun a ha => (hs.inside a ha).apart (hbump ▸ hle)⟩
    · rw [ArenaShared.length_set_bump]
      exact hchunk
    · rw [ArenaShared.chunk_set_bump_self next hchunk]
      exact Nat.le_of_eq hnext.symm
  | push => simp [RegionKnown]
  | _ => trivial

/-- What a thread knows survives the steps of the others. -/
theorem RegionKnown.frame {m : ArenaPc} (hm : RegionKnown policy s m) (hgrow : ChunksGrow s s')
    (hreturned : ∀ a ∈ s'.returned, a ∈ s.returned ∨
      ∀ region, m.reserved = some region → a.region.Apart region) : RegionKnown policy s' m := by
  cases m with
  | idle => trivial
  | alloc call layout m =>
    cases m with
    | load_bump | reload | publish => exact Nat.lt_of_lt_of_le hm hgrow.length
    | check => exact ⟨Nat.lt_of_lt_of_le hm.1 hgrow.length, hm.2⟩
    | cas => exact ⟨Nat.lt_of_lt_of_le hm.1 hgrow.length, hm.2⟩
    | count chunk aligned =>
      obtain ⟨hreserved, halign, hapart⟩ := hm
      refine ⟨hreserved.grow hgrow, halign, fun a ha => ?_⟩
      obtain hold | hnew := hreturned a ha
      · exact hapart a hold
      · exact hnew _ rfl
    | _ => trivial

end regions

variable {Tid : Type} {policy : ArenaPolicy} {base : Nat}

def regions_outline (Tid : Type) (policy : ArenaPolicy) :
    System.Outline Tid (ArenaShared Tid) ArenaPc where
  shared := RegionsIntact policy
  thread := fun _ s pc => RegionKnown policy s pc
  apart := fun l m => ∀ a b, l.reserved = some a → m.reserved = some b → a.Apart b

theorem regions_outline_valid (hvalid : policy.Valid) :
    System.Outline.trivial.ValidOver (regions_outline Tid policy) (arena_system Tid policy base)
      System.anyStep where
  init_shared := by
    refine ⟨Nat.one_pos, ?_, ?_, nofun, .nil, nofun, rfl⟩ <;>
    · intro i hi
      obtain rfl := Nat.lt_one_iff.mp hi
      simp [arena_system, Arena.new, ArenaShared.chunk]
  init_thread := fun _ => trivial
  init_apart := fun _ _ => nofun
  step_own := by
    intro t a s pc r _ _ hs hl _ hstep
    have hmove := arena_step_move hstep
    exact ⟨hmove.own_regions hs hl, hmove.own_known hvalid hs hl⟩
  step_other := by
    intro t u a s pc m r _ _ hpair _ hstep
    have hmove := arena_step_move hstep
    have hapart : ∀ a b, r.2.reserved = some a → m.reserved = some b → b.Apart a := by
      intro a b ha hb
      cases m with
      | idle => cases hb
      | alloc call layout m =>
        cases m with
        | count chunk aligned =>
          injection hb with hb
          subst hb
          exact hpair.other.1.apart (hmove.reserved hpair.own ha)
        | _ => cases hb
    refine ⟨?_, fun a b ha hb => (hapart a b ha hb).symm, fun b a hb ha => hapart a b ha hb⟩
    apply hpair.other.frame (hmove.grow hpair.own)
    intro a ha
    obtain hold | hnew := hmove.returned ha
    · exact .inl hold
    · exact .inr fun region hregion => hpair.apart _ _ hnew hregion

variable [DecidableEq Tid]

theorem regions_outline_holds (hvalid : policy.Valid) {c : ArenaConfig Tid}
    (hc : (arena_system Tid policy base).Reachable c) : (regions_outline Tid policy).Holds c :=
  (regions_outline_valid hvalid).holds_of_trivial hc

/-- The address of an allocation is aligned exactly when that of its chunk is:
the rounding is done within the chunk. -/
theorem address_aligned_iff_base (hvalid : policy.Valid) {c : ArenaConfig Tid}
    (hc : (arena_system Tid policy base).Reachable c) :
    ∀ a ∈ c.shared.returned, a.layout.align ∣ a.address ↔
      a.layout.align ∣ (c.shared.chunk a.chunk).base := by
  intro a ha
  obtain ⟨haddress, halign⟩ := (regions_outline_holds hvalid hc).shared.address a ha
  rw [haddress]
  exact (Nat.dvd_add_iff_left halign).symm

/-- One thread allocates with a layout from a chunk that has room. -/
def alloc_once (layout : Layout) : List (Unit × ArenaAct) :=
  ((), .alloc .alloc_raw layout) :: List.replicate 5 ((), .step {})

def four_bytes : Layout := ⟨4, 4, four_power_of_two, four_bytes_fit⟩

/-- A first chunk at an odd address. -/
theorem address_unaligned : ∃ c : ArenaConfig Unit,
    (arena_system Unit ⟨16, 32⟩ 1).Reachable c ∧
      ∃ a ∈ c.shared.returned, ¬ a.layout.align ∣ a.address := by
  obtain ⟨c, hc, hseen⟩ := System.reachable_showing (arena_system Unit ⟨16, 32⟩ 1) System.anyStep
    (alloc_once four_bytes) (fun c => c.shared.returned.map fun a => (a.layout.align, a.address))
    [(4, 1)] (by decide +kernel)
  obtain ⟨a, ha, hpair⟩ := List.mem_map.mp (hseen ▸ List.mem_singleton_self (4, 1))
  injection hpair with halign haddress
  refine ⟨c, hc, a, ha, ?_⟩
  rw [halign, haddress]
  decide

theorem address_aligned_iff_base_two : ∃ c : ArenaConfig Unit,
    (arena_system Unit ⟨16, 32⟩ 8).Reachable c ∧
      c.shared.returned.map (fun a => (a.layout.align, a.address)) = [(4, 8), (4, 12)] ∧
      ∀ a ∈ c.shared.returned, a.layout.align ∣ a.address ↔
        a.layout.align ∣ (c.shared.chunk a.chunk).base := by
  obtain ⟨c, hc, hseen⟩ := System.reachable_showing (arena_system Unit ⟨16, 32⟩ 8) System.anyStep
    (alloc_once four_bytes ++ alloc_once four_bytes)
    (fun c => c.shared.returned.map fun a => (a.layout.align, a.address))
    [(4, 8), (4, 12)] (by decide +kernel)
  exact ⟨c, hc, hseen, address_aligned_iff_base ⟨by decide, by decide, by decide, by decide⟩ hc⟩

end ordinum.arena
