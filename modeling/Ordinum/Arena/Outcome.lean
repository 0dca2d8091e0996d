import Ordinum.Arena.Epochs
import Ordinum.Interleaving.Retry

open alignment
open interleaving

namespace ordinum.arena

variable {Tid : Type} {policy : ArenaPolicy} {t : Tid} {call : AllocCall} {layout : Layout}
  {s m : ArenaShared Tid}

/-- The current chunk has room for the layout behind its bump, rounded up. -/
def ArenaShared.Fits (s : ArenaShared Tid) (layout : Layout) : Prop :=
  round_up s.current_bump layout.align + layout.size ≤ s.current_len

/-- There is room for the layout, or may be made. -/
def Admits (policy : ArenaPolicy) (layout : Layout) (s : ArenaShared Tid) : Prop :=
  layout.size ≤ policy.block_size ∧
    (s.Fits layout ∨ s.allocated_bytes + policy.block_size ≤ policy.cap)

/-- Where the layout comes to lie in the current chunk. -/
def ArenaShared.address (s : ArenaShared Tid) (layout : Layout) : Nat :=
  (s.chunk s.current_chunk).base + round_up s.current_bump layout.align

/-- The arena that has given the layout its place in the current chunk. -/
def ArenaShared.take (s : ArenaShared Tid) (layout : Layout) : ArenaShared Tid :=
  let aligned := round_up s.current_bump layout.align
  { s.set_bump s.current_chunk (aligned + layout.size) with
    memory_used := s.memory_used + layout.size
    returned := s.returned ++ [⟨s.current_chunk, aligned, s.address layout, layout⟩] }

/-- The layout needs a further chunk, which has room for it. -/
structure Crowded (policy : ArenaPolicy) (layout : Layout) (s : ArenaShared Tid) : Prop where
  full : ¬ s.Fits layout
  size_le : layout.size ≤ policy.block_size

/-- The arena that gives the layout its place: the one there is where the layout
fits, else the one with a further chunk, where the cap leaves room for it. -/
inductive MadeRoom (policy : ArenaPolicy) (layout : Layout) (s : ArenaShared Tid) :
    ArenaShared Tid → Prop
  | as_is (hfits : s.Fits layout) : MadeRoom policy layout s s
  | grown (base : Nat) (hfull : Crowded policy layout s)
      (hcap : s.allocated_bytes + policy.block_size ≤ policy.cap) :
      MadeRoom policy layout s (s.new_chunk policy base)

/-- An exchange that fails for no reason. -/
def FailsSpuriously (choice : AllocChoice) (pc : AllocPc) : Prop :=
  choice.spurious = true ∧ ∃ chunk bump aligned next, pc = .cas chunk bump aligned next

/-- A call of thread `t` after `n` steps with no other thread moving. -/
def call_alone (policy : ArenaPolicy) (t : Tid) (call : AllocCall) (layout : Layout)
    (choices : Nat → AllocChoice) (s : ArenaShared Tid) :
    Nat → Option (ArenaShared Tid × Progress AllocPc AllocResult) :=
  run_choosing (alloc_step policy t call layout) choices (s, alloc_start policy call layout)

/-- The sums that the next step computes are those of the integers. -/
def SumsFit (policy : ArenaPolicy) (layout : Layout) (s : ArenaShared Tid) :
    Progress AllocPc AllocResult → Prop
  | .next (.check _ bump) | .next (.recheck bump) =>
    bump + (layout.align - 1) < 2 ^ 64 ∧ align_offset bump layout.align + layout.size < 2 ^ 64
  | .next .load_allocated | .next .fetch_add =>
    s.allocated_bytes + policy.block_size < 2 ^ 64
  | _ => True

/-- `alloc_raw` panics where `alloc_raw_fallback` returns an error. -/
def AllocResult.unwrapped : AllocResult → AllocResult
  | .ptr address => .ptr address
  | .error _ => .panicked
  | .panicked => .panicked

section room

theorem Ready.current_len (hs : Ready policy s) : s.current_len = policy.block_size :=
  hs.regions.len _ hs.regions.current

theorem Ready.current_bump (hs : Ready policy s) : s.current_bump ≤ policy.block_size :=
  hs.regions.bump _ hs.regions.current

/-- A chunk that is new has room for every layout that is not larger. -/
theorem fits_new_chunk (s : ArenaShared Tid) (base : Nat)
    (hsize : layout.size ≤ policy.block_size) : (s.new_chunk policy base).Fits layout := by
  have hchunk : (s.new_chunk policy base).chunk (s.new_chunk policy base).current_chunk =
      ⟨base, policy.block_size, 0⟩ := s.chunk_new_chunk policy base
  unfold ArenaShared.Fits ArenaShared.current_bump ArenaShared.current_len
  rw [hchunk, round_up_zero layout.align_pos, Nat.zero_add]
  exact hsize

/-- What there is to know of the chunk that gives the place. -/
theorem MadeRoom.current (hs : Ready policy s) (hm : MadeRoom policy layout s m) :
    m.Fits layout ∧ m.current_len = policy.block_size ∧ m.current_bump ≤ policy.block_size := by
  cases hm with
  | as_is hfits => exact ⟨hfits, hs.current_len, hs.current_bump⟩
  | grown base hfull hcap =>
    have hchunk := s.chunk_new_chunk policy base
    refine ⟨fits_new_chunk s base hfull.size_le, congrArg Chunk.len hchunk, ?_⟩
    exact Nat.le_trans (Nat.le_of_eq (congrArg Chunk.bump hchunk)) (Nat.zero_le _)

theorem MadeRoom.admits (hs : Ready policy s) (hm : MadeRoom policy layout s m) :
    Admits policy layout s := by
  cases hm with
  | as_is hfits =>
    have hend : round_up s.current_bump layout.align + layout.size ≤ policy.block_size :=
      hs.current_len ▸ hfits
    exact ⟨Nat.le_trans (Nat.le_add_left ..) hend, .inl hfits⟩
  | grown base hfull hcap => exact ⟨hfull.size_le, .inr hcap⟩

theorem MadeRoom.length_le (hm : MadeRoom policy layout s m) :
    m.chunks.length ≤ s.chunks.length + 1 := by
  cases hm with
  | as_is => exact Nat.le_succ _
  | grown => exact Nat.le_of_eq List.length_append

/-- The sums of a check of a bump within a block. -/
theorem sums_of_check (hvalid : policy.Valid) (layout : Layout) {bump : Nat}
    (hbump : bump ≤ policy.block_size) :
    bump + (layout.align - 1) < 2 ^ 64 ∧
      align_offset bump layout.align + layout.size < 2 ^ 64 := by
  have hmax := Nat.le_trans hbump hvalid.block_le_max
  have hsize := layout.size_le
  have hround : round_up bump layout.align ≤ bump + (layout.align - 1) :=
    Nat.div_mul_le_self ..
  rw [align_offset_eq layout hmax]
  unfold isize_max at hmax hsize
  omega

end room

section alone

/-- A call before the check: there is room, or else it has up to twelve steps to
go before it makes some. -/
inductive Ahead (policy : ArenaPolicy) (layout : Layout) (s : ArenaShared Tid) :
    ArenaShared Tid → Nat → Prop
  | room {m : ArenaShared Tid} (hm : MadeRoom policy layout s m) : Ahead policy layout s m 0
  | full (hfull : Crowded policy layout s) : Ahead policy layout s s 12

/-- Where a call stands that runs alone from the arena `s`, and the number of
steps it has left at most while no exchange fails spuriously. -/
inductive Stands (policy : ArenaPolicy) (t : Tid) (call : AllocCall) (layout : Layout)
    (s : ArenaShared Tid) : Nat → ArenaShared Tid → Progress AllocPc AllocResult → Prop
  | get_chunk {m : ArenaShared Tid} {k : Nat} (hm : Ahead policy layout s m k) :
      Stands policy t call layout s (k + 5) m (.next .get_chunk)
  | load_bump {m : ArenaShared Tid} {k : Nat} (hm : Ahead policy layout s m k) :
      Stands policy t call layout s (k + 4) m (.next (.load_bump m.current_chunk))
  | check {m : ArenaShared Tid} {k : Nat} (hm : Ahead policy layout s m k) :
      Stands policy t call layout s (k + 3) m (.next (.check m.current_chunk m.current_bump))
  | cas {m : ArenaShared Tid} (hm : MadeRoom policy layout s m) :
      Stands policy t call layout s 2 m (.next (.cas m.current_chunk m.current_bump
        (round_up m.current_bump layout.align)
        (round_up m.current_bump layout.align + layout.size)))
  | count {m : ArenaShared Tid} (hm : MadeRoom policy layout s m) :
      Stands policy t call layout s 1
        (m.set_bump m.current_chunk (round_up m.current_bump layout.align + layout.size))
        (.next (.count m.current_chunk (round_up m.current_bump layout.align)))
  | served {m : ArenaShared Tid} (hm : MadeRoom policy layout s m) :
      Stands policy t call layout s 0 (m.take layout) (.done (.ptr (m.address layout)))
  | lock (hfull : Crowded policy layout s) : Stands policy t call layout s 14 s (.next .lock)
  | current (hfull : Crowded policy layout s) :
      Stands policy t call layout s 13 { s with chunks_mu := some t } (.next .current)
  | reload (hfull : Crowded policy layout s) :
      Stands policy t call layout s 12 { s with chunks_mu := some t }
        (.next (.reload s.current_chunk))
  | recheck (hfull : Crowded policy layout s) :
      Stands policy t call layout s 11 { s with chunks_mu := some t }
        (.next (.recheck s.current_bump))
  | load_allocated (hfull : Crowded policy layout s) :
      Stands policy t call layout s 10 { s with chunks_mu := some t } (.next .load_allocated)
  | fetch_add (hfull : Crowded policy layout s)
      (hcap : s.allocated_bytes + policy.block_size ≤ policy.cap) :
      Stands policy t call layout s 9 { s with chunks_mu := some t } (.next .fetch_add)
  | push (hfull : Crowded policy layout s)
      (hcap : s.allocated_bytes + policy.block_size ≤ policy.cap) :
      Stands policy t call layout s 8
        { s with
          chunks_mu := some t
          allocated_bytes := s.allocated_bytes + policy.block_size } (.next .push)
  | publish (base : Nat) (hfull : Crowded policy layout s)
      (hcap : s.allocated_bytes + policy.block_size ≤ policy.cap) :
      Stands policy t call layout s 7
        { s with
          chunks_mu := some t
          chunks := s.chunks ++ [⟨base, policy.block_size, 0⟩]
          allocated_bytes := s.allocated_bytes + policy.block_size }
        (.next (.publish s.chunks.length))
  | unlock (base : Nat) (hfull : Crowded policy layout s)
      (hcap : s.allocated_bytes + policy.block_size ≤ policy.cap) :
      Stands policy t call layout s 6 { s.new_chunk policy base with chunks_mu := some t }
        (.next (.unlock none))
  | arena_full (hnot : ¬ Admits policy layout s) :
      Stands policy t call layout s 1 { s with chunks_mu := some t }
        (.next (.unlock (some .ArenaFull)))
  | refused (e : ArenaError) (hnot : ¬ Admits policy layout s) :
      Stands policy t call layout s 0 s (.done (call.refuse e))

theorem Ahead.current {k : Nat} (hs : Ready policy s) (hm : Ahead policy layout s m k) :
    m.current_len = policy.block_size ∧ m.current_bump ≤ policy.block_size := by
  cases hm with
  | room hm => exact (hm.current hs).2
  | full => exact ⟨hs.current_len, hs.current_bump⟩

/-- The lock is given back as it was. -/
theorem unlocked (hfree : s.chunks_mu = none) :
    { { s with chunks_mu := some t } with chunks_mu := none } = s := by
  rw [← hfree]

theorem Ahead.length_le {k : Nat} (hm : Ahead policy layout s m k) :
    m.chunks.length ≤ s.chunks.length + 1 := by
  cases hm with
  | room hm => exact hm.length_le
  | full => exact Nat.le_succ _

theorem Stands.start (policy : ArenaPolicy) (t : Tid) (call : AllocCall) (layout : Layout)
    (s : ArenaShared Tid) : ∃ rank,
    Stands policy t call layout s rank s (alloc_start policy call layout) := by
  unfold alloc_start
  split
  · rename_i hsize
    exact ⟨0, .refused _ fun hadmits => Nat.not_le_of_lt hsize hadmits.1⟩
  · rename_i hsize
    by_cases hfits : s.Fits layout
    · exact ⟨_, .get_chunk (.room (.as_is hfits))⟩
    · exact ⟨_, .get_chunk (.full ⟨hfits, Nat.le_of_not_lt hsize⟩)⟩

/-- The check in a chunk that gives the place. -/
theorem MadeRoom.check (hvalid : policy.Valid) (hs : Ready policy s)
    (hm : MadeRoom policy layout s m) : alignment_check m.current_len m.current_bump layout =
      .ok (round_up m.current_bump layout.align,
        round_up m.current_bump layout.align + layout.size) := by
  obtain ⟨hfits, hlen, hbump⟩ := hm.current hs
  rw [ArenaShared.Fits, hlen] at hfits
  rw [check_of_block hvalid layout hlen hbump, if_pos hfits]

/-- The check in a chunk that is too full. -/
theorem Crowded.check (hvalid : policy.Valid) (hs : Ready policy s)
    (hfull : Crowded policy layout s) :
    alignment_check s.current_len s.current_bump layout = .error .Overflow := by
  have hnot := hfull.full
  rw [ArenaShared.Fits, hs.current_len] at hnot
  rw [check_of_block hvalid layout hs.current_len hs.current_bump, if_neg hnot]

/-- The check sends the call to the exchange where there is room, else to the
lock. -/
theorem Stands.after_check (hvalid : policy.Valid) (hs : Ready policy s) {k : Nat}
    (hm : Ahead policy layout s m k) (choice : AllocChoice) : ∃ rank' next,
      alloc_step policy t call layout choice m (.check m.current_chunk m.current_bump) =
        some next ∧ Stands policy t call layout s rank' next.1 next.2 ∧ rank' < k + 3 := by
  cases hm with
  | room hm =>
    refine ⟨2, (_, _), ?_, .cas hm, by omega⟩
    simp only [alloc_step, hm.check hvalid hs]
  | full hfull =>
    refine ⟨14, (_, _), ?_, .lock hfull, by omega⟩
    simp only [alloc_step, hfull.check hvalid hs]

theorem Stands.after_recheck (hvalid : policy.Valid) (hs : Ready policy s)
    (hfull : Crowded policy layout s) (choice : AllocChoice) :
    alloc_step policy t call layout choice { s with chunks_mu := some t }
      (.recheck s.current_bump) = some ({ s with chunks_mu := some t }, .next .load_allocated) := by
  have hcheck := hfull.check hvalid hs
  -- the lock leaves the chunk that is current
  have hlocked : alignment_check ({ s with chunks_mu := some t } : ArenaShared Tid).current_len
      s.current_bump layout = .error .Overflow := hcheck
  simp only [alloc_step, hlocked]

/-- Every step can be taken and brings the call nearer to its end, apart from an
exchange that fails spuriously. -/
theorem Stands.advance (hvalid : policy.Valid) (hs : Ready policy s) {rank : Nat}
    {pc : AllocPc} (choice : AllocChoice)
    (h : Stands policy t call layout s rank m (.next pc)) : ∃ rank' next,
      alloc_step policy t call layout choice m pc = some next ∧
      Stands policy t call layout s rank' next.1 next.2 ∧
      (FailsSpuriously choice pc ∨ rank' < rank) := by
  cases h with
  | get_chunk hm => exact ⟨_, _, rfl, .load_bump hm, .inr (by omega)⟩
  | load_bump hm => exact ⟨_, _, rfl, .check hm, .inr (by omega)⟩
  | check hm =>
    obtain ⟨rank', next, hnext, hthere, hlower⟩ :=
      after_check hvalid hs hm choice
    exact ⟨rank', next, hnext, hthere, .inr hlower⟩
  | cas hm =>
    by_cases hspurious : choice.spurious = true
    · refine ⟨_, (_, _), ?_, .get_chunk (.room hm), .inl ⟨hspurious, _, _, _, _, rfl⟩⟩
      simp [alloc_step, hspurious]
    · have hbump : (m.chunk m.current_chunk).bump = m.current_bump := rfl
      refine ⟨1, (m.set_bump m.current_chunk _, _), ?_, .count hm, .inr (by omega)⟩
      simp only [alloc_step, hbump, hspurious, true_and, if_true]
  | count hm =>
    refine ⟨0, _, rfl, ?_, .inr (by omega)⟩
    simp only [ArenaShared.base_set_bump]
    exact .served hm
  | lock hfull =>
    refine ⟨13, (_, _), ?_, .current hfull, .inr (by omega)⟩
    simp only [alloc_step, hs.free, if_true]
  | current hfull => exact ⟨12, _, rfl, .reload hfull, .inr (by omega)⟩
  | reload hfull => exact ⟨11, _, rfl, .recheck hfull, .inr (by omega)⟩
  | recheck hfull =>
    exact ⟨10, _, after_recheck hvalid hs hfull choice, .load_allocated hfull, .inr (by omega)⟩
  | load_allocated hfull =>
    by_cases hcap : policy.cap < s.allocated_bytes + policy.block_size
    · refine ⟨1, (_, _), ?_, .arena_full fun hadmits => ?_, .inr (by omega)⟩
      · simp only [alloc_step, hcap, if_true]
      · exact hadmits.2.elim hfull.full (Nat.not_le_of_lt hcap)
    · refine ⟨9, (_, _), ?_, .fetch_add hfull (Nat.le_of_not_lt hcap), .inr (by omega)⟩
      simp only [alloc_step, hcap, if_false]
  | fetch_add hfull hcap => exact ⟨8, _, rfl, .push hfull hcap, .inr (by omega)⟩
  | push hfull hcap => exact ⟨7, _, rfl, .publish choice.base hfull hcap, .inr (by omega)⟩
  | publish base hfull hcap => exact ⟨6, _, rfl, .unlock base hfull hcap, .inr (by omega)⟩
  | unlock base hfull hcap =>
    refine ⟨5, _, rfl, ?_, .inr (by omega)⟩
    rw [unlocked (s := s.new_chunk policy base) hs.free]
    exact .get_chunk (.room (.grown base hfull hcap))
  | arena_full hnot =>
    refine ⟨0, _, rfl, ?_, .inr (by omega)⟩
    rw [unlocked hs.free]
    exact .refused _ hnot

/-- A call adds at most one chunk, and its sums are those of the integers. -/
theorem Stands.bounds (hvalid : policy.Valid) (hs : Ready policy s) {rank : Nat}
    {progress : Progress AllocPc AllocResult} (h : Stands policy t call layout s rank m progress) :
    m.chunks.length ≤ s.chunks.length + 1 ∧ SumsFit policy layout m progress := by
  have hcap : s.allocated_bytes + policy.block_size < 2 ^ 64 := by
    have hblock := hvalid.block_le_max
    have hwithin := hs.budget.within_cap
    have hmax := hvalid.cap_le
    unfold isize_max at hblock hmax
    omega
  cases h with
  | get_chunk hm | load_bump hm => exact ⟨hm.length_le, trivial⟩
  | check hm => exact ⟨hm.length_le, sums_of_check hvalid layout (hm.current hs).2⟩
  | cas hm => exact ⟨hm.length_le, trivial⟩
  | count hm | served hm =>
    refine ⟨Nat.le_trans (Nat.le_of_eq ?_) hm.length_le, trivial⟩
    exact ArenaShared.length_set_bump ..
  | lock | current | reload | push | arena_full | refused => exact ⟨Nat.le_succ _, trivial⟩
  | recheck => exact ⟨Nat.le_succ _, sums_of_check hvalid layout hs.current_bump⟩
  | load_allocated | fetch_add => exact ⟨Nat.le_succ _, hcap⟩
  | publish | unlock => exact ⟨Nat.le_of_eq List.length_append, trivial⟩

/-- How a call ends: with the place that there is or that was made, or refused
with the arena as it was. -/
theorem Stands.ended (hs : Ready policy s) {rank : Nat} {result : AllocResult}
    (h : Stands policy t call layout s rank m (.done result)) :
    (Admits policy layout s ∧ ∃ room, MadeRoom policy layout s room ∧ m = room.take layout ∧
      result = .ptr (room.address layout)) ∨
    (¬ Admits policy layout s ∧ m = s ∧ ∃ e, result = call.refuse e) := by
  cases h with
  | served hm => exact .inl ⟨hm.admits hs, _, hm, rfl, rfl⟩
  | refused e hnot => exact .inr ⟨hnot, rfl, e, rfl⟩

end alone

/-- `alloc_raw` takes the steps of `alloc_raw_fallback`. -/
theorem call_alone_raw (policy : ArenaPolicy) (t : Tid) (layout : Layout)
    (choices : Nat → AllocChoice) (s : ArenaShared Tid) (n : Nat) :
    call_alone policy t .alloc_raw layout choices s n =
      (call_alone policy t .alloc_raw_fallback layout choices s n).map fun r =>
        (r.1, r.2.elim .next fun result => .done result.unwrapped) := by
  have hstart : alloc_start policy .alloc_raw layout =
      (alloc_start policy .alloc_raw_fallback layout).elim .next fun result =>
        .done result.unwrapped := by
    unfold alloc_start
    split <;> rfl
  unfold call_alone
  rw [hstart]
  apply run_choosing_elim
  intro choice s pc
  cases pc with
  | get_chunk | load_bump | count | current | reload | fetch_add | push | publish => rfl
  | check | cas | lock | recheck | load_allocated =>
    simp only [alloc_step]
    split <;> rfl
  | unlock result => cases result <;> rfl

theorem ranked (hvalid : policy.Valid) (hs : Ready policy s) (t : Tid) (call : AllocCall)
    (layout : Layout) : Ranked (alloc_step policy t call layout) FailsSpuriously
      (Stands policy t call layout s) :=
  fun _ _ _ choice h => h.advance hvalid hs choice

/-- Wherever the call is, it stands where it may. -/
theorem Ready.stands (hvalid : policy.Valid) (hs : Ready policy s) {choices : Nat → AllocChoice}
    {n : Nat} {progress : Progress AllocPc AllocResult}
    (hrun : call_alone policy t call layout choices s n = some (m, progress)) :
    ∃ rank, Stands policy t call layout s rank m progress := by
  obtain ⟨_, hstart⟩ := Stands.start policy t call layout s
  obtain ⟨rank, r, hr, hthere⟩ := (ranked hvalid hs t call layout).holds choices hstart n
  obtain rfl : r = (m, progress) := Option.some.inj (hr.symm.trans hrun)
  exact ⟨rank, hthere⟩

variable [DecidableEq Tid]

/-- An allocation with no other thread moving, in whatever arena there may be.
It ends unless exchanges fail spuriously forever, adds at most one chunk on the
way and computes no sum that overflows. `alloc_raw_fallback` returns a pointer
exactly where the layout is not larger than a block and there is room for it in
the current chunk, or for a further chunk below the cap; an error leaves the
arena as it was. `alloc_raw` does the same, and panics for an error. -/
theorem allocation_outcome (hvalid : policy.Valid) (hs : Reached policy s) (t : Tid)
    (layout : Layout) (choices : Nat → AllocChoice) :
    (∀ call, (∃ n, ∀ m, n ≤ m → ∀ s' pc,
        call_alone policy t call layout choices s m = some (s', .next pc) →
        ¬ FailsSpuriously (choices m) pc) →
      ∃ n s' result, call_alone policy t call layout choices s n = some (s', .done result)) ∧
    (∀ call n, ∃ s' progress,
      call_alone policy t call layout choices s n = some (s', progress) ∧
      s'.chunks.length ≤ s.chunks.length + 1 ∧ SumsFit policy layout s' progress) ∧
    (∀ n s' result,
      call_alone policy t .alloc_raw_fallback layout choices s n = some (s', .done result) →
      ((∃ address, result = .ptr address) ↔ Admits policy layout s) ∧
      (∀ address, result = .ptr address → ∃ room, MadeRoom policy layout s room ∧
        s' = room.take layout ∧ address = room.address layout) ∧
      ((¬ ∃ address, result = .ptr address) → s' = s ∧ ∃ e, result = .error e)) ∧
    (∀ n, call_alone policy t .alloc_raw layout choices s n =
      (call_alone policy t .alloc_raw_fallback layout choices s n).map fun r =>
        (r.1, r.2.elim .next fun result => .done result.unwrapped)) := by
  have hready := hs.ready hvalid
  refine ⟨fun call hfair => ?_, fun call n => ?_, fun n s' result hrun => ?_,
    fun n => call_alone_raw policy t layout choices s n⟩
  · obtain ⟨_, hstart⟩ := Stands.start policy t call layout s
    exact (ranked hvalid hready t call layout).ends hstart hfair
  · obtain ⟨_, hstart⟩ := Stands.start policy t call layout s
    obtain ⟨rank, ⟨s', progress⟩, hrun, hthere⟩ :=
      (ranked hvalid hready t call layout).holds choices hstart n
    exact ⟨s', progress, hrun, hthere.bounds hvalid hready⟩
  · obtain ⟨rank, hthere⟩ := hready.stands hvalid hrun
    obtain ⟨hadmits, room, hroom, rfl, rfl⟩ | ⟨hnot, rfl, e, rfl⟩ := hthere.ended hready
    · refine ⟨⟨fun _ => hadmits, fun _ => ⟨_, rfl⟩⟩, ?_, fun hno => absurd ⟨_, rfl⟩ hno⟩
      rintro _ ⟨⟩
      exact ⟨room, hroom, rfl, rfl⟩
    · exact ⟨⟨nofun, fun hadmits => absurd hadmits hnot⟩, nofun, fun _ => ⟨rfl, e, rfl⟩⟩

def ArenaPc.is_idle : ArenaPc → Bool
  | .idle => true
  | _ => false

theorem ArenaPc.eq_idle {pc : ArenaPc} (h : pc.is_idle = true) : pc = .idle := by
  cases pc with
  | idle => rfl
  | _ => cases h

/-- The second of two allocations finds the only chunk taken. -/
theorem allocation_outcome_arena_full : ∃ s : ArenaShared Unit, Reached ⟨16, 16⟩ s ∧
    s.memory_used = 12 ∧ ∃ n e,
      call_alone ⟨16, 16⟩ () .alloc_raw_fallback twelve_bytes (fun _ => {}) s n =
        some (s, .done (.error e)) ∧
      call_alone ⟨16, 16⟩ () .alloc_raw twelve_bytes (fun _ => {}) s n =
        some (s, .done .panicked) := by
  have hvalid : (⟨16, 16⟩ : ArenaPolicy).Valid := ⟨by decide, by decide, by decide, by decide⟩
  obtain ⟨c, hc, hseen⟩ := System.reachable_showing (arena_system Unit ⟨16, 16⟩ 8) System.anyStep
    (alloc_once twelve_bytes)
    (fun c => ((c.threads ()).is_idle, c.shared.memory_used, c.shared.current_bump,
      c.shared.current_len, c.shared.allocated_bytes))
    (true, 12, 12, 16, 16) (by decide +kernel)
  simp only [Prod.mk.injEq] at hseen
  obtain ⟨hidle, hused, hbump, hlen, hbytes⟩ := hseen
  have hs : Reached ⟨16, 16⟩ c.shared :=
    .allocations (.new 8) hc fun _ => ArenaPc.eq_idle hidle
  have hnot : ¬ Admits ⟨16, 16⟩ twelve_bytes c.shared := by
    unfold Admits ArenaShared.Fits
    rw [hbump, hlen, hbytes]
    decide
  obtain ⟨hends, -, hended, hraw⟩ := allocation_outcome hvalid hs () twelve_bytes (fun _ => {})
  obtain ⟨n, s', result, hrun⟩ := hends .alloc_raw_fallback
    ⟨0, fun _ _ _ _ _ hfails => Bool.false_ne_true hfails.1⟩
  obtain ⟨hiff, -, hunchanged⟩ := hended n s' result hrun
  obtain ⟨rfl, e, rfl⟩ := hunchanged (mt hiff.mp hnot)
  refine ⟨c.shared, hs, hused, n, e, hrun, ?_⟩
  rw [hraw, hrun]
  rfl

end ordinum.arena
