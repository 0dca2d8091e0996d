import Ordinum.Arena.Budget

open alignment
open interleaving

namespace ordinum.arena

/-- `reset` borrows the arena exclusively. -/
def ArenaShared.reset {Tid : Type} (s : ArenaShared Tid) : ArenaShared Tid :=
  { s with
    chunks := s.chunks.map fun chunk => { chunk with bump := 0 }
    current_chunk := 0
    memory_used := 0
    returned := [] }

/-- The steps of `alloc_raw`, where the allocator has picked the addresses of
its chunks. A weak exchange that fails for no reason is only tried again, and
here it does not. -/
abbrev raw_step (policy : ArenaPolicy) (bases : Nat → Nat) (layout : Layout) :
    ArenaShared Unit → AllocPc → Option (ArenaShared Unit × Progress AllocPc AllocResult) :=
  fun s => alloc_step policy () .alloc_raw layout { base := bases s.chunks.length } s

/-- `alloc_raw` while no other thread allocates. -/
def alloc_raw (policy : ArenaPolicy) (bases : Nat → Nat) (layout : Layout)
    (s : ArenaShared Unit) : Option (ArenaShared Unit × AllocResult) :=
  match alloc_start policy .alloc_raw layout with
  | .done result => some (s, result)
  | .next pc => run_unblocked (raw_step policy bases layout) 17 s pc

/-- The arena after an `alloc_raw` that does not panic. -/
def serve (policy : ArenaPolicy) (bases : Nat → Nat) (s : ArenaShared Unit) (layout : Layout) :
    Option (ArenaShared Unit) :=
  match alloc_raw policy bases layout s with
  | some (s', .ptr _) => some s'
  | _ => none

def serve_all (policy : ArenaPolicy) (bases : Nat → Nat) (layouts : List Layout)
    (s : ArenaShared Unit) : Option (ArenaShared Unit) :=
  layouts.foldlM (serve policy bases) s

/-- The sequence again, `n` times, each time after a `reset`. -/
def serve_again (policy : ArenaPolicy) (bases : Nat → Nat) (layouts : List Layout) :
    Nat → ArenaShared Unit → Option (ArenaShared Unit)
  | 0, s => some s
  | n + 1, s => (serve_all policy bases layouts s.reset).bind (serve_again policy bases layouts n)

/-- Where the bump of an empty chunk of any length would be after the sequence. -/
def extent (layouts : List Layout) (bump : Nat) : Nat :=
  layouts.foldl (fun bump layout => round_up bump layout.align + layout.size) bump

/-- How often the sequence leaves a chunk for a new one. -/
def switches (block_size : Nat) : List Layout → Nat → Nat
  | [], _ => 0
  | layout :: rest, bump =>
    let next := round_up bump layout.align + layout.size
    if next ≤ block_size then switches block_size rest next
    else switches block_size rest layout.size + 1

theorem le_extent (layouts : List Layout) : ∀ bump, bump ≤ extent layouts bump := by
  induction layouts with
  | nil => exact fun bump => Nat.le_refl bump
  | cons layout rest ih =>
    intro bump
    have hround := le_round_up (n := bump) layout.align_pos
    exact Nat.le_trans (Nat.le_trans hround (Nat.le_add_right ..)) (ih _)

/-- A sequence stays in its chunk when its extent does not exceed a block. -/
theorem switches_eq_zero_iff {block_size : Nat} (layouts : List Layout) :
    ∀ {bump}, bump ≤ block_size →
      (switches block_size layouts bump = 0 ↔ extent layouts bump ≤ block_size) := by
  induction layouts with
  | nil => exact fun hbump => ⟨fun _ => hbump, fun _ => rfl⟩
  | cons layout rest ih =>
    intro bump _
    by_cases hnext : round_up bump layout.align + layout.size ≤ block_size
    · simp only [switches, hnext, if_true]
      exact ih hnext
    · simp only [switches, hnext, if_false]
      have hextent := le_extent rest (round_up bump layout.align + layout.size)
      exact ⟨nofun, fun h => absurd (Nat.le_trans hextent h) hnext⟩

/-- The arena between two allocations. -/
structure Settled (policy : ArenaPolicy) (s : ArenaShared Unit) : Prop where
  free : s.chunks_mu = none
  current : s.current_chunk < s.chunks.length
  len : ∀ i, i < s.chunks.length → (s.chunk i).len = policy.block_size
  bump : (s.chunk s.current_chunk).bump ≤ policy.block_size

/-- The bump of the chunk that is current. -/
def ArenaShared.current_bump {Tid : Type} (s : ArenaShared Tid) : Nat :=
  (s.chunk s.current_chunk).bump

/-- `try_new_chunk`, done. -/
def ArenaShared.new_chunk {Tid : Type} (s : ArenaShared Tid) (policy : ArenaPolicy) (base : Nat) :
    ArenaShared Tid :=
  { s with
    chunks := s.chunks ++ [⟨base, policy.block_size, 0⟩]
    current_chunk := s.chunks.length
    allocated_bytes := s.allocated_bytes + policy.block_size }

theorem ArenaShared.chunk_new_chunk {Tid : Type} (s : ArenaShared Tid) (policy : ArenaPolicy)
    (base : Nat) : (s.new_chunk policy base).chunk s.chunks.length = ⟨base, policy.block_size, 0⟩ := by
  simp [ArenaShared.chunk, ArenaShared.new_chunk]

section alloc

variable {policy : ArenaPolicy} {bases : Nat → Nat} {layout : Layout} {s s' : ArenaShared Unit}

/-- An allocation that the current chunk has room for moves its bump. -/
structure Bumped (s s' : ArenaShared Unit) (next : Nat) : Prop where
  free : s'.chunks_mu = s.chunks_mu
  current : s'.current_chunk = s.current_chunk
  chunks : s'.chunks = (s.set_bump s.current_chunk next).chunks
  allocated_bytes : s'.allocated_bytes = s.allocated_bytes

theorem run_of_fits (policy : ArenaPolicy) (bases : Nat → Nat) (fuel : Nat) {aligned next : Nat}
    (hcheck : alignment_check s.current_len s.current_bump layout = .ok (aligned, next)) :
    ∃ s' address, run_unblocked (raw_step policy bases layout) (fuel + 5) s .get_chunk =
      some (s', .ptr address) ∧ Bumped s s' next := by
  unfold ArenaShared.current_bump at hcheck
  simp only [run_unblocked, alloc_step, hcheck, and_self, if_true]
  exact ⟨_, _, rfl, ⟨rfl, rfl, rfl, rfl⟩⟩

/-- An allocation that it has no room for panics where a further block is above
the cap. -/
theorem run_of_full (fuel : Nat) {e : ArenaError} (hfree : s.chunks_mu = none)
    (hcheck : alignment_check s.current_len s.current_bump layout = .error e)
    (hcap : policy.cap < s.allocated_bytes + policy.block_size) :
    run_unblocked (raw_step policy bases layout) (fuel + 9) s .get_chunk =
      some ({ s with chunks_mu := none }, .panicked) := by
  unfold ArenaShared.current_bump ArenaShared.current_len ArenaShared.chunk at hcheck
  simp only [run_unblocked, alloc_step, ArenaShared.current_len, ArenaShared.chunk, hcheck, hfree,
    hcap, if_true, AllocCall.refuse]

/-- Else it goes on in a new chunk. -/
theorem run_of_grow (fuel : Nat) {e : ArenaError} (hfree : s.chunks_mu = none)
    (hcheck : alignment_check s.current_len s.current_bump layout = .error e)
    (hcap : ¬ policy.cap < s.allocated_bytes + policy.block_size) :
    run_unblocked (raw_step policy bases layout) (fuel + 12) s .get_chunk =
      run_unblocked (raw_step policy bases layout) fuel
        (s.new_chunk policy (bases s.chunks.length)) .get_chunk := by
  unfold ArenaShared.current_bump ArenaShared.current_len ArenaShared.chunk at hcheck
  simp only [run_unblocked, alloc_step, ArenaShared.current_len, ArenaShared.chunk, hcheck, hfree,
    hcap, if_true, if_false, ArenaShared.new_chunk]

/-- What serving layouts does to a settled arena: it is settled again, with
`blocks` more chunks, the last of them filled up to `bump`. -/
structure Served (policy : ArenaPolicy) (s s' : ArenaShared Unit) (bump blocks : Nat) : Prop where
  settled : Settled policy s'
  bump : s'.current_bump = bump
  length : s'.chunks.length = s.chunks.length + blocks
  allocated_bytes : s'.allocated_bytes = s.allocated_bytes + blocks * policy.block_size

theorem Bumped.served {next : Nat} (hs : Settled policy s) (hnext : next ≤ policy.block_size)
    (hbumped : Bumped s s' next) : Served policy s s' next 0 := by
  have hlength : s'.chunks.length = s.chunks.length := by
    rw [hbumped.chunks, s.length_set_bump]
  have hchunk : ∀ i, s'.chunk i = (s.set_bump s.current_chunk next).chunk i := fun i => by
    rw [ArenaShared.chunk, hbumped.chunks, ArenaShared.chunk]
  have hbump : s'.current_bump = next := by
    rw [ArenaShared.current_bump, hbumped.current, hchunk,
      ArenaShared.chunk_set_bump_self next hs.current]
  refine ⟨⟨hbumped.free.trans hs.free, ?_, fun i hi => ?_, ?_⟩, hbump, hlength, ?_⟩
  · rw [hbumped.current, hlength]
    exact hs.current
  · rw [hlength] at hi
    rw [hchunk]
    by_cases hcurrent : s.current_chunk = i
    · subst hcurrent
      rw [ArenaShared.chunk_set_bump_self next hi]
      exact hs.len _ hi
    · rw [ArenaShared.chunk_set_bump_of_ne next hcurrent]
      exact hs.len i hi
  · exact Nat.le_trans (Nat.le_of_eq hbump) hnext
  · rw [hbumped.allocated_bytes, Nat.zero_mul, Nat.add_zero]

theorem Served.of_new_chunk {base bump : Nat}
    (hserved : Served policy (s.new_chunk policy base) s' bump 0) : Served policy s s' bump 1 where
  settled := hserved.settled
  bump := hserved.bump
  length := by
    rw [hserved.length]
    exact List.length_append
  allocated_bytes := by
    rw [hserved.allocated_bytes, Nat.zero_mul, Nat.one_mul]
    rfl

theorem Settled.new_chunk (hs : Settled policy s) (base : Nat) :
    Settled policy (s.new_chunk policy base) ∧ (s.new_chunk policy base).current_bump = 0 := by
  have hpushed := s.chunk_new_chunk policy base
  have hbump : (s.new_chunk policy base).current_bump = 0 := congrArg Chunk.bump hpushed
  refine ⟨⟨hs.free, ?_, fun i hi => ?_, Nat.le_trans (Nat.le_of_eq hbump) (Nat.zero_le _)⟩, hbump⟩
  · simp [ArenaShared.new_chunk]
  · have hi : i < (s.chunks ++ [_]).length := hi
    rw [List.length_append, List.length_singleton] at hi
    obtain hi | rfl := Nat.lt_succ_iff_lt_or_eq.mp hi
    · rw [ArenaShared.chunk_push rfl hi]
      exact hs.len i hi
    · rw [hpushed]

/-- What the check says of the chunk that is current. -/
theorem Settled.check (hvalid : policy.Valid) (hs : Settled policy s) (layout : Layout) :
    alignment_check s.current_len s.current_bump layout =
      if round_up s.current_bump layout.align + layout.size ≤ policy.block_size then
        .ok (round_up s.current_bump layout.align,
          round_up s.current_bump layout.align + layout.size)
      else .error .Overflow :=
  check_of_block hvalid layout (hs.len _ hs.current) hs.bump

theorem run_fitted (bases : Nat → Nat) (fuel : Nat) (hvalid : policy.Valid) (hs : Settled policy s)
    (hfits : round_up s.current_bump layout.align + layout.size ≤ policy.block_size) :
    ∃ s' address, run_unblocked (raw_step policy bases layout) (fuel + 5) s .get_chunk =
      some (s', .ptr address) ∧
      Served policy s s' (round_up s.current_bump layout.align + layout.size) 0 := by
  have hcheck := hs.check hvalid layout
  rw [if_pos hfits] at hcheck
  obtain ⟨s', address, hrun, hbumped⟩ := run_of_fits policy bases fuel hcheck
  exact ⟨s', address, hrun, hbumped.served hs hfits⟩

/-- What does not fit panics, or has the next chunk from its start. -/
theorem run_not_fitted (bases : Nat → Nat) (hvalid : policy.Valid) (hs : Settled policy s)
    (hnot : ¬ round_up s.current_bump layout.align + layout.size ≤ policy.block_size)
    (hsize : layout.size ≤ policy.block_size) :
    ∃ s' result, run_unblocked (raw_step policy bases layout) 17 s .get_chunk =
      some (s', result) ∧ (result = .panicked ∨ Served policy s s' layout.size 1) := by
  have hcheck := hs.check hvalid layout
  rw [if_neg hnot] at hcheck
  by_cases hcap : policy.cap < s.allocated_bytes + policy.block_size
  · exact ⟨_, _, run_of_full 8 hs.free hcheck hcap, .inl rfl⟩
  · obtain ⟨hnew, hbump⟩ := hs.new_chunk (bases s.chunks.length)
    have hstart : round_up (s.new_chunk policy (bases s.chunks.length)).current_bump layout.align =
        0 := by rw [hbump, round_up_zero layout.align_pos]
    obtain ⟨s', address, hrun, hserved⟩ :=
      run_fitted bases 0 hvalid hnew (by rwa [hstart, Nat.zero_add])
    rw [hstart, Nat.zero_add] at hserved
    exact ⟨s', _, (run_of_grow 5 hs.free hcheck hcap).trans hrun, .inr hserved.of_new_chunk⟩

/-- An allocation of a settled arena ends, with a pointer or a panic. -/
theorem alloc_raw_returns (bases : Nat → Nat) (hvalid : policy.Valid) (hs : Settled policy s)
    (layout : Layout) : ∃ s' result, alloc_raw policy bases layout s = some (s', result) := by
  unfold alloc_raw alloc_start
  by_cases hsize : policy.block_size < layout.size
  · simp only [hsize, if_true]
    exact ⟨_, _, rfl⟩
  simp only [hsize, if_false]
  by_cases hfits : round_up s.current_bump layout.align + layout.size ≤ policy.block_size
  · obtain ⟨s', address, hrun, -⟩ := run_fitted bases 12 hvalid hs hfits
    exact ⟨s', _, hrun⟩
  · obtain ⟨s', result, hrun, -⟩ :=
      run_not_fitted bases hvalid hs hfits (Nat.le_of_not_lt hsize)
    exact ⟨s', result, hrun⟩

theorem serve_of_fits (bases : Nat → Nat) (hvalid : policy.Valid) (hs : Settled policy s)
    (hfits : round_up s.current_bump layout.align + layout.size ≤ policy.block_size) :
    ∃ s', serve policy bases s layout = some s' ∧
      Served policy s s' (round_up s.current_bump layout.align + layout.size) 0 := by
  have hsize : ¬ policy.block_size < layout.size :=
    Nat.not_lt.mpr (Nat.le_trans (Nat.le_add_left ..) hfits)
  obtain ⟨s', address, hrun, hserved⟩ := run_fitted bases 12 hvalid hs hfits
  refine ⟨s', ?_, hserved⟩
  simp only [serve, alloc_raw, alloc_start, hsize, if_false]
  rw [hrun]

theorem serve_of_not_fits (hvalid : policy.Valid) (hs : Settled policy s)
    (hnot : ¬ round_up s.current_bump layout.align + layout.size ≤ policy.block_size)
    (hserve : serve policy bases s layout = some s') : Served policy s s' layout.size 1 := by
  unfold serve alloc_raw alloc_start at hserve
  by_cases hsize : policy.block_size < layout.size
  · simp [hsize, AllocCall.refuse] at hserve
  simp only [hsize, if_false] at hserve
  obtain ⟨next, result, hrun, hpanicked | hserved⟩ :=
    run_not_fitted bases hvalid hs hnot (Nat.le_of_not_lt hsize)
  · rw [hrun, hpanicked] at hserve
    cases hserve
  · rw [hrun] at hserve
    cases result with
    | ptr address =>
      injection hserve with hnext
      subst hnext
      exact hserved
    | error e => cases hserve
    | panicked => cases hserve

end alloc

section sequences

variable {policy : ArenaPolicy} {bases : Nat → Nat} {layouts : List Layout}
  {s s' : ArenaShared Unit} {base : Nat}

theorem Served.trans {b₁ b₂ n m : Nat} {u : ArenaShared Unit} (h₁ : Served policy s s' b₁ n)
    (h₂ : Served policy s' u b₂ m) : Served policy s u b₂ (m + n) where
  settled := h₂.settled
  bump := h₂.bump
  length := by
    rw [h₂.length, h₁.length, Nat.add_assoc, Nat.add_comm n m]
  allocated_bytes := by
    rw [h₂.allocated_bytes, h₁.allocated_bytes, Nat.add_assoc, Nat.add_comm m n, Nat.add_mul]

/-- A sequence that is served takes a new chunk at each switch. -/
theorem serve_all_served (hvalid : policy.Valid) (layouts : List Layout) :
    ∀ {s s'}, Settled policy s → serve_all policy bases layouts s = some s' →
      ∃ bump, Served policy s s' bump (switches policy.block_size layouts s.current_bump) := by
  induction layouts with
  | nil =>
    intro s s' hs hserve
    obtain rfl : s = s' := by simpa [serve_all] using hserve
    exact ⟨_, hs, rfl, rfl, by simp [switches]⟩
  | cons layout rest ih =>
    intro s s' hs hserve
    simp only [serve_all, List.foldlM_cons, Option.bind_eq_bind, Option.bind_eq_some_iff] at hserve
    obtain ⟨next, hnext, hrest⟩ := hserve
    by_cases hfits : round_up s.current_bump layout.align + layout.size ≤ policy.block_size
    · obtain ⟨fitted, hfitted, hserved⟩ := serve_of_fits bases hvalid hs hfits
      obtain rfl : fitted = next := Option.some.inj (hfitted.symm.trans hnext)
      obtain ⟨bump, hlast⟩ := ih hserved.settled hrest
      simp only [switches, hfits, if_true]
      rw [hserved.bump] at hlast
      exact ⟨bump, hserved.trans hlast⟩
    · have hserved := serve_of_not_fits hvalid hs hfits hnext
      obtain ⟨bump, hlast⟩ := ih hserved.settled hrest
      simp only [switches, hfits, if_false]
      rw [hserved.bump] at hlast
      exact ⟨bump, hserved.trans hlast⟩

/-- A sequence without a switch is served, whatever the cap. -/
theorem serve_all_of_no_switch (bases : Nat → Nat) (hvalid : policy.Valid) (layouts : List Layout) :
    ∀ {s}, Settled policy s → switches policy.block_size layouts s.current_bump = 0 →
      ∃ s', serve_all policy bases layouts s = some s' := by
  induction layouts with
  | nil => exact fun {s} _ _ => ⟨s, rfl⟩
  | cons layout rest ih =>
    intro s hs hswitches
    by_cases hfits : round_up s.current_bump layout.align + layout.size ≤ policy.block_size
    · simp only [switches, hfits, if_true] at hswitches
      obtain ⟨next, hnext, hserved⟩ := serve_of_fits bases hvalid hs hfits
      rw [← hserved.bump] at hswitches
      obtain ⟨s', hrest⟩ := ih hserved.settled hswitches
      refine ⟨s', ?_⟩
      simp only [serve_all, List.foldlM_cons, hnext]
      exact hrest
    · simp only [switches, hfits, if_false] at hswitches
      cases hswitches

theorem Settled.fresh (policy : ArenaPolicy) (base : Nat) :
    Settled policy (Arena.new Unit policy base) ∧
      (Arena.new Unit policy base).current_bump = 0 := by
  refine ⟨⟨rfl, Nat.one_pos, fun i hi => ?_, Nat.zero_le _⟩, rfl⟩
  obtain rfl := Nat.lt_one_iff.mp hi
  rfl

theorem ArenaShared.chunk_reset {Tid : Type} {s : ArenaShared Tid} {i : Nat}
    (hi : i < s.chunks.length) : s.reset.chunk i = { s.chunk i with bump := 0 } := by
  simp [ArenaShared.chunk, ArenaShared.reset, List.getD_eq_getElem?_getD, hi]

theorem Settled.reset (hs : Settled policy s) :
    Settled policy s.reset ∧ s.reset.current_bump = 0 := by
  have hlength : s.reset.chunks.length = s.chunks.length := List.length_map ..
  have hpos : 0 < s.chunks.length := Nat.lt_of_le_of_lt (Nat.zero_le _) hs.current
  have hbump : s.reset.current_bump = 0 := congrArg Chunk.bump (ArenaShared.chunk_reset hpos)
  refine ⟨⟨hs.free, hlength ▸ hpos, fun i hi => ?_, ?_⟩, hbump⟩
  · rw [hlength] at hi
    rw [ArenaShared.chunk_reset hi]
    exact hs.len i hi
  · exact Nat.le_trans (Nat.le_of_eq hbump) (Nat.zero_le _)

/-- A sequence without a switch is served after every reset from where it began. -/
theorem serve_again_of_no_switch (bases : Nat → Nat) (hvalid : policy.Valid)
    (hswitches : switches policy.block_size layouts 0 = 0) (n : Nat) :
    ∀ {s}, Settled policy s → ∃ b, serve_again policy bases layouts n s = some b ∧
      b.allocated_bytes = s.allocated_bytes ∧ b.chunks.length = s.chunks.length := by
  induction n with
  | zero => exact fun {s} _ => ⟨s, rfl, rfl, rfl⟩
  | succ n ih =>
    intro s hs
    obtain ⟨hreset, hbump⟩ := hs.reset
    obtain ⟨s', hserve⟩ := serve_all_of_no_switch bases hvalid layouts hreset
      (hbump ▸ hswitches)
    obtain ⟨bump, hserved⟩ := serve_all_served hvalid layouts hreset hserve
    rw [hbump, hswitches] at hserved
    obtain ⟨b, hagain, hbytes, hlength⟩ := ih hserved.settled
    refine ⟨b, ?_, ?_, ?_⟩
    · simp only [serve_again, hserve, Option.bind_some]
      exact hagain
    · rw [hbytes, hserved.allocated_bytes, Nat.zero_mul]
      rfl
    · rw [hlength, hserved.length]
      exact List.length_map ..

/-- A sequence that a fresh arena served is served again after any number of
resets, out of the memory that is there, exactly when it did not leave the first
chunk: after a reset the arena grows where it did before. -/
theorem serve_again_iff_extent (hvalid : policy.Valid) {a : ArenaShared Unit}
    (hserve : serve_all policy bases layouts (Arena.new Unit policy base) = some a) :
    (∀ n, ∃ b, serve_again policy bases layouts n a = some b ∧
      b.allocated_bytes ≤ a.allocated_bytes ∧ b.chunks.length ≤ a.chunks.length) ↔
    extent layouts 0 ≤ policy.block_size := by
  obtain ⟨hfresh, hbump⟩ := Settled.fresh policy base
  obtain ⟨bump, hserved⟩ := serve_all_served hvalid layouts hfresh hserve
  rw [← switches_eq_zero_iff layouts (Nat.zero_le policy.block_size)]
  constructor
  · intro hagain
    obtain ⟨b, hb, -, hle⟩ := hagain 1
    obtain ⟨b', hb', hrefl⟩ := Option.bind_eq_some_iff.mp hb
    obtain rfl : b' = b := Option.some.inj hrefl
    obtain ⟨hreset, hzero⟩ := hserved.settled.reset
    obtain ⟨bump', hserved'⟩ := serve_all_served hvalid layouts hreset hb'
    have hlength := hserved'.length
    have hreset_length : a.reset.chunks.length = a.chunks.length := List.length_map ..
    rw [hzero, hreset_length] at hlength
    omega
  · intro hswitches n
    obtain ⟨b, hb, hbytes, hlength⟩ :=
      serve_again_of_no_switch bases hvalid hswitches n hserved.settled
    exact ⟨b, hb, Nat.le_of_eq hbytes, Nat.le_of_eq hlength⟩

/-- Two allocations that take two chunks fill the cap; after a reset the second
one panics. -/
theorem serve_again_arena_full : ∃ a b,
    serve_all ⟨16, 32⟩ (fun _ => 64) [twelve_bytes, twelve_bytes] (Arena.new Unit ⟨16, 32⟩ 32) =
      some a ∧
    serve ⟨16, 32⟩ (fun _ => 64) a.reset twelve_bytes = some b ∧
    (alloc_raw ⟨16, 32⟩ (fun _ => 64) twelve_bytes b).map Prod.snd = some .panicked ∧
    serve_again ⟨16, 32⟩ (fun _ => 64) [twelve_bytes, twelve_bytes] 1 a = none := by
  have hruns : ((serve_all ⟨16, 32⟩ (fun _ => 64) [twelve_bytes, twelve_bytes]
      (Arena.new Unit ⟨16, 32⟩ 32)).map fun a =>
        ((serve ⟨16, 32⟩ (fun _ => 64) a.reset twelve_bytes).map fun b =>
          (alloc_raw ⟨16, 32⟩ (fun _ => 64) twelve_bytes b).map Prod.snd,
        (serve_again ⟨16, 32⟩ (fun _ => 64) [twelve_bytes, twelve_bytes] 1 a).isNone)) =
      some (some (some .panicked), true) := by
    decide +kernel
  obtain ⟨a, ha, hafter⟩ := Option.map_eq_some_iff.mp hruns
  obtain ⟨hserve, hnone⟩ := Prod.mk.injEq .. ▸ hafter
  obtain ⟨b, hb, hpanicked⟩ := Option.map_eq_some_iff.mp hserve
  exact ⟨a, b, ha, hb, hpanicked, Option.isNone_iff_eq_none.mp hnone⟩

theorem serve_again_iff_extent_one_chunk :
    ∃ a, serve_all ⟨16, 32⟩ (fun _ => 64) [twelve_bytes] (Arena.new Unit ⟨16, 32⟩ 32) = some a ∧
      ((∀ n, ∃ b, serve_again ⟨16, 32⟩ (fun _ => 64) [twelve_bytes] n a = some b ∧
        b.allocated_bytes ≤ a.allocated_bytes ∧ b.chunks.length ≤ a.chunks.length) ↔
      extent [twelve_bytes] 0 ≤ 16) := by
  have hruns : (serve_all ⟨16, 32⟩ (fun _ => 64) [twelve_bytes]
      (Arena.new Unit ⟨16, 32⟩ 32)).isSome = true := by
    decide +kernel
  obtain ⟨a, ha⟩ := Option.isSome_iff_exists.mp hruns
  exact ⟨a, ha, serve_again_iff_extent ⟨by decide, by decide, by decide, by decide⟩ ha⟩

end sequences

end ordinum.arena
