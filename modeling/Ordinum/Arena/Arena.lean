import Ordinum.Alignment.RoundUp
import Ordinum.Interleaving.Sync
import Ordinum.Interleaving.System

open alignment
open interleaving

namespace ordinum.arena

/-- `isize::MAX`. -/
def isize_max : Nat := 2 ^ 63 - 1

structure ArenaPolicy where
  block_size : Nat
  cap : Nat
  deriving DecidableEq, Repr

/-- What `Arena::new` asserts of its policy; the remainder asserts that a block
is not empty. -/
structure ArenaPolicy.Valid (policy : ArenaPolicy) : Prop where
  block_pos : 0 < policy.block_size
  block_le : policy.block_size ≤ policy.cap
  multiple : policy.cap % policy.block_size = 0
  cap_le : policy.cap ≤ isize_max

theorem ArenaPolicy.Valid.block_le_max {policy : ArenaPolicy} (hvalid : policy.Valid) :
    policy.block_size ≤ isize_max :=
  Nat.le_trans hvalid.block_le hvalid.cap_le

/-- A `Layout`: the alignment is a power of two, and the size rounded up to it
does not exceed `isize::MAX`. -/
structure Layout where
  size : Nat
  align : Nat
  is_power_of_two : ∃ k, align = 2 ^ k
  size_le : size + (align - 1) ≤ isize_max

theorem one_power_of_two : ∃ k, 1 = 2 ^ k := ⟨0, rfl⟩

theorem four_power_of_two : ∃ k, 4 = 2 ^ k := ⟨2, rfl⟩

theorem four_bytes_fit : 4 + (4 - 1) ≤ isize_max := by decide

theorem Layout.align_pos (layout : Layout) : 0 < layout.align := by
  obtain ⟨k, hk⟩ := layout.is_power_of_two
  rw [hk]
  exact Nat.two_pow_pos k

inductive ArenaError where
  | AllocationError (size : Nat)
  | Overflow
  | ChunkDoubleCheckFailed
  | ArenaFull
  deriving DecidableEq, Repr

/-- A chunk: the address of its memory, its length and its bump offset. -/
structure Chunk where
  base : Nat
  len : Nat
  bump : Nat
  deriving DecidableEq, Repr

/-- A pointer that a call returned (history): where it points to in which chunk,
and for which layout. -/
structure Allocation where
  chunk : Nat
  offset : Nat
  address : Nat
  layout : Layout

/-- `Arena`. Chunks are told by their place in `chunks`; `returned` are the
allocations since the last `reset` (history). -/
structure ArenaShared (Tid : Type) where
  current_chunk : Nat
  chunks : List Chunk
  chunks_mu : Option Tid
  allocated_bytes : Nat
  memory_used : Nat
  returned : List Allocation

inductive AllocCall where
  | alloc_raw
  | alloc_raw_fallback
  deriving DecidableEq, Repr

/-- How a call ends. -/
inductive AllocResult where
  | ptr (address : Nat)
  | error (e : ArenaError)
  | panicked
  deriving DecidableEq, Repr

/-- `alloc_raw` panics where `alloc_raw_fallback` returns the error. -/
def AllocCall.refuse : AllocCall → ArenaError → AllocResult
  | .alloc_raw, _ => .panicked
  | .alloc_raw_fallback, e => .error e

/-- Program points of an allocation, each before its next access. From `lock` to
`unlock` it is in `try_new_chunk`; `unlock` has the error that is returned. -/
inductive AllocPc where
  | get_chunk
  | load_bump (chunk : Nat)
  | check (chunk : Nat) (bump : Nat)
  | cas (chunk : Nat) (bump aligned next : Nat)
  | count (chunk : Nat) (aligned : Nat)
  | lock
  | current
  | reload (chunk : Nat)
  | recheck (bump : Nat)
  | load_allocated
  | fetch_add
  | push
  | publish (chunk : Nat)
  | unlock (result : Option ArenaError)
  deriving DecidableEq, Repr

/-- What a step depends on beside the memory: a weak exchange may fail, and the
allocator picks the address of a new chunk. -/
structure AllocChoice where
  spurious : Bool := false
  base : Nat := 0
  deriving DecidableEq, Repr

namespace ArenaShared

variable {Tid : Type}

def chunk (s : ArenaShared Tid) (i : Nat) : Chunk := s.chunks.getD i ⟨0, 0, 0⟩

/-- `get_chunk().len()`. -/
def current_len (s : ArenaShared Tid) : Nat := (s.chunk s.current_chunk).len

def set_bump (s : ArenaShared Tid) (i bump : Nat) : ArenaShared Tid :=
  { s with chunks := s.chunks.modify i fun chunk => { chunk with bump } }

end ArenaShared

/-- `(bump + (align - 1)) & !(align - 1)`. -/
def align_offset (bump align : Nat) : Nat :=
  (BitVec.ofNat 64 (bump + (align - 1)) &&& ~~~BitVec.ofNat 64 (align - 1)).toNat

/-- `alignment_check`, with the length of the chunk that is current. -/
def alignment_check (len bump : Nat) (layout : Layout) : Except ArenaError (Nat × Nat) :=
  let aligned := align_offset bump layout.align
  let next := aligned + layout.size
  if 2 ^ 64 ≤ next then .error .Overflow
  else if len < next then .error .Overflow
  else .ok (aligned, next)

variable {Tid : Type}

/-- One atomic step of `alloc_raw` and `alloc_raw_fallback`, which differ in how
they fail. -/
def alloc_step (policy : ArenaPolicy) (t : Tid) (call : AllocCall) (layout : Layout)
    (choice : AllocChoice) (s : ArenaShared Tid) :
    AllocPc → Option (ArenaShared Tid × Progress AllocPc AllocResult)
  | .get_chunk => some (s, .next (.load_bump s.current_chunk))
  | .load_bump chunk => some (s, .next (.check chunk (s.chunk chunk).bump))
  | .check chunk bump =>
    match alignment_check s.current_len bump layout with
    | .error _ => some (s, .next .lock)
    | .ok (aligned, next) => some (s, .next (.cas chunk bump aligned next))
  | .cas chunk bump aligned next =>
    if (s.chunk chunk).bump = bump ∧ choice.spurious = false then
      some (s.set_bump chunk next, .next (.count chunk aligned))
    else some (s, .next .get_chunk)
  | .count chunk aligned =>
    let address := (s.chunk chunk).base + aligned
    some ({ s with
      memory_used := s.memory_used + layout.size
      returned := s.returned ++ [⟨chunk, aligned, address, layout⟩] }, .done (.ptr address))
  | .lock =>
    if s.chunks_mu = none then some ({ s with chunks_mu := some t }, .next .current) else none
  | .current => some (s, .next (.reload s.current_chunk))
  | .reload chunk => some (s, .next (.recheck (s.chunk chunk).bump))
  | .recheck bump =>
    match alignment_check s.current_len bump layout with
    | .ok _ => some (s, .next (.unlock none))
    | .error _ => some (s, .next .load_allocated)
  | .load_allocated =>
    if policy.cap < s.allocated_bytes + policy.block_size then
      some (s, .next (.unlock (some .ArenaFull)))
    else some (s, .next .fetch_add)
  | .fetch_add =>
    some ({ s with allocated_bytes := s.allocated_bytes + policy.block_size }, .next .push)
  | .push =>
    some ({ s with chunks := s.chunks ++ [⟨choice.base, policy.block_size, 0⟩] },
      .next (.publish s.chunks.length))
  | .publish chunk => some ({ s with current_chunk := chunk }, .next (.unlock none))
  | .unlock none => some ({ s with chunks_mu := none }, .next .get_chunk)
  | .unlock (some e) => some ({ s with chunks_mu := none }, .done (call.refuse e))

/-- The start of a call: a layout that is larger than a block is refused. -/
def alloc_start (policy : ArenaPolicy) (call : AllocCall) (layout : Layout) :
    Progress AllocPc AllocResult :=
  if policy.block_size < layout.size then .done (call.refuse (.AllocationError layout.size))
  else .next .get_chunk

/-- `Arena::new`, with the address of its first chunk. -/
def Arena.new (Tid : Type) (policy : ArenaPolicy) (base : Nat) : ArenaShared Tid :=
  { current_chunk := 0
    chunks := [⟨base, policy.block_size, 0⟩]
    chunks_mu := none
    allocated_bytes := policy.block_size
    memory_used := 0
    returned := [] }

inductive ArenaPc where
  | idle
  | alloc (call : AllocCall) (layout : Layout) (pc : AllocPc)

inductive ArenaAct where
  | alloc (call : AllocCall) (layout : Layout)
  | step (choice : AllocChoice)

def arena_step (policy : ArenaPolicy) (t : Tid) :
    ArenaAct → ArenaShared Tid → ArenaPc → Option (ArenaShared Tid × ArenaPc)
  | .alloc call layout, s, .idle =>
    some (s, (alloc_start policy call layout).elim (.alloc call layout) fun _ => .idle)
  | .step choice, s, .alloc call layout pc =>
    (alloc_step policy t call layout choice s pc).map fun (s, progress) =>
      (s, progress.elim (.alloc call layout) fun _ => .idle)
  | _, _, _ => none

/-- Any number of threads that allocate from one arena. -/
def arena_system (Tid : Type) (policy : ArenaPolicy) (base : Nat) :
    System Tid ArenaAct (ArenaShared Tid) ArenaPc where
  shared₀ := Arena.new Tid policy base
  local₀ := .idle
  step := arena_step policy

abbrev ArenaConfig (Tid : Type) := Config Tid (ArenaShared Tid) ArenaPc

end ordinum.arena
