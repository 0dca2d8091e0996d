import Ordinum.Arena.Arena

open alignment
open interleaving

namespace ordinum.arena

section offsets

variable {policy : ArenaPolicy} {bump : Nat} {layout : Layout}

/-- The mask rounds the offset up, which stays within the machine's integers. -/
theorem align_offset_eq (layout : Layout) (hbump : bump ≤ isize_max) :
    align_offset bump layout.align = round_up bump layout.align := by
  obtain ⟨k, hk⟩ := layout.is_power_of_two
  have hsize := layout.size_le
  have hfits : bump + (layout.align - 1) < 2 ^ 64 := by
    unfold isize_max at hbump hsize
    omega
  unfold align_offset round_up
  rw [hk] at hfits ⊢
  rw [toNat_and_not_mask, BitVec.toNat_ofNat, Nat.mod_eq_of_lt hfits]

/-- An allocation fits when its end, with the start rounded up, lies in the chunk. -/
theorem alignment_check_eq {len : Nat} (hlen : len ≤ isize_max) (hbump : bump ≤ isize_max) :
    alignment_check len bump layout =
      if round_up bump layout.align + layout.size ≤ len then
        .ok (round_up bump layout.align, round_up bump layout.align + layout.size)
      else .error .Overflow := by
  unfold alignment_check
  rw [align_offset_eq layout hbump]
  by_cases hfits : round_up bump layout.align + layout.size ≤ len
  · have hnot : ¬ 2 ^ 64 ≤ round_up bump layout.align + layout.size := by
      unfold isize_max at hlen
      omega
    simp only [hnot, hfits, Nat.not_lt.mpr hfits, if_true, if_false]
  · simp [hfits, Nat.lt_of_not_le hfits]

/-- The check of a bump within a block, where chunks have a block's length. -/
theorem check_of_block (hvalid : policy.Valid) (layout : Layout) {len : Nat}
    (hlen : len = policy.block_size) (hbump : bump ≤ policy.block_size) :
    alignment_check len bump layout =
      if round_up bump layout.align + layout.size ≤ policy.block_size then
        .ok (round_up bump layout.align, round_up bump layout.align + layout.size)
      else .error .Overflow := by
  have hblock := hvalid.block_le_max
  rw [hlen]
  exact alignment_check_eq hblock (Nat.le_trans hbump hblock)

/-- What a check that succeeds has computed. -/
theorem alignment_check_ok {len aligned next : Nat} (hlen : len ≤ isize_max)
    (hbump : bump ≤ isize_max) (hcheck : alignment_check len bump layout = .ok (aligned, next)) :
    bump ≤ aligned ∧ layout.align ∣ aligned ∧ next = aligned + layout.size ∧ next ≤ len := by
  rw [alignment_check_eq hlen hbump] at hcheck
  split at hcheck
  · rename_i hfits
    injection hcheck with hpair
    injection hpair with haligned hnext
    subst haligned hnext
    exact ⟨le_round_up layout.align_pos, dvd_round_up, rfl, hfits⟩
  · cases hcheck

end offsets

namespace ArenaShared

variable {Tid : Type} {s : ArenaShared Tid}

theorem length_set_bump (s : ArenaShared Tid) (i bump : Nat) :
    (s.set_bump i bump).chunks.length = s.chunks.length :=
  List.length_modify ..

theorem chunk_set_bump_self {i : Nat} (bump : Nat) (hi : i < s.chunks.length) :
    (s.set_bump i bump).chunk i = { s.chunk i with bump } := by
  simp [chunk, set_bump, List.getD_eq_getElem?_getD, hi]

theorem chunk_set_bump_of_ne {i j : Nat} (bump : Nat) (hne : i ≠ j) :
    (s.set_bump i bump).chunk j = s.chunk j := by
  simp [chunk, set_bump, List.getD_eq_getElem?_getD, hne]

/-- A chunk keeps its address and length when a bump moves. -/
theorem base_set_bump (s : ArenaShared Tid) (i j bump : Nat) :
    ((s.set_bump i bump).chunk j).base = (s.chunk j).base := by
  by_cases hij : i = j
  · subst hij
    by_cases hi : i < s.chunks.length
    · rw [chunk_set_bump_self bump hi]
    · simp [chunk, set_bump, List.getD_eq_getElem?_getD, hi]
  · rw [chunk_set_bump_of_ne bump hij]

/-- A chunk that is pushed leaves the ones before it. -/
theorem chunk_push {t : ArenaShared Tid} {i : Nat} {chunk : Chunk}
    (hchunks : t.chunks = s.chunks ++ [chunk]) (hi : i < s.chunks.length) :
    t.chunk i = s.chunk i := by
  simp [ArenaShared.chunk, hchunks, List.getD_eq_getElem?_getD, List.getElem?_append_left hi]

end ArenaShared

/-- Where an allocation holds the lock of `chunks`. -/
def AllocPc.locks : AllocPc → Bool
  | .current | .reload _ | .recheck _ | .load_allocated | .fetch_add | .push | .publish _
  | .unlock _ => true
  | _ => false

def ArenaPc.locks : ArenaPc → Bool
  | .idle => false
  | .alloc _ _ pc => pc.locks

variable {Tid : Type}

/-- What a step can do. -/
inductive ArenaMove (policy : ArenaPolicy) (t : Tid) (s : ArenaShared Tid) :
    ArenaPc → ArenaShared Tid → ArenaPc → Prop
  | refuse : ArenaMove policy t s .idle s .idle
  | alloc {call : AllocCall} {layout : Layout} :
      ArenaMove policy t s .idle s (.alloc call layout .get_chunk)
  | get_chunk {call : AllocCall} {layout : Layout} :
      ArenaMove policy t s (.alloc call layout .get_chunk) s
        (.alloc call layout (.load_bump s.current_chunk))
  | load_bump {call : AllocCall} {layout : Layout} {chunk : Nat} :
      ArenaMove policy t s (.alloc call layout (.load_bump chunk)) s
        (.alloc call layout (.check chunk (s.chunk chunk).bump))
  | full {call : AllocCall} {layout : Layout} {chunk bump : Nat} :
      ArenaMove policy t s (.alloc call layout (.check chunk bump)) s (.alloc call layout .lock)
  | fits {call : AllocCall} {layout : Layout} {chunk bump aligned next : Nat}
      (hcheck : alignment_check s.current_len bump layout = .ok (aligned, next)) :
      ArenaMove policy t s (.alloc call layout (.check chunk bump)) s
        (.alloc call layout (.cas chunk bump aligned next))
  | exchange {call : AllocCall} {layout : Layout} {chunk bump aligned next : Nat}
      (hbump : (s.chunk chunk).bump = bump) :
      ArenaMove policy t s (.alloc call layout (.cas chunk bump aligned next))
        (s.set_bump chunk next) (.alloc call layout (.count chunk aligned))
  | again {call : AllocCall} {layout : Layout} {chunk bump aligned next : Nat} :
      ArenaMove policy t s (.alloc call layout (.cas chunk bump aligned next)) s
        (.alloc call layout .get_chunk)
  | count {call : AllocCall} {layout : Layout} {chunk aligned : Nat} :
      ArenaMove policy t s (.alloc call layout (.count chunk aligned))
        { s with
          memory_used := s.memory_used + layout.size
          returned := s.returned ++
            [⟨chunk, aligned, (s.chunk chunk).base + aligned, layout⟩] } .idle
  | lock {call : AllocCall} {layout : Layout} (hfree : s.chunks_mu = none) :
      ArenaMove policy t s (.alloc call layout .lock) { s with chunks_mu := some t }
        (.alloc call layout .current)
  | current {call : AllocCall} {layout : Layout} :
      ArenaMove policy t s (.alloc call layout .current) s
        (.alloc call layout (.reload s.current_chunk))
  | reload {call : AllocCall} {layout : Layout} {chunk : Nat} :
      ArenaMove policy t s (.alloc call layout (.reload chunk)) s
        (.alloc call layout (.recheck (s.chunk chunk).bump))
  | room {call : AllocCall} {layout : Layout} {bump : Nat} :
      ArenaMove policy t s (.alloc call layout (.recheck bump)) s
        (.alloc call layout (.unlock none))
  | no_room {call : AllocCall} {layout : Layout} {bump : Nat} :
      ArenaMove policy t s (.alloc call layout (.recheck bump)) s
        (.alloc call layout .load_allocated)
  | arena_full {call : AllocCall} {layout : Layout} :
      ArenaMove policy t s (.alloc call layout .load_allocated) s
        (.alloc call layout (.unlock (some .ArenaFull)))
  | within_cap {call : AllocCall} {layout : Layout}
      (hcap : s.allocated_bytes + policy.block_size ≤ policy.cap) :
      ArenaMove policy t s (.alloc call layout .load_allocated) s
        (.alloc call layout .fetch_add)
  | fetch_add {call : AllocCall} {layout : Layout} :
      ArenaMove policy t s (.alloc call layout .fetch_add)
        { s with allocated_bytes := s.allocated_bytes + policy.block_size }
        (.alloc call layout .push)
  | push {call : AllocCall} {layout : Layout} (base : Nat) :
      ArenaMove policy t s (.alloc call layout .push)
        { s with chunks := s.chunks ++ [⟨base, policy.block_size, 0⟩] }
        (.alloc call layout (.publish s.chunks.length))
  | publish {call : AllocCall} {layout : Layout} {chunk : Nat} :
      ArenaMove policy t s (.alloc call layout (.publish chunk)) { s with current_chunk := chunk }
        (.alloc call layout (.unlock none))
  | unlock {call : AllocCall} {layout : Layout} :
      ArenaMove policy t s (.alloc call layout (.unlock none)) { s with chunks_mu := none }
        (.alloc call layout .get_chunk)
  | fail {call : AllocCall} {layout : Layout} {e : ArenaError} :
      ArenaMove policy t s (.alloc call layout (.unlock (some e))) { s with chunks_mu := none }
        .idle

section steps

variable {policy : ArenaPolicy} {t : Tid} {a : ArenaAct} {s : ArenaShared Tid} {pc : ArenaPc}
  {r : ArenaShared Tid × ArenaPc}

theorem alloc_step_move {call : AllocCall} {layout : Layout} {choice : AllocChoice} {pc : AllocPc}
    {next : ArenaShared Tid × Progress AllocPc AllocResult}
    (hstep : alloc_step policy t call layout choice s pc = some next) :
    ArenaMove policy t s (.alloc call layout pc) next.1
      (next.2.elim (.alloc call layout) fun _ => .idle) := by
  cases pc with
  | get_chunk | load_bump | count | current | reload | fetch_add | push | publish =>
    injection hstep with hnext
    subst hnext
    constructor
  | check chunk bump =>
    simp only [alloc_step] at hstep
    split at hstep
    · injection hstep with hnext
      subst hnext
      exact .full
    · injection hstep with hnext
      subst hnext
      exact .fits ‹_›
  | cas chunk bump aligned next =>
    simp only [alloc_step] at hstep
    split at hstep
    · rename_i hcas
      injection hstep with hnext
      subst hnext
      exact .exchange hcas.1
    · injection hstep with hnext
      subst hnext
      exact .again
  | lock =>
    simp only [alloc_step] at hstep
    split at hstep
    · injection hstep with hnext
      subst hnext
      exact .lock ‹_›
    · cases hstep
  | recheck bump =>
    simp only [alloc_step] at hstep
    split at hstep
    · injection hstep with hnext
      subst hnext
      exact .room
    · injection hstep with hnext
      subst hnext
      exact .no_room
  | load_allocated =>
    simp only [alloc_step] at hstep
    split at hstep
    · injection hstep with hnext
      subst hnext
      exact .arena_full
    · injection hstep with hnext
      subst hnext
      exact .within_cap (Nat.le_of_not_lt ‹_›)
  | unlock result =>
    cases result <;>
    · injection hstep with hnext
      subst hnext
      constructor

theorem arena_step_move (hstep : arena_step policy t a s pc = some r) :
    ArenaMove policy t s pc r.1 r.2 := by
  cases a with
  | alloc call layout =>
    cases pc with
    | idle =>
      injection hstep with hr
      subst hr
      unfold alloc_start
      split
      · exact .refuse
      · exact .alloc
    | alloc => cases hstep
  | step choice =>
    cases pc with
    | idle => cases hstep
    | alloc call layout pc =>
      obtain ⟨next, hnext, rfl⟩ := Option.map_eq_some_iff.mp hstep
      exact alloc_step_move hnext

end steps

end ordinum.arena
