import Ordinum.Arena.Reset

open alignment
open interleaving

namespace ordinum.options

open ordinum.arena

def MIB : Nat := 1024 * 1024

inductive WriteBufferSize where
  | Small
  | Medium
  | Default
  | Large
  deriving DecidableEq, Repr

namespace WriteBufferSize

def as_bytes : WriteBufferSize → Nat
  | .Small => 16 * MIB
  | .Medium => 32 * MIB
  | .Default => 64 * MIB
  | .Large => 128 * MIB

def arena_policy : WriteBufferSize → ArenaPolicy
  | .Small => ⟨2 * MIB, 16 * MIB⟩
  | .Medium => ⟨4 * MIB, 32 * MIB⟩
  | .Default => ⟨4 * MIB, 64 * MIB⟩
  | .Large => ⟨8 * MIB, 128 * MIB⟩

/-- Every preset passes the assertions of `Arena::new`, with all of its bytes. -/
theorem arena_policy_valid (size : WriteBufferSize) :
    size.arena_policy.Valid ∧ size.arena_policy.cap = size.as_bytes := by
  cases size <;>
  · refine ⟨⟨?_, ?_, ?_, ?_⟩, rfl⟩ <;> decide

end WriteBufferSize

end ordinum.options

namespace ordinum.arena

/-- The bytes that a layout may take up with the padding in front of it. -/
def Layout.extent (layout : Layout) : Nat := layout.size + (layout.align - 1)

theorem round_up_extent_le (bump : Nat) (layout : Layout) :
    round_up bump layout.align + layout.size ≤ bump + layout.extent := by
  have hround : round_up bump layout.align ≤ bump + (layout.align - 1) :=
    Nat.div_mul_le_self ..
  unfold Layout.extent
  omega

variable {Tid : Type}

/-- Every layout that is asked for takes up at most `waste` bytes. -/
def extents_within (waste : Nat) : System.StepCondition Tid ArenaAct (ArenaShared Tid) ArenaPc :=
  fun _ a _ _ =>
    match a with
    | .alloc _ layout => layout.extent ≤ waste
    | .step _ => True

instance {waste : Nat} {t : Tid} {a : ArenaAct} {s : ArenaShared Tid} {l : ArenaPc} :
    Decidable (extents_within waste t a s l) :=
  match a with
  | .alloc _ layout => inferInstanceAs (Decidable (layout.extent ≤ waste))
  | .step _ => .isTrue trivial

namespace ArenaShared

def blocks_used (s : ArenaShared Tid) (policy : ArenaPolicy) : Nat :=
  s.allocated_bytes / policy.block_size

end ArenaShared

def ArenaPolicy.number_of_blocks (policy : ArenaPolicy) : Nat :=
  policy.cap / policy.block_size

/-- Fewer than `waste` bytes of the chunk are left. -/
def ArenaShared.Spent (policy : ArenaPolicy) (waste : Nat) (s : ArenaShared Tid) (i : Nat) : Prop :=
  policy.block_size < (s.chunk i).bump + waste

/-- The chunk that a thread has pushed and not yet made the current one. -/
def ArenaPc.publishes (i : Nat) : ArenaPc → Prop
  | .alloc _ _ (.publish chunk) => chunk = i
  | _ => False

/-- The error that a call is about to return. -/
def ArenaPc.refusal : ArenaPc → Option ArenaError
  | .alloc _ _ (.unlock result) => result
  | _ => none

/-- What a call returns with a step, if it is its last one. -/
def call_result (policy : ArenaPolicy) (t : Tid) :
    ArenaAct → ArenaShared Tid → ArenaPc → Option AllocResult
  | .alloc call layout, _, .idle => (alloc_start policy call layout).elim (fun _ => none) some
  | .step choice, s, .alloc call layout pc =>
    (alloc_step policy t call layout choice s pc).bind fun r => r.2.elim (fun _ => none) some
  | _, _, _ => none

/-- All chunks that are not the current one are spent. -/
def OthersSpent (policy : ArenaPolicy) (waste : Nat) (s : ArenaShared Tid) (pc : ArenaPc) : Prop :=
  ∀ i, i < s.chunks.length → i ≠ s.current_chunk → ¬ pc.publishes i → s.Spent policy waste i

/-- What a thread knows under the lock on its way to a new chunk. -/
def SpentKnown (policy : ArenaPolicy) (waste : Nat) (s : ArenaShared Tid) : ArenaPc → Prop
  | .idle => True
  | .alloc _ _ pc =>
    match pc with
    | .reload chunk => chunk = s.current_chunk
    | .recheck bump => bump ≤ s.current_bump
    | .load_allocated | .fetch_add | .push | .publish _ => s.Spent policy waste s.current_chunk
    | .unlock (some e) => s.Spent policy waste s.current_chunk ∧
        policy.cap < s.allocated_bytes + policy.block_size ∧ e = .ArenaFull
    | _ => True

/-- The layout of the call takes up at most `waste` bytes. -/
def ArenaPc.within (waste : Nat) : ArenaPc → Prop
  | .idle => True
  | .alloc _ layout _ => layout.extent ≤ waste

structure SpentAt (policy : ArenaPolicy) (waste : Nat) (s : ArenaShared Tid) (pc : ArenaPc) :
    Prop where
  within : pc.within waste
  others : pc.locks = true → OthersSpent policy waste s pc
  known : SpentKnown policy waste s pc

section outline

variable {policy : ArenaPolicy} {waste : Nat} {t u : Tid} {s s' : ArenaShared Tid}
  {pc pc' : ArenaPc}

theorem ArenaShared.Spent.grow {i : Nat} (h : s.Spent policy waste i) (hgrow : ChunksGrow s s')
    (hi : i < s.chunks.length) : s'.Spent policy waste i :=
  Nat.lt_of_lt_of_le h (Nat.add_le_add_right (hgrow.bump i hi) waste)

/-- Where chunks are neither pushed nor made current, those that are spent remain so. -/
theorem OthersSpent.grow {m : ArenaPc} (h : OthersSpent policy waste s m) (hgrow : ChunksGrow s s')
    (hlength : s'.chunks.length = s.chunks.length)
    (hcurrent : s'.current_chunk = s.current_chunk) : OthersSpent policy waste s' m := by
  intro i hi hne hnot
  rw [hlength] at hi
  rw [hcurrent] at hne
  exact (h i hi hne hnot).grow hgrow hi

/-- A thread that is not under the lock. -/
theorem SpentAt.outside (hpc : pc.locks = false) (hwithin : pc.within waste) :
    SpentAt policy waste s pc := by
  refine ⟨hwithin, fun hlocks => ?_, ?_⟩
  · rw [hpc] at hlocks
    cases hlocks
  · cases pc with
    | idle => trivial
    | alloc call layout here =>
      cases here with
      | reload | recheck | load_allocated | fetch_add | push | publish | unlock => cases hpc
      | _ => trivial

/-- A thread under the lock that goes on with the chunks as they are. -/
theorem SpentAt.inside (hl : SpentAt policy waste s pc) (hpc : pc.locks = true)
    (hnot : ∀ i, ¬ pc.publishes i)
    (hwithin : pc'.within waste) (hknown : SpentKnown policy waste s pc') :
    SpentAt policy waste s pc' :=
  ⟨hwithin, fun _ i hi hne _ => hl.others hpc i hi hne (hnot i), hknown⟩

theorem start_within {a : ArenaAct} {call : AllocCall} {layout : Layout} {here : AllocPc}
    (hG : extents_within waste t a s .idle)
    (hstep : arena_step policy t a s .idle = some (s', .alloc call layout here)) :
    layout.extent ≤ waste := by
  cases a with
  | alloc call' layout' =>
    injection hstep with hpair
    injection hpair with hshared hpc
    unfold alloc_start at hpc
    split at hpc
    · cases hpc
    · injection hpc with _ hlayout _
      rw [← hlayout]
      exact hG
  | step => cases hstep

/-- The call goes on to a new chunk because the layout does not fit behind the
bump it has read. -/
theorem recheck_error {a : ArenaAct} {call : AllocCall} {layout : Layout} {bump : Nat}
    (hstep : arena_step policy t a s (.alloc call layout (.recheck bump)) =
      some (s', .alloc call layout .load_allocated)) :
    ∃ e, alignment_check s.current_len bump layout = .error e := by
  cases a with
  | alloc => cases hstep
  | step choice =>
    cases hcheck : alignment_check s.current_len bump layout with
    | error e => exact ⟨e, rfl⟩
    | ok offsets =>
      simp only [arena_step, alloc_step, hcheck] at hstep
      cases hstep

/-- It is refused because a further block would exceed the cap. -/
theorem load_allocated_error {a : ArenaAct} {call : AllocCall} {layout : Layout} {e : ArenaError}
    (hstep : arena_step policy t a s (.alloc call layout .load_allocated) =
      some (s', .alloc call layout (.unlock (some e)))) :
    policy.cap < s.allocated_bytes + policy.block_size := by
  cases a with
  | alloc => cases hstep
  | step choice =>
    by_cases hcap : policy.cap < s.allocated_bytes + policy.block_size
    · exact hcap
    · simp only [arena_step, alloc_step, if_neg hcap] at hstep
      cases hstep

/-- The chunk whose bump leaves no room for the layout is spent. -/
theorem spent_of_error (hvalid : policy.Valid) (hregions : RegionsIntact policy s)
    {layout : Layout} (hextent : layout.extent ≤ waste) {bump : Nat}
    (hbump : bump ≤ s.current_bump)
    (hcheck : ∃ e, alignment_check s.current_len bump layout = .error e) :
    s.Spent policy waste s.current_chunk := by
  obtain ⟨e, hcheck⟩ := hcheck
  have hlen : s.current_len = policy.block_size := hregions.len _ hregions.current
  have hblock : s.current_bump ≤ policy.block_size := hregions.bump _ hregions.current
  have hend := round_up_extent_le bump layout
  rw [check_of_block hvalid layout hlen (Nat.le_trans hbump hblock)] at hcheck
  split at hcheck
  · cases hcheck
  · unfold ArenaShared.current_bump at hbump
    unfold ArenaShared.Spent
    omega

/-- What a step keeps of its own thread. -/
theorem arena_step_spent (hvalid : policy.Valid) {a : ArenaAct} {r : ArenaShared Tid × ArenaPc}
    (hregions : RegionsIntact policy s) (hregion : RegionKnown policy s pc)
    (hbudget : BudgetAt policy t s pc)
    (hs : s.chunks_mu = none → OthersSpent policy waste s .idle)
    (hl : SpentAt policy waste s pc) (hG : extents_within waste t a s pc)
    (hstep : arena_step policy t a s pc = some r) :
    (r.1.chunks_mu = none → OthersSpent policy waste r.1 .idle) ∧ SpentAt policy waste r.1 r.2 := by
  obtain ⟨s', pc'⟩ := r
  have hmove : ArenaMove policy t s pc s' pc' := arena_step_move hstep
  have hgrow := hmove.grow hregion
  have hheld : pc.locks = true → s.chunks_mu ≠ none := by
    intro hlocks hfree
    rw [hbudget.locked.mp hlocks] at hfree
    cases hfree
  cases hmove with
  | refuse => exact ⟨hs, hl⟩
  | alloc => exact ⟨hs, .outside rfl (start_within hG hstep)⟩
  | get_chunk | load_bump | full | fits | again => exact ⟨hs, .outside rfl hl.within⟩
  | exchange =>
    exact ⟨fun hfree => (hs hfree).grow hgrow (s.length_set_bump ..) rfl,
      .outside rfl hl.within⟩
  | count => exact ⟨hs, .outside rfl trivial⟩
  | lock hfree =>
    refine ⟨fun h => ?_, ⟨hl.within, fun _ i hi hne _ => hs hfree i hi hne id, trivial⟩⟩
    cases h
  | current => exact ⟨hs, hl.inside rfl (fun _ => id) hl.within rfl⟩
  | reload =>
    obtain rfl : _ = s.current_chunk := hl.known
    exact ⟨hs, hl.inside rfl (fun _ => id) hl.within (Nat.le_refl _)⟩
  | room => exact ⟨hs, hl.inside rfl (fun _ => id) hl.within trivial⟩
  | no_room =>
    have hspent := spent_of_error hvalid hregions hl.within hl.known (recheck_error hstep)
    exact ⟨hs, hl.inside rfl (fun _ => id) hl.within hspent⟩
  | arena_full =>
    have hcap := load_allocated_error hstep
    exact ⟨hs, hl.inside rfl (fun _ => id) hl.within ⟨hl.known, hcap, rfl⟩⟩
  | within_cap => exact ⟨hs, hl.inside rfl (fun _ => id) hl.within hl.known⟩
  | fetch_add =>
    exact ⟨fun hfree => absurd hfree (hheld rfl), ⟨hl.within, fun _ => hl.others rfl, hl.known⟩⟩
  | push base =>
    refine ⟨fun hfree => absurd hfree (hheld rfl), ⟨hl.within, ?_, ?_⟩⟩
    · intro _ i hi hne hnot
      rw [List.length_append, List.length_singleton] at hi
      have hold : i < s.chunks.length :=
        Nat.lt_of_le_of_ne (Nat.lt_succ_iff.mp hi) fun h => hnot h.symm
      exact (hl.others rfl i hold hne id).grow hgrow hold
    · exact ArenaShared.Spent.grow hl.known hgrow hregions.current
  | publish =>
    refine ⟨fun hfree => absurd hfree (hheld rfl), ⟨hl.within, ?_, trivial⟩⟩
    intro _ i hi hne _
    by_cases hcurrent : i = s.current_chunk
    · rw [hcurrent]
      exact hl.known
    · exact hl.others rfl i hi hcurrent fun h => hne h.symm
  | unlock =>
    exact ⟨fun _ i hi hne _ => hl.others rfl i hi hne id, .outside rfl hl.within⟩
  | fail =>
    exact ⟨fun _ i hi hne _ => hl.others rfl i hi hne id, .outside rfl trivial⟩

/-- A step of another thread leaves what a thread knows under the lock. -/
theorem SpentAt.frame {m : ArenaPc} (hne : t ≠ u) (hmove : ArenaMove policy t s pc s' pc')
    (hregions : RegionsIntact policy s) (hregion : RegionKnown policy s pc)
    (hown : BudgetAt policy t s pc) (hother : BudgetAt policy u s m)
    (hm : SpentAt policy waste s m) : SpentAt policy waste s' m := by
  have hgrow := hmove.grow hregion
  cases hlocks : m.locks with
  | false => exact .outside hlocks hm.within
  | true =>
    have hmu := hother.locked.mp hlocks
    have hout : pc.locks = false := by
      cases hpc : pc.locks with
      | false => rfl
      | true =>
        have hmu' := hown.locked.mp hpc
        rw [hmu] at hmu'
        exact absurd (Option.some.inj hmu').symm hne
    have hsame : s'.current_chunk = s.current_chunk ∧ s'.chunks.length = s.chunks.length ∧
        s'.allocated_bytes = s.allocated_bytes := by
      cases hmove with
      | exchange => exact ⟨rfl, s.length_set_bump .., rfl⟩
      | fetch_add | push | publish => cases hout
      | _ => exact ⟨rfl, rfl, rfl⟩
    obtain ⟨hcurrent, hlength, hbytes⟩ := hsame
    have hspent : s.Spent policy waste s.current_chunk →
        s'.Spent policy waste s'.current_chunk := by
      intro hspent
      rw [hcurrent]
      exact hspent.grow hgrow hregions.current
    have hbump : s.current_bump ≤ s'.current_bump := by
      unfold ArenaShared.current_bump
      rw [hcurrent]
      exact hgrow.bump _ hregions.current
    refine ⟨hm.within, fun _ => (hm.others hlocks).grow hgrow hlength hcurrent, ?_⟩
    have hknown := hm.known
    cases m with
    | idle => trivial
    | alloc call layout here =>
      cases here with
      | reload chunk => exact Eq.trans hknown hcurrent.symm
      | recheck bump => exact Nat.le_trans hknown hbump
      | load_allocated | fetch_add | push | publish => exact hspent hknown
      | unlock result =>
        cases result with
        | none => trivial
        | some e =>
          obtain ⟨hfull, hcap, he⟩ := hknown
          refine ⟨hspent hfull, ?_, he⟩
          rw [hbytes]
          exact hcap
      | _ => trivial

end outline

def spent_outline (Tid : Type) (policy : ArenaPolicy) (waste : Nat) :
    System.Outline Tid (ArenaShared Tid) ArenaPc where
  shared := fun s => s.chunks_mu = none → OthersSpent policy waste s .idle
  thread := fun _ => SpentAt policy waste
  apart := fun _ _ => True

variable {policy : ArenaPolicy} {base waste : Nat}

theorem spent_outline_valid (hvalid : policy.Valid) :
    ((regions_outline Tid policy).and (budget_outline Tid policy)).ValidOver
      (spent_outline Tid policy waste) (arena_system Tid policy base)
      (extents_within waste) where
  init_shared := fun _ _ hi hne _ => absurd (Nat.lt_one_iff.mp hi) hne
  init_thread := fun _ => .outside rfl trivial
  init_apart := trivial
  step_own := fun _ _ _ _ _ hshared hthread hs hl hG hstep =>
    arena_step_spent hvalid hshared.1 hthread.1 hthread.2 hs hl hG hstep
  step_other := fun _ _ _ _ _ _ _ hne hbase hpair _ hstep =>
    ⟨.frame hne (arena_step_move hstep) hbase.shared.1 hbase.own.1 hbase.own.2 hbase.other.2
      hpair.other, trivial, trivial⟩

theorem ArenaPc.refusal_cases {pc : ArenaPc} {e : ArenaError} (h : pc.refusal = some e) :
    ∃ call layout, pc = .alloc call layout (.unlock (some e)) := by
  unfold ArenaPc.refusal at h
  split at h
  · subst h
    exact ⟨_, _, rfl⟩
  · cases h

/-- A layout that a block may hold is not refused at the start. -/
theorem alloc_start_within (call : AllocCall) {layout : Layout}
    (hle : layout.extent ≤ policy.block_size) :
    alloc_start policy call layout = .next .get_chunk := by
  apply if_neg
  unfold Layout.extent at hle
  omega

/-- A call on its way ends with a pointer, or is refused with the error that it has under the
lock. -/
theorem alloc_step_result {t : Tid} {call : AllocCall} {layout : Layout} {choice : AllocChoice}
    {s s' : ArenaShared Tid} {pc : AllocPc} {result : AllocResult}
    (hstep : alloc_step policy t call layout choice s pc = some (s', .done result))
    (hresult : ∀ address, result ≠ .ptr address) :
    ∃ e, pc = .unlock (some e) ∧ result = call.refuse e := by
  cases pc with
  | count chunk aligned =>
    simp only [alloc_step, Option.some.injEq, Prod.mk.injEq, Progress.done.injEq] at hstep
    exact absurd hstep.2.symm (hresult _)
  | unlock error =>
    cases error with
    | none => simp [alloc_step] at hstep
    | some e =>
      simp only [alloc_step, Option.some.injEq, Prod.mk.injEq, Progress.done.injEq] at hstep
      exact ⟨e, rfl, hstep.2.symm⟩
  | check | cas | lock | recheck | load_allocated =>
    simp only [alloc_step] at hstep
    split at hstep <;> simp at hstep
  | _ => simp [alloc_step] at hstep

/-- What a call that asks for a layout that a block may hold returns, if not a pointer, is the
refusal under the lock. -/
theorem refused_of_result {t : Tid} {a : ArenaAct} {s : ArenaShared Tid} {pc : ArenaPc}
    {result : AllocResult} (hwaste : waste ≤ policy.block_size)
    (hG : extents_within waste t a s pc) (hreturns : call_result policy t a s pc = some result)
    (hresult : ∀ address, result ≠ .ptr address) :
    ∃ call layout e, pc = .alloc call layout (.unlock (some e)) ∧ result = call.refuse e := by
  cases a with
  | alloc call layout =>
    cases pc with
    | idle =>
      have hextent : layout.extent ≤ waste := hG
      rw [call_result, alloc_start_within call (hextent.trans hwaste)] at hreturns
      cases hreturns
    | alloc => cases hreturns
  | step choice =>
    cases pc with
    | idle => cases hreturns
    | alloc call layout pc =>
      obtain ⟨⟨s', progress⟩, hstep, hdone⟩ := Option.bind_eq_some_iff.mp hreturns
      cases progress with
      | next => cases hdone
      | done result' =>
        obtain rfl := Option.some.inj hdone
        obtain ⟨e, rfl, rfl⟩ := alloc_step_result hstep hresult
        exact ⟨call, layout, e, rfl, rfl⟩

/-- Chunks that are spent leave little of their bytes. -/
theorem bytes_le_of_spent {block : Nat} : ∀ {chunks : List Chunk},
    (∀ chunk ∈ chunks, block ≤ chunk.bump + waste) →
    block * chunks.length ≤ (chunks.map Chunk.bump).sum + chunks.length * waste := by
  intro chunks hspent
  induction chunks with
  | nil => exact Nat.zero_le _
  | cons chunk rest ih =>
    have hhead := hspent chunk List.mem_cons_self
    have hrest := ih fun other hother => hspent other (List.mem_cons_of_mem chunk hother)
    rw [List.length_cons, List.map_cons, List.sum_cons, Nat.mul_succ, Nat.succ_mul]
    omega

/-- Blocks that fill the cap up to less than a block are all of them. -/
theorem blocks_of_full (hvalid : policy.Valid) {blocks : Nat}
    (hwithin : policy.block_size * blocks ≤ policy.cap)
    (hfull : policy.cap < policy.block_size * blocks + policy.block_size) :
    blocks = policy.number_of_blocks ∧ policy.block_size * blocks = policy.cap := by
  have hcap : policy.block_size * policy.number_of_blocks = policy.cap :=
    Nat.mul_div_cancel' (Nat.dvd_of_mod_eq_zero hvalid.multiple)
  rw [← hcap] at hwithin hfull ⊢
  rw [← Nat.mul_succ] at hfull
  have hle := Nat.le_of_mul_le_mul_left hwithin hvalid.block_pos
  have hlt := Nat.lt_of_mul_lt_mul_left hfull
  obtain rfl : blocks = policy.number_of_blocks := by omega
  exact ⟨rfl, rfl⟩

variable [DecidableEq Tid]

/-- In every run that asks for layouts of at most `waste` bytes, padding included, that a block
holds, a chunk is left for a new one only when fewer than `waste` of its bytes are free; a
call that is about to be refused finds that all blocks of the policy are in use and
less than that is free in each of them; and a call that returns no pointer is refused so. -/
theorem refuses_only_when_full (hvalid : policy.Valid) (hwaste : waste ≤ policy.block_size)
    {c : ArenaConfig Tid}
    (hc : (arena_system Tid policy base).ReachableUnder (extents_within waste) c) :
    (∀ i, i < c.shared.chunks.length → i ≠ c.shared.current_chunk →
      (∀ t, ¬ (c.threads t).publishes i) → c.shared.Spent policy waste i) ∧
    (∀ t e, (c.threads t).refusal = some e →
      e = .ArenaFull ∧ c.shared.blocks_used policy = policy.number_of_blocks ∧
      c.shared.chunks.length = policy.number_of_blocks ∧
      (∀ i, i < c.shared.chunks.length → c.shared.Spent policy waste i) ∧
      policy.cap ≤ (c.shared.chunks.map Chunk.bump).sum + policy.number_of_blocks * waste) ∧
    ∀ t a result, extents_within waste t a c.shared (c.threads t) →
      call_result policy t a c.shared (c.threads t) = some result →
      (∀ address, result ≠ .ptr address) →
      (c.threads t).refusal = some .ArenaFull ∧
        ∃ call : AllocCall, result = call.refuse .ArenaFull := by
  have hregions := regions_outline_holds hvalid hc.reachable
  have hbudget := budget_outline_holds hvalid hc.reachable
  have hspent := (spent_outline_valid hvalid).holds
    (fun c hc => (regions_outline_holds hvalid hc.reachable).and
      (budget_outline_holds hvalid hc.reachable)) hc
  refine ⟨fun i hi hne hnot => ?_, fun t e hrefusal => ?_, fun t a result hG hreturns hresult => ?_⟩
  · obtain hfree | ⟨u, hu⟩ := Option.eq_none_or_eq_some c.shared.chunks_mu
    · exact hspent.shared hfree i hi hne id
    · have hlocks := (hbudget.thread u).locked.mpr hu
      exact (hspent.thread u).others hlocks i hi hne (hnot u)
  · obtain ⟨call, layout, hpc⟩ := ArenaPc.refusal_cases hrefusal
    have hat := hspent.thread t
    have hcounted := (hbudget.thread t).counted
    have hwithin := hbudget.shared.within_cap
    rw [hpc] at hat hcounted
    obtain ⟨hcurrent, hcap, he⟩ := hat.known
    have hbytes : c.shared.allocated_bytes = policy.block_size * c.shared.chunks.length :=
      hcounted rfl
    rw [hbytes] at hcap hwithin
    obtain ⟨hblocks, hall⟩ := blocks_of_full hvalid hwithin hcap
    have hevery : ∀ i, i < c.shared.chunks.length → c.shared.Spent policy waste i := by
      intro i hi
      by_cases hi' : i = c.shared.current_chunk
      · rw [hi']
        exact hcurrent
      · exact hat.others rfl i hi hi' id
    have hused : c.shared.blocks_used policy = policy.number_of_blocks := by
      rw [ArenaShared.blocks_used, hbytes, Nat.mul_div_cancel_left _ hvalid.block_pos, hblocks]
    refine ⟨he, hused, hblocks, hevery, ?_⟩
    rw [← hall, ← hblocks]
    refine bytes_le_of_spent fun chunk hchunk => ?_
    obtain ⟨i, hi, rfl⟩ := List.mem_iff_getElem.mp hchunk
    have hi' := hevery i hi
    unfold ArenaShared.Spent at hi'
    rw [show c.shared.chunk i = c.shared.chunks[i] from List.getD_eq_getElem _ _ hi] at hi'
    exact Nat.le_of_lt hi'
  · obtain ⟨call, layout, e, hpc, rfl⟩ := refused_of_result hwaste hG hreturns hresult
    have hat := hspent.thread t
    rw [hpc] at hat ⊢
    obtain ⟨-, -, rfl⟩ := hat.known
    exact ⟨rfl, call, rfl⟩

/-- A layout of one and a half mebibytes, of which the small preset takes one in each
of its eight blocks. -/
def large_value : Layout := ⟨3 * 2 ^ 19, 4, four_power_of_two, by decide⟩

/-- Eight allocations, and the ninth up to where it is refused. -/
def fill_small_buffer : List (Unit × ArenaAct) :=
  alloc_once large_value ++
    (List.replicate 7 (((), .alloc .alloc_raw large_value) ::
      List.replicate 17 ((), .step {}))).flatten ++
    ((), .alloc .alloc_raw large_value) :: List.replicate 8 ((), .step {})

theorem refuses_only_when_full_small : ∃ c : ArenaConfig Unit,
    (arena_system Unit options.WriteBufferSize.Small.arena_policy 8).ReachableUnder
      (extents_within (3 * 2 ^ 19 + 3)) c ∧
    call_result options.WriteBufferSize.Small.arena_policy () (.step {}) c.shared (c.threads ()) =
      some .panicked ∧ (c.threads ()).refusal = some .ArenaFull ∧
    c.shared.chunks.length = options.WriteBufferSize.Small.arena_policy.number_of_blocks := by
  obtain ⟨c, hc, hseen⟩ := System.reachable_showing
    (arena_system Unit options.WriteBufferSize.Small.arena_policy 8)
    (extents_within (3 * 2 ^ 19 + 3)) fill_small_buffer (fun c => call_result
      options.WriteBufferSize.Small.arena_policy () (.step {}) c.shared (c.threads ()))
    (some .panicked) (by decide +kernel)
  have hvalid := (options.WriteBufferSize.arena_policy_valid .Small).1
  obtain ⟨-, hfull, hreturns⟩ := refuses_only_when_full hvalid (by decide) hc
  obtain ⟨hrefusal, -⟩ := hreturns () (.step {}) .panicked trivial hseen fun _ h => by cases h
  exact ⟨c, hc, hseen, hrefusal, (hfull () _ hrefusal).2.2.1⟩

end ordinum.arena
