import Ordinum.Arena.Blocks
import Ordinum.Interleaving.Simulation
import Ordinum.Utils.SkipLists.ArenaList
import Ordinum.Utils.SkipLists.ConcurrentInsert

open interleaving interleaving.System wire
open ordinum.arena ordinum.key ordinum.utils

namespace ordinum.mem_skip_list

/-- The height that an insertion has drawn for its node. -/
def InsertPc.drawn : InsertPc → Option Nat
  | .load_max_level _ height | .cas_max_level _ height _ | .alloc _ height => some height
  | _ => none

/-- The bytes that are a thread's own: those of a node that it has not filled yet. -/
def ArenaInsertPc.owned (call : InsertCall) : ArenaInsertPc → Option Extent
  | .init_node _ height node | .copy_entry _ height node =>
    some (Node.extent node height call.key.length call.value.length)
  | _ => none

/-- Where the insertion is in the arena. -/
def ArenaInsertPc.arena_pc : ArenaInsertPc → ArenaPc
  | .alloc_raw _ _ layout pc => .alloc .alloc_raw layout pc
  | _ => .idle

namespace ArenaInsertThread

def owned (l : ArenaInsertThread) : Option Extent := l.running.bind fun r => r.2.owned r.1

def arena_pc (l : ArenaInsertThread) : ArenaPc := l.running.elim .idle fun r => r.2.arena_pc

end ArenaInsertThread

variable {Tid : Type} {cmp : Comparator} {policy : ArenaPolicy} {t : Tid}

/-- Insertions meet the condition, and the allocator places blocks where nothing is. -/
def memory_of (P : InsertCall → Prop) (policy : ArenaPolicy) :
    StepCondition Tid ArenaInsertAct (ArenaList Tid) ArenaInsertThread := fun _ a s l =>
  match a with
  | .start call => P call
  | .step choice => l.arena_pc.pushes = true → FreshBlock policy s.arena choice.base

/-- Runs on keys and values that fit their nodes. -/
abbrev memory_fits (policy : ArenaPolicy) :
    StepCondition Tid ArenaInsertAct (ArenaList Tid) ArenaInsertThread :=
  memory_of InsertCall.Fits policy

instance (P : InsertCall → Prop) [∀ call, Decidable (P call)] (t : Tid) (a : ArenaInsertAct)
    (s : ArenaList Tid) (l : ArenaInsertThread) : Decidable (memory_of P policy t a s l) :=
  match a with
  | .start call => inferInstanceAs (Decidable (P call))
  | .step choice => inferInstanceAs (Decidable (_ = true → FreshBlock policy s.arena choice.base))

section steps

variable {s : ArenaList Tid} {l : ArenaInsertThread} {a : ArenaInsertAct} {call : InsertCall}
  {choice : AllocChoice}

/-- A step starts an insertion or is one of a running one. -/
theorem arena_list_step_cases {r : ArenaList Tid × ArenaInsertThread}
    (hr : arena_list_step cmp policy t a s l = some r) :
    (∃ call, a = .start call ∧ l.running = none ∧
      r = (s, { running := some (call, .list call.start), returned := l.returned })) ∨
    ∃ call pc choice next, a = .step choice ∧ l.running = some (call, pc) ∧
      s.insert_step cmp policy t call choice pc = some next ∧
      r = (next.1, .after l.returned call next.2) := by
  obtain ⟨running, returned⟩ := l
  cases a with
  | start call =>
    cases running with
    | none => exact .inl ⟨call, rfl, rfl, (Option.some.inj hr).symm⟩
    | some running => cases hr
  | step choice =>
    cases running with
    | none => cases hr
    | some running =>
      obtain ⟨next, hnext, rfl⟩ := Option.map_eq_some_iff.mp hr
      exact .inr ⟨running.1, running.2, choice, next, rfl, rfl, hnext, rfl⟩

theorem owned_after (returned : List (InsertCall × Nat)) (call : InsertCall)
    (progress : Progress ArenaInsertPc Inserted) :
    (ArenaInsertThread.after returned call progress).owned =
      progress.elim (fun pc => pc.owned call) fun _ => none := by
  cases progress with
  | next pc => rfl
  | done inserted => cases inserted <;> rfl

theorem arena_pc_after (returned : List (InsertCall × Nat)) (call : InsertCall)
    (progress : Progress ArenaInsertPc Inserted) :
    (ArenaInsertThread.after returned call progress).arena_pc =
      progress.elim ArenaInsertPc.arena_pc fun _ => .idle := by
  cases progress with
  | next pc => rfl
  | done inserted => cases inserted <;> rfl

theorem running_after {returned : List (InsertCall × Nat)} {call call' : InsertCall}
    {progress : Progress ArenaInsertPc Inserted} {pc : ArenaInsertPc}
    (h : (ArenaInsertThread.after returned call progress).running = some (call', pc)) :
    call' = call ∧ progress = .next pc := by
  cases progress with
  | next pc' =>
    obtain ⟨rfl, rfl⟩ := Prod.mk.inj (Option.some.inj h)
    exact ⟨rfl, rfl⟩
  | done inserted => cases inserted <;> cases h

/-- A step that stays out of the arena. -/
structure OutOfArena (s : ArenaList Tid) (pc : InsertPc)
    (next : ArenaList Tid × Progress ArenaInsertPc Inserted) : Prop where
  arena : next.1.arena = s.arena
  nodes : next.1.nodes = s.nodes
  progress : ∀ pc', next.2 = .next pc' → ∃ p, pc' = .list p ∧
    ∀ height, p.drawn = some height → pc.drawn = some height ∨ height ≤ MAX_HEAD_HEIGHT

theorem drawn_link_level (node level : Nat) (ctx : TraversalCtx) :
    (link_level node level ctx).drawn = none := by
  rw [link_level]
  split <;> rfl

theorem drawn_if {c : Prop} [Decidable c] {ctx : Option TraversalCtx} {height max_level : Nat} :
    (if c then InsertPc.cas_max_level ctx height max_level else .alloc ctx height).drawn =
      some height := by
  split <;> rfl

theorem OutOfArena.goes {pc p : InsertPc} {s' : ArenaList Tid} (harena : s'.arena = s.arena)
    (hnodes : s'.nodes = s.nodes)
    (hdrawn : ∀ height, p.drawn = some height → pc.drawn = some height ∨ height ≤ MAX_HEAD_HEIGHT) :
    OutOfArena s pc (s', .next (.list p)) where
  arena := harena
  nodes := hnodes
  progress := by
    rintro _ ⟨⟩
    exact ⟨p, rfl, hdrawn⟩

theorem OutOfArena.ends {pc : InsertPc} {s' : ArenaList Tid} {inserted : Inserted}
    (harena : s'.arena = s.arena) (hnodes : s'.nodes = s.nodes) :
    OutOfArena s pc (s', .done inserted) where
  arena := harena
  nodes := hnodes
  progress := by
    intro pc' h
    cases h

theorem OutOfArena.links {pc : InsertPc} {s' : ArenaList Tid} (harena : s'.arena = s.arena)
    (hnodes : s'.nodes = s.nodes) (node level : Nat) (ctx : TraversalCtx) :
    OutOfArena s pc (s', .next (.list (link_level node level ctx))) := by
  apply OutOfArena.goes harena hnodes
  intro height h
  rw [drawn_link_level] at h
  cases h

theorem list_step_out {pc : InsertPc} {next : ArenaList Tid × Progress ArenaInsertPc Inserted}
    (hpc : ∀ ctx height, pc ≠ .alloc ctx height)
    (hr : s.insert_step cmp policy t call choice (.list pc) = some next) :
    OutOfArena s pc next := by
  cases pc with
  | search pc =>
    obtain rfl := (Option.some.inj hr).symm
    cases s.search_step cmp call.key pc with
    | next pc' =>
      exact .goes rfl rfl fun _ h => by cases h
    | done ctx =>
      cases hfound : ctx.searched_node with
      | some node =>
        simp only [hfound]
        exact .ends rfl rfl
      | none =>
        simp only [hfound]
        exact .goes rfl rfl fun _ h => by cases h
  | fetch_add_entries ctx | load_seed ctx =>
    obtain rfl := (Option.some.inj hr).symm
    exact .goes rfl rfl fun _ h => by cases h
  | store_seed ctx seed =>
    obtain rfl := (Option.some.inj hr).symm
    refine .goes rfl rfl ?_
    rintro _ ⟨⟩
    exact .inr (random_height_bounds _).2
  | load_max_level ctx height =>
    obtain rfl := (Option.some.inj hr).symm
    refine .goes rfl rfl ?_
    intro h hdrawn
    rw [drawn_if] at hdrawn
    exact .inl hdrawn
  | cas_max_level ctx height max_height =>
    simp only [ArenaList.insert_step] at hr
    split at hr
    · obtain rfl := (Option.some.inj hr).symm
      exact .goes rfl rfl fun _ h => .inl h
    · obtain rfl := (Option.some.inj hr).symm
      refine .goes rfl rfl ?_
      intro h hdrawn
      rw [drawn_if] at hdrawn
      exact .inl hdrawn
  | alloc ctx height => exact absurd rfl (hpc ctx height)
  | search_again node level pc =>
    obtain rfl := (Option.some.inj hr).symm
    cases s.search_step cmp (s.search_key node call) pc with
    | next pc' =>
      exact .goes rfl rfl fun _ h => by cases h
    | done ctx =>
      cases hfound : ctx.searched_node with
      | none =>
        simp only [hfound]
        exact .links rfl rfl ..
      | some found =>
        cases level with
        | zero =>
          simp only [hfound]
          exact .ends rfl rfl
        | succ level =>
          simp only [hfound]
          exact .links rfl rfl ..
  | store_next node level ctx =>
    obtain rfl := (Option.some.inj hr).symm
    exact .goes rfl rfl fun _ h => by cases h
  | cas_next node level ctx =>
    simp only [ArenaList.insert_step] at hr
    split at hr
    · obtain rfl := (Option.some.inj hr).symm
      split
      · apply OutOfArena.links <;> rfl
      · apply OutOfArena.ends <;> rfl
    · obtain rfl := (Option.some.inj hr).symm
      exact .goes rfl rfl fun _ h => by cases h

/-- What `alloc_raw` and the node behind it come to. -/
theorem alloc_cases {ctx : Option TraversalCtx} {height : Nat} {pc : ArenaInsertPc}
    (h : ArenaList.alloc policy call ctx height = .next pc) :
    ∃ layout, Node.build_layout (height % 2 ^ 16) (call.key.length % 2 ^ 16)
        (call.value.length % 2 ^ 32) = .ok layout ∧
      alloc_start policy .alloc_raw layout = .next .get_chunk ∧
      pc = .alloc_raw ctx height layout .get_chunk := by
  cases hlayout : Node.build_layout (height % 2 ^ 16) (call.key.length % 2 ^ 16)
      (call.value.length % 2 ^ 32) with
  | error e =>
    simp only [ArenaList.alloc, hlayout] at h
    cases h
  | ok layout =>
    simp only [ArenaList.alloc, hlayout] at h
    refine ⟨layout, rfl, ?_⟩
    unfold alloc_start at h ⊢
    split at h
    · cases h
    · rename_i hfits
      cases h
      exact ⟨if_neg hfits, rfl⟩

theorem alloc_done {ctx : Option TraversalCtx} {height : Nat} {inserted : Inserted}
    (h : ArenaList.alloc policy call ctx height = .done inserted) : inserted = none := by
  unfold ArenaList.alloc at h
  split at h
  · exact (Progress.done.inj h).symm
  · unfold alloc_start at h
    split at h
    · exact (Progress.done.inj h).symm
    · cases h

theorem allocated_done {ctx : Option TraversalCtx} {height : Nat} {layout : Layout}
    {progress : Progress AllocPc AllocResult} {inserted : Inserted}
    (h : ArenaList.allocated ctx height layout progress = .done inserted) : inserted = none := by
  cases progress with
  | next pc => cases h
  | done result =>
    cases result with
    | ptr node => cases h
    | error | panicked => exact (Progress.done.inj h).symm

theorem allocated_cases {ctx : Option TraversalCtx} {height : Nat} {layout : Layout}
    {progress : Progress AllocPc AllocResult} {pc : ArenaInsertPc}
    (h : ArenaList.allocated ctx height layout progress = .next pc) :
    (∃ pc', progress = .next pc' ∧ pc = .alloc_raw ctx height layout pc') ∨
      ∃ node, progress = .done (.ptr node) ∧ pc = .init_node ctx height node := by
  cases progress with
  | next pc' =>
    cases h
    exact .inl ⟨pc', rfl, rfl⟩
  | done result =>
    cases result with
    | ptr node =>
      cases h
      exact .inr ⟨node, rfl, rfl⟩
    | error | panicked => cases h

theorem arena_pc_allocated (ctx : Option TraversalCtx) (height : Nat) (layout : Layout)
    (progress : Progress AllocPc AllocResult) :
    (ArenaList.allocated ctx height layout progress).elim ArenaInsertPc.arena_pc (fun _ => .idle) =
      progress.elim (.alloc .alloc_raw layout) fun _ => .idle := by
  cases progress with
  | next pc => rfl
  | done result => cases result <;> rfl

theorem arena_pc_alloc (policy : ArenaPolicy) (call : InsertCall) (ctx : Option TraversalCtx)
    (height : Nat) :
    (ArenaList.alloc policy call ctx height).elim ArenaInsertPc.arena_pc (fun _ => .idle) = .idle ∨
    ∃ layout,
      (ArenaList.alloc policy call ctx height).elim ArenaInsertPc.arena_pc (fun _ => .idle) =
      (alloc_start policy .alloc_raw layout).elim (.alloc .alloc_raw layout) fun _ => .idle := by
  cases hlayout : Node.build_layout (height % 2 ^ 16) (call.key.length % 2 ^ 16)
      (call.value.length % 2 ^ 32) with
  | error e =>
    simp only [ArenaList.alloc, hlayout]
    exact .inl rfl
  | ok layout =>
    refine .inr ⟨layout, ?_⟩
    simp only [ArenaList.alloc, hlayout]
    cases alloc_start policy .alloc_raw layout <;> rfl

end steps

/-- The arena is a part of the list. -/
theorem arena_list_contains_arena (l₀ : ArenaList Tid) (base : Nat) :
    (arena_list_system cmp policy l₀).Contains (arena_system Tid policy base)
      (memory_fits policy) (fresh_blocks policy) ArenaList.arena ArenaInsertThread.arena_pc := by
  intro t a s l r hG hr
  obtain ⟨call, rfl, hidle, rfl⟩ | ⟨call, pc, choice, next, rfl, hrunning, hnext, rfl⟩ :=
    arena_list_step_cases hr
  · left
    refine ⟨rfl, ?_⟩
    simp only [ArenaInsertThread.arena_pc, hidle, Option.elim_some, Option.elim_none]
    rfl
  have hpc : l.arena_pc = pc.arena_pc := by
    rw [ArenaInsertThread.arena_pc, hrunning, Option.elim_some]
  simp only [arena_pc_after, hpc]
  cases pc with
  | list pc =>
    by_cases halloc : ∃ ctx height, pc = .alloc ctx height
    · obtain ⟨ctx, height, rfl⟩ := halloc
      obtain rfl := (Option.some.inj hnext).symm
      obtain hsame | ⟨layout, hlayout⟩ := arena_pc_alloc policy call ctx height
      · exact .inl ⟨rfl, hsame⟩
      · refine .inr ⟨.alloc .alloc_raw layout, fun hpushes => (by cases hpushes), ?_⟩
        simp only [hlayout]
        rfl
    · have hout := list_step_out (fun ctx height h => halloc ⟨ctx, height, h⟩) hnext
      refine .inl ⟨hout.arena, ?_⟩
      cases hprogress : next.2 with
      | next pc' =>
        obtain ⟨p, rfl, -⟩ := hout.progress pc' hprogress
        rfl
      | done inserted => rfl
  | alloc_raw ctx height layout pc =>
    obtain ⟨r, hstep, rfl⟩ := Option.map_eq_some_iff.mp hnext
    refine .inr ⟨.step choice, fun hpushes => hG (hpc ▸ hpushes), ?_⟩
    simp only [arena_pc_allocated, ArenaInsertPc.arena_pc]
    show (alloc_step policy t .alloc_raw layout choice s.arena pc).map _ = _
    rw [hstep]
    rfl
  | init_node | copy_entry =>
    obtain rfl := (Option.some.inj hnext).symm
    exact .inl ⟨rfl, rfl⟩

end ordinum.mem_skip_list
