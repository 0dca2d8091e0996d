import Ordinum.Utils.SkipLists.ArenaSteps

open alignment interleaving interleaving.System wire
open ordinum.arena ordinum.key ordinum.utils

namespace ordinum.mem_skip_list

variable {Tid : Type} {cmp : Comparator} {policy : ArenaPolicy} {t : Tid}

section extents

/-- The bytes were handed out by the arena, in one piece. -/
def Returned (s : ArenaShared Tid) (e : Extent) : Prop :=
  ∃ a ∈ s.returned, (⟨a.address, a.layout.size⟩ : Extent) = e

variable {s s' : ArenaShared Tid} {pc pc' : ArenaPc} {e f : Extent}

theorem Returned.place (hregions : RegionsIntact policy s) (hblocks : BlocksApart policy s)
    (he : Returned s e) : 0 < e.start ∧ e.start + e.size ≤ 2 ^ 64 := by
  obtain ⟨a, ha, rfl⟩ := he
  have hplace := (hregions.inside a ha).place hregions hblocks
  rw [(hregions.address a ha).1]
  exact hplace

theorem Returned.move (hmove : ArenaMove policy t s pc s' pc') (he : Returned s e) :
    Returned s' e := by
  obtain ⟨a, ha, he⟩ := he
  refine ⟨a, ?_, he⟩
  cases hmove with
  | count => exact List.mem_append_left _ ha
  | _ => exact ha

/-- What is counted for a thread is apart from all that was handed out before. -/
theorem Returned.apart_counted (hregions : RegionsIntact policy s) (hblocks : BlocksApart policy s)
    {call : AllocCall} {layout : Layout} {chunk aligned : Nat}
    (hknown : RegionKnown policy s (.alloc call layout (.count chunk aligned)))
    (he : Returned s e) :
    Extent.Apart ⟨(s.chunk chunk).base + aligned, layout.size⟩ e := by
  obtain ⟨a, ha, rfl⟩ := he
  obtain ⟨hreserved, -, hapart⟩ := hknown
  have hbytes := (hapart a ha).bytes hregions hblocks (hregions.inside a ha) hreserved
  rw [(hregions.address a ha).1]
  exact hbytes.symm

/-- Only the last step of an allocation returns a pointer. -/
theorem alloc_step_ptr {call : AllocCall} {layout : Layout} {choice : AllocChoice} {pc : AllocPc}
    {node : Nat}
    (hstep : alloc_step policy t call layout choice s pc = some (s', .done (.ptr node))) :
    ∃ chunk aligned, pc = .count chunk aligned ∧ node = (s.chunk chunk).base + aligned ∧
      s'.returned = s.returned ++ [⟨chunk, aligned, node, layout⟩] := by
  cases pc with
  | count chunk aligned =>
    obtain ⟨rfl, hdone⟩ := Prod.mk.inj (Option.some.inj hstep)
    cases hdone
    exact ⟨chunk, aligned, rfl, rfl, rfl⟩
  | check | cas | lock | recheck | load_allocated =>
    simp only [alloc_step] at hstep
    split at hstep <;> simp at hstep
  | unlock result =>
    cases result with
    | none => simp [alloc_step] at hstep
    | some e => cases call <;> simp [alloc_step, AllocCall.refuse] at hstep
  | _ => simp [alloc_step] at hstep

end extents

section outline

/-- The size of a node's layout is that of its bytes. -/
theorem layout_size {height : Nat} {call : InsertCall} {layout : Layout} (hfits : call.Fits)
    (hheight : height ≤ MAX_HEAD_HEIGHT)
    (hlayout : Node.build_layout (height % 2 ^ 16) (call.key.length % 2 ^ 16)
      (call.value.length % 2 ^ 32) = .ok layout) (node : Nat) :
    layout.size = (Node.extent node height call.key.length call.value.length).size := by
  obtain ⟨l₁, l₂, l₃, o₁, o₂, o₃, hbuilt, hregions⟩ := Node.build_layout_ok
    (BitVec.ofNat 16 height) (BitVec.ofNat 16 call.key.length) (BitVec.ofNat 32 call.value.length)
  have hkey : call.key.length % 2 ^ 16 = call.key.length := Nat.mod_eq_of_lt hfits.key
  have hvalue : call.value.length % 2 ^ 32 = call.value.length := Nat.mod_eq_of_lt hfits.value
  have hheight' : height % 2 ^ 16 = height := by
    unfold MAX_HEAD_HEIGHT at hheight
    omega
  have hsame : l₃ = layout := by
    have hok := hbuilt.built
    simp only [BitVec.toNat_ofNat] at hok
    exact Except.ok.inj (hok.symm.trans hlayout)
  obtain ⟨hheader, htower, hkey_end, hvalue_end⟩ := hregions
  simp only [BitVec.toNat_ofNat, hkey, hvalue, hheight'] at htower hkey_end hvalue_end
  rw [← hsame]
  show l₃.size = Node.layout.size + height * layout_ptr.size + call.key.length + call.value.length
  omega

/-- What an insertion knows of the node it makes. -/
def ArenaInsertPc.Sized (call : InsertCall) : ArenaInsertPc → Prop
  | .list pc => ∀ height, pc.drawn = some height → height ≤ MAX_HEAD_HEIGHT
  | .alloc_raw _ height layout _ => height ≤ MAX_HEAD_HEIGHT ∧
    ∀ node, layout.size = (Node.extent node height call.key.length call.value.length).size
  | .init_node _ height _ | .copy_entry _ height _ => height ≤ MAX_HEAD_HEIGHT

/-- The nodes of the list have their bytes from the arena, each its own. -/
structure NodesApart (s : ArenaList Tid) : Prop where
  returned : ∀ e ∈ s.nodes, Returned s.arena e
  apart : s.nodes.Pairwise Extent.Apart

structure ThreadApart (s : ArenaList Tid) (l : ArenaInsertThread) : Prop where
  running : ∀ call pc, l.running = some (call, pc) → call.Fits ∧ pc.Sized call
  owned : ∀ e, l.owned = some e → Returned s.arena e ∧ ∀ f ∈ s.nodes, e.Apart f

/-- What a step does to the bytes of nodes. -/
structure NodeStep (s : ArenaList Tid) (l : ArenaInsertThread)
    (r : ArenaList Tid × ArenaInsertThread) : Prop where
  returned : ∀ e, Returned s.arena e → Returned r.1.arena e
  nodes : r.1.nodes = s.nodes ∨ ∃ e, l.owned = some e ∧ r.1.nodes = s.nodes ++ [e]
  owned : ∀ e, r.2.owned = some e → r.1.nodes = s.nodes ∧ (l.owned = some e ∨
    Returned r.1.arena e ∧ ∀ f, Returned s.arena f → e.Apart f)
  running : ∀ call pc, r.2.running = some (call, pc) → call.Fits ∧ pc.Sized call

variable {s : ArenaList Tid} {l m : ArenaInsertThread} {r : ArenaList Tid × ArenaInsertThread}
  {a : ArenaInsertAct}

theorem NodeStep.out_of_arena {call : InsertCall} {pc : InsertPc}
    {next : ArenaList Tid × Progress ArenaInsertPc Inserted} (hfits : call.Fits)
    (hsized : (ArenaInsertPc.list pc).Sized call) (hout : OutOfArena s pc next) :
    NodeStep s l (next.1, .after l.returned call next.2) where
  returned := by
    intro e he
    rw [hout.arena]
    exact he
  nodes := .inl hout.nodes
  owned := by
    intro e he
    rw [owned_after] at he
    cases hprogress : next.2 with
    | next pc' =>
      obtain ⟨p, rfl, -⟩ := hout.progress pc' hprogress
      rw [hprogress] at he
      cases he
    | done inserted =>
      rw [hprogress] at he
      cases he
  running := by
    intro call' pc' hrunning
    obtain ⟨rfl, hprogress⟩ := running_after hrunning
    obtain ⟨p, rfl, hdrawn⟩ := hout.progress pc' hprogress
    refine ⟨hfits, ?_⟩
    intro height hheight
    obtain hold | hnew := hdrawn height hheight
    · exact hsized height hold
    · exact hnew

/-- The node that is to be made gets its layout. -/
theorem NodeStep.alloc {call : InsertCall} {ctx : Option TraversalCtx} {height : Nat}
    (hfits : call.Fits) (hheight : height ≤ MAX_HEAD_HEIGHT) :
    NodeStep s l (s, .after l.returned call (ArenaList.alloc policy call ctx height)) where
  returned := fun _ he => he
  nodes := .inl rfl
  owned := by
    intro e he
    rw [owned_after] at he
    cases hprogress : ArenaList.alloc policy call ctx height with
    | next pc' =>
      obtain ⟨layout, -, -, rfl⟩ := alloc_cases hprogress
      simp only [hprogress] at he
      cases he
    | done inserted =>
      simp only [hprogress] at he
      cases he
  running := by
    intro call' pc' hrunning
    obtain ⟨rfl, hprogress⟩ := running_after hrunning
    obtain ⟨layout, hlayout, -, rfl⟩ := alloc_cases hprogress
    exact ⟨hfits, hheight, layout_size hfits hheight hlayout⟩

/-- The bytes that `alloc_raw` returns are apart from all that were handed out. -/
theorem NodeStep.alloc_raw {call : InsertCall} {ctx : Option TraversalCtx} {height : Nat}
    {layout : Layout} {choice : AllocChoice} {pc : AllocPc} {arena : ArenaShared Tid}
    {progress : Progress AllocPc AllocResult} (hregions : RegionsIntact policy s.arena)
    (hblocks : BlocksApart policy s.arena)
    (hknown : RegionKnown policy s.arena (.alloc .alloc_raw layout pc)) (hfits : call.Fits)
    (hsized : (ArenaInsertPc.alloc_raw ctx height layout pc).Sized call)
    (hstep : alloc_step policy t .alloc_raw layout choice s.arena pc = some (arena, progress)) :
    NodeStep s l ({ s with arena },
      .after l.returned call (ArenaList.allocated ctx height layout progress)) where
  returned := fun _ he => he.move (alloc_step_move hstep)
  nodes := .inl rfl
  owned := by
    intro e he
    rw [owned_after] at he
    refine ⟨rfl, .inr ?_⟩
    cases hprogress : ArenaList.allocated ctx height layout progress with
    | done inserted =>
      simp only [hprogress] at he
      cases he
    | next pc' =>
      simp only [hprogress, Progress.elim_next] at he
      obtain ⟨pc'', rfl, rfl⟩ | ⟨node, rfl, rfl⟩ := allocated_cases hprogress
      · cases he
      · obtain rfl := (Option.some.inj he).symm
        -- only the last step of `alloc_raw` returns a pointer
        obtain ⟨chunk, aligned, rfl, rfl, harena⟩ := alloc_step_ptr hstep
        have hextent : Node.extent ((s.arena.chunk chunk).base + aligned) height call.key.length
            call.value.length = ⟨(s.arena.chunk chunk).base + aligned, layout.size⟩ := by
          rw [hsized.2 ((s.arena.chunk chunk).base + aligned)]
          rfl
        rw [hextent]
        refine ⟨⟨_, harena ▸ List.mem_append_right _ (List.mem_singleton_self _), rfl⟩, ?_⟩
        intro f hf
        exact hf.apart_counted hregions hblocks hknown
  running := by
    intro call' pc' hrunning
    obtain ⟨rfl, hprogress⟩ := running_after hrunning
    obtain ⟨pc'', -, rfl⟩ | ⟨node, -, rfl⟩ := allocated_cases hprogress
    · exact ⟨hfits, hsized⟩
    · exact ⟨hfits, hsized.1⟩

theorem arena_list_node_step (hregions : RegionsIntact policy s.arena)
    (hblocks : BlocksApart policy s.arena) (hknown : RegionKnown policy s.arena l.arena_pc)
    (hl : ThreadApart s l) (hG : memory_fits policy t a s l)
    (hr : arena_list_step cmp policy t a s l = some r) : NodeStep s l r := by
  obtain ⟨call, rfl, hidle, rfl⟩ | ⟨call, pc, choice, next, rfl, hrunning, hnext, rfl⟩ :=
    arena_list_step_cases hr
  · refine ⟨fun _ he => he, .inl rfl, fun _ he => (by cases he), ?_⟩
    rintro _ _ ⟨⟩
    refine ⟨hG, ?_⟩
    intro height hheight
    cases call <;> cases hheight
  obtain ⟨hfits, hsized⟩ := hl.running call pc hrunning
  have harena_pc : l.arena_pc = pc.arena_pc := by
    rw [ArenaInsertThread.arena_pc, hrunning, Option.elim_some]
  have howned : l.owned = pc.owned call := by
    rw [ArenaInsertThread.owned, hrunning, Option.bind_some]
  cases pc with
  | list pc =>
    by_cases halloc : ∃ ctx height, pc = .alloc ctx height
    · obtain ⟨ctx, height, rfl⟩ := halloc
      obtain rfl := (Option.some.inj hnext).symm
      exact .alloc hfits (hsized height rfl)
    · exact .out_of_arena hfits hsized
        (list_step_out (fun ctx height h => halloc ⟨ctx, height, h⟩) hnext)
  | alloc_raw ctx height layout pc =>
    obtain ⟨⟨arena, progress⟩, hstep, rfl⟩ := Option.map_eq_some_iff.mp hnext
    rw [harena_pc] at hknown
    exact .alloc_raw hregions hblocks hknown hfits hsized hstep
  | init_node ctx height node =>
    obtain rfl := (Option.some.inj hnext).symm
    refine ⟨fun _ he => he, .inl rfl, ?_, ?_⟩
    · intro e he
      exact ⟨rfl, .inl (howned.trans he)⟩
    · rintro _ _ ⟨⟩
      exact ⟨hfits, hsized⟩
  | copy_entry ctx height node =>
    obtain rfl := (Option.some.inj hnext).symm
    refine ⟨fun _ he => he, .inr ⟨_, howned, rfl⟩, fun _ he => (by cases he), ?_⟩
    rintro _ _ ⟨⟩
    refine ⟨hfits, ?_⟩
    intro h hdrawn
    cases ctx with
    | none => cases hdrawn
    | some ctx =>
      rw [ArenaList.with_node, drawn_link_level] at hdrawn
      cases hdrawn

/-- Nodes are filled once, each by the thread that it was handed out to. -/
def nodes_outline (Tid : Type) : System.Outline Tid (ArenaList Tid) ArenaInsertThread where
  shared := NodesApart
  thread := fun _ => ThreadApart
  apart := fun l m => ∀ e f, l.owned = some e → m.owned = some f → e.Apart f

theorem NodeStep.nodesApart (h : NodeStep s l r) (hs : NodesApart s) (hl : ThreadApart s l) :
    NodesApart r.1 := by
  obtain hsame | ⟨e, he, hnodes⟩ := h.nodes
  · refine ⟨fun f hf => h.returned f (hs.returned f (hsame ▸ hf)), ?_⟩
    rw [hsame]
    exact hs.apart
  · obtain ⟨hreturned, hapart⟩ := hl.owned e he
    refine ⟨?_, ?_⟩
    · intro f hf
      rw [hnodes, List.mem_append, List.mem_singleton] at hf
      obtain hf | rfl := hf
      · exact h.returned f (hs.returned f hf)
      · exact h.returned f hreturned
    · rw [hnodes]
      refine List.pairwise_append.mpr ⟨hs.apart, List.pairwise_singleton .., ?_⟩
      intro f hf g hg
      rw [List.mem_singleton.mp hg]
      exact (hapart f hf).symm

theorem NodeStep.threadApart (h : NodeStep s l r) (hs : NodesApart s) (hl : ThreadApart s l) :
    ThreadApart r.1 r.2 := by
  refine ⟨h.running, ?_⟩
  intro e he
  obtain ⟨hnodes, hold | ⟨hreturned, hapart⟩⟩ := h.owned e he
  · obtain ⟨hreturned, hapart⟩ := hl.owned e hold
    exact ⟨h.returned e hreturned, hnodes ▸ hapart⟩
  · exact ⟨hreturned, fun f hf => hapart f (hs.returned f (hnodes ▸ hf))⟩

/-- Another thread's step leaves a thread its bytes. -/
theorem NodeStep.other (h : NodeStep s l r) (hm : ThreadApart s m)
    (hapart : ∀ e f, m.owned = some e → l.owned = some f → e.Apart f) : ThreadApart r.1 m := by
  refine ⟨hm.running, ?_⟩
  intro e he
  obtain ⟨hreturned, hnodes⟩ := hm.owned e he
  refine ⟨h.returned e hreturned, ?_⟩
  intro f hf
  obtain hsame | ⟨g, hg, hmore⟩ := h.nodes
  · exact hnodes f (hsame ▸ hf)
  · rw [hmore, List.mem_append, List.mem_singleton] at hf
    obtain hf | rfl := hf
    · exact hnodes f hf
    · exact hapart e f he hg

theorem NodeStep.apart (h : NodeStep s l r) (hm : ThreadApart s m)
    (hapart : ∀ e f, l.owned = some e → m.owned = some f → e.Apart f) :
    ∀ e f, r.2.owned = some e → m.owned = some f → e.Apart f := by
  intro e f he hf
  obtain ⟨-, hold | ⟨-, hnew⟩⟩ := h.owned e he
  · exact hapart e f hold hf
  · exact hnew f (hm.owned f hf).1

end outline

/-- What the arena says of the list's memory. -/
def arena_outline (Tid : Type) (policy : ArenaPolicy) :
    System.Outline Tid (ArenaList Tid) ArenaInsertThread :=
  ((regions_outline Tid policy).and (blocks_outline Tid policy)).within ArenaList.arena
    ArenaInsertThread.arena_pc

theorem nodes_outline_valid {l₀ : ArenaList Tid} (hinit : NodesApart l₀) :
    (arena_outline Tid policy).ValidOver (nodes_outline Tid) (arena_list_system cmp policy l₀)
      (memory_fits policy) where
  init_shared := hinit
  init_thread := fun _ => ⟨fun _ _ h => (by cases h), fun _ h => by cases h⟩
  init_apart := fun _ _ h => by cases h
  step_own := by
    intro t a s l r hB hBl hs hl hG hr
    have hstep := arena_list_node_step hB.1 hB.2 hBl.1 hl hG hr
    exact ⟨hstep.nodesApart hs hl, hstep.threadApart hs hl⟩
  step_other := by
    intro t u a s l m r hne hB hO hG hr
    have hstep := arena_list_node_step hB.shared.1 hB.shared.2 hB.own.1 hO.own hG hr
    have hapart := hstep.apart hO.other hO.apart
    exact ⟨hstep.other hO.other hO.apart_symm, hapart,
      fun e f he hf => (hapart f e hf he).symm⟩

section new

/-- The first allocation of an arena. -/
theorem run_first (t : Tid) (base : Nat) (hvalid : policy.Valid) {layout : Layout}
    (hle : layout.size ≤ policy.block_size) :
    run_unblocked (fun arena => alloc_step policy t .alloc_raw layout {} arena) 5
      (Arena.new Tid policy base) .get_chunk =
    some ({ Arena.new Tid policy base with
      chunks := [⟨base, policy.block_size, layout.size⟩]
      memory_used := 0 + layout.size
      returned := [⟨0, 0, base, layout⟩] }, .ptr base) := by
  have hcheck := check_of_block hvalid layout (rfl : policy.block_size = _) (Nat.zero_le _)
  rw [round_up_zero layout.align_pos, Nat.zero_add, if_pos hle] at hcheck
  have hstep : alloc_step policy t .alloc_raw layout {} (Arena.new Tid policy base) (.check 0 0) =
      some (Arena.new Tid policy base, .next (.cas 0 0 0 layout.size)) := by
    have hlen : (Arena.new Tid policy base).current_len = policy.block_size := rfl
    simp only [alloc_step, hlen, hcheck]
  show run_unblocked (fun arena => alloc_step policy t .alloc_raw layout {} arena) 3
    (Arena.new Tid policy base) (AllocPc.check 0 0) = _
  simp only [run_unblocked, hstep]
  rfl

/-- Where a list begins: its sentinel is at the start of the arena's first block. -/
theorem new_cases (hvalid : policy.Valid) {base : Nat} {memory : Memory} {l₀ : ArenaList Tid}
    (hnew : ArenaList.new policy t base memory = some l₀) :
    ∃ layout : Layout, layout.size = 72 ∧ 72 ≤ policy.block_size ∧
      l₀ = { arena := { Arena.new Tid policy base with
               chunks := [⟨base, policy.block_size, 72⟩]
               memory_used := 72
               returned := [⟨0, 0, base, layout⟩] }
             memory := Node.init_node memory base (BitVec.ofNat 16 MAX_HEAD_HEIGHT) 0 0
             sentinel := base
             seed := seed_generator 1
             entries := 0
             max_level := 1
             nodes := [Node.extent base MAX_HEAD_HEIGHT 0 0] } := by
  obtain ⟨l₁, l₂, layout, o₁, o₂, o₃, hbuilt, hregions⟩ :=
    Node.build_layout_ok (BitVec.ofNat 16 MAX_HEAD_HEIGHT) 0 0
  have hlayout : Node.build_layout MAX_HEAD_HEIGHT 0 0 = .ok layout := hbuilt.built
  have hsize : layout.size = 72 := by
    obtain ⟨hheader, htower, hkey_end, hvalue_end⟩ := hregions
    have hheader' : 8 = o₁ := hheader
    have htower' : o₁ + 64 = o₂ := htower
    have hkey_end' : o₂ + 0 = o₃ := hkey_end
    have hvalue_end' : o₃ + 0 = layout.size := hvalue_end
    omega
  by_cases hfits : policy.block_size < layout.size
  · simp [ArenaList.new, hlayout, alloc_start, hfits] at hnew
  have hle : layout.size ≤ policy.block_size := Nat.le_of_not_lt hfits
  have hstart : alloc_start policy .alloc_raw layout = .next .get_chunk := if_neg hfits
  refine ⟨layout, hsize, hsize ▸ hle, ?_⟩
  simp only [ArenaList.new, hlayout, hstart, run_first t base hvalid hle, hsize] at hnew
  exact (Option.some.inj hnew).symm

end new

end ordinum.mem_skip_list
