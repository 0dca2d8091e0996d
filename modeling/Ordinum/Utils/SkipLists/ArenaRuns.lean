import Ordinum.Interleaving.AtomicObject
import Ordinum.Utils.SkipLists.ArenaRefinement
import Ordinum.Utils.SkipLists.Pairs

open interleaving interleaving.System wire
open ordinum.arena ordinum.key ordinum.utils

namespace ordinum.mem_skip_list

variable {Tid : Type} {cmp : Comparator} {policy : ArenaPolicy} {t : Tid}

section new

variable {base : Nat} {memory : Memory} {l₀ : ArenaList Tid}

/-- A list where `new` has made it: in an arena whose first block is somewhere in memory. -/
structure Begins (policy : ArenaPolicy) (l₀ : ArenaList Tid) : Prop where
  valid : policy.Valid
  new : ∃ t base memory, 0 < base ∧ base + policy.block_size ≤ 2 ^ 64 ∧
    ArenaList.new policy t base memory = some l₀

theorem Begins.arena (h : Begins policy l₀) :
    RegionsIntact policy l₀.arena ∧ BlocksApart policy l₀.arena := by
  obtain ⟨hvalid, t, base, memory, hnull, hroom, hnew⟩ := h
  obtain ⟨layout, hsize, hle, rfl⟩ := new_cases hvalid hnew
  refine ⟨⟨Nat.one_pos, ?_, ?_, ?_, List.pairwise_singleton .., ?_, ?_⟩,
    .one_block hnull hroom rfl⟩
  · intro i hi
    obtain rfl := Nat.lt_one_iff.mp hi
    rfl
  · intro i hi
    obtain rfl := Nat.lt_one_iff.mp hi
    exact hle
  · intro a ha
    rw [List.mem_singleton.mp ha]
    refine ⟨Nat.one_pos, ?_⟩
    show 0 + layout.size ≤ 72
    omega
  · intro a ha
    rw [List.mem_singleton.mp ha]
    exact ⟨rfl, Nat.dvd_zero layout.align⟩
  · show 72 = (([⟨0, 0, base, layout⟩] : List Allocation).map fun a => a.layout.size).sum
    simp [hsize]

theorem Begins.nodesApart (h : Begins policy l₀) : NodesApart l₀ := by
  obtain ⟨hvalid, t, base, memory, hnull, hroom, hnew⟩ := h
  obtain ⟨layout, hsize, -, rfl⟩ := new_cases hvalid hnew
  refine ⟨?_, List.pairwise_singleton ..⟩
  intro e he
  rw [List.mem_singleton.mp he]
  refine ⟨_, List.mem_singleton_self _, ?_⟩
  simp only [hsize]
  rfl

theorem Begins.represents (h : Begins policy l₀) : Represents l₀ .new := by
  obtain ⟨hvalid, t, base, memory, hnull, hroom, hnew⟩ := h
  obtain ⟨layout, -, -, rfl⟩ := new_cases hvalid hnew
  have hone : ∀ n e, [Node.extent base MAX_HEAD_HEIGHT 0 0][n]? = some e →
      e = Node.extent base MAX_HEAD_HEIGHT 0 0 := fun n e he =>
    List.mem_singleton.mp (List.mem_of_getElem? he)
  refine ⟨rfl, rfl, rfl, rfl, rfl, ?_, ?_⟩
  · intro n e he
    rw [hone n e he]
    have hheader := Node.init_node_header memory base (BitVec.ofNat 16 MAX_HEAD_HEIGHT) 0 0
    refine ⟨rfl, hheader, ?_, ?_, Nat.le_refl _, Nat.two_pow_pos 16, Nat.two_pow_pos 32⟩
    · show Memory.read _ _ (Node.key_len_at (Node.init_node memory base _ 0 0) base).toNat = []
      rw [hheader.key_len]
      rfl
    · show Memory.read _ _ (Node.value_len_at (Node.init_node memory base _ 0 0) base).toNat = []
      rw [hheader.value_len]
      rfl
  · intro n e level he hlevel
    rw [hone n e he]
    show Option.Rel _ none (Node.load_next _ base level)
    rw [load_next_init_node memory base _ 0 0 hlevel]
    exact .none

end new

section outlines

variable [DecidableEq Tid] {l₀ : ArenaList Tid} {c : Config Tid (ArenaList Tid) ArenaInsertThread}

theorem arena_outline_holds (h : Begins policy l₀)
    (hc : (arena_list_system cmp policy l₀).ReachableUnder (memory_fits policy) c) :
    (arena_outline Tid policy).Holds c := by
  obtain ⟨hregions, hblocks⟩ := h.arena
  obtain ⟨hvalid, -, base, -, hnull, hroom, -⟩ := h
  have hcontains : (arena_list_system cmp policy l₀).Contains (arena_system Tid policy base)
      (memory_fits policy) (fresh_blocks policy) ArenaList.arena ArenaInsertThread.arena_pc :=
    arena_list_contains_arena l₀ base
  have hregions_valid : Outline.trivial.ValidOver (regions_outline Tid policy)
      (arena_system Tid policy base) (fresh_blocks policy) :=
    (regions_outline_valid hvalid).mono fun _ _ _ _ _ => trivial
  have hregions_within := hregions_valid.within hcontains hregions (fun _ => trivial)
    fun _ _ h => by cases h
  have hblocks_within := (blocks_outline_valid hnull hroom).within hcontains hblocks
    (fun _ => trivial) trivial
  exact (hregions_within.holds_of_trivial hc).and (hblocks_within.holds_of_trivial hc)

theorem nodes_outline_holds (h : Begins policy l₀)
    (hc : (arena_list_system cmp policy l₀).ReachableUnder (memory_fits policy) c) :
    (nodes_outline Tid).Holds c :=
  (nodes_outline_valid h.nodesApart).holds (fun _ hc => arena_outline_holds h hc) hc

/-- What a step does to the arena. -/
theorem arena_list_grows (h : Begins policy l₀)
    (hc : (arena_list_system cmp policy l₀).ReachableUnder (memory_fits policy) c) {t : Tid}
    {a : ArenaInsertAct} {r : ArenaList Tid × ArenaInsertThread}
    (hG : memory_fits policy t a c.shared (c.threads t))
    (hr : arena_list_step cmp policy t a c.shared (c.threads t) = some r) :
    ChunksGrow c.shared.arena r.1.arena := by
  obtain ⟨hsame, -⟩ | ⟨a', -, hr'⟩ := arena_list_contains_arena l₀ 1 t a _ _ r hG hr
  · exact .of_eq (congrArg ArenaShared.chunks hsame)
  · exact (arena_step_move hr').grow ((arena_outline_holds h hc).thread t).1

end outlines

section refinement

variable {nodes : List Extent} {mem mem' : Memory}

/-- A thread inserts the same, and its insertions have returned the same nodes. -/
structure ThreadRel (nodes : List Extent) (mem : Memory) (l : InsertThread)
    (l' : ArenaInsertThread) : Prop where
  running : Option.Rel (fun p q => p.1 = q.1 ∧ InsertRel nodes mem p.1 p.2 q.2) l.running l'.running
  returned : List.Forall₂ (fun p q => p.1 = q.1 ∧ Points nodes p.2 q.2) l.returned l'.returned

theorem returned_append {xs : List (InsertCall × NodePtr)} {ys : List (InsertCall × Nat)}
    (h : List.Forall₂ (fun p q => p.1 = q.1 ∧ Points nodes p.2 q.2) xs ys) (more : List Extent) :
    List.Forall₂ (fun p q => p.1 = q.1 ∧ Points (nodes ++ more) p.2 q.2) xs ys :=
  h.imp fun _ _ hpq => ⟨hpq.1, hpq.2.append⟩

theorem ThreadRel.frame {l : InsertThread} {l' : ArenaInsertThread}
    (h : ThreadRel nodes mem l l') (more : List Extent)
    (hkept : ∀ e, l'.owned = some e → mem.SameOn mem' e) :
    ThreadRel (nodes ++ more) mem' l l' where
  running := by
    obtain ⟨hx, hy⟩ | ⟨⟨call, pc⟩, ⟨call', pc'⟩, hx, hy, hcall, hrel⟩ := option_rel_cases h.running
    · rw [hx, hy]
      exact .none
    · rw [hx, hy]
      obtain rfl : call = call' := hcall
      refine .some ⟨rfl, hrel.frame more ?_⟩
      intro e he
      apply hkept
      rw [ArenaInsertThread.owned, hy]
      exact he
  returned := returned_append h.returned more

/-- The thread of the list after an access of its insertion. -/
def InsertThread.after (returned : List (InsertCall × NodePtr)) (call : InsertCall) :
    Progress InsertPc Inserted → InsertThread
  | .next pc => { running := some (call, pc), returned }
  | .done none => { running := none, returned }
  | .done (some node) => { running := none, returned := returned ++ [(call, node)] }

theorem skip_list_step_idle {s : SkipList} {l : InsertThread} (hidle : l.running = none)
    (call : InsertCall) : skip_list_step cmp (.start call) s l =
      some (s, { running := some (call, call.start), returned := l.returned }) := by
  obtain ⟨running, returned⟩ := l
  obtain rfl : running = none := hidle
  rfl

theorem skip_list_step_running {s : SkipList} {l : InsertThread} {call : InsertCall} {pc : InsertPc}
    (hrunning : l.running = some (call, pc)) (choice : Bool) :
    skip_list_step cmp (.step choice) s l = some ((insert_step cmp call choice s pc).1,
      .after l.returned call (insert_step cmp call choice s pc).2) := by
  obtain ⟨running, returned⟩ := l
  obtain rfl : running = some (call, pc) := hrunning
  rfl

theorem ThreadRel.after {xs : List (InsertCall × NodePtr)} {ys : List (InsertCall × Nat)}
    {call : InsertCall} {progress : Progress InsertPc Inserted}
    {progress' : Progress ArenaInsertPc Inserted}
    (hreturned : List.Forall₂ (fun p q => p.1 = q.1 ∧ Points nodes p.2 q.2) xs ys)
    (h : Progress.Rel (InsertRel nodes mem call) (Option.Rel (Points nodes)) progress progress') :
    ThreadRel nodes mem (.after xs call progress) (.after ys call progress') := by
  cases h with
  | next h => exact ⟨.some ⟨rfl, h⟩, hreturned⟩
  | done h =>
    cases h with
    | none => exact ⟨.none, hreturned⟩
    | some h => exact ⟨.none, List.rel_append hreturned (.cons ⟨rfl, h⟩ .nil)⟩

/-- Bytes that no block of the arena has are as they were. -/
def Untouched (policy : ArenaPolicy) (l₀ l : ArenaList Tid) : Prop :=
  ∀ a, (∀ i, i < l.arena.chunks.length → a < (l.arena.chunk i).base ∨
    (l.arena.chunk i).base + policy.block_size ≤ a) → l.memory a = l₀.memory a

/-- What is seen of an insertion after one of its accesses, where nodes hold `entry`. -/
def insert_seen_of (t : Tid) (call : InsertCall) (entry : Nat → Pair) {Pc : Type} :
    Progress Pc Inserted → List (Event Tid InsertCall Pair)
  | .next _ => []
  | .done none => [.panicked t call]
  | .done (some node) => [.returned t call (entry node)]

/-- Insertions are seen to begin, and to return the entry of a node. -/
def insert_seen (cmp : Comparator) :
    Seen Tid InsertAct SkipList InsertThread (Event Tid InsertCall Pair)
  | t, .start call, _, _, _ => [.called t call]
  | t, .step choice, s, l, _ => l.running.elim [] fun running =>
    insert_seen_of t running.1 (pair (insert_step cmp running.1 choice s running.2).1)
      (insert_step cmp running.1 choice s running.2).2

/-- The entry of a node in memory. -/
def ArenaList.entry (l : ArenaList Tid) (node : Nat) : Pair :=
  (Node.get_key_bytes l.memory node, Node.get_value_bytes l.memory node)

def arena_insert_seen (cmp : Comparator) (policy : ArenaPolicy) :
    Seen Tid ArenaInsertAct (ArenaList Tid) ArenaInsertThread (Event Tid InsertCall Pair)
  | t, .start call, _, _, _ => [.called t call]
  | t, .step choice, l, thread, _ => thread.running.elim [] fun running =>
    (l.insert_step cmp policy t running.1 choice running.2).elim [] fun r =>
      insert_seen_of t running.1 r.1.entry r.2

/-- The list in memory and the list: equal nodes and towers, and the same calls on them. -/
def arena_correspondence (policy : ArenaPolicy) (l₀ : ArenaList Tid) :
    Correspondence (ArenaList Tid) SkipList ArenaInsertThread InsertThread where
  shared := fun l s => Represents l s ∧ Untouched policy l₀ l
  thread := fun l l' m => ThreadRel l.nodes l.memory m l'

variable [DecidableEq Tid] {l₀ : ArenaList Tid} {c : Config Tid (ArenaList Tid) ArenaInsertThread}

omit [DecidableEq Tid] in
theorem placed_of_outlines {l : ArenaList Tid} {s : SkipList}
    (hregions : RegionsIntact policy l.arena)
    (hblocks : BlocksApart policy l.arena) (hnodes : NodesApart l) (hrep : Represents l s) :
    Placed l.nodes where
  place := fun e he => (hnodes.returned e he).place hregions hblocks
  apart := hnodes.apart
  not_empty := by
    intro e he
    obtain ⟨n, hn⟩ := List.getElem?_of_mem he
    rw [(hrep.node n e hn).size]
    omega

omit [DecidableEq Tid] in
/-- What was handed out lies in a block. -/
theorem Returned.in_block {s : ArenaShared Tid} {e : Extent} (hregions : RegionsIntact policy s)
    (he : Returned s e) : ∃ i, i < s.chunks.length ∧ (s.chunk i).base ≤ e.start ∧
      e.start + e.size ≤ (s.chunk i).base + policy.block_size := by
  obtain ⟨a, ha, rfl⟩ := he
  have hinside := hregions.inside a ha
  have hwithin : a.offset + a.layout.size ≤ policy.block_size := hinside.within hregions
  refine ⟨a.chunk, hinside.chunk, ?_, ?_⟩
  · rw [(hregions.address a ha).1]
    exact Nat.le_add_right ..
  · rw [(hregions.address a ha).1]
    show (s.chunk a.chunk).base + a.offset + a.layout.size ≤
      (s.chunk a.chunk).base + policy.block_size
    omega

omit [DecidableEq Tid] in
theorem Untouched.step {l l' : ArenaList Tid} {owned : Option Extent} (h : Untouched policy l₀ l)
    (hregions : RegionsIntact policy l.arena) (hgrow : ChunksGrow l.arena l'.arena)
    (hnodes : NodesApart l) (howned : ∀ e, owned = some e → Returned l.arena e)
    (hstep : MemoryStep l owned l') : Untouched policy l₀ l' := by
  intro a ha
  have hbefore : ∀ i, i < l.arena.chunks.length → a < (l.arena.chunk i).base ∨
      (l.arena.chunk i).base + policy.block_size ≤ a := by
    intro i hi
    rw [← hgrow.base i hi]
    exact ha i (Nat.lt_of_lt_of_le hi hgrow.length)
  have happart : ∀ f, Returned l.arena f → f.Apart ⟨a, 1⟩ := by
    intro f hf
    obtain ⟨i, hi, hstart, hend⟩ := hf.in_block hregions
    have hout := hbefore i hi
    show f.start + f.size ≤ a ∨ a + 1 ≤ f.start
    omega
  rw [← h a hbefore]
  exact hstep.kept ⟨a, 1⟩ (fun f hf => happart f (hnodes.returned f hf))
    (fun f hf => happart f (howned f hf)) a (Nat.le_refl a) (Nat.lt_succ_self a)

omit [DecidableEq Tid] in
/-- A step leaves the other threads where they are. -/
theorem MemoryStep.others {t u : Tid} {l' : ArenaList Tid} {m : InsertThread}
    (hnodes : (nodes_outline Tid).Holds c) (hu : u ≠ t)
    (hstep : MemoryStep c.shared (c.threads t).owned l')
    (hrel : ThreadRel c.shared.nodes c.shared.memory m (c.threads u)) :
    ThreadRel l'.nodes l'.memory m (c.threads u) := by
  obtain ⟨more, hmore⟩ := hstep.nodes
  rw [hmore]
  apply hrel.frame more
  intro e he
  apply hstep.kept e
  · intro f hf
    exact (((hnodes.thread u).owned e he).2 f hf).symm
  · intro f hf
    exact hnodes.apart t u (Ne.symm hu) f e hf he

omit [DecidableEq Tid] in
/-- The entry of a node, in its bytes. -/
theorem Represents.entry_eq {l : ArenaList Tid} {s : SkipList} (h : Represents l s) {n a : Nat}
    (hn : Points l.nodes n a) : l.entry a = pair s n := by
  obtain ⟨e, he, rfl⟩ := hn.extent
  exact Prod.ext (h.node n e he).key (h.node n e he).value

omit [DecidableEq Tid] in
/-- Where insertions stand at related points, the same is seen of them. -/
theorem Represents.seen_eq {l : ArenaList Tid} {s : SkipList} (h : Represents l s) (t : Tid)
    (call : InsertCall) {progress : Progress InsertPc Inserted}
    {progress' : Progress ArenaInsertPc Inserted}
    (hrel : Progress.Rel (InsertRel l.nodes l.memory call) (Option.Rel (Points l.nodes)) progress
      progress') :
    insert_seen_of t call (pair s) progress = insert_seen_of t call l.entry progress' := by
  cases hrel with
  | next _ => rfl
  | done hnode =>
    cases hnode with
    | none => rfl
    | some hnode => rw [insert_seen_of, insert_seen_of, h.entry_eq hnode]

theorem sentinel_height {b : Config Tid SkipList InsertThread}
    (hb : (skip_list_system cmp Tid).ReachableUnder entries_fit b) :
    (b.shared.nodes sentinel).height = MAX_HEAD_HEIGHT :=
  congrArg Node.height
    ((run_grows .init (hb.mono keys_fit_of_entries_fit)).nodes sentinel Nat.one_pos)

/-- Every step in memory is a step of the list, or none. -/
theorem arena_list_simulates (cmp : Comparator) (h : Begins policy l₀) :
    Simulates (arena_list_system cmp policy l₀) (skip_list_system cmp Tid) (memory_fits policy)
      entries_fit (arena_insert_seen cmp policy) (insert_seen cmp)
      (arena_correspondence policy l₀).Holds := by
  intro c b t a r hc hb hK hG hr
  obtain ⟨⟨hregions, hblocks⟩, -, -⟩ := arena_outline_holds h hc
  have hnodes := nodes_outline_holds h hc
  have hinserts := insert_outline_holds (hb.mono keys_fit_of_entries_fit)
  obtain ⟨levels, hs⟩ := hinserts.shared
  obtain ⟨hrep, huntouched⟩ := hK.shared
  have hplaced := placed_of_outlines hregions hblocks hnodes.shared hrep
  have hsentinel := sentinel_height hb
  have hgrow := arena_list_grows h hc hG hr
  have hthread := hK.thread t
  obtain ⟨call, rfl, hidle, rfl⟩ | ⟨call, pc', choice, next, rfl, hrunning, hnext, rfl⟩ :=
    arena_list_step_cases hr
  · right
    obtain ⟨hx, -⟩ | ⟨p, q, -, hy, -⟩ := option_rel_cases hthread.running
    · refine ⟨.start call, _, fun _ heq => InsertAct.start.inj heq ▸ hG,
        skip_list_step_idle hx call, rfl, ?_⟩
      refine hK.move ⟨hrep, huntouched⟩ ⟨.some ⟨rfl, ?_⟩, hthread.returned⟩ fun u _ hu => hu
      cases call with
      | insert => exact .search .load_max_level
      | insert_with => exact .fetch_add_entries .none
    · rw [hidle] at hy
      cases hy
  · have howned : (c.threads t).owned = pc'.owned call := by
      rw [ArenaInsertThread.owned, hrunning, Option.bind_some]
    obtain ⟨-, hy⟩ | ⟨⟨call', pc⟩, q, hx, hy, hcall, hrel⟩ := option_rel_cases hthread.running
    · rw [hrunning] at hy
      cases hy
    obtain rfl := Option.some.inj (hrunning.symm.trans hy)
    obtain rfl : call' = call := hcall
    obtain ⟨hfits, hsized⟩ := (hnodes.thread t).running call' pc' hrunning
    have hok := (hinserts.thread t).running call' pc hx
    obtain ⟨hmemory, hrefines⟩ := insert_step_refines hrep hplaced hs hsentinel hfits hok.2 hsized
      (fun e he => ((hnodes.thread t).owned e (howned.trans he)).2) hrel hnext
    rw [← howned] at hmemory
    have huntouched' := huntouched.step hregions hgrow hnodes.shared
      (fun e he => ((hnodes.thread t).owned e he).1) hmemory
    obtain ⟨more, hmore⟩ := hmemory.nodes
    have hreturned : List.Forall₂ (fun p q => p.1 = q.1 ∧ Points next.1.nodes p.2 q.2)
        (b.threads t).returned (c.threads t).returned := by
      rw [hmore]
      exact returned_append hthread.returned more
    have hseen : arena_insert_seen cmp policy t (.step choice) c.shared (c.threads t)
        (next.1, .after (c.threads t).returned call' next.2) =
          insert_seen_of t call' next.1.entry next.2 := by
      rw [arena_insert_seen, hrunning, Option.elim_some, hnext, Option.elim_some]
    cases hrefines with
    | @stays pc'' hshared hprogress hrel' =>
      refine .inl ⟨hseen.trans (by rw [hprogress, insert_seen_of]), ?_⟩
      refine hK.stutter ⟨hshared, huntouched'⟩ ?_ fun u hu => hmemory.others hnodes hu
      rw [hprogress]
      refine ⟨?_, hreturned⟩
      rw [hx]
      exact .some ⟨rfl, hrel'⟩
    | steps choice' hshared hprogress =>
      right
      refine ⟨.step choice', _, fun _ heq => (by cases heq), skip_list_step_running hx choice', ?_,
        ?_⟩
      · rw [hseen, insert_seen, hx, Option.elim_some]
        exact hshared.seen_eq t call' hprogress
      exact hK.move ⟨hshared, huntouched'⟩ (.after hreturned hprogress)
        fun u hu => hmemory.others hnodes hu

omit [DecidableEq Tid] in
theorem Begins.corresponds (cmp : Comparator) (h : Begins policy l₀) :
    (arena_correspondence policy l₀).Holds (arena_list_system cmp policy l₀).init
      (skip_list_system cmp Tid).init :=
  ⟨⟨h.represents, fun _ _ => rfl⟩, fun _ => ⟨.none, .nil⟩⟩

def two_inserts_policy : ArenaPolicy := ⟨128, 256⟩

end refinement

end ordinum.mem_skip_list
