import Ordinum.Arena.Arena
import Ordinum.Utils.SkipLists.NodeLayout
import Ordinum.Wire.Extent

open interleaving wire
open ordinum.arena ordinum.key ordinum.utils

namespace ordinum.mem_skip_list

/-- The list as it lies in memory: nodes are bytes that an arena has handed out, and
pointers are addresses. `nodes` are the nodes whose key and value have been written, in
that order (history). -/
structure ArenaList (Tid : Type) where
  arena : ArenaShared Tid
  memory : Memory
  sentinel : Nat
  seed : BitVec 64
  entries : BitVec 64
  max_level : Nat
  nodes : List Extent

namespace Node

/-- A null pointer is `none`. -/
def load_next (mem : Memory) (node level : Nat) : Option Nat :=
  let next := (from_le_bytes 64 (mem.read (node_at_tower_level node level) layout_ptr.size)).toNat
  if next = 0 then none else some next

def store_next (mem : Memory) (node level : Nat) (succ : Option Nat) : Memory :=
  mem.write (node_at_tower_level node level)
    (to_le_bytes layout_ptr.size (BitVec.ofNat 64 (succ.getD 0)))

/-- The bytes of a node with this tower, key and value. -/
def extent (start height key_len value_len : Nat) : Extent :=
  ⟨start, Node.layout.size + height * layout_ptr.size + key_len + value_len⟩

end Node

/-- Program points of an insertion into the list in memory: at those of `InsertPc`,
where pointers are addresses, or between the layout of a node and its last byte. -/
inductive ArenaInsertPc where
  | list (pc : InsertPc)
  | alloc_raw (ctx : Option TraversalCtx) (height : Nat) (layout : Layout) (pc : AllocPc)
  | init_node (ctx : Option TraversalCtx) (height node : Nat)
  | copy_entry (ctx : Option TraversalCtx) (height node : Nat)

namespace ArenaList

variable {Tid : Type} (cmp : Comparator)

/-- The context a search starts with. -/
def new_ctx (l : ArenaList Tid) : TraversalCtx :=
  { searched_node := none, predecessors := fun _ => l.sentinel, successors := fun _ => none }

def enter_levels (l : ArenaList Tid) : Nat → Progress SearchPc TraversalCtx
  | 0 => .done l.new_ctx
  | level + 1 => .next (.skip_levels level)

/-- One load of `search`, which compares with the bytes of the node it comes to. -/
def search_step (l : ArenaList Tid) (key : List Byte) : SearchPc → Progress SearchPc TraversalCtx
  | .load_max_level => l.enter_levels l.max_level
  | .skip_levels level =>
    if (Node.load_next l.memory l.sentinel level).isNone then l.enter_levels level
    else .next (.walk l.new_ctx level l.sentinel)
  | .walk ctx level pred =>
    match Node.load_next l.memory pred level with
    | none => leave_level ctx level pred none
    | some curr =>
      match cmp.compare (Node.get_key_bytes l.memory curr) key with
      | .lt => .next (.walk ctx level curr)
      | .eq => leave_level { ctx with searched_node := some curr } level pred (some curr)
      | .gt => leave_level ctx level pred (some curr)

/-- The key that an insertion searches for when it owns a node. -/
def search_key (l : ArenaList Tid) (node : Nat) : InsertCall → List Byte
  | .insert key _ => key
  | .insert_with _ _ => Node.get_key_bytes l.memory node

/-- The start of `Node::alloc`. -/
def alloc (policy : ArenaPolicy) (call : InsertCall) (ctx : Option TraversalCtx) (height : Nat) :
    Progress ArenaInsertPc Inserted :=
  match Node.build_layout (height % 2 ^ 16) (call.key.length % 2 ^ 16)
      (call.value.length % 2 ^ 32) with
  | .error _ => .done none
  | .ok layout =>
    (alloc_start policy .alloc_raw layout).elim (fun pc => .next (.alloc_raw ctx height layout pc))
      fun _ => .done none

/-- Where `alloc_raw` is, or what its result leads to. -/
def allocated (ctx : Option TraversalCtx) (height : Nat) (layout : Layout) :
    Progress AllocPc AllocResult → Progress ArenaInsertPc Inserted
  | .next pc => .next (.alloc_raw ctx height layout pc)
  | .done (.ptr node) => .next (.init_node ctx height node)
  | .done _ => .done none

/-- Where an insertion goes on with its node. -/
def with_node (node : Nat) : Option TraversalCtx → InsertPc
  | some ctx => link_level node 0 ctx
  | none => .search_again node 0 .load_max_level

/-- One access of an insertion. A node's bytes are its inserter's alone until it is
linked: it is initialised in one step, and filled in another. -/
def insert_step (policy : ArenaPolicy) (t : Tid) (call : InsertCall) (choice : AllocChoice)
    (l : ArenaList Tid) : ArenaInsertPc → Option (ArenaList Tid × Progress ArenaInsertPc Inserted)
  | .list (.search pc) =>
    some (l, match l.search_step cmp call.key pc with
      | .next pc => .next (.list (.search pc))
      | .done ctx =>
        match ctx.searched_node with
        | some node => .done (some node)
        | none => .next (.list (.fetch_add_entries (some ctx))))
  | .list (.fetch_add_entries ctx) =>
    some ({ l with entries := l.entries + 1 }, .next (.list (.load_seed ctx)))
  | .list (.load_seed ctx) => some (l, .next (.list (.store_seed ctx l.seed)))
  | .list (.store_seed ctx seed) =>
    some ({ l with seed := xorshift seed },
      .next (.list (.load_max_level ctx (random_height (xorshift seed)))))
  | .list (.load_max_level ctx height) =>
    some (l, .next (.list (if l.max_level < height then .cas_max_level ctx height l.max_level
      else .alloc ctx height)))
  | .list (.cas_max_level ctx height max_height) =>
    if l.max_level = max_height ∧ choice.spurious = false then
      some ({ l with max_level := height }, .next (.list (.alloc ctx height)))
    else
      some (l, .next (.list (if l.max_level < height then .cas_max_level ctx height l.max_level
        else .alloc ctx height)))
  | .list (.alloc ctx height) => some (l, alloc policy call ctx height)
  | .alloc_raw ctx height layout pc =>
    (alloc_step policy t .alloc_raw layout choice l.arena pc).map fun r =>
      ({ l with arena := r.1 }, allocated ctx height layout r.2)
  | .init_node ctx height node =>
    some ({ l with
      memory := Node.init_node l.memory node (BitVec.ofNat 16 height)
        (BitVec.ofNat 16 call.key.length) (BitVec.ofNat 32 call.value.length) },
      .next (.copy_entry ctx height node))
  | .copy_entry ctx height node =>
    some ({ l with
      memory := Node.copy_entry l.memory node call.key call.value
      nodes := l.nodes ++ [Node.extent node height call.key.length call.value.length] },
      .next (.list (with_node node ctx)))
  | .list (.search_again node level pc) =>
    some (l, match l.search_step cmp (l.search_key node call) pc with
      | .next pc => .next (.list (.search_again node level pc))
      | .done ctx =>
        match ctx.searched_node, level with
        | some found, 0 => .done (some found)
        | _, _ => .next (.list (link_level node level ctx)))
  | .list (.store_next node level ctx) =>
    some ({ l with memory := Node.store_next l.memory node level (ctx.successors level) },
      .next (.list (.cas_next node level ctx)))
  | .list (.cas_next node level ctx) =>
    let pred := ctx.predecessors level
    if Node.load_next l.memory pred level = ctx.successors level then
      let l := { l with memory := Node.store_next l.memory pred level (some node) }
      some (l, if level + 1 < (Node.height_at l.memory node).toNat then
          .next (.list (link_level node (level + 1) ctx))
        else .done (some node))
    else some (l, .next (.list (.search_again node level .load_max_level)))

/-- `SkipList::new` in an arena of its own: thread `t` allocates the sentinel, in the
first block; `none` is a panic. -/
def new (policy : ArenaPolicy) (t : Tid) (base : Nat) (memory : Memory) : Option (ArenaList Tid) :=
  match Node.build_layout MAX_HEAD_HEIGHT 0 0 with
  | .error _ => none
  | .ok layout =>
    match alloc_start policy .alloc_raw layout with
    | .done _ => none
    | .next pc =>
      match run_unblocked (fun arena => alloc_step policy t .alloc_raw layout {} arena) 5
          (Arena.new Tid policy base) pc with
      | some (arena, .ptr node) =>
        some { arena
               memory := Node.init_node memory node (BitVec.ofNat 16 MAX_HEAD_HEIGHT) 0 0
               sentinel := node
               seed := seed_generator 1
               entries := 0
               max_level := 1
               nodes := [Node.extent node MAX_HEAD_HEIGHT 0 0] }
      | _ => none

end ArenaList

/-- A thread with its running insertion; `returned` is the history of the
insertions that returned a node. -/
structure ArenaInsertThread where
  running : Option (InsertCall × ArenaInsertPc)
  returned : List (InsertCall × Nat)

inductive ArenaInsertAct where
  | start (call : InsertCall)
  | step (choice : AllocChoice)
  deriving DecidableEq, Repr

/-- The thread after an access of its insertion. -/
def ArenaInsertThread.after (returned : List (InsertCall × Nat)) (call : InsertCall) :
    Progress ArenaInsertPc Inserted → ArenaInsertThread
  | .next pc => { running := some (call, pc), returned }
  | .done none => { running := none, returned }
  | .done (some node) => { running := none, returned := returned ++ [(call, node)] }

def arena_list_step (cmp : Comparator) (policy : ArenaPolicy) {Tid : Type} (t : Tid) :
    ArenaInsertAct → ArenaList Tid → ArenaInsertThread →
      Option (ArenaList Tid × ArenaInsertThread)
  | .start call, l, { running := none, returned } =>
    some (l, { running := some (call, .list call.start), returned })
  | .step choice, l, { running := some (call, pc), returned } =>
    (l.insert_step cmp policy t call choice pc).map fun r => (r.1, .after returned call r.2)
  | _, _, _ => none

/-- Any number of threads inserting into a list that `new` has made. -/
def arena_list_system (cmp : Comparator) (policy : ArenaPolicy) {Tid : Type} (l₀ : ArenaList Tid) :
    System Tid ArenaInsertAct (ArenaList Tid) ArenaInsertThread where
  shared₀ := l₀
  local₀ := { running := none, returned := [] }
  step := arena_list_step cmp policy

end ordinum.mem_skip_list
