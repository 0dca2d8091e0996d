import Ordinum.Interleaving.Sync
import Ordinum.Interleaving.System
import Ordinum.Key.Comparator

open interleaving
open ordinum.key ordinum.utils

namespace ordinum.mem_skip_list

def MAX_HEAD_HEIGHT : Nat := 8

/-- The nodes of the arena, in the order of their allocation. -/
abbrev NodePtr := Nat

/-- A node without its tower. -/
structure Node where
  height : Nat
  key : List Byte
  value : List Byte
  deriving DecidableEq, Repr

/-- The node's bytes are read back up to the lengths in its header, which are the
given ones as `u16` and `u32`. What does not fit them is copied past the node, which only
`ArenaList.insert_step` shows. -/
def Node.write (height : Nat) (key value : List Byte) : Node :=
  { height
    key := key.take (key.length % 2 ^ 16)
    value := value.take (value.length % 2 ^ 32) }

/-- The shared memory of a list. `allocated` is the next node of the arena. -/
structure SkipList where
  nodes : NodePtr → Node
  next : NodePtr → Nat → Option NodePtr
  allocated : Nat
  seed : BitVec 64
  entries : BitVec 64
  max_level : Nat

def SkipList.set_next (s : SkipList) (node : NodePtr) (level : Nat) (succ : Option NodePtr) :
    SkipList :=
  { s with next := Function.update s.next node (Function.update (s.next node) level succ) }

/-- The sentinel is the first node of the arena. -/
def sentinel : NodePtr := 0

/-- The steps of `seed_generator`. -/
def seed_generator (seed : BitVec 64) : BitVec 64 :=
  let x := seed + 0x9E3779B97F4A7C15#64
  let x := (x ^^^ (x >>> 30)) * 0xBF58476D1CE4E5B9#64
  let x := (x ^^^ (x >>> 27)) * 0x94D049BB133111EB#64
  x ^^^ (x >>> 31)

def SkipList.new : SkipList :=
  { nodes := fun _ => { height := MAX_HEAD_HEIGHT, key := [], value := [] }
    next := fun _ _ => none
    allocated := 1
    seed := seed_generator 1
    entries := 0
    max_level := 1 }

structure TraversalCtx where
  searched_node : Option NodePtr
  predecessors : Nat → NodePtr
  successors : Nat → Option NodePtr

/-- The context a search starts with. -/
def TraversalCtx.new : TraversalCtx :=
  { searched_node := none, predecessors := fun _ => sentinel, successors := fun _ => none }

/-- Program points of `search`, each before its next load. -/
inductive SearchPc where
  | load_max_level
  | skip_levels (level : Nat)
  | walk (ctx : TraversalCtx) (level : Nat) (pred : NodePtr)

variable (cmp : Comparator)

/-- The end of the walk at one level; the next one starts at `pred`. -/
def leave_level (ctx : TraversalCtx) (level : Nat) (pred : NodePtr) (curr : Option NodePtr) :
    Progress SearchPc TraversalCtx :=
  let ctx := { ctx with
    predecessors := Function.update ctx.predecessors level pred
    successors := Function.update ctx.successors level curr }
  match level with
  | 0 => .done ctx
  | level + 1 => .next (.walk ctx level pred)

/-- The levels from `level` down: the empty ones are skipped, at the others the
walk begins. -/
def enter_levels : Nat → Progress SearchPc TraversalCtx
  | 0 => .done .new
  | level + 1 => .next (.skip_levels level)

/-- One load of `search` and what follows up to the next one. -/
def search_step (s : SkipList) (key : List Byte) : SearchPc → Progress SearchPc TraversalCtx
  | .load_max_level => enter_levels s.max_level
  | .skip_levels level =>
    if (s.next sentinel level).isNone then enter_levels level
    else .next (.walk .new level sentinel)
  | .walk ctx level pred =>
    match s.next pred level with
    | none => leave_level ctx level pred none
    | some curr =>
      match cmp.compare (s.nodes curr).key key with
      | .lt => .next (.walk ctx level curr)
      | .eq => leave_level { ctx with searched_node := some curr } level pred (some curr)
      | .gt => leave_level ctx level pred (some curr)

/-- The two ways to insert. The closure given to `insert_with` writes the key into
the node, in the length that the caller announced. -/
inductive InsertCall where
  | insert (key value : List Byte)
  | insert_with (key value : List Byte)
  deriving DecidableEq, Repr

def InsertCall.key : InsertCall → List Byte
  | insert key _ | insert_with key _ => key

def InsertCall.value : InsertCall → List Byte
  | insert _ value | insert_with _ value => value

/-- The key that an insertion searches for when it owns a node. -/
def InsertCall.search_key : InsertCall → Node → List Byte
  | insert key _, _ => key
  | insert_with .., node => node.key

/-- Program points of an insertion, each before its next atomic access. The
context is that of the search that `insert` makes first; `insert_with` has none
before it owns a node. -/
inductive InsertPc where
  | search (pc : SearchPc)
  | fetch_add_entries (ctx : Option TraversalCtx)
  | load_seed (ctx : Option TraversalCtx)
  | store_seed (ctx : Option TraversalCtx) (seed : BitVec 64)
  | load_max_level (ctx : Option TraversalCtx) (height : Nat)
  | cas_max_level (ctx : Option TraversalCtx) (height max_height : Nat)
  | alloc (ctx : Option TraversalCtx) (height : Nat)
  | search_again (node : NodePtr) (level : Nat) (pc : SearchPc)
  | store_next (node : NodePtr) (level : Nat) (ctx : TraversalCtx)
  | cas_next (node : NodePtr) (level : Nat) (ctx : TraversalCtx)

def xorshift (seed : BitVec 64) : BitVec 64 :=
  let seed := seed ^^^ (seed <<< 12)
  let seed := seed ^^^ (seed >>> 25)
  seed ^^^ (seed <<< 27)

/-- The loop that is meant to lower the height to a level in use: it tests the
address of a tower slot, which is never null. -/
def lower_height (height : Nat) : Nat :=
  if 4 ≤ height then lower_height (height - 1) else height

def random_height (seed : BitVec 64) : Nat :=
  lower_height (min MAX_HEAD_HEIGHT (seed.ctz.toNat + 1))

/-- A store of the successor, if there is one, goes before the exchange. -/
def link_level (node : NodePtr) (level : Nat) (ctx : TraversalCtx) : InsertPc :=
  if (ctx.successors level).isSome then .store_next node level ctx else .cas_next node level ctx

/-- What an insertion returns; `none` is a panic of the arena. -/
abbrev Inserted := Option NodePtr

/-- One atomic access of an insertion whose key and value fit a node. `choice` makes a weak
exchange fail where it need not, and the arena refuse the node. -/
def insert_step (call : InsertCall) (choice : Bool) (s : SkipList) :
    InsertPc → SkipList × Progress InsertPc Inserted
  | .search pc =>
    (s, match search_step cmp s call.key pc with
      | .next pc => .next (.search pc)
      | .done ctx =>
        match ctx.searched_node with
        | some node => .done (some node)
        | none => .next (.fetch_add_entries (some ctx)))
  | .fetch_add_entries ctx => ({ s with entries := s.entries + 1 }, .next (.load_seed ctx))
  | .load_seed ctx => (s, .next (.store_seed ctx s.seed))
  | .store_seed ctx seed =>
    ({ s with seed := xorshift seed }, .next (.load_max_level ctx (random_height (xorshift seed))))
  | .load_max_level ctx height =>
    (s, if s.max_level < height then .next (.cas_max_level ctx height s.max_level)
      else .next (.alloc ctx height))
  | .cas_max_level ctx height max_height =>
    if s.max_level = max_height ∧ choice = false then
      ({ s with max_level := height }, .next (.alloc ctx height))
    else
      (s, if s.max_level < height then .next (.cas_max_level ctx height s.max_level)
        else .next (.alloc ctx height))
  | .alloc ctx height =>
    if choice then (s, .done none)
    else
      let node := s.allocated
      ({ s with
        allocated := s.allocated + 1
        nodes := Function.update s.nodes node (Node.write height call.key call.value)
        next := Function.update s.next node fun _ => none },
        match ctx with
        | some ctx => .next (link_level node 0 ctx)
        | none => .next (.search_again node 0 .load_max_level))
  | .search_again node level pc =>
    (s, match search_step cmp s (call.search_key (s.nodes node)) pc with
      | .next pc => .next (.search_again node level pc)
      | .done ctx =>
        match ctx.searched_node, level with
        | some found, 0 => .done (some found)
        | _, _ => .next (link_level node level ctx))
  | .store_next node level ctx =>
    (s.set_next node level (ctx.successors level), .next (.cas_next node level ctx))
  | .cas_next node level ctx =>
    let pred := ctx.predecessors level
    if s.next pred level = ctx.successors level then
      (s.set_next pred level (some node),
        if level + 1 < (s.nodes node).height then .next (link_level node (level + 1) ctx)
        else .done (some node))
    else (s, .next (.search_again node level .load_max_level))

/-- `insert` searches before it allocates, `insert_with` after. -/
def InsertCall.start : InsertCall → InsertPc
  | insert _ _ => .search .load_max_level
  | insert_with _ _ => .fetch_add_entries none

/-- A thread with its running insertion; `returned` is the history of the
insertions that returned a node. -/
structure InsertThread where
  running : Option (InsertCall × InsertPc)
  returned : List (InsertCall × NodePtr)

inductive InsertAct where
  | start (call : InsertCall)
  | step (choice : Bool)
  deriving DecidableEq, Repr

def skip_list_step : InsertAct → SkipList → InsertThread → Option (SkipList × InsertThread)
  | .start call, s, { running := none, returned } =>
    some (s, { running := some (call, call.start), returned })
  | .step choice, s, { running := some (call, pc), returned } =>
    let (s, progress) := insert_step cmp call choice s pc
    some (s, match progress with
      | .next pc => { running := some (call, pc), returned }
      | .done none => { running := none, returned }
      | .done (some node) => { running := none, returned := returned ++ [(call, node)] })
  | _, _, _ => none

/-- Any number of threads inserting into one list. -/
def skip_list_system (Tid : Type) : System Tid InsertAct SkipList InsertThread where
  shared₀ := .new
  local₀ := { running := none, returned := [] }
  step := fun _ => skip_list_step cmp

end ordinum.mem_skip_list
