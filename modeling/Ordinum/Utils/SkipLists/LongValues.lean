import Ordinum.Utils.SkipLists.ArenaSafety

open interleaving interleaving.System wire
open ordinum.arena ordinum.key ordinum.utils

namespace ordinum.mem_skip_list

/-- The insertion with this value in the place of an empty one. -/
def InsertCall.stretch (long : List Byte) : InsertCall → InsertCall
  | .insert key [] => .insert key long
  | .insert_with key [] => .insert_with key long
  | call => call

namespace ArenaInsertThread

def stretch (long : List Byte) (l : ArenaInsertThread) : ArenaInsertThread where
  running := l.running.map fun r => (r.1.stretch long, r.2)
  returned := l.returned.map fun r => (r.1.stretch long, r.2)

/-- The next access fills a node with an empty value. -/
def copies_empty (l : ArenaInsertThread) : Bool :=
  match l.running with
  | some (call, .copy_entry _ _ _) => call.value.isEmpty
  | _ => false

end ArenaInsertThread

variable {Tid : Type} {cmp : Comparator} {policy : ArenaPolicy} {long : List Byte}

/-- Runs on keys that fit their nodes, in which no empty value has been copied yet. -/
def before_copy (policy : ArenaPolicy) :
    StepCondition Tid ArenaInsertAct (ArenaList Tid) ArenaInsertThread := fun t a s l =>
  memory_of InsertCall.KeyFits policy t a s l ∧ l.copies_empty = false

instance (t : Tid) (a : ArenaInsertAct) (s : ArenaList Tid) (l : ArenaInsertThread) :
    Decidable (before_copy policy t a s l) :=
  inferInstanceAs (Decidable (_ ∧ _))

section stretch

theorem key_stretch (call : InsertCall) : (call.stretch long).key = call.key := by
  rcases call with ⟨key, _ | _⟩ | ⟨key, _ | _⟩ <;> rfl

theorem start_stretch (call : InsertCall) : (call.stretch long).start = call.start := by
  rcases call with ⟨key, _ | _⟩ | ⟨key, _ | _⟩ <;> rfl

theorem search_key_stretch (l : ArenaList Tid) (node : Nat) (call : InsertCall) :
    l.search_key node (call.stretch long) = l.search_key node call := by
  rcases call with ⟨key, _ | _⟩ | ⟨key, _ | _⟩ <;> rfl

/-- Cut to 32 bits, the length of the value is what it was. -/
theorem value_stretch (hlong : long.length % 2 ^ 32 = 0) (call : InsertCall) :
    (call.stretch long).value.length % 2 ^ 32 = call.value.length % 2 ^ 32 := by
  rcases call with ⟨key, _ | _⟩ | ⟨key, _ | _⟩
  · exact hlong
  · rfl
  · exact hlong
  · rfl

theorem stretch_of_not_empty {call : InsertCall} (h : call.value.isEmpty = false) :
    call.stretch long = call := by
  rcases call with ⟨key, _ | _⟩ | ⟨key, _ | _⟩
  · cases h
  · rfl
  · cases h
  · rfl

/-- The value matters to an insertion only where it is copied. -/
theorem insert_step_stretch (hlong : long.length % 2 ^ 32 = 0) (t : Tid) (call : InsertCall)
    (choice : AllocChoice) (l : ArenaList Tid) {pc : ArenaInsertPc}
    (hpc : ∀ ctx height node, pc = .copy_entry ctx height node → call.value.isEmpty = false) :
    l.insert_step cmp policy t (call.stretch long) choice pc =
      l.insert_step cmp policy t call choice pc := by
  have hkey : (call.stretch long).key = call.key := key_stretch call
  have hvalue := value_stretch hlong call
  have hvalue' : BitVec.ofNat 32 (call.stretch long).value.length =
      BitVec.ofNat 32 call.value.length := by
    apply BitVec.eq_of_toNat_eq
    rw [BitVec.toNat_ofNat, BitVec.toNat_ofNat]
    exact hvalue
  cases pc with
  | alloc_raw => rfl
  | init_node ctx height node => simp only [ArenaList.insert_step, hkey, hvalue']
  | copy_entry ctx height node => rw [stretch_of_not_empty (hpc ctx height node rfl)]
  | list pc =>
    cases pc with
    | search pc => simp only [ArenaList.insert_step, hkey]
    | alloc ctx height => simp only [ArenaList.insert_step, ArenaList.alloc, hkey, hvalue]
    | search_again node level pc => simp only [ArenaList.insert_step, search_key_stretch]
    | _ => rfl

theorem stretch_after (returned : List (InsertCall × Nat)) (call : InsertCall)
    (progress : Progress ArenaInsertPc Inserted) :
    (ArenaInsertThread.after returned call progress).stretch long =
      .after (returned.map fun r => (r.1.stretch long, r.2)) (call.stretch long) progress := by
  cases progress with
  | next pc => rfl
  | done inserted =>
    cases inserted with
    | none => rfl
    | some node => simp [ArenaInsertThread.after, ArenaInsertThread.stretch]

theorem running_stretch (l : ArenaInsertThread) : (l.stretch long).running.map Prod.fst =
    (l.running.map Prod.fst).map (InsertCall.stretch long) := by
  rw [ArenaInsertThread.stretch, Option.map_map, Option.map_map]
  rfl

/-- Up to where empty values are copied, a run is one with long values in their place. -/
theorem contains_stretched (l₀ : ArenaList Tid) (hlong : long.length % 2 ^ 32 = 0) :
    (arena_list_system cmp policy l₀).Contains (arena_list_system cmp policy l₀)
      (before_copy policy) (memory_of InsertCall.KeyFits policy) id (.stretch long) := by
  intro t a s l r hG hr
  obtain ⟨hkeys, hcopies⟩ := hG
  obtain ⟨call, rfl, hidle, rfl⟩ | ⟨call, pc, choice, next, rfl, hrunning, hnext, rfl⟩ :=
    arena_list_step_cases hr
  · refine .inr ⟨.start (call.stretch long), ?_, ?_⟩
    · show (call.stretch long).key.length < 2 ^ 16
      rw [key_stretch]
      exact hkeys
    · obtain ⟨running, returned⟩ := l
      obtain rfl : running = none := hidle
      simp only [ArenaInsertThread.stretch, arena_list_system, arena_list_step, Option.map_none,
        Option.map_some, start_stretch, id]
  · refine .inr ⟨.step choice, ?_, ?_⟩
    · intro hpushes
      apply hkeys
      rw [← hpushes, ArenaInsertThread.arena_pc, ArenaInsertThread.arena_pc, hrunning,
        ArenaInsertThread.stretch, hrunning]
      rfl
    · obtain ⟨running, returned⟩ := l
      obtain rfl : running = some (call, pc) := hrunning
      have hsame : s.insert_step cmp policy t (call.stretch long) choice pc =
          s.insert_step cmp policy t call choice pc := by
        apply insert_step_stretch hlong
        rintro ctx height node rfl
        exact hcopies
      simp only [ArenaInsertThread.stretch, arena_list_system, arena_list_step, Option.map_some,
        hsame, id, hnext]
      rw [← stretch_after]
      rfl

end stretch

section runs

/-- A value of 4 GiB. -/
def long_value : List Byte := List.replicate (2 ^ 32) 0

/-- Blocks that hold such a value. -/
def long_policy : ArenaPolicy := ⟨2 ^ 33, 2 ^ 33⟩

theorem long_value_wraps : long_value.length % 2 ^ 32 = 0 := by
  rw [long_value, List.length_replicate, Nat.mod_self]

theorem begins_long {l₀ : ArenaList Tid} {t : Tid}
    (hnew : ArenaList.new long_policy t 64 (fun _ => 7) = some l₀) : Begins long_policy l₀ :=
  ⟨⟨by decide, by decide, by decide, by decide⟩, t, 64, fun _ => 7, by decide, by decide, hnew⟩

/-- One thread is about to fill its node when another inserts `[5]` behind it. -/
def insert_behind : List (Bool × ArenaInsertAct) :=
  (false, .start (.insert_with [3#8] [])) :: List.replicate 11 (false, .step {}) ++
    (true, .start (.insert [5#8] [1#8])) :: List.replicate 15 (true, .step {})

/-- What a thread has returned, and the first node of the base level with its key. -/
def returned_and_first (c : Config Bool (ArenaList Bool) ArenaInsertThread) :
    List (InsertCall × Nat) × Option (Nat × List Byte) :=
  ((c.threads true).returned, (Node.load_next c.shared.memory c.shared.sentinel 0).map fun node =>
    (node, Node.get_key_bytes c.shared.memory node))

/-- A value of 4 GiB is copied over the node that comes next in memory: a linked node loses its
key, and its insertion has not returned a node with that key. -/
theorem long_value_overwrites_node : ∃ (l₀ : ArenaList Bool)
      (c d : Config Bool (ArenaList Bool) ArenaInsertThread), Begins long_policy l₀ ∧
    (arena_list_system DefaultComparator long_policy l₀).ReachableUnder
      (memory_of InsertCall.KeyFits long_policy) c ∧
    (arena_list_system DefaultComparator long_policy l₀).StepsUnder
      (memory_of InsertCall.KeyFits long_policy) c d ∧
    (c.threads false).running.map Prod.fst = some (.insert_with [3#8] long_value) ∧
    returned_and_first c = ([(.insert [5#8] [1#8], 160)], some (160, [5#8])) ∧
    returned_and_first d = ([(.insert [5#8] [1#8], 160)], some (160, [])) ∧
    ¬ MemorySafe DefaultComparator long_policy
      (arena_list_system DefaultComparator long_policy l₀) d := by
  have hruns : ((ArenaList.new long_policy true 64 fun _ => 7).bind fun l₀ =>
      ((arena_list_system DefaultComparator long_policy l₀).run_under (before_copy long_policy)
        (arena_list_system DefaultComparator long_policy l₀).init insert_behind).bind fun c =>
      ((arena_list_system DefaultComparator long_policy l₀).run_under
        (memory_of InsertCall.KeyFits long_policy)
        (part_config id (ArenaInsertThread.stretch long_value) c) [(false, .step {})]).map fun d =>
      decide ((c.threads false).running.map Prod.fst = some (.insert_with [3#8] []) ∧
        returned_and_first (part_config id (ArenaInsertThread.stretch long_value) c) =
          ([(.insert [5#8] [1#8], 160)], some (160, [5#8])) ∧
        returned_and_first d = ([(.insert [5#8] [1#8], 160)], some (160, [])))) = some true := by
    decide +kernel
  obtain ⟨l₀, hnew, hrun⟩ := Option.bind_eq_some_iff.mp hruns
  obtain ⟨c, d, hc, hcd, hseen⟩ := (contains_stretched l₀ long_value_wraps).steps_showing rfl rfl
    _ _ _ hrun
  obtain ⟨hcall, hbefore, hafter⟩ := of_decide_eq_true hseen
  refine ⟨l₀, _, d, begins_long hnew, hc, hcd, ?_, hbefore, hafter, fun hsafe => ?_⟩
  · exact (running_stretch (c.threads false)).trans (congrArg _ hcall)
  · obtain ⟨hreturned, hfirst⟩ := Prod.mk.inj hafter
    obtain ⟨node, -, hnode⟩ := Option.map_eq_some_iff.mp hfirst
    obtain ⟨rfl, hempty⟩ := Prod.mk.inj hnode
    obtain ⟨xs, -, -, hkeys⟩ := hsafe.sorted
    obtain ⟨-, hkey⟩ := hkeys true (.insert [5#8] [1#8]) 160
      (hreturned ▸ List.mem_singleton_self _)
    rw [hempty] at hkey
    cases hkey

/-- The keys of a thread's insertions with the nodes that they returned, and the byte at an
address behind the only block. -/
def returned_and_behind (c : Config Bool (ArenaList Bool) ArenaInsertThread) :
    List (List Byte × Nat) × Byte :=
  ((c.threads true).returned.map fun r => (r.1.key, r.2), c.shared.memory 1000)

/-- `[5]` is inserted. -/
def insert_once : List (Bool × ArenaInsertAct) :=
  (true, .start (.insert [5#8] [1#8])) :: List.replicate 15 (true, .step {})

/-- The key of the list, again with a value of 4 GiB: in `c` `insert` has returned the node that
is there, from `d` to `e` `insert_with` copies the value past the end of the arena. -/
structure LeavesBlock (l₀ : ArenaList Bool)
    (c d e : Config Bool (ArenaList Bool) ArenaInsertThread) : Prop where
  begins : Begins two_inserts_policy l₀
  insert : (arena_list_system DefaultComparator two_inserts_policy l₀).ReachableUnder
    (memory_of InsertCall.KeyFits two_inserts_policy) c
  insert_with : (arena_list_system DefaultComparator two_inserts_policy l₀).ReachableUnder
    (memory_of InsertCall.KeyFits two_inserts_policy) d
  copies : (arena_list_system DefaultComparator two_inserts_policy l₀).StepsUnder
    (memory_of InsertCall.KeyFits two_inserts_policy) d e
  running : (d.threads true).running.map Prod.fst = some (.insert_with [5#8] long_value)
  unwritten : returned_and_behind c = ([([5#8], 136), ([5#8], 136)], 7) ∧
    returned_and_behind d = ([([5#8], 136)], 7)
  written : returned_and_behind e = ([([5#8], 136)], 0)

theorem long_value_leaves_block : ∃ l₀ c d e, LeavesBlock l₀ c d e := by
  have hinsert : ((ArenaList.new two_inserts_policy true 64 fun _ => 7).bind fun l₀ =>
      ((arena_list_system DefaultComparator two_inserts_policy l₀).run_under
        (memory_of InsertCall.KeyFits two_inserts_policy)
        (arena_list_system DefaultComparator two_inserts_policy l₀).init (insert_once ++
          (true, .start (.insert [5#8] long_value)) :: List.replicate 3 (true, .step {}))).map
      returned_and_behind) = some ([([5#8], 136), ([5#8], 136)], 7) := by
    decide +kernel
  have hinsert_with : ((ArenaList.new two_inserts_policy true 64 fun _ => 7).bind fun l₀ =>
      ((arena_list_system DefaultComparator two_inserts_policy l₀).run_under
        (before_copy two_inserts_policy)
        (arena_list_system DefaultComparator two_inserts_policy l₀).init (insert_once ++
          (true, .start (.insert_with [5#8] [])) :: List.replicate 11 (true, .step {}))).bind
      fun d => ((arena_list_system DefaultComparator two_inserts_policy l₀).run_under
        (memory_of InsertCall.KeyFits two_inserts_policy)
        (part_config id (ArenaInsertThread.stretch long_value) d) [(true, .step {})]).map fun e =>
      decide ((d.threads true).running.map Prod.fst = some (.insert_with [5#8] []) ∧
        returned_and_behind (part_config id (ArenaInsertThread.stretch long_value) d) =
          ([([5#8], 136)], 7) ∧
        returned_and_behind e = ([([5#8], 136)], 0))) = some true := by
    decide +kernel
  obtain ⟨l₀, hnew, hrun⟩ := Option.bind_eq_some_iff.mp hinsert
  obtain ⟨c, hc, hseen⟩ := reachable_showing _ _ _ _ _ hrun
  rw [hnew, Option.bind_some] at hinsert_with
  obtain ⟨d, e, hd, hde, hseen'⟩ := (contains_stretched l₀ long_value_wraps).steps_showing rfl rfl
    _ _ _ hinsert_with
  obtain ⟨hcall, hbefore, hafter⟩ := of_decide_eq_true hseen'
  have hbegins : Begins two_inserts_policy l₀ := ⟨⟨by decide, by decide, by decide, by decide⟩,
    true, 64, fun _ => 7, by decide, by decide, hnew⟩
  exact ⟨l₀, c, _, e, hbegins, hc, hd, hde,
    (running_stretch (d.threads true)).trans (congrArg _ hcall), ⟨hseen, hbefore⟩, hafter⟩

end runs

end ordinum.mem_skip_list
