import Ordinum.Interleaving.TraceInclusion
import Ordinum.Memtable.VersionStore
import Ordinum.Utils.SkipLists.LongValues

open interleaving interleaving.System wire
open ordinum.arena ordinum.key ordinum.mem_skip_list ordinum.utils

namespace ordinum.memtable

variable {Tid : Type}

/-- One load of `get` from the list in memory, where pointers are addresses. -/
def arena_get_load (key : List Byte) (l : ArenaList Tid) :
    GetPc → Progress GetPc (Option MemReturn)
  | .search pc =>
    match l.search_step InternalKeyComparator key pc with
    | .next pc => .next (.search pc)
    | .done ctx => .next (.read (ctx.successors 0))
  | .read found => .done (get_return key (found.map l.entry))

def arena_get_step : GetAct → ArenaList Tid → GetThread → Option GetThread
  | .get key, _, { running := none, returned } =>
    some { running := some (key, .search .load_max_level), returned }
  | .step, l, { running := some (key, pc), returned } =>
    some (match arena_get_load key l pc with
      | .next pc => { running := some (key, pc), returned }
      | .done result => { running := none, returned := returned ++ [(key, result)] })
  | _, _, _ => none

/-- Any number of threads that read and insert into one memtable in memory. -/
def arena_memtable_system (policy : ArenaPolicy) (l₀ : ArenaList Tid) :
    System Tid (ObservingAct ArenaInsertAct GetAct) (ArenaList Tid)
      (Observing ArenaInsertThread GetThread) :=
  (arena_list_system InternalKeyComparator policy l₀).observed { running := none, returned := [] }
    arena_get_step

section relations

variable {nodes : List Extent}

/-- Reads at the same point. -/
inductive GetRel (nodes : List Extent) : GetPc → GetPc → Prop
  | search {pc pc' : SearchPc} (h : SearchRel nodes pc pc') :
    GetRel nodes (.search pc) (.search pc')
  | read {found found' : Option Nat} (h : Option.Rel (Points nodes) found found') :
    GetRel nodes (.read found) (.read found')

/-- A thread reads the same, and its reads have returned the same. -/
structure GetThreadRel (nodes : List Extent) (l l' : GetThread) : Prop where
  running : Option.Rel (fun p q => p.1 = q.1 ∧ GetRel nodes p.2 q.2) l.running l'.running
  returned : l.returned = l'.returned

theorem GetRel.append {pc pc' : GetPc} (h : GetRel nodes pc pc') (more : List Extent) :
    GetRel (nodes ++ more) pc pc' := by
  cases h with
  | search h => exact .search (h.append more)
  | read h => exact .read (option_rel_mono (fun _ _ hpoints => hpoints.append) h)

theorem GetThreadRel.append {l l' : GetThread} (h : GetThreadRel nodes l l')
    (more : List Extent) : GetThreadRel (nodes ++ more) l l' where
  running := option_rel_mono (fun _ _ hrel => ⟨hrel.1, hrel.2.append more⟩) h.running
  returned := h.returned

variable {l : ArenaList Tid} {s : SkipList} {levels : Nat → List NodePtr} {key : List Byte}

end relations

section runs

variable [DecidableEq Tid] {policy : ArenaPolicy} {l₀ : ArenaList Tid}
  {c : Config Tid (ArenaList Tid × List (Event (Tid × Role) MemtableOp MemtableRet))
    (Observing ArenaInsertThread GetThread × Unit)}

end runs

section long_values

/-- A call of `get` that leaves the memory as it is. -/
def arena_get_alone (key : List Byte) (l : ArenaList Tid) (pc : GetPc) :
    ArenaList Tid × Progress GetPc (Option MemReturn) :=
  (l, arena_get_load key l pc)

/-- `none` is out of fuel or a panic. -/
def arena_get (fuel : Nat) (l : ArenaList Tid) (key : List Byte) : Option MemReturn :=
  (run_alone (arena_get_alone key) fuel l (.search .load_max_level)).bind Prod.snd

/-- A value of 4 GiB that, behind a node of 25 bytes, is the node of the first put with another
value. -/
def long_image : List Byte :=
  (List.replicate 7 0 ++ [1, 0, 8, 0, 1, 0, 0, 0] ++ List.replicate 8 0 ++
    key.encode [] 1 .Put ++ [2]) ++ List.replicate (2 ^ 32 - 32) 0

theorem long_image_wraps : long_image.length % 2 ^ 32 = 0 := by
  rw [long_image, List.length_append, List.length_replicate]
  rfl

/-- One thread is about to fill its node when another puts `[1]` behind it. -/
def put_behind : List (Bool × ObservingAct ArenaInsertAct GetAct) :=
  (false, .own (.start (.insert_with (key.encode [9] 1 .Put) []))) ::
    List.replicate 11 (false, .own (.step {})) ++
    (true, .own (.start (insert (key.encode [] 1 .Put) [1]))) ::
    List.replicate 15 (true, .own (.step {}))

/-- The value is copied between the start of a `get` and its loads. -/
def fills_during_get : List (Bool × ObservingAct ArenaInsertAct GetAct) :=
  [(true, .read (.get (key.encode [] 2 .Max))), (false, .own (.step {}))] ++
    List.replicate 4 (true, .read .step)

/-- Alone a `get` would return `[1]`, and it has returned `[2]`. -/
structure ReadChanges (c d : Config Bool (ArenaList Bool) (Observing ArenaInsertThread GetThread)) :
    Prop where
  alone : arena_get 5 c.shared (key.encode [] 2 .Max) = some (.Value [1])
  idle : (c.threads true).own.running.isNone ∧ (c.threads true).reads.running.isNone ∧
    (c.threads true).reads.returned = []
  returned : (d.threads true).reads.returned =
    [(key.encode [] 2 .Max, some (.Value [2]))]

instance (c d : Config Bool (ArenaList Bool) (Observing ArenaInsertThread GetThread)) :
    Decidable (ReadChanges c d) :=
  decidable_of_iff (_ ∧ (_ ∧ _ ∧ _) ∧ _) ⟨fun h => ⟨h.1, h.2.1, h.2.2⟩,
    fun h => ⟨h.alone, h.idle, h.returned⟩⟩

/-- A value of 4 GiB, inserted for another user key, is copied over a node that a `get` reads: it
does not return what it would have returned alone. -/
theorem long_value_changes_read : ∃ (l₀ : ArenaList Bool)
      (c d : Config Bool (ArenaList Bool) (Observing ArenaInsertThread GetThread)),
    Begins long_policy l₀ ∧
    (arena_memtable_system long_policy l₀).ReachableUnder
      (underneath (memory_of InsertCall.KeyFits long_policy)) c ∧
    (arena_memtable_system long_policy l₀).StepsUnder (underneath
      (memory_of (fun call => call.KeyFits ∧ NotSeen [] 2 call.key) long_policy)) c d ∧
    (c.threads false).own.running.map Prod.fst =
      some (.insert_with (key.encode [9] 1 .Put) long_image) ∧
    (∀ t call pc, (c.threads t).own.running = some (call, pc) → NotSeen [] 2 call.key) ∧
    ReadChanges c d := by
  have hruns : ((ArenaList.new long_policy true 64 fun _ => 7).bind fun l₀ =>
      ((arena_memtable_system long_policy l₀).run_under (underneath (before_copy long_policy))
        (arena_memtable_system long_policy l₀).init put_behind).bind fun c =>
      ((arena_memtable_system long_policy l₀).run_under (underneath
        (memory_of (fun call => call.KeyFits ∧ NotSeen [] 2 call.key) long_policy))
        (part_config id (observed_part (ArenaInsertThread.stretch long_image)) c)
        fills_during_get).map fun d => decide ((c.threads false).own.running.map Prod.fst =
          some (.insert_with (key.encode [9] 1 .Put) []) ∧ ReadChanges
          (part_config id (observed_part (ArenaInsertThread.stretch long_image)) c) d)) =
      some true := by
    decide +kernel
  obtain ⟨l₀, hnew, hrun⟩ := Option.bind_eq_some_iff.mp hruns
  obtain ⟨c₀, d, hc, hcd, hseen⟩ := (contains_stretched l₀ long_image_wraps).observed.steps_showing
    rfl rfl _ _ _ hrun
  obtain ⟨hempty, hchanges⟩ := of_decide_eq_true hseen
  have hcall : ((c₀.threads false).own.stretch long_image).running.map Prod.fst =
      some (.insert_with (key.encode [9] 1 .Put) long_image) :=
    (running_stretch (c₀.threads false).own).trans (congrArg _ hempty)
  refine ⟨l₀, part_config id (observed_part (ArenaInsertThread.stretch long_image)) c₀, d,
    begins_long hnew, hc, hcd, hcall, ?_, hchanges⟩
  intro t call pc hrunning
  cases t with
  | true =>
    have hidle := hchanges.idle.1
    rw [hrunning] at hidle
    cases hidle
  | false =>
    have hlong : some call = some (.insert_with (key.encode [9] 1 .Put) long_image) :=
      (congrArg (Option.map Prod.fst) hrunning).symm.trans hcall
    rw [Option.some.inj hlong]
    exact (notSeen_encode [9] (by decide) .Put).mpr (.inl (by decide))

end long_values

end ordinum.memtable
