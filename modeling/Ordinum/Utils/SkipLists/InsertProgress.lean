import Mathlib.Data.Finset.Card
import Mathlib.Data.Finset.Range
import Ordinum.Utils.SkipLists.ConcurrentSearch
import Ordinum.Utils.SkipLists.InsertAlone

open interleaving interleaving.System
open ordinum.key ordinum.utils

namespace ordinum.mem_skip_list

section search

variable (cmp : Comparator)

/-- The nodes to the right of a predecessor, whether they are linked or not. -/
def right_of (s : SkipList) (pred : NodePtr) : Nat :=
  if pred = sentinel then s.allocated
  else ((Finset.range s.allocated).filter fun node =>
    cmp.compare (s.nodes pred).key (s.nodes node).key = .lt).card

/-- The loads that a search has left at most. It depends on no link: a walk comes to
each node once, wherever it is linked meanwhile. -/
def search_left (s : SkipList) : SearchPc → Nat
  | .load_max_level => s.allocated + MAX_HEAD_HEIGHT + 2
  | .skip_levels level => s.allocated + level + 2
  | .walk _ level pred => right_of cmp s pred + level + 1

variable {cmp} {s s' : SkipList} {levels : Nat → List NodePtr} {key : List Byte}

end search

section settled

variable {cmp : Comparator} {s s' : SkipList} {levels : Nat → List NodePtr} {key : List Byte}
  {level : Nat}

/-- At the level the context says what the link is now. -/
def CurrentAt (s : SkipList) (level : Nat) (ctx : TraversalCtx) : Prop :=
  s.next (ctx.predecessors level) level = ctx.successors level

instance (s : SkipList) (level : Nat) (ctx : TraversalCtx) : Decidable (CurrentAt s level ctx) :=
  inferInstanceAs (Decidable (_ = _))

/-- The search ends with a context that is current at the level, unless a node is linked
there before. -/
def Settled (s : SkipList) (level : Nat) : SearchPc → Prop
  | .load_max_level => True
  | .skip_levels l => l < level → s.next sentinel level = none
  | .walk ctx l _ => l < level → CurrentAt s level ctx

instance (s : SkipList) (level : Nat) (pc : SearchPc) : Decidable (Settled s level pc) :=
  match pc with
  | .load_max_level => .isTrue trivial
  | .skip_levels l => inferInstanceAs (Decidable (l < level → s.next sentinel level = none))
  | .walk ctx l _ => inferInstanceAs (Decidable (l < level → CurrentAt s level ctx))

end settled

section insert

variable (cmp : Comparator)

/-- What a failed exchange costs at most: one more search. -/
def retry_left (s : SkipList) : Nat := search_left cmp s .load_max_level + 3

/-- The accesses that an insertion has left until it owns a node, links it at a level
or raises `max_level`, if the others do none of these. -/
def insert_left (s : SkipList) : InsertPc → Nat
  | .search pc => search_left cmp s pc + 7
  | .fetch_add_entries _ => 6
  | .load_seed _ => 5
  | .store_seed _ _ => 4
  | .load_max_level _ _ => 3
  | .cas_max_level _ _ max_height => if s.max_level = max_height then 1 else 2
  | .alloc _ _ => 0
  | .search_again _ level pc =>
    search_left cmp s pc + 3 + if Settled s level pc then 0 else retry_left cmp s
  | .store_next _ level ctx => 2 + if CurrentAt s level ctx then 0 else retry_left cmp s
  | .cas_next _ level ctx => 1 + if CurrentAt s level ctx then 0 else retry_left cmp s

/-- The levels that an insertion has still to link its node at, if it owns one. -/
def insert_work (s : SkipList) : InsertPc → Nat
  | .search_again node level _ | .store_next node level _ | .cas_next node level _ =>
    (s.nodes node).height - level
  | _ => MAX_HEAD_HEIGHT + 1

/-- No node is allocated, and the links of the levels stay. -/
structure SameLinks (s s' : SkipList) : Prop where
  nodes : s'.nodes = s.nodes
  allocated : s'.allocated = s.allocated
  next : ∀ l node, node = sentinel ∨ OnLevel s l node → s'.next node l = s.next node l

/-- An access that is not the last one brings the insertion forward. -/
def Forward (s : SkipList) (pc : InsertPc) (s' : SkipList) (pc' : InsertPc) : Prop :=
  insert_work s' pc' < insert_work s pc ∨ insert_work s' pc' = insert_work s pc ∧
    SameLinks s s' ∧ (s.max_level < s'.max_level ∧ s'.max_level ≤ MAX_HEAD_HEIGHT ∨
      s'.max_level = s.max_level ∧ insert_left cmp s' pc' < insert_left cmp s pc)

variable {cmp} {s s' : SkipList} {levels : Nat → List NodePtr} {call : InsertCall}

theorem SameLinks.refl (s : SkipList) : SameLinks s s :=
  ⟨rfl, rfl, fun _ _ _ => rfl⟩

/-- A store to a node that is not linked at the level. -/
theorem SameLinks.set_next {node : NodePtr} {level : Nat} (hne : node ≠ sentinel)
    (hunlinked : ¬ OnLevel s level node) (succ : Option NodePtr) :
    SameLinks s (s.set_next node level succ) where
  nodes := rfl
  allocated := rfl
  next := by
    intro l n hn
    by_cases hl : l = level
    · subst hl
      have hother : n ≠ node := by
        rintro rfl
        exact hn.elim hne hunlinked
      rw [congrFun (set_next_same s node l _) n, Function.update_of_ne hother]
    · exact congrFun (set_next_other s node _ hl) n

end insert

section others

variable {cmp : Comparator} {s s' : SkipList} {call : InsertCall}

end others

end ordinum.mem_skip_list
