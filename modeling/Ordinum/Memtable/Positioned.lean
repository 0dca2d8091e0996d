import Ordinum.Memtable.Iterator
import Ordinum.Utils.SkipLists.RangeScan

open interleaving interleaving.System
open ordinum.key ordinum.mem_skip_list ordinum.utils

namespace ordinum.memtable

def iter (s : SkipList) : MemtableIterator :=
  { item := s.next sentinel 0, current := none }

/-- `none` is out of fuel. -/
def iter_from (cmp : Comparator) (fuel : Nat) (s : SkipList) (key : List Byte) :
    Option MemtableIterator :=
  (search_node cmp fuel s key).map fun item => { item, current := none }

namespace MemtableIterator

def seek_to_first (s : SkipList) (_ : MemtableIterator) : MemtableIterator :=
  let item := s.next sentinel 0
  { item, current := item }

/-- `none` is out of fuel. -/
def seek (cmp : Comparator) (fuel : Nat) (s : SkipList) (key : List Byte)
    (_ : MemtableIterator) : Option MemtableIterator :=
  (search_node cmp fuel s key).map fun item => { item, current := item }

def next (s : SkipList) (self : MemtableIterator) : MemtableIterator :=
  match self.current with
  | some curr => { self with current := s.next curr 0 }
  | none => { self with current := none }

/-- `none` is a panic. -/
def key (s : SkipList) (self : MemtableIterator) : Option (List Byte) :=
  self.current.map fun curr => (s.nodes curr).key

/-- `none` is a panic. -/
def value (s : SkipList) (self : MemtableIterator) : Option (List Byte) :=
  self.current.map fun curr => (s.nodes curr).value

/-- Read the entries until the iterator is no longer valid; `none` is out of fuel. -/
def drain (s : SkipList) : Nat → MemtableIterator → Option (List (List Byte × List Byte))
  | 0, _ => none
  | fuel + 1, self =>
    if self.valid then do
      let entry := (← self.key s, ← self.value s)
      (drain s fuel (self.next s)).map (entry :: ·)
    else some []

end MemtableIterator

/-- With enough fuel the iterator is positioned, and these are the entries that it
yields. -/
def Drains (s : SkipList) (positioned : Nat → Option MemtableIterator)
    (entries : List (List Byte × List Byte)) : Prop :=
  ∃ enough, ∀ fuel, enough ≤ fuel →
    (positioned fuel).bind (MemtableIterator.drain s fuel) = some entries

def entry_at (s : SkipList) (node : NodePtr) : List Byte × List Byte :=
  ((s.nodes node).key, (s.nodes node).value)

/-- The calls of an iterator that do not search are single loads. -/
theorem iterator_step_loads (cmp : Comparator) (s : SkipList) (self : MemtableIterator)
    (sought : Option Sought) :
    (iterator_step cmp .iter s { iterator := self, seeking := none, sought }).map
        IteratorThread.iterator = some (iter s) ∧
      (iterator_step cmp .seek_to_first s { iterator := self, seeking := none, sought }).map
        IteratorThread.iterator = some (self.seek_to_first s) ∧
      (iterator_step cmp .next s { iterator := self, seeking := none, sought }).map
        IteratorThread.iterator = some (self.next s) := by
  refine ⟨rfl, rfl, ?_⟩
  obtain ⟨item, _ | curr⟩ := self <;> rfl

variable (cmp : Comparator) {s : SkipList} {levels : Nat → List NodePtr}

/-- `iter` and `seek` yield these nodes, which are the ones from the key on, in the
comparator's order; `seek_to_first` does where no key is left of it. -/
structure SeekYields (s : SkipList) (key : List Byte) (nodes : List NodePtr) : Prop where
  sorted : nodes.Pairwise (KeyLt cmp s)
  mem : ∀ node, node ∈ nodes ↔ OnLevel s 0 node ∧ cmp.compare (s.nodes node).key key ≠ .lt
  seek : Drains s (fun fuel => (iter s).seek cmp fuel s key) (nodes.map (entry_at s))
  seek_to_first : (∀ node, OnLevel s 0 node → cmp.compare (s.nodes node).key key ≠ .lt) →
    Drains s (fun _ => some ((iter s).seek_to_first s)) (nodes.map (entry_at s))

/-- The iterators that are positioned at a key yield the same sequence. -/
def IteratorsAgree (s : SkipList) (key : List Byte) : Prop :=
  ∃ nodes, SeekYields cmp s key nodes ∧
    Drains s (fun fuel => iter_from cmp fuel s key) (nodes.map (entry_at s))

variable {cmp}

theorem Drains.unique {positioned : Nat → Option MemtableIterator}
    {entries entries' : List (List Byte × List Byte)} (h : Drains s positioned entries)
    (h' : Drains s positioned entries') : entries = entries' := by
  obtain ⟨enough, hruns⟩ := h
  obtain ⟨enough', hruns'⟩ := h'
  have hsame := (hruns (enough + enough') (Nat.le_add_right ..)).symm.trans
    (hruns' (enough + enough') (Nat.le_add_left ..))
  exact Option.some.inj hsame

/-- An iterator yields the entries of the chain that it is at. -/
theorem drain_chain {xs : List NodePtr} : ∀ {item current : Option NodePtr},
    linked.IsChain (fun node => s.next node 0) current xs → ∀ fuel, xs.length < fuel →
      MemtableIterator.drain s fuel { item, current } = some (xs.map (entry_at s)) := by
  induction xs with
  | nil =>
    rintro item current hchain (_ | fuel) hfuel
    · cases hfuel
    · obtain rfl : current = none := hchain
      rfl
  | cons x xs ih =>
    rintro item current ⟨rfl, hchain⟩ (_ | fuel) hfuel
    · cases hfuel
    · have hrest : MemtableIterator.drain s fuel { item, current := s.next x 0 } =
          some (xs.map (entry_at s)) := ih hchain fuel (Nat.lt_of_succ_lt_succ hfuel)
      have hnext : MemtableIterator.next s { item, current := some x } =
          { item, current := s.next x 0 } := rfl
      have hvalid : MemtableIterator.valid { item, current := some x } = true := rfl
      rw [MemtableIterator.drain, if_pos hvalid, hnext, hrest]
      rfl

/-- An iterator that is not valid yields nothing. -/
theorem drain_invalid (item : Option NodePtr) {fuel : Nat} (hfuel : 0 < fuel) :
    MemtableIterator.drain s fuel { item, current := none } = some [] := by
  obtain ⟨fuel, rfl⟩ := Nat.exists_eq_succ_of_ne_zero (Nat.ne_of_gt hfuel)
  rfl

section positioned

variable (h : WellFormed cmp s levels) (key : List Byte)

include h

theorem iter_from_drains : Drains s (fun fuel => iter_from cmp fuel s key) [] := by
  obtain ⟨ctx, -, enough, hruns⟩ := h.search_runs key
  refine ⟨enough + 1, fun fuel hfuel => ?_⟩
  obtain ⟨-, hnode, -⟩ := hruns fuel (Nat.le_of_succ_le hfuel)
  simp only [iter_from, hnode, Option.map_some, Option.bind_some]
  exact drain_invalid _ (Nat.lt_of_lt_of_le (Nat.succ_pos enough) hfuel)

theorem seek_drains (self : MemtableIterator) :
    Drains s (fun fuel => self.seek cmp fuel s key)
      ((scanned cmp s (.Included key) (levels 0)).map (entry_at s)) := by
  obtain ⟨ctx, -, enough, hruns⟩ := h.search_runs key
  refine ⟨enough + (scanned cmp s (.Included key) (levels 0)).length + 1, fun fuel hfuel => ?_⟩
  obtain ⟨-, hnode, -⟩ := hruns fuel (by omega)
  rw [first_from_eq_head?] at hnode
  simp only [MemtableIterator.seek, hnode, Option.map_some, Option.bind_some]
  exact drain_chain (h.scanned_chain (.Included key)) fuel (by omega)

theorem seek_to_first_drains (self : MemtableIterator) :
    Drains s (fun _ => some (self.seek_to_first s)) ((levels 0).map (entry_at s)) := by
  refine ⟨(levels 0).length + 1, fun fuel hfuel => ?_⟩
  exact drain_chain (h.chain 0).2 fuel hfuel

/-- The sequence begins with the first entry where no key is left of it. -/
theorem scanned_all
    (hright : ∀ node, OnLevel s 0 node → cmp.compare (s.nodes node).key key ≠ .lt) :
    scanned cmp s (.Included key) (levels 0) = levels 0 := by
  apply List.dropWhile_eq_self_iff.mpr
  intro hl
  have hfirst := hright _ (h.towers.onLevel_iff.mpr (List.getElem_mem hl))
  simpa [Bound.from_start] using hfirst

theorem seek_yields :
    SeekYields cmp s key (scanned cmp s (.Included key) (levels 0)) where
  sorted := h.scanned_sorted (.Included key)
  mem := fun node => by
    rw [h.mem_scanned, Bound.from_start, decide_eq_true_iff]
  seek := seek_drains h key (iter s)
  seek_to_first := fun hright => by
    rw [scanned_all h key hright]
    exact seek_to_first_drains h (iter s)

end positioned

/-- `seek` yields the entries from the key on. `iter_from` yields none of them: it does so
only where there are none. -/
theorem iterators_agree_iff {Tid : Type} [DecidableEq Tid] {c : Config Tid SkipList InsertThread}
    (hc : (skip_list_system cmp Tid).ReachableUnder entries_fit c) (key : List Byte) :
    (∃ nodes, SeekYields cmp c.shared key nodes) ∧
      (IteratorsAgree cmp c.shared key ↔
        ∀ node, OnLevel c.shared 0 node → cmp.compare (c.shared.nodes node).key key = .lt) := by
  obtain ⟨levels, h⟩ := wellFormed_of_reachable hc
  have hyields := seek_yields h key
  have hnothing := iter_from_drains h key
  refine ⟨⟨_, hyields⟩, ?_, fun hleft => ?_⟩
  · rintro ⟨nodes, hnodes, hfrom⟩ node hnode
    obtain rfl : nodes = [] := List.map_eq_nil_iff.mp (hfrom.unique hnothing)
    by_contra hright
    exact absurd ((hnodes.mem node).mpr ⟨hnode, hright⟩) List.not_mem_nil
  · have hempty : scanned cmp c.shared (.Included key) (levels 0) = [] := by
      apply List.eq_nil_iff_forall_not_mem.mpr
      intro node hnode
      obtain ⟨hlevel, hright⟩ := (hyields.mem node).mp hnode
      exact hright (hleft node hlevel)
    refine ⟨_, hyields, ?_⟩
    rw [hempty]
    exact hnothing

/-- In a memtable of one entry. -/
theorem iterators_agree_iff_single :
    ∃ c, (skip_list_system InternalKeyComparator Unit).ReachableUnder entries_fit c ∧
      c.shared.allocated = 2 ∧
      (IteratorsAgree InternalKeyComparator c.shared (encode [] 1 .Put) ↔
        ∀ node, OnLevel c.shared 0 node → InternalKeyComparator.compare (c.shared.nodes node).key
          (encode [] 1 .Put) = .lt) := by
  obtain ⟨c, hc, hseen⟩ := reachable_showing (skip_list_system InternalKeyComparator Unit) entries_fit
    (insert_each 8 [encode [] 2 .Put]) (fun c => c.shared.allocated) 2 (by decide +kernel)
  exact ⟨c, hc, hseen, (iterators_agree_iff hc _).2⟩

/-- `iter_from` of the only key yields nothing. -/
theorem iter_from_misses_entry :
    ∃ c, (skip_list_system InternalKeyComparator Unit).ReachableUnder entries_fit c ∧
      ¬ IteratorsAgree InternalKeyComparator c.shared (encode [] 2 .Put) := by
  obtain ⟨c, hc, honly, hkey⟩ := single_version
  obtain ⟨levels, h⟩ := wellFormed_of_reachable hc
  refine ⟨c, hc, ?_⟩
  rintro ⟨nodes, hnodes, hfrom⟩
  obtain rfl : nodes = [] := List.map_eq_nil_iff.mp (hfrom.unique (iter_from_drains h _))
  have hmem := (hnodes.mem 1).mpr ⟨(honly 1).mpr rfl, by rw [hkey]; decide⟩
  exact List.not_mem_nil hmem

end ordinum.memtable
