import Ordinum.Interleaving.Observer
import Ordinum.Utils.SkipLists.ConcurrentSearch

open interleaving interleaving.System
open ordinum.key ordinum.mem_skip_list ordinum.utils

namespace ordinum.memtable

structure MemtableIterator where
  item : Option NodePtr
  current : Option NodePtr
  deriving DecidableEq, Repr

def MemtableIterator.valid (it : MemtableIterator) : Bool := it.current.isSome

/-- History of the last call of `seek` or `seek_to_first`: the key, the list as it
was when the call began, and the nodes that have been current since. -/
structure Sought where
  bound : Option (List Byte)
  start : SkipList
  visited : List NodePtr

/-- An iterator, with the key and the search of a running `seek`. -/
structure IteratorThread where
  iterator : MemtableIterator
  seeking : Option (List Byte × SearchPc)
  sought : Option Sought

def IteratorThread.new : IteratorThread :=
  { iterator := { item := none, current := none }, seeking := none, sought := none }

inductive IteratorAct where
  | iter
  | seek_to_first
  | seek (key : List Byte)
  | next
  | step
  deriving DecidableEq, Repr

variable (cmp : Comparator)

/-- One load of an iterator's call; the loads of `seek` are those of its
search. -/
def iterator_step : IteratorAct → SkipList → IteratorThread → Option IteratorThread
  | .iter, s, { seeking := none, .. } =>
    some
      { iterator := { item := s.next sentinel 0, current := none }
        seeking := none
        sought := none }
  | .seek_to_first, s, { seeking := none, .. } =>
    let item := s.next sentinel 0
    some
      { iterator := { item, current := item }
        seeking := none
        sought := some { bound := none, start := s, visited := item.toList } }
  | .seek key, s, { iterator, seeking := none, .. } =>
    some
      { iterator
        seeking := some (key, .load_max_level)
        sought := some { bound := some key, start := s, visited := [] } }
  | .next, s, { iterator, seeking := none, sought } =>
    let current := iterator.current.bind fun curr => s.next curr 0
    some
      { iterator := { iterator with current }
        seeking := none
        sought := sought.map fun h => { h with visited := h.visited ++ current.toList } }
  | .step, s, { iterator, seeking := some (key, pc), sought } =>
    match search_step cmp s key pc with
    | .next pc => some { iterator, seeking := some (key, pc), sought }
    | .done ctx =>
      let item := ctx.successors 0
      some
        { iterator := { item, current := item }
          seeking := none
          sought := sought.map fun h => { h with visited := item.toList } }
  | _, _, _ => none

/-- Any number of threads, each with an iterator, inserting into one list. -/
def iterator_system (Tid : Type) :
    System Tid (ObservingAct InsertAct IteratorAct) SkipList
      (Observing InsertThread IteratorThread) :=
  (skip_list_system cmp Tid).observed .new (iterator_step cmp)

/-- Not left of the key that was sought. -/
def AtLeast (bound : Option (List Byte)) (key : List Byte) : Prop :=
  ∀ k, bound = some k → cmp.compare key k ≠ .lt

/-- What an iterator has done since it was positioned. -/
structure SoughtOk (s : SkipList) (h : Sought) : Prop where
  grows : Grows h.start s
  onLevel : ∀ node ∈ h.visited, OnLevel s 0 node
  at_least : ∀ node ∈ h.visited, AtLeast cmp h.bound (s.nodes node).key
  sorted : h.visited.Pairwise (KeyLt cmp s)

/-- The nodes of the start that are not left of the bound have been visited, up
to the current node. -/
structure Complete (s : SkipList) (h : Sought) (current : Option NodePtr) : Prop where
  last : ∀ x, current = some x → ∃ front, h.visited = front ++ [x]
  visited : ∀ node, OnLevel h.start 0 node → AtLeast cmp h.bound (s.nodes node).key →
    node ∈ h.visited ∨ ∃ x, current = some x ∧ KeyLt cmp s x node

structure IteratorOk (s : SkipList) (l : IteratorThread) : Prop where
  sought : ∀ h, l.sought = some h → SoughtOk cmp s h
  seeking : ∀ key pc, l.seeking = some (key, pc) → SearchOk cmp s key pc ∧
    ∃ start, l.sought = some { bound := some key, start, visited := [] }
  complete : l.seeking = none → ∀ h, l.sought = some h →
    Complete cmp s h l.iterator.current

variable {cmp} {s s' : SkipList} {levels : Nat → List NodePtr} {h : Sought}

section stability

variable (hs : Towers cmp s levels) (hgrows : Grows s s')

include hs hgrows

theorem keyLt_grows {a b : NodePtr} (ha : OnLevel s 0 a) (hb : OnLevel s 0 b)
    (hlt : KeyLt cmp s a b) : KeyLt cmp s' a b := by
  rw [KeyLt, hs.nodes_eq hgrows ha, hs.nodes_eq hgrows hb]
  exact hlt

theorem SoughtOk.grow (hok : SoughtOk cmp s h) : SoughtOk cmp s' h := by
  refine ⟨hok.grows.trans hgrows, ?_, ?_, ?_⟩
  · exact fun node hnode => hgrows.onLevel 0 node (hok.onLevel node hnode)
  · intro node hnode
    rw [hs.nodes_eq hgrows (hok.onLevel node hnode)]
    exact hok.at_least node hnode
  · apply hok.sorted.imp_of_mem
    exact fun ha hb => keyLt_grows hs hgrows (hok.onLevel _ ha) (hok.onLevel _ hb)

theorem Complete.grow {current : Option NodePtr} (hok : SoughtOk cmp s h)
    (hcomplete : Complete cmp s h current) : Complete cmp s' h current := by
  refine ⟨hcomplete.last, fun node hnode hbound => ?_⟩
  have hlevel := hok.grows.onLevel 0 node hnode
  rw [hs.nodes_eq hgrows hlevel] at hbound
  apply (hcomplete.visited node hnode hbound).imp_right
  rintro ⟨x, hx, hlt⟩
  obtain ⟨front, hfront⟩ := hcomplete.last x hx
  exact ⟨x, hx, keyLt_grows hs hgrows (hok.onLevel x (by rw [hfront]; simp)) hlevel hlt⟩

/-- No insertion interferes with an iterator. -/
theorem IteratorOk.grow {l : IteratorThread} (hok : IteratorOk cmp s l) :
    IteratorOk cmp s' l where
  sought := fun h hsought => (hok.sought h hsought).grow hs hgrows
  seeking := fun key pc hseeking =>
    (hok.seeking key pc hseeking).imp_left fun hpc => hpc.grows hs hgrows
  complete := fun hidle h hsought =>
    (hok.complete hidle h hsought).grow hs hgrows (hok.sought h hsought)

end stability

section steps

/-- A call that positions the iterator at the first node from the bound on. -/
theorem positioned {found : Option NodePtr} (hgrows : Grows h.start s)
    (hright : ∀ node, found = some node →
      OnLevel s 0 node ∧ AtLeast cmp h.bound (s.nodes node).key)
    (hfirst : ∀ node, OnLevel s 0 node → AtLeast cmp h.bound (s.nodes node).key →
      ∃ x, found = some x ∧ (node = x ∨ KeyLt cmp s x node)) (hvisited : h.visited = found.toList) :
    SoughtOk cmp s h ∧ Complete cmp s h found := by
  have hmem : ∀ node, node ∈ h.visited ↔ found = some node := by
    intro node
    rw [hvisited, Option.mem_toList]
  refine ⟨⟨hgrows, ?_, ?_, ?_⟩, ?_, ?_⟩
  · exact fun node hnode => (hright node ((hmem node).mp hnode)).1
  · exact fun node hnode => (hright node ((hmem node).mp hnode)).2
  · rw [hvisited]
    cases found with
    | none => exact .nil
    | some x => exact List.pairwise_singleton ..
  · rintro x rfl
    exact ⟨[], hvisited⟩
  · intro node hnode hbound
    obtain ⟨x, hx, rfl | hlt⟩ := hfirst node (hgrows.onLevel 0 node hnode) hbound
    · exact .inl ((hmem node).mpr hx)
    · exact .inr ⟨x, hx, hlt⟩

theorem seek_ok {key : List Byte} {found : Option NodePtr} (hgrows : Grows h.start s)
    (hfound : FirstFrom cmp s key found) (hbound : h.bound = some key)
    (hvisited : h.visited = found.toList) : SoughtOk cmp s h ∧ Complete cmp s h found := by
  refine positioned hgrows ?_ ?_ hvisited
  · intro node hnode
    refine (hfound.right node hnode).imp_right fun hne k hk => ?_
    obtain rfl := Option.some.inj (hbound.symm.trans hk)
    exact hne
  · intro node hnode hatleast
    exact (hfound.first node hnode).resolve_left (hatleast key hbound)

variable (hs : Towers cmp s levels)

include hs

theorem seek_to_first_ok (s₀ : SkipList) (hgrows : Grows s₀ s) {h : Sought}
    (hh : h = { bound := none, start := s₀, visited := (s.next sentinel 0).toList }) :
    SoughtOk cmp s h ∧ Complete cmp s h (s.next sentinel 0) := by
  subst hh
  refine positioned hgrows ?_ ?_ rfl
  · intro node hnode
    exact ⟨hs.next_onLevel (.inl rfl) hnode, nofun⟩
  · intro node hnode _
    exact hs.sentinel_first hnode

/-- The step to the right of the current node. -/
theorem next_ok {current : Option NodePtr} (hok : SoughtOk cmp s h)
    (hcomplete : Complete cmp s h current) :
    SoughtOk cmp s { h with
        visited := h.visited ++ (current.bind fun curr => s.next curr 0).toList } ∧
      Complete cmp s { h with
        visited := h.visited ++ (current.bind fun curr => s.next curr 0).toList }
        (current.bind fun curr => s.next curr 0) := by
  cases hcurrent : current with
  | none =>
    simp only [Option.bind_none, Option.toList_none, List.append_nil]
    rw [hcurrent] at hcomplete
    exact ⟨hok, hcomplete⟩
  | some curr =>
    obtain ⟨front, hfront⟩ := hcomplete.last curr hcurrent
    have hcurr : OnLevel s 0 curr := hok.onLevel curr (by rw [hfront]; simp)
    have hvisited : ∀ node, OnLevel h.start 0 node → AtLeast cmp h.bound (s.nodes node).key →
        node ∈ h.visited ∨ ∃ succ, s.next curr 0 = some succ ∧
          (node = succ ∨ KeyLt cmp s succ node) := by
      intro node hnode hbound
      apply (hcomplete.visited node hnode hbound).imp_right
      rintro ⟨x, hx, hlt⟩
      obtain rfl := Option.some.inj (hcurrent.symm.trans hx)
      exact hs.next_first hcurr (hok.grows.onLevel 0 node hnode) hlt
    rw [Option.bind_some]
    cases hnext : s.next curr 0 with
    | none =>
      rw [Option.toList_none, List.append_nil]
      refine ⟨hok, nofun, fun node hnode hbound => .inl ?_⟩
      obtain hmem | ⟨succ, hsucc, -⟩ := hvisited node hnode hbound
      · exact hmem
      · cases hnext.symm.trans hsucc
    | some succ =>
      have hsucc := hs.next_onLevel (.inr hcurr) hnext
      have hlt := hs.lt_next hcurr hnext
      -- every visited node is left of the current one or is it
      have hleft : ∀ node ∈ h.visited, KeyLt cmp s node succ := by
        intro node hnode
        have hsorted := hok.sorted
        rw [hfront] at hnode hsorted
        obtain hnode | hnode := List.mem_append.mp hnode
        · exact cmp.lt_trans ((List.pairwise_append.mp hsorted).2.2 node hnode curr (by simp)) hlt
        · rwa [List.mem_singleton.mp hnode]
      rw [Option.toList_some]
      refine ⟨⟨hok.grows, ?_, ?_, ?_⟩, ?_, ?_⟩
      · intro node hnode
        obtain hnode | hnode := List.mem_append.mp hnode
        · exact hok.onLevel node hnode
        · rwa [List.mem_singleton.mp hnode]
      · intro node hnode
        obtain hnode | hnode := List.mem_append.mp hnode
        · exact hok.at_least node hnode
        · rw [List.mem_singleton.mp hnode]
          intro k hk hsmall
          exact hok.at_least curr (by rw [hfront]; simp) k hk (cmp.lt_trans hlt hsmall)
      · refine List.pairwise_append.mpr ⟨hok.sorted, List.pairwise_singleton .., ?_⟩
        intro a ha b hb
        rw [List.mem_singleton.mp hb]
        exact hleft a ha
      · rintro x ⟨⟩
        exact ⟨h.visited, rfl⟩
      · intro node hnode hbound
        obtain hmem | ⟨x, hx, hcase⟩ := hvisited node hnode hbound
        · exact .inl (List.mem_append_left _ hmem)
        · obtain rfl := Option.some.inj (hnext.symm.trans hx)
          obtain rfl | hright := hcase
          · exact .inl (by simp)
          · exact .inr ⟨succ, rfl, hright⟩

/-- Every load of an iterator's call keeps what it has visited. -/
theorem iterator_step_ok (hmax : 0 < s.max_level) {a : IteratorAct} {l l' : IteratorThread}
    (hl : IteratorOk cmp s l) (hstep : iterator_step cmp a s l = some l') :
    IteratorOk cmp s l' := by
  obtain ⟨iterator, seeking, sought⟩ := l
  have hidle : ∀ {l' : IteratorThread} {h : Sought}, l'.seeking = none → l'.sought = some h →
      SoughtOk cmp s h ∧ Complete cmp s h l'.iterator.current → IteratorOk cmp s l' := by
    intro l' h hseeking hsought hok
    refine ⟨?_, ?_, fun _ => ?_⟩
    · intro h' hh'
      obtain rfl := Option.some.inj (hsought.symm.trans hh')
      exact hok.1
    · intro key pc hpc
      cases hseeking.symm.trans hpc
    · intro h' hh'
      obtain rfl := Option.some.inj (hsought.symm.trans hh')
      exact hok.2
  cases seeking with
  | none =>
    cases a with
    | iter =>
      cases hstep
      exact ⟨nofun, nofun, fun _ => nofun⟩
    | seek_to_first =>
      cases hstep
      exact hidle rfl rfl (seek_to_first_ok hs s (.refl s) rfl)
    | seek key =>
      cases hstep
      refine ⟨?_, ?_, nofun⟩
      · rintro _ ⟨⟩
        exact ⟨.refl s, nofun, nofun, .nil⟩
      · rintro _ _ ⟨⟩
        exact ⟨trivial, s, rfl⟩
    | next =>
      cases hstep
      cases sought with
      | none => exact ⟨nofun, nofun, fun _ => nofun⟩
      | some h => exact hidle rfl rfl (next_ok hs (hl.sought h rfl) (hl.complete rfl h rfl))
    | step => cases hstep
  | some running =>
    obtain ⟨key, pc⟩ := running
    cases a with
    | step =>
      obtain ⟨hpc, start, hsought⟩ := hl.seeking key pc rfl
      obtain rfl : sought = some { bound := some key, start, visited := [] } := hsought
      have hsearch := search_step_ok hs hpc
      simp only [iterator_step] at hstep
      cases hnext : search_step cmp s key pc with
      | next pc' =>
        rw [hnext] at hsearch hstep
        cases hstep
        refine ⟨hl.sought, ?_, nofun⟩
        rintro _ _ ⟨⟩
        exact ⟨hsearch, start, rfl⟩
      | done ctx =>
        have hfound := search_step_done hs hmax hpc hnext
        have hgrows := (hl.sought _ rfl).grows
        rw [hnext] at hstep
        cases hstep
        exact hidle rfl rfl (seek_ok hgrows hfound rfl rfl)
    | _ => cases hstep

end steps

/-- What an iterator has visited by its history. -/
theorem IteratorOk.visited {l : IteratorThread} (hok : IteratorOk cmp s l)
    (hsought : l.sought = some h) :
    (h.visited.map fun node => (s.nodes node).key).Pairwise (fun a b => cmp.compare a b = .lt) ∧
      (∀ node ∈ h.visited, AtLeast cmp h.bound (s.nodes node).key) ∧
      (∀ x ∈ h.visited, ∀ node, OnLevel h.start 0 node → AtLeast cmp h.bound (s.nodes node).key →
        cmp.compare (s.nodes x).key (s.nodes node).key ≠ .lt → node ∈ h.visited) ∧
      (l.seeking = none → l.iterator.valid = false →
        ∀ node, OnLevel h.start 0 node → AtLeast cmp h.bound (s.nodes node).key →
          node ∈ h.visited) := by
  have hsoughtOk := hok.sought h hsought
  refine ⟨List.pairwise_map.mpr hsoughtOk.sorted, hsoughtOk.at_least, ?_, ?_⟩
  · intro x hx node hnode hbound hpassed
    have hidle : l.seeking = none := by
      rcases hseeking : l.seeking with _ | ⟨key, pc⟩
      · rfl
      · obtain ⟨-, start, hstart⟩ := hok.seeking key pc hseeking
        obtain rfl := Option.some.inj (hsought.symm.trans hstart)
        exact absurd hx List.not_mem_nil
    have hcomplete := hok.complete hidle h hsought
    apply (hcomplete.visited node hnode hbound).resolve_right
    rintro ⟨current, hcurrent, hlt⟩
    obtain ⟨front, hfront⟩ := hcomplete.last current hcurrent
    have hsorted := hsoughtOk.sorted
    rw [hfront] at hx hsorted
    obtain hx | hx := List.mem_append.mp hx
    · refine hpassed (cmp.lt_trans ?_ hlt)
      exact (List.pairwise_append.mp hsorted).2.2 x hx current (by simp)
    · rw [List.mem_singleton.mp hx] at hpassed
      exact hpassed hlt
  · intro hidle hinvalid node hnode hbound
    apply ((hok.complete hidle h hsought).visited node hnode hbound).resolve_right
    rintro ⟨current, hcurrent, -⟩
    rw [MemtableIterator.valid, hcurrent] at hinvalid
    cases hinvalid

variable {Tid : Type} [DecidableEq Tid]
  {c : Config Tid SkipList (Observing InsertThread IteratorThread)}

/-- In every run, each thread's iterator is as its history says. -/
theorem iterator_ok (hc : (iterator_system cmp Tid).ReachableUnder (underneath entries_fit) c)
    (t : Tid) : IteratorOk cmp c.shared (c.threads t).reads := by
  have hreach : ∀ e, (skip_list_system cmp Tid).StepsUnder entries_fit
      (iterator_system cmp Tid).init.unobserved e →
      (skip_list_system cmp Tid).ReachableUnder keys_fit e :=
    fun e he => ReachableUnder.mono keys_fit_of_entries_fit he
  refine StepsUnder.observer (P := IteratorOk cmp) hc t ⟨nofun, nofun, fun _ => nofun⟩ ?_ ?_
  · intro e a reads reads' he hok hread
    obtain ⟨levels, hs⟩ := (insert_outline_holds (hreach e he)).shared
    exact iterator_step_ok hs (max_level_pos (hreach e he)) hok hread
  · intro e u a r reads he hG hr hok
    obtain ⟨levels, hs⟩ := (insert_outline_holds (hreach e he)).shared
    exact hok.grow hs (run_step_grows (hreach e he) (keys_fit_of_entries_fit u a _ _ hG) hr)

/-- What an iterator has visited, against the list as it was when the iterator
was positioned. -/
theorem iteration_under_writes
    (hc : (iterator_system cmp Tid).ReachableUnder (underneath entries_fit) c) (t : Tid)
    (hsought : (c.threads t).reads.sought = some h) :
    (h.visited.map fun node => (c.shared.nodes node).key).Pairwise
        (fun a b => cmp.compare a b = .lt) ∧
      (∀ node ∈ h.visited, AtLeast cmp h.bound (c.shared.nodes node).key) ∧
      (∀ x ∈ h.visited, ∀ node, OnLevel h.start 0 node →
        AtLeast cmp h.bound (c.shared.nodes node).key →
        cmp.compare (c.shared.nodes x).key (c.shared.nodes node).key ≠ .lt →
        node ∈ h.visited) ∧
      ((c.threads t).reads.seeking = none → (c.threads t).reads.iterator.valid = false →
        ∀ node, OnLevel h.start 0 node → AtLeast cmp h.bound (c.shared.nodes node).key →
          node ∈ h.visited) :=
  (iterator_ok hc t).visited hsought

/-- One thread inserts `[5]`, another seeks `[3]`; `[7]` comes in before `next`. -/
def seek_between_inserts : List (Bool × ObservingAct InsertAct IteratorAct) :=
  (true, .own (.start (.insert [5#8] [1#8]))) :: List.replicate 8 (true, .own (.step false)) ++
    (false, .read (.seek [3#8])) :: List.replicate 3 (false, .read .step) ++
    (true, .own (.start (.insert [7#8] [2#8]))) :: List.replicate 10 (true, .own (.step false)) ++
    [(false, .read .next)]

theorem iteration_under_writes_seek :
    ∃ c : Config Bool SkipList (Observing InsertThread IteratorThread), ∃ h,
      (iterator_system DefaultComparator Bool).ReachableUnder (underneath entries_fit) c ∧
      ((c.threads false).reads.sought = some h ∧ h.visited = [1, 2]) ∧
      (h.visited.map fun node => (c.shared.nodes node).key).Pairwise
        (fun a b => DefaultComparator.compare a b = .lt) := by
  obtain ⟨c, hc, hseen⟩ := reachable_showing (iterator_system DefaultComparator Bool)
    (underneath entries_fit) seek_between_inserts
    (fun c => (c.threads false).reads.sought.map Sought.visited) (some [1, 2]) (by decide +kernel)
  obtain ⟨h, hsought, hvisited⟩ := Option.map_eq_some_iff.mp hseen
  exact ⟨c, h, hc, ⟨hsought, hvisited⟩, (iteration_under_writes hc false hsought).1⟩

end ordinum.memtable
