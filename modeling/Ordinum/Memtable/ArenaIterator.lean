import Ordinum.Interleaving.TraceInclusion
import Ordinum.Memtable.Iterator
import Ordinum.Utils.SkipLists.ArenaSafety
import Ordinum.Utils.SkipLists.LongValues

open interleaving interleaving.System wire
open ordinum.arena ordinum.key ordinum.mem_skip_list ordinum.utils

namespace ordinum.memtable

variable {Tid : Type} (cmp : Comparator)

/-- History of the last call of `seek` or `seek_to_first`: the key, the memory as it was
when the call began, and the nodes that have been current since, with the keys that they
showed then. -/
structure ArenaSought (Tid : Type) where
  bound : Option (List Byte)
  start : ArenaList Tid
  visited : List (Nat × List Byte)

/-- An iterator over the list in memory, where pointers are addresses. -/
structure ArenaIteratorThread (Tid : Type) where
  iterator : MemtableIterator
  seeking : Option (List Byte × SearchPc)
  sought : Option (ArenaSought Tid)

def ArenaIteratorThread.new : ArenaIteratorThread Tid :=
  { iterator := { item := none, current := none }, seeking := none, sought := none }

/-- A node with its key bytes. -/
def keyed (l : ArenaList Tid) (node : Nat) : Nat × List Byte :=
  (node, Node.get_key_bytes l.memory node)

/-- One load of an iterator's call from memory. -/
def arena_iterator_step : IteratorAct → ArenaList Tid → ArenaIteratorThread Tid →
    Option (ArenaIteratorThread Tid)
  | .iter, l, { seeking := none, .. } =>
    some
      { iterator := { item := Node.load_next l.memory l.sentinel 0, current := none }
        seeking := none
        sought := none }
  | .seek_to_first, l, { seeking := none, .. } =>
    let item := Node.load_next l.memory l.sentinel 0
    some
      { iterator := { item, current := item }
        seeking := none
        sought := some { bound := none, start := l, visited := item.toList.map (keyed l) } }
  | .seek key, l, { iterator, seeking := none, .. } =>
    some
      { iterator
        seeking := some (key, .load_max_level)
        sought := some { bound := some key, start := l, visited := [] } }
  | .next, l, { iterator, seeking := none, sought } =>
    let current := iterator.current.bind fun curr => Node.load_next l.memory curr 0
    some
      { iterator := { iterator with current }
        seeking := none
        sought := sought.map fun h =>
          { h with visited := h.visited ++ current.toList.map (keyed l) } }
  | .step, l, { iterator, seeking := some (key, pc), sought } =>
    match l.search_step cmp key pc with
    | .next pc => some { iterator, seeking := some (key, pc), sought }
    | .done ctx =>
      let item := ctx.successors 0
      some
        { iterator := { item, current := item }
          seeking := none
          sought := sought.map fun h => { h with visited := item.toList.map (keyed l) } }
  | _, _, _ => none

/-- Any number of threads, each with an iterator, inserting into one list in memory. -/
def arena_iterator_system (policy : ArenaPolicy) (l₀ : ArenaList Tid) :
    System Tid (ObservingAct ArenaInsertAct IteratorAct) (ArenaList Tid)
      (Observing ArenaInsertThread (ArenaIteratorThread Tid)) :=
  (arena_list_system cmp policy l₀).observed .new (arena_iterator_step cmp)

section relations

/-- A node and what has been seen of it in memory. -/
def Visits (l : ArenaList Tid) (n : NodePtr) (e : Nat × List Byte) : Prop :=
  Points l.nodes n e.1 ∧ e = keyed l e.1

/-- The same is sought, in a list that the memory of that time shows, and the same nodes
have been visited. -/
structure SoughtRel (l : ArenaList Tid) (h : Sought) (h' : ArenaSought Tid) : Prop where
  bound : h.bound = h'.bound
  start : Represents h'.start h.start
  towers : ∃ levels, Towers cmp h.start levels
  head_height : (h.start.nodes sentinel).height = MAX_HEAD_HEIGHT
  nodes : ∃ more, l.nodes = h'.start.nodes ++ more
  visited : List.Forall₂ (Visits l) h.visited h'.visited

/-- Iterators at the same point. Without a call that positions it an iterator has no
current node. -/
structure IteratorRel (l : ArenaList Tid) (reads : IteratorThread)
    (reads' : ArenaIteratorThread Tid) : Prop where
  item : Option.Rel (Points l.nodes) reads.iterator.item reads'.iterator.item
  current : Option.Rel (Points l.nodes) reads.iterator.current reads'.iterator.current
  seeking : Option.Rel (fun p q => p.1 = q.1 ∧ SearchRel l.nodes p.2 q.2) reads.seeking
    reads'.seeking
  sought : Option.Rel (SoughtRel cmp l) reads.sought reads'.sought
  placed : reads.sought = none → reads.iterator.current = none

variable {cmp} {l l' : ArenaList Tid} {s : SkipList} {levels : Nat → List NodePtr}

theorem visits_found {found : Option NodePtr} {found' : Option Nat}
    (h : Option.Rel (Points l.nodes) found found') :
    List.Forall₂ (Visits l) found.toList (found'.toList.map (keyed l)) := by
  cases h with
  | none => exact .nil
  | some h => exact .cons ⟨h, rfl⟩ .nil

theorem Visits.functional {n : NodePtr} {e e' : Nat × List Byte} (h : Visits l n e)
    (h' : Visits l n e') : e = e' := by
  rw [h.2, h'.2, h.1.functional h'.1]

theorem Visits.key (hrep : Represents l s) {n : NodePtr} {e : Nat × List Byte}
    (h : Visits l n e) : e.2 = (s.nodes n).key := by
  rw [h.2]
  exact congrArg Prod.fst (hrep.entry_eq h.1)

/-- A node of the list that the memory showed at the start has its key in it still. -/
theorem SoughtRel.visits_start {h : Sought} {h' : ArenaSought Tid} (hrel : SoughtRel cmp l h h')
    (hrep : Represents l s) (hgrows : Grows h.start s) {n a : Nat} (hn : OnLevel h.start 0 n)
    (hpoints : Points h'.start.nodes n a) : Visits l n (keyed h'.start a) := by
  obtain ⟨more, hmore⟩ := hrel.nodes
  obtain ⟨levels, hs⟩ := hrel.towers
  have hnow : Points l.nodes n a := by
    rw [hmore]
    exact hpoints.append
  have hstart : (keyed h'.start a).2 = (h.start.nodes n).key :=
    Visits.key hrel.start ⟨hpoints, rfl⟩
  have hkey : (keyed l a).2 = (s.nodes n).key := Visits.key hrep ⟨hnow, rfl⟩
  refine ⟨hnow, Prod.ext rfl ?_⟩
  rw [hstart, ← hs.nodes_eq hgrows hn]
  exact hkey.symm

section stability

variable {more : List Extent} (hmore : l'.nodes = l.nodes ++ more)
  (hkeyed : ∀ n a, Points l.nodes n a → keyed l' a = keyed l a)

include hmore hkeyed

theorem SoughtRel.stays {h : Sought} {h' : ArenaSought Tid} (hrel : SoughtRel cmp l h h') :
    SoughtRel cmp l' h h' where
  bound := hrel.bound
  start := hrel.start
  towers := hrel.towers
  head_height := hrel.head_height
  nodes := by
    obtain ⟨first, hfirst⟩ := hrel.nodes
    exact ⟨first ++ more, by rw [hmore, hfirst, List.append_assoc]⟩
  visited := by
    refine hrel.visited.imp fun n e hvisits => ?_
    obtain ⟨hpoints, he⟩ := hvisits
    refine ⟨?_, he.trans (hkeyed n e.1 hpoints).symm⟩
    rw [hmore]
    exact hpoints.append

/-- Iterators go on as they are while nodes keep their keys. -/
theorem IteratorRel.stays {reads : IteratorThread} {reads' : ArenaIteratorThread Tid}
    (hrel : IteratorRel cmp l reads reads') : IteratorRel cmp l' reads reads' := by
  have hpoints : ∀ n a, Points l.nodes n a → Points l'.nodes n a := by
    intro n a hn
    rw [hmore]
    exact hn.append
  refine ⟨option_rel_mono hpoints hrel.item, option_rel_mono hpoints hrel.current, ?_, ?_,
    hrel.placed⟩
  · refine option_rel_mono (fun p q hpq => ⟨hpq.1, ?_⟩) hrel.seeking
    rw [hmore]
    exact hpq.2.append more
  · exact option_rel_mono (fun _ _ hsought => hsought.stays hmore hkeyed) hrel.sought

end stability

section steps

variable (hrep : Represents l s) (hs : Towers cmp s levels)
  (hsentinel : (s.nodes sentinel).height = MAX_HEAD_HEIGHT)

include hrep hsentinel

theorem first_node_rel :
    Option.Rel (Points l.nodes) (s.next sentinel 0) (Node.load_next l.memory l.sentinel 0) := by
  obtain ⟨e, he, hstart⟩ := hrep.sentinel.extent
  rw [← hstart]
  apply hrep.next sentinel e 0 he
  rw [hsentinel]
  exact Nat.succ_pos 7

include hs

theorem SoughtRel.starts (bound : Option (List Byte)) {found : Option NodePtr}
    {found' : Option Nat} (h : Option.Rel (Points l.nodes) found found') :
    SoughtRel cmp l { bound, start := s, visited := found.toList }
      { bound, start := l, visited := found'.toList.map (keyed l) } where
  bound := rfl
  start := hrep
  towers := ⟨levels, hs⟩
  head_height := hsentinel
  nodes := ⟨[], (List.append_nil _).symm⟩
  visited := visits_found h

omit hsentinel in
/-- The next node is that of the address to the right. -/
theorem next_node_rel {current : Option NodePtr} {current' : Option Nat}
    (hlevel : ∀ n, current = some n → OnLevel s 0 n)
    (h : Option.Rel (Points l.nodes) current current') :
    Option.Rel (Points l.nodes) (current.bind fun curr => s.next curr 0)
      (current'.bind fun curr => Node.load_next l.memory curr 0) := by
  cases h with
  | none => exact .none
  | @some n a hn =>
    obtain ⟨e, he, rfl⟩ := hn.extent
    exact hrep.next n e 0 he (hs.node 0 n (hs.onLevel_iff.mp (hlevel n rfl))).2

/-- A load of an iterator in memory is one of the iterator over the list. -/
theorem arena_iterator_step_rel {a : IteratorAct} {reads : IteratorThread}
    {reads' next' : ArenaIteratorThread Tid} (hok : IteratorOk cmp s reads)
    (hrel : IteratorRel cmp l reads reads')
    (hr : arena_iterator_step cmp a l reads' = some next') :
    ∃ next, iterator_step cmp a s reads = some next ∧ IteratorRel cmp l next next' := by
  obtain ⟨⟨item, current⟩, seeking, sought⟩ := reads
  obtain ⟨⟨item', current'⟩, seeking', sought'⟩ := reads'
  obtain ⟨hitem, hcurrent, hseeking, hsought, hplaced⟩ := hrel
  simp only at hitem hcurrent hseeking hsought hplaced
  have hfirst := first_node_rel hrep hsentinel
  cases hseeking with
  | none =>
    cases a with
    | iter =>
      cases hr
      exact ⟨_, rfl, hfirst, .none, .none, .none, fun _ => rfl⟩
    | seek_to_first =>
      cases hr
      exact ⟨_, rfl, hfirst, hfirst, .none, .some (.starts hrep hs hsentinel none hfirst),
        fun hnone => by cases hnone⟩
    | seek key =>
      cases hr
      exact ⟨_, rfl, hitem, hcurrent, .some ⟨rfl, .load_max_level⟩,
        .some (.starts hrep hs hsentinel (some key) .none), fun hnone => by cases hnone⟩
    | next =>
      cases hr
      cases hsought with
      | none =>
        obtain rfl : current = none := hplaced rfl
        cases hcurrent
        exact ⟨_, rfl, hitem, .none, .none, .none, fun _ => rfl⟩
      | @some h h' hh =>
        have hcurr : ∀ n, current = some n → OnLevel s 0 n := by
          intro n hn
          obtain ⟨front, hfront⟩ := (hok.complete rfl h rfl).last n hn
          exact (hok.sought h rfl).onLevel n (by rw [hfront]; simp)
        have hnext := next_node_rel hrep hs hcurr hcurrent
        refine ⟨_, rfl, hitem, hnext, .none, .some ?_, fun hnone => by cases hnone⟩
        exact { hh with visited := List.rel_append hh.visited (visits_found hnext) }
    | step => cases hr
  | @some p q hpq =>
    obtain ⟨key, pc⟩ := p
    obtain ⟨key', pc'⟩ := q
    obtain ⟨rfl, hpc⟩ : key = key' ∧ SearchRel l.nodes pc pc' := hpq
    cases a with
    | step =>
      obtain ⟨hsearch, start, hstart⟩ := hok.seeking key pc rfl
      have hstep := search_step_rel hrep hs hsentinel hsearch hpc
      simp only [arena_iterator_step] at hr
      simp only [iterator_step]
      generalize search_step cmp s key pc = x at hstep
      generalize l.search_step cmp key pc' = y at hstep hr
      cases hstep with
      | next hpc =>
        cases hr
        exact ⟨_, rfl, hitem, hcurrent, .some ⟨rfl, hpc⟩, hsought, hplaced⟩
      | done hctx =>
        cases hr
        have hfound := hctx.successors 0
        cases hsought with
        | none => cases hstart
        | some hh =>
          refine ⟨_, rfl, hfound, hfound, .none, .some ?_, fun hnone => by cases hnone⟩
          exact { hh with visited := visits_found hfound }
    | _ => cases hr

end steps

end relations

section runs

variable {cmp} [DecidableEq Tid] {policy : ArenaPolicy} {l₀ : ArenaList Tid}

/-- The iterators in memory and those over the list. -/
abbrev IteratorsRel (cmp : Comparator) (policy : ArenaPolicy) (l₀ : ArenaList Tid) :
    Config Tid (ArenaList Tid) (Observing ArenaInsertThread (ArenaIteratorThread Tid)) →
      Config Tid SkipList (Observing InsertThread IteratorThread) → Prop :=
  ObservedRel (arena_correspondence policy l₀).Holds fun l reads reads' =>
    IteratorRel cmp l reads' reads

theorem keyed_stays {c d : Config Tid (ArenaList Tid) ArenaInsertThread} (h : Begins policy l₀)
    (hc : (arena_list_system cmp policy l₀).ReachableUnder (memory_fits policy) c)
    (hsteps : (arena_list_system cmp policy l₀).StepsUnder (memory_fits policy) c d) (n a : Nat)
    (hn : Points c.shared.nodes n a) : keyed d.shared a = keyed c.shared a := by
  obtain ⟨e, he, rfl⟩ := hn.extent
  obtain ⟨-, hkey, -⟩ := entry_stays h hc hsteps (List.mem_of_getElem? he)
  rw [keyed, keyed, hkey]

/-- Every access of an insertion or of an iterator in memory is one over the list, or none. -/
theorem arena_iterator_simulates (h : Begins policy l₀) :
    Simulates (arena_iterator_system cmp policy l₀) (iterator_system cmp Tid)
      (underneath (memory_fits policy)) (underneath entries_fit)
      (observed_seen (arena_insert_seen cmp policy) fun _ _ _ _ _ => [])
      (observed_seen (insert_seen cmp) fun _ _ _ _ _ => []) (IteratorsRel cmp policy l₀) := by
  refine (arena_list_simulates cmp h).observed ?_ ?_
  · intro c t a r reads reads' hc hG hr hrel
    have hstep : (arena_list_system cmp policy l₀).StepsUnder (memory_fits policy) c
        (c.move t r) := .single ⟨t, a, r, hG, hr, rfl⟩
    obtain ⟨more, hmore⟩ := nodes_grow h hc hstep
    have hkeyed := keyed_stays h hc hstep
    rw [Config.move_shared] at hmore hkeyed
    exact hrel.stays hmore hkeyed
  · intro c b t a next hc hb hrel hr
    have hbase := ReachableUnder.unobserved hb
    obtain ⟨levels, hs⟩ := (insert_outline_holds (hbase.mono keys_fit_of_entries_fit)).shared
    obtain ⟨next', hnext', hrel'⟩ := arena_iterator_step_rel hrel.own.shared.1 hs
      (sentinel_height hbase) (iterator_ok hb t) (hrel.reads t) hr
    exact ⟨next', hnext', rfl, hrel'⟩

/-- What an iterator has visited in memory, against the pointers of the base level as they
were when it was positioned. -/
theorem arena_iteration_under_writes {h : ArenaSought Tid}
    {c : Config Tid (ArenaList Tid) (Observing ArenaInsertThread (ArenaIteratorThread Tid))}
    (hbegins : Begins policy l₀) (hc : (arena_iterator_system cmp policy l₀).ReachableUnder
      (underneath (memory_fits policy)) c) (t : Tid)
    (hsought : (c.threads t).reads.sought = some h) :
    (h.visited.map Prod.snd).Pairwise (fun a b => cmp.compare a b = .lt) ∧
      (∀ e ∈ h.visited, e = keyed c.shared e.1 ∧ AtLeast cmp h.bound e.2) ∧
      ∃ nodes, linked.IsChain (fun a => Node.load_next h.start.memory a 0)
          (some h.start.sentinel) (h.start.sentinel :: nodes) ∧
        (∀ e ∈ h.visited, ∀ node ∈ nodes, AtLeast cmp h.bound (keyed h.start node).2 →
          cmp.compare e.2 (keyed h.start node).2 ≠ .lt → keyed h.start node ∈ h.visited) ∧
        ((c.threads t).reads.seeking = none → (c.threads t).reads.iterator.valid = false →
          ∀ node ∈ nodes, AtLeast cmp h.bound (keyed h.start node).2 →
            keyed h.start node ∈ h.visited) := by
  have hinit : IteratorsRel cmp policy l₀ (arena_iterator_system cmp policy l₀).init
      (iterator_system cmp Tid).init :=
    .init (hbegins.corresponds cmp) ⟨.none, .none, .none, .none, fun _ => rfl⟩
  obtain ⟨b, hb, hrel⟩ := (arena_iterator_simulates hbegins).reachable hinit hc
  have hrep : Represents c.shared b.shared := hrel.own.shared.1
  obtain ⟨hitem, hcurrent, hseeking, hsoughts, -⟩ := hrel.reads t
  rw [hsought] at hsoughts
  cases hstart : (b.threads t).reads.sought with
  | none =>
    rw [hstart] at hsoughts
    cases hsoughts
  | some h' =>
    rw [hstart] at hsoughts
    obtain hh : SoughtRel cmp c.shared h' h := Option.rel_some_some.mp hsoughts
    have hgrows := ((iterator_ok hb t).sought h' hstart).grows
    obtain ⟨hsorted, hatleast, hpassed, hcomplete⟩ := (iterator_ok hb t).visited hstart
    obtain ⟨levels, hs⟩ := hh.towers
    obtain ⟨nodes, hchain, hnodes⟩ := base_level_in_memory hh.start hs hh.head_height
    rw [← hh.bound]
    -- a node of the start is visited in memory if it is visited in the list
    have hstarts : ∀ node ∈ nodes, ∃ n, OnLevel h'.start 0 n ∧
        (keyed h.start node).2 = (b.shared.nodes n).key ∧
        (n ∈ h'.visited → keyed h.start node ∈ h.visited) := by
      intro node hnode
      obtain ⟨n, hn, hpoints⟩ := linked.exists_related_left hnodes hnode
      have hlevel := hs.onLevel_iff.mpr hn
      have hvisits := hh.visits_start hrep hgrows hlevel hpoints
      refine ⟨n, hlevel, hvisits.key hrep, fun hmem => ?_⟩
      obtain ⟨e, he, hvisited⟩ := linked.exists_related_right hh.visited hmem
      obtain rfl := hvisited.functional hvisits
      exact he
    refine ⟨?_, ?_, nodes, hchain, ?_, ?_⟩
    · rw [List.pairwise_map] at hsorted ⊢
      refine linked.pairwise_related ?_ hh.visited hsorted
      intro n m e e' hn hm hlt
      rw [hn.key hrep, hm.key hrep]
      exact hlt
    · intro e he
      obtain ⟨n, hn, hvisits⟩ := linked.exists_related_left hh.visited he
      rw [hvisits.key hrep]
      exact ⟨hvisits.2, hatleast n hn⟩
    · intro e he node hnode hbound hnot
      obtain ⟨x, hx, hvisits⟩ := linked.exists_related_left hh.visited he
      obtain ⟨n, hlevel, hkey, hmem⟩ := hstarts node hnode
      rw [hkey] at hbound hnot
      rw [hvisits.key hrep] at hnot
      exact hmem (hpassed x hx n hlevel hbound hnot)
    · intro hidle hinvalid node hnode hbound
      obtain ⟨n, hlevel, hkey, hmem⟩ := hstarts node hnode
      rw [hkey] at hbound
      rw [hidle] at hseeking
      rw [MemtableIterator.valid, Option.isSome_eq_false_iff, Option.isNone_iff_eq_none] at hinvalid
      rw [hinvalid] at hcurrent
      refine hmem (hcomplete ?_ ?_ n hlevel hbound)
      · obtain ⟨hnone, -⟩ | ⟨_, _, -, hsome, -⟩ := option_rel_cases hseeking
        · exact hnone
        · cases hsome
      · obtain ⟨hnone, -⟩ | ⟨_, _, -, hsome, -⟩ := option_rel_cases hcurrent
        · rw [MemtableIterator.valid, hnone]
          rfl
        · cases hsome

end runs

section long_values

/-- One thread is about to fill its node when another inserts `[5]` and `[7]`. -/
def inserts_behind : List (Bool × ObservingAct ArenaInsertAct IteratorAct) :=
  (false, .own (.start (.insert_with [9#8] []))) :: List.replicate 11 (false, .own (.step {})) ++
    (true, .own (.start (.insert [5#8] [1#8]))) :: List.replicate 15 (true, .own (.step {})) ++
    (true, .own (.start (.insert [7#8] [2#8]))) :: List.replicate 20 (true, .own (.step {}))

/-- The value is copied after a `seek` of `[3]` and before its `next`. -/
def fills_before_next : List (Bool × ObservingAct ArenaInsertAct IteratorAct) :=
  (true, .read (.seek [3#8])) :: List.replicate 5 (true, .read .step) ++
    [(false, .own (.step {})), (true, .read .next)]

/-- Both nodes are in the list where the iterator is not placed yet, and it ends after the
first of them. -/
def MissesNode (c d : Config Bool (ArenaList Bool)
    (Observing ArenaInsertThread (ArenaIteratorThread Bool))) : Prop :=
  (c.threads true).reads.sought.isNone ∧
  (Node.load_next c.shared.memory c.shared.sentinel 0).map (keyed c.shared) =
    some (160, [5#8]) ∧
  (Node.load_next c.shared.memory 160 0).map (keyed c.shared) = some (184, [7#8]) ∧
  (d.threads true).reads.seeking = none ∧ (d.threads true).reads.iterator.valid = false ∧
  (d.threads true).reads.sought.map ArenaSought.bound = some (some [3#8]) ∧
  (d.threads true).reads.sought.map ArenaSought.visited = some [(160, [5#8])]

instance (c d : Config Bool (ArenaList Bool)
    (Observing ArenaInsertThread (ArenaIteratorThread Bool))) : Decidable (MissesNode c d) :=
  inferInstanceAs (Decidable (_ ∧ _ ∧ _ ∧ _ ∧ _ ∧ _ ∧ _))

/-- A value of 4 GiB is copied over the node that an iterator is at: it does not come to a
node that was in the list before it was placed. -/
theorem long_value_hides_node : ∃ (l₀ : ArenaList Bool) (c d : Config Bool (ArenaList Bool)
      (Observing ArenaInsertThread (ArenaIteratorThread Bool))), Begins long_policy l₀ ∧
    (arena_iterator_system DefaultComparator long_policy l₀).ReachableUnder
      (underneath (memory_of InsertCall.KeyFits long_policy)) c ∧
    (arena_iterator_system DefaultComparator long_policy l₀).StepsUnder
      (underneath (memory_of InsertCall.KeyFits long_policy)) c d ∧
    (c.threads false).own.running.map Prod.fst = some (.insert_with [9#8] long_value) ∧
    MissesNode c d := by
  have hruns : ((ArenaList.new long_policy true 64 fun _ => 7).bind fun l₀ =>
      ((arena_iterator_system DefaultComparator long_policy l₀).run_under
        (underneath (before_copy long_policy))
        (arena_iterator_system DefaultComparator long_policy l₀).init inserts_behind).bind fun c =>
      ((arena_iterator_system DefaultComparator long_policy l₀).run_under
        (underneath (memory_of InsertCall.KeyFits long_policy))
        (part_config id (observed_part (ArenaInsertThread.stretch long_value)) c)
        fills_before_next).map fun d =>
      decide ((c.threads false).own.running.map Prod.fst = some (.insert_with [9#8] []) ∧
        MissesNode (part_config id (observed_part (ArenaInsertThread.stretch long_value)) c) d)) =
      some true := by
    decide +kernel
  obtain ⟨l₀, hnew, hrun⟩ := Option.bind_eq_some_iff.mp hruns
  obtain ⟨c, d, hc, hcd, hseen⟩ := (contains_stretched l₀ long_value_wraps).observed.steps_showing
    rfl rfl _ _ _ hrun
  obtain ⟨hcall, hmisses⟩ := of_decide_eq_true hseen
  exact ⟨l₀, _, d, begins_long hnew, hc, hcd,
    (running_stretch (c.threads false).own).trans (congrArg _ hcall), hmisses⟩

end long_values

end ordinum.memtable
