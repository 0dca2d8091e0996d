import Ordinum.Linked.Related
import Ordinum.Utils.SkipLists.ArenaRuns

open interleaving interleaving.System
open ordinum.arena ordinum.key ordinum.utils

namespace ordinum.mem_skip_list

variable {Tid : Type} {cmp : Comparator} {policy : ArenaPolicy} [DecidableEq Tid]
  {l₀ : ArenaList Tid} {c : Config Tid (ArenaList Tid) ArenaInsertThread}

/-- What is in memory in every state, for every later state. -/
structure MemorySafe (cmp : Comparator) (policy : ArenaPolicy)
    (sys : System Tid ArenaInsertAct (ArenaList Tid) ArenaInsertThread)
    (c : Config Tid (ArenaList Tid) ArenaInsertThread) : Prop where
  sorted : ∃ xs, linked.IsChain (fun a => Node.load_next c.shared.memory a 0)
      (some c.shared.sentinel) (c.shared.sentinel :: xs) ∧
    xs.Pairwise (fun a b => cmp.compare (Node.get_key_bytes c.shared.memory a)
      (Node.get_key_bytes c.shared.memory b) = .lt) ∧
    ∀ t call node, (call, node) ∈ (c.threads t).returned →
      node ∈ xs ∧ Node.get_key_bytes c.shared.memory node = call.key
  stays : ∀ d, sys.StepsUnder (memory_fits policy) c d → ∀ e ∈ c.shared.nodes,
    e ∈ d.shared.nodes ∧
      Node.get_key_bytes d.shared.memory e.start = Node.get_key_bytes c.shared.memory e.start ∧
      Node.get_value_bytes d.shared.memory e.start = Node.get_value_bytes c.shared.memory e.start

/-- A node that is filled stays. -/
theorem nodes_grow {d : Config Tid (ArenaList Tid) ArenaInsertThread} (h : Begins policy l₀)
    (hc : (arena_list_system cmp policy l₀).ReachableUnder (memory_fits policy) c)
    (hsteps : (arena_list_system cmp policy l₀).StepsUnder (memory_fits policy) c d) :
    ∃ more, d.shared.nodes = c.shared.nodes ++ more := by
  refine StepsUnder.related (R := fun c d => ∃ more, d.shared.nodes = c.shared.nodes ++ more)
    ?_ ?_ hc hsteps ?_
  · exact fun c => ⟨[], (List.append_nil _).symm⟩
  · rintro c d e ⟨xs, hxs⟩ ⟨ys, hys⟩
    exact ⟨xs ++ ys, by rw [hys, hxs, List.append_assoc]⟩
  · intro c t a r hc hG hr
    obtain ⟨⟨hregions, hblocks⟩, hthreads, -⟩ := arena_outline_holds h hc
    have hstep := arena_list_node_step hregions hblocks (hthreads t).1
      ((nodes_outline_holds h hc).thread t) hG hr
    obtain hsame | ⟨e, -, hmore⟩ := hstep.nodes
    · exact ⟨[], by rw [List.append_nil]; exact hsame⟩
    · exact ⟨[e], hmore⟩

omit [DecidableEq Tid] in
/-- The pointers of the lowest level, in memory. -/
theorem base_level_in_memory {l : ArenaList Tid} {s : SkipList} {levels : Nat → List NodePtr}
    (hrep : Represents l s) (hs : Towers cmp s levels)
    (hsentinel : (s.nodes sentinel).height = MAX_HEAD_HEIGHT) :
    ∃ xs, linked.IsChain (fun a => Node.load_next l.memory a 0) (some l.sentinel)
        (l.sentinel :: xs) ∧ List.Forall₂ (Points l.nodes) (levels 0) xs := by
  have hnext : ∀ n a, n ∈ sentinel :: levels 0 → Points l.nodes n a →
      Option.Rel (Points l.nodes) (s.next n 0) (Node.load_next l.memory a 0) := by
    intro n a hn hpoints
    obtain ⟨e, he, rfl⟩ := hpoints.extent
    apply hrep.next n e 0 he
    obtain rfl | hn := List.mem_cons.mp hn
    · rw [hsentinel]
      exact Nat.succ_pos 7
    · exact (hs.node 0 n hn).2
  obtain ⟨addresses, hrel, hchain⟩ := (hs.chain 0).related (.some hrep.sentinel) hnext
  cases hrel with
  | @cons _ first _ xs hfirst hrest =>
    obtain rfl : first = l.sentinel := hfirst.functional hrep.sentinel
    exact ⟨xs, hchain, hrest⟩

omit [DecidableEq Tid] in
theorem Represents.entries_eq {l : ArenaList Tid} {s : SkipList} (hrep : Represents l s)
    {xs : List NodePtr} {ys : List Nat} (h : List.Forall₂ (Points l.nodes) xs ys) :
    ys.map l.entry = pairs s xs := by
  induction h with
  | nil => rfl
  | cons hn _ ih => rw [List.map_cons, ih, hrep.entry_eq hn, pairs, pairs, List.map_cons]

/-- The key and value bytes of a node never change. -/
theorem entry_stays {d : Config Tid (ArenaList Tid) ArenaInsertThread} (h : Begins policy l₀)
    (hc : (arena_list_system cmp policy l₀).ReachableUnder (memory_fits policy) c)
    (hsteps : (arena_list_system cmp policy l₀).StepsUnder (memory_fits policy) c d)
    {e : wire.Extent} (he : e ∈ c.shared.nodes) : e ∈ d.shared.nodes ∧
      Node.get_key_bytes d.shared.memory e.start = Node.get_key_bytes c.shared.memory e.start ∧
      Node.get_value_bytes d.shared.memory e.start =
        Node.get_value_bytes c.shared.memory e.start := by
  obtain ⟨b, hb, hK⟩ := (arena_list_simulates cmp h).reachable (h.corresponds cmp) hc
  obtain ⟨hrep, -⟩ := hK.shared
  obtain ⟨b', hbb', hK'⟩ := (arena_list_simulates cmp h).steps hc hb hK hsteps
  obtain ⟨more, hmore⟩ := nodes_grow h hc hsteps
  obtain ⟨n, hn⟩ := List.getElem?_of_mem he
  have hlt := (List.getElem?_eq_some_iff.mp hn).1
  have hn' : d.shared.nodes[n]? = some e := by
    rw [hmore, List.getElem?_append_left hlt]
    exact hn
  have hsame : b'.shared.nodes n = b.shared.nodes n :=
    (run_grows (hb.mono keys_fit_of_entries_fit)
      (hbb'.mono keys_fit_of_entries_fit)).nodes n (hrep.length ▸ hlt)
  have hnode := hrep.node n e hn
  have hnode' := hK'.shared.1.node n e hn'
  rw [hsame] at hnode'
  exact ⟨List.mem_of_getElem? hn', hnode'.key.trans hnode.key.symm,
    hnode'.value.trans hnode.value.symm⟩

end ordinum.mem_skip_list
