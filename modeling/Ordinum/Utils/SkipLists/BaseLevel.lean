import Ordinum.Utils.SkipLists.Pairs

open interleaving interleaving.System
open ordinum.key ordinum.utils

namespace ordinum.mem_skip_list

variable {cmp : Comparator} {s s' : SkipList} {levels levels' : Nat → List NodePtr}
  {key : List Byte} {e : Pair} {es : List Pair}

/-- A key that is there keeps its value. -/
theorem inserted_of_present {x : Pair} (hx : x ∈ es) (hkey : x.1 = e.1) :
    inserted cmp e es = es := by
  rw [inserted, if_pos ⟨x, hx, hkey⟩]

section grows

variable (hs : Towers cmp s levels) (hs' : Towers cmp s' levels') (hgrows : Grows s s')

include hs hgrows

theorem Towers.pair_eq {node : NodePtr} (hnode : OnLevel s 0 node) :
    pair s' node = pair s node := by
  rw [pair, hs.nodes_eq hgrows hnode, pair]

include hs'

/-- The pairs change with the nodes of the base level only. -/
theorem Towers.pairs_same (hsame : ∀ node, OnLevel s' 0 node → OnLevel s 0 node) :
    pairs s' (levels' 0) = pairs s (levels 0) := by
  refine hs'.pairs_sorted.eq_of_mem_iff hs.pairs_sorted fun e => ?_
  rw [hs'.mem_pairs, hs.mem_pairs]
  constructor
  · rintro ⟨node, hnode, rfl⟩
    exact ⟨node, hsame node hnode, (hs.pair_eq hgrows (hsame node hnode)).symm⟩
  · rintro ⟨node, hnode, rfl⟩
    exact ⟨node, hgrows.onLevel 0 node hnode, hs.pair_eq hgrows hnode⟩

/-- One more node on the base level is one more pair. -/
theorem Towers.pairs_added {node : NodePtr} (hnode : OnLevel s' 0 node)
    (hnew : ¬ OnLevel s 0 node) (hadded : ∀ m, OnLevel s' 0 m → OnLevel s 0 m ∨ m = node) :
    pairs s' (levels' 0) = inserted cmp (pair s' node) (pairs s (levels 0)) := by
  refine hs'.pairs_sorted.eq_of_mem_iff (inserted_sorted hs.pairs_sorted) fun e => ?_
  rw [mem_inserted, hs'.mem_pairs, hs.mem_pairs]
  constructor
  · rintro ⟨m, hm, rfl⟩
    obtain hold | rfl := hadded m hm
    · exact .inl ⟨m, hold, (hs.pair_eq hgrows hold).symm⟩
    · refine .inr ⟨rfl, fun y hy heq => hnew ?_⟩
      obtain ⟨n, hn, rfl⟩ := hs.mem_pairs.mp hy
      have hkey : (s'.nodes n).key = (s'.nodes m).key := by
        rw [hs.nodes_eq hgrows hn]
        exact heq
      rwa [← hs'.eq_of_key (hgrows.onLevel 0 n hn) hnode hkey]
  · rintro (⟨m, hm, rfl⟩ | ⟨rfl, -⟩)
    · exact ⟨m, hgrows.onLevel 0 m hm, hs.pair_eq hgrows hm⟩
    · exact ⟨node, hnode, rfl⟩

end grows

/-- The first node from the key on holds the first pair from the key on. -/
theorem Towers.find_pair (hs : Towers cmp s levels) {found : Option NodePtr}
    (hfound : FirstFrom cmp s key found) :
    (pairs s (levels 0)).find? (fun e => cmp.compare e.1 key ≠ .lt) = found.map (pair s) := by
  cases found with
  | none =>
    apply List.find?_eq_none.mpr
    intro e he
    obtain ⟨node, hnode, rfl⟩ := hs.mem_pairs.mp he
    obtain hleft | ⟨x, hx, -⟩ := hfound.first node hnode
    · rw [decide_eq_true_iff]
      exact not_not_intro hleft
    · cases hx
  | some x =>
    obtain ⟨hnode, hright⟩ := hfound.right x rfl
    obtain ⟨before, after, hsplit⟩ := List.append_of_mem (hs.onLevel_iff.mp hnode)
    have hsorted := hs.sorted 0
    rw [hsplit, List.pairwise_append] at hsorted
    have hbefore : ∀ m ∈ before, cmp.compare (s.nodes m).key key = .lt := by
      intro m hm
      have hlt : KeyLt cmp s m x := hsorted.2.2 m hm x List.mem_cons_self
      have hlevel : OnLevel s 0 m :=
        hs.onLevel_iff.mpr (by rw [hsplit]; exact List.mem_append_left _ hm)
      obtain hleft | ⟨y, hy, hcase⟩ := hfound.first m hlevel
      · exact hleft
      · obtain rfl := Option.some.inj hy
        obtain rfl | hgt := hcase
        · exact absurd hlt (cmp.lt_irrefl _)
        · exact absurd (cmp.lt_trans hlt hgt) (cmp.lt_irrefl _)
    rw [pairs, hsplit, List.map_append, List.find?_append, List.find?_eq_none.mpr ?_,
      Option.none_or, List.map_cons]
    · exact List.find?_cons_of_pos (decide_eq_true hright)
    · intro e he
      obtain ⟨m, hm, rfl⟩ := List.mem_map.mp he
      rw [decide_eq_true_iff]
      exact not_not_intro (hbefore m hm)

end ordinum.mem_skip_list
