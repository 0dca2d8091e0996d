import Ordinum.Utils.SkipLists.ConcurrentSearch
import Ordinum.Utils.SkipLists.InsertAlone

open interleaving interleaving.System
open ordinum.key ordinum.utils

namespace ordinum.mem_skip_list

variable (cmp : Comparator)

/-- `none` is out of fuel. -/
def search (fuel : Nat) (s : SkipList) (key : List Byte) : Option TraversalCtx :=
  (run_alone (search_alone cmp key) fuel s .load_max_level).map Prod.snd

def search_node (fuel : Nat) (s : SkipList) (key : List Byte) : Option (Option NodePtr) :=
  (search cmp fuel s key).map fun ctx => ctx.successors 0

/-- The node that the iterator of `seek` starts at. -/
def seek (fuel : Nat) (s : SkipList) (key : List Byte) : Option (Option NodePtr) :=
  (search cmp fuel s key).map fun ctx =>
    match ctx.searched_node with
    | some node => some node
    | none => ctx.successors 0

/-- A list that is well formed: the base level strictly ascends, each level is a
subsequence of the one below, and `max_level` is above every level in use. -/
structure WellFormed (s : SkipList) (levels : Nat → List NodePtr) : Prop where
  chain : ∀ l, IsLevel s l (levels l)
  sorted : (levels 0).Pairwise (KeyLt cmp s)
  sublist : ∀ l, (levels (l + 1)).Sublist (levels l)
  node : ∀ l, ∀ n ∈ levels l, n < s.allocated ∧ l < (s.nodes n).height
  in_use : ∀ l, ∀ n ∈ levels l, l < s.max_level
  sentinel_allocated : sentinel < s.allocated
  max_level : s.max_level ≤ MAX_HEAD_HEIGHT

/-- The last of the nodes to the left of the key, or the sentinel. -/
def last_left (s : SkipList) (key : List Byte) (xs : List NodePtr) : NodePtr :=
  (xs.filter fun node => cmp.compare (s.nodes node).key key = .lt).getLast?.getD sentinel

/-- The first of the nodes that is not to the left of the key. -/
def first_from (s : SkipList) (key : List Byte) (xs : List NodePtr) : Option NodePtr :=
  xs.find? fun node => cmp.compare (s.nodes node).key key ≠ .lt

variable {cmp} {s : SkipList} {levels : Nat → List NodePtr} {key : List Byte}

section well_formed

namespace WellFormed

theorem sorted_at (h : WellFormed cmp s levels) (l : Nat) :
    (levels l).Pairwise (KeyLt cmp s) := by
  induction l with
  | zero => exact h.sorted
  | succ l ih => exact ih.sublist (h.sublist l)

theorem towers (h : WellFormed cmp s levels) : Towers cmp s levels where
  chain := h.chain
  sorted := h.sorted_at
  below := fun l => (h.sublist l).subset
  node := h.node
  sentinel_allocated := h.sentinel_allocated
  max_level := h.max_level

theorem next_sentinel (h : WellFormed cmp s levels) {l : Nat} (hl : s.max_level ≤ l) :
    s.next sentinel l = none := by
  have hempty : levels l = [] := by
    apply List.eq_nil_iff_forall_not_mem.mpr
    intro n hn
    exact Nat.not_lt.mpr hl (h.in_use l n hn)
  have hchain := (h.chain l).2
  rwa [hempty] at hchain

end WellFormed

variable (cmp) in
/-- A list that insertions can go on with: its towers are in order, and no node is higher
than `max_level`. -/
structure Intact (s : SkipList) (levels : Nat → List NodePtr) : Prop where
  towers : Towers cmp s levels
  heights : HeightsOk s

theorem Intact.wellFormed (h : Intact cmp s levels) : WellFormed cmp s levels where
  chain := h.towers.chain
  sorted := h.towers.sorted 0
  sublist := h.towers.sublist
  node := h.towers.node
  in_use := by
    intro l n hn
    obtain ⟨hlt, hheight⟩ := h.towers.node l n hn
    have hne := h.towers.ne_sentinel (h.towers.onLevel_iff.mpr hn)
    exact hheight.trans_le (h.heights n hne hlt)
  sentinel_allocated := h.towers.sentinel_allocated
  max_level := h.towers.max_level

section reachable

variable {Tid : Type} [DecidableEq Tid] {c : Config Tid SkipList InsertThread}

theorem intact_of_reachable (hc : (skip_list_system cmp Tid).ReachableUnder entries_fit c) :
    ∃ levels, Intact cmp c.shared levels := by
  obtain ⟨levels, hs⟩ := (insert_outline_holds (hc.mono keys_fit_of_entries_fit)).shared
  exact ⟨levels, hs, ((heights_outline_valid cmp).holds_of_trivial hc).shared⟩

/-- The lists that insertions build are well formed. -/
theorem wellFormed_of_reachable (hc : (skip_list_system cmp Tid).ReachableUnder entries_fit c) :
    ∃ levels, WellFormed cmp c.shared levels := by
  obtain ⟨levels, h⟩ := intact_of_reachable hc
  exact ⟨levels, h.wellFormed⟩

end reachable

end well_formed

section search

/-- Around a predecessor of the key whose successor is not left of it, the level falls into
what is left of the key and what is not. -/
theorem Towers.split_at (hs : Towers cmp s levels) {l : Nat} {pred : NodePtr}
    (hpred : PredOk cmp s key l pred)
    (hright : ∀ x, s.next pred l = some x → cmp.compare (s.nodes x).key key ≠ .lt) :
    ∃ before after, levels l = before ++ after ∧
      (∀ n ∈ before, cmp.compare (s.nodes n).key key = .lt) ∧
      (∀ n ∈ after, cmp.compare (s.nodes n).key key ≠ .lt) ∧
      before.getLast?.getD sentinel = pred ∧ s.next pred l = after.head? := by
  obtain ⟨before, after, hsplit, hhead, hfront⟩ := hs.split (hpred.imp_right And.left)
  have hsorted := hs.sorted l
  rw [hsplit, List.pairwise_append] at hsorted
  obtain ⟨hbefore, hafter, -⟩ := hsorted
  refine ⟨before, after, hsplit, ?_, ?_, ?_, hhead⟩
  · obtain ⟨rfl, -⟩ | ⟨front, rfl⟩ := hfront
    · exact fun n hn => absurd hn List.not_mem_nil
    · have hlevel : OnLevel s l pred := hs.onLevel_iff.mpr (by rw [hsplit]; simp)
      obtain ⟨-, hlt⟩ := hpred.resolve_left (hs.ne_sentinel hlevel)
      intro n hn
      obtain hn | hn := List.mem_append.mp hn
      · exact cmp.lt_trans ((List.pairwise_append.mp hbefore).2.2 n hn pred (by simp)) hlt
      · rwa [List.mem_singleton.mp hn]
  · cases after with
    | nil => exact fun n hn => absurd hn List.not_mem_nil
    | cons x rest =>
      have hx := hright x hhead
      intro n hn
      obtain rfl | hn := List.mem_cons.mp hn
      · exact hx
      · intro hlt
        exact hx (cmp.lt_trans ((List.pairwise_cons.mp hafter).1 n hn) hlt)
  · obtain ⟨rfl, rfl⟩ | ⟨front, rfl⟩ := hfront
    · rfl
    · rw [List.getLast?_concat, Option.getD_some]

/-- The two neighbours of the key on a level. -/
theorem Towers.neighbours (hs : Towers cmp s levels) {l : Nat} {pred : NodePtr}
    (hpred : PredOk cmp s key l pred)
    (hright : ∀ x, s.next pred l = some x → cmp.compare (s.nodes x).key key ≠ .lt) :
    pred = last_left cmp s key (levels l) ∧ s.next pred l = first_from cmp s key (levels l) := by
  obtain ⟨before, after, hsplit, hleft, hnot, hlast, hhead⟩ := hs.split_at hpred hright
  rw [last_left, first_from, hsplit, List.filter_append, List.find?_append]
  have hfilter : before.filter (fun node => cmp.compare (s.nodes node).key key = .lt) = before :=
    List.filter_eq_self.mpr fun n hn => decide_eq_true (hleft n hn)
  have hrest : after.filter (fun node => cmp.compare (s.nodes node).key key = .lt) = [] :=
    List.filter_eq_nil_iff.mpr fun n hn => by simpa using hnot n hn
  have hfind : before.find? (fun node => cmp.compare (s.nodes node).key key ≠ .lt) = none :=
    List.find?_eq_none.mpr fun n hn => by simpa using hleft n hn
  rw [hfilter, hrest, List.append_nil, hlast, hfind, Option.none_or, hhead]
  refine ⟨rfl, ?_⟩
  cases after with
  | nil => rfl
  | cons x rest =>
    rw [List.head?_cons, List.find?_cons_of_pos (by simpa using hnot x List.mem_cons_self)]

variable (cmp) in
/-- What a search returns: on every level the nodes on both sides of the key, and the node
with the key if there is one. -/
structure SearchResult (s : SkipList) (levels : Nat → List NodePtr) (key : List Byte)
    (ctx : TraversalCtx) : Prop where
  predecessors : ∀ l, ctx.predecessors l = last_left cmp s key (levels l)
  successors : ∀ l, ctx.successors l = first_from cmp s key (levels l)
  unused : ∀ l, levels l = [] → ctx.predecessors l = sentinel ∧ ctx.successors l = none
  searched_node : ∀ node, ctx.searched_node = some node ↔
    node ∈ levels 0 ∧ cmp.compare (s.nodes node).key key = .eq

theorem compare_eq_iff {a b : List Byte} : cmp.compare a b = .eq ↔ a = b :=
  Std.LawfulEqCmp.compare_eq_iff_eq

/-- The first node from a key on that is in the list has this key. -/
theorem WellFormed.first_from_key (h : WellFormed cmp s levels) {node : NodePtr}
    (hnode : node ∈ levels 0) (hkey : (s.nodes node).key = key) :
    first_from cmp s key (levels 0) = some node := by
  obtain ⟨before, after, hsplit⟩ := List.append_of_mem hnode
  have hsorted := h.sorted
  rw [hsplit] at hsorted
  have hself : cmp.compare (s.nodes node).key key ≠ .lt := by
    rw [compare_eq_iff.mpr hkey]
    decide
  rw [first_from, hsplit, List.find?_append, List.find?_eq_none.mpr ?_, Option.none_or,
    List.find?_cons_of_pos (by simpa using hself)]
  intro n hn
  have hlt := (List.pairwise_append.mp hsorted).2.2 n hn node List.mem_cons_self
  rw [KeyLt, hkey] at hlt
  simpa using hlt

theorem WellFormed.search_result (h : WellFormed cmp s levels) (key : List Byte) :
    ∃ ctx, Finishes (search_alone cmp key) s (.next .load_max_level) s ctx ∧
      SearchResult cmp s levels key ctx := by
  have hs := h.towers
  have hpc : SearchOk cmp s key .load_max_level := trivial
  obtain ⟨ctx, hsearch, hcurrent⟩ := search_ends hs hpc
  have hctx := (Finishes.ctxOk hs hpc hsearch).2
  have hnext := hcurrent ⟨rfl, fun l hl => h.next_sentinel hl⟩
  have hneighbours : ∀ l, ctx.predecessors l = last_left cmp s key (levels l) ∧
      ctx.successors l = first_from cmp s key (levels l) := by
    intro l
    rw [← hnext l (Nat.zero_le l)]
    apply hs.neighbours (hctx.predecessors l)
    intro x hx
    rw [hnext l (Nat.zero_le l)] at hx
    exact (hctx.successors l x hx).2
  refine ⟨ctx, hsearch, fun l => (hneighbours l).1, fun l => (hneighbours l).2, ?_, ?_⟩
  · intro l hempty
    rw [(hneighbours l).1, (hneighbours l).2, hempty]
    exact ⟨rfl, rfl⟩
  · intro node
    constructor
    · intro hfound
      obtain ⟨hlevel, hkey⟩ := hctx.found node hfound
      exact ⟨hs.onLevel_iff.mp hlevel, compare_eq_iff.mpr hkey⟩
    · rintro ⟨hnode, hcmp⟩
      have hkey := compare_eq_iff.mp hcmp
      have hfirst := h.first_from_key hnode hkey
      rw [← (hneighbours 0).2] at hfirst
      cases hfound : ctx.searched_node with
      | none => exact absurd hkey (hctx.not_found hfound 0 node hfirst)
      | some found =>
        obtain ⟨hlevel, hfkey⟩ := hctx.found found hfound
        rw [hs.eq_of_key hlevel (hs.onLevel_iff.mpr hnode) (hfkey.trans hkey.symm)]

/-- `search_node` and `seek` come to the first node from the key on. -/
theorem SearchResult.seeks {ctx : TraversalCtx} (h : WellFormed cmp s levels)
    (hresult : SearchResult cmp s levels key ctx) :
    (match ctx.searched_node with
      | some node => some node
      | none => ctx.successors 0) = first_from cmp s key (levels 0) := by
  cases hfound : ctx.searched_node with
  | none => exact hresult.successors 0
  | some node =>
    obtain ⟨hnode, hcmp⟩ := (hresult.searched_node node).mp hfound
    exact (h.first_from_key hnode (compare_eq_iff.mp hcmp)).symm

/-- A search that runs alone returns, and `search_node` and `seek` with it. -/
theorem WellFormed.search_runs (h : WellFormed cmp s levels) (key : List Byte) :
    ∃ ctx, SearchResult cmp s levels key ctx ∧ ∃ enough, ∀ fuel, enough ≤ fuel →
      search cmp fuel s key = some ctx ∧
      search_node cmp fuel s key = some (first_from cmp s key (levels 0)) ∧
      seek cmp fuel s key = some (first_from cmp s key (levels 0)) := by
  obtain ⟨ctx, hfinishes, hresult⟩ := h.search_result key
  obtain ⟨enough, hrun⟩ := hfinishes.run_alone _ rfl
  refine ⟨ctx, hresult, enough, fun fuel hfuel => ?_⟩
  have hsearch : search cmp fuel s key = some ctx := by
    rw [search, hrun fuel hfuel]
    rfl
  refine ⟨hsearch, ?_, ?_⟩
  · rw [search_node, hsearch, Option.map_some, hresult.successors 0]
  · rw [seek, hsearch, Option.map_some, hresult.seeks h]

end search

end ordinum.mem_skip_list
