import Ordinum.Memtable.Memtable
import Ordinum.Utils.SkipLists.Seek

open interleaving interleaving.System
open ordinum.key ordinum.mem_skip_list ordinum.utils

namespace ordinum.memtable

/-- `first_ge` of a memtable with this comparator; `none` is out of fuel. -/
def first_ge_by (cmp : Comparator) (fuel : Nat) (s : SkipList) (key : List Byte) :
    Option (Option (List Byte × List Byte)) :=
  (mem_skip_list.search cmp fuel s key).map fun ctx =>
    (ctx.successors 0).map fun node => ((s.nodes node).key, (s.nodes node).value)

theorem first_ge_eq (fuel : Nat) (s : SkipList) (key : List Byte) :
    first_ge fuel s key = first_ge_by InternalKeyComparator fuel s key := by
  rw [first_ge, first_ge_by, mem_skip_list.search, Option.map_map]
  rfl

/-- In a well-formed list a search returns, with the nodes on both sides of the key on
every level; `search_node`, `seek` and `first_ge` come to the first entry from the key on. -/
theorem search_and_seek {cmp : Comparator} {s : SkipList} {levels : Nat → List NodePtr}
    (h : WellFormed cmp s levels) (key : List Byte) :
    ∃ ctx, SearchResult cmp s levels key ctx ∧ ∃ enough, ∀ fuel, enough ≤ fuel →
      mem_skip_list.search cmp fuel s key = some ctx ∧
      search_node cmp fuel s key = some (first_from cmp s key (levels 0)) ∧
      seek cmp fuel s key = some (first_from cmp s key (levels 0)) ∧
      first_ge_by cmp fuel s key = some ((first_from cmp s key (levels 0)).map fun node =>
        ((s.nodes node).key, (s.nodes node).value)) := by
  obtain ⟨ctx, hresult, enough, hruns⟩ := h.search_runs key
  refine ⟨ctx, hresult, enough, fun fuel hfuel => ?_⟩
  obtain ⟨hsearch, hnode, hseek⟩ := hruns fuel hfuel
  refine ⟨hsearch, hnode, hseek, ?_⟩
  rw [first_ge_by, hsearch, Option.map_some, hresult.successors 0]

/-- In the list of two insertions. -/
theorem search_and_seek_between :
    ∃ (s : SkipList) (levels : Nat → List NodePtr),
      (WellFormed DefaultComparator s levels ∧ s.allocated = 3) ∧
      ∃ ctx, SearchResult DefaultComparator s levels [2] ctx ∧ ∃ enough, ∀ fuel, enough ≤ fuel →
        mem_skip_list.search DefaultComparator fuel s [2] = some ctx ∧
        search_node DefaultComparator fuel s [2] =
          some (first_from DefaultComparator s [2] (levels 0)) ∧
        seek DefaultComparator fuel s [2] =
          some (first_from DefaultComparator s [2] (levels 0)) ∧
        first_ge_by DefaultComparator fuel s [2] =
          some ((first_from DefaultComparator s [2] (levels 0)).map fun node =>
            ((s.nodes node).key, (s.nodes node).value)) := by
  obtain ⟨c, hc, hseen⟩ := reachable_showing (skip_list_system DefaultComparator Unit) entries_fit
    ([3, 1].flatMap fun key => ((), .start (.insert_with [key] [])) ::
      List.replicate (if key = 3 then 8 else 10) ((), .step false))
    (fun c => c.shared.allocated) 3 (by decide +kernel)
  obtain ⟨levels, h⟩ := wellFormed_of_reachable hc
  exact ⟨c.shared, levels, ⟨h, hseen⟩, search_and_seek h [2]⟩

end ordinum.memtable
