import Mathlib.Data.List.TakeWhile
import Ordinum.Key.InternalKey
import Ordinum.Linked.Ascending
import Ordinum.Utils.SkipLists.Seek

open interleaving interleaving.System
open ordinum.key ordinum.utils

namespace ordinum.mem_skip_list

inductive Bound where
  | Included (key : List Byte)
  | Excluded (key : List Byte)
  | Unbounded
  deriving DecidableEq, Repr

/-- An iterator of `range`: the node that it is at, and its end bound. -/
structure RangeIter where
  start : Option NodePtr
  end_bound : Bound

/-- `none` is out of fuel. -/
def range (cmp : Comparator) (fuel : Nat) (s : SkipList) (start_bound end_bound : Bound) :
    Option RangeIter := do
  let start ← match start_bound with
    | .Excluded k => seek cmp fuel s k
    | .Included k => seek cmp fuel s k
    | .Unbounded => some (s.next sentinel 0)
  return { start, end_bound }

/-- The keys at which the iterator stops, in the order of their bytes. -/
def Bound.stops : Bound → List Byte → Bool
  | .Excluded bound, key => compare key bound ≠ .lt
  | .Included bound, key => compare key bound = .gt
  | .Unbounded, _ => false

namespace RangeIter

def next (s : SkipList) (self : RangeIter) : Option (NodePtr × RangeIter) :=
  match self.start with
  | none => none
  | some node =>
    if self.end_bound.stops (s.nodes node).key then none
    else some (node, { self with start := s.next node 0 })

/-- Iterate up to the first `None`; `none` is out of fuel. -/
def collect (s : SkipList) : Nat → RangeIter → Option (List NodePtr)
  | 0, _ => none
  | fuel + 1, self =>
    match self.next s with
    | none => some []
    | some (node, self) => (collect s fuel self).map (node :: ·)

end RangeIter

variable (cmp : Comparator)

/-- The keys that a start bound admits under the list's comparator. -/
def Bound.admits_start : Bound → List Byte → Prop
  | .Included bound, key => cmp.compare key bound ≠ .lt
  | .Excluded bound, key => cmp.compare key bound = .gt
  | .Unbounded, _ => True

/-- The keys that an end bound admits under the list's comparator. -/
def Bound.admits_end : Bound → List Byte → Prop
  | .Included bound, key => cmp.compare key bound ≠ .gt
  | .Excluded bound, key => cmp.compare key bound = .lt
  | .Unbounded, _ => True

/-- The keys from the one that a start bound names on. -/
def Bound.from_start : Bound → List Byte → Bool
  | .Included bound, key | .Excluded bound, key => cmp.compare key bound ≠ .lt
  | .Unbounded, _ => true

variable {cmp} {s : SkipList} {levels : Nat → List NodePtr} {start_bound end_bound : Bound}

/-- The nodes of the base level from a start bound on. -/
def scanned (cmp : Comparator) (s : SkipList) (start_bound : Bound) (xs : List NodePtr) :
    List NodePtr :=
  xs.dropWhile fun node => !start_bound.from_start cmp (s.nodes node).key

section collect

/-- The iterator follows the chain up to the first key at which it stops. -/
theorem collect_chain {xs : List NodePtr} : ∀ {start : Option NodePtr},
    linked.IsChain (fun node => s.next node 0) start xs → ∀ fuel, xs.length < fuel →
      RangeIter.collect s fuel { start, end_bound } =
        some (xs.takeWhile fun node => !end_bound.stops (s.nodes node).key) := by
  induction xs with
  | nil =>
    rintro start hchain (_ | fuel) hfuel
    · cases hfuel
    · obtain rfl : start = none := hchain
      rfl
  | cons x xs ih =>
    rintro start ⟨rfl, hchain⟩ (_ | fuel) hfuel
    · cases hfuel
    · have hrest := ih hchain fuel (Nat.lt_of_succ_lt_succ hfuel)
      cases hstops : end_bound.stops (s.nodes x).key with
      | true =>
        have hnext : RangeIter.next s { start := some x, end_bound } = none := if_pos hstops
        rw [RangeIter.collect, hnext, List.takeWhile_cons_of_neg (by simp [hstops])]
      | false =>
        have hnext : RangeIter.next s { start := some x, end_bound } =
            some (x, { start := s.next x 0, end_bound }) := if_neg (by simp [hstops])
        rw [RangeIter.collect, hnext, List.takeWhile_cons_of_pos (by simp [hstops])]
        simp only [hrest, Option.map_some]

theorem first_from_eq_head? (key : List Byte) (xs : List NodePtr) :
    first_from cmp s key xs =
      (xs.dropWhile fun node => !decide (cmp.compare (s.nodes node).key key ≠ .lt)).head? := by
  rw [first_from, List.find?_eq_head?_dropWhile_not]

/-- The nodes from a start bound on are the rest of the base level. -/
theorem WellFormed.scanned_chain (h : WellFormed cmp s levels) (start_bound : Bound) :
    linked.IsChain (fun node => s.next node 0) (scanned cmp s start_bound (levels 0)).head?
      (scanned cmp s start_bound (levels 0)) := by
  have hlevel := (h.chain 0).2
  rw [← List.takeWhile_append_dropWhile
    (p := fun node => !start_bound.from_start cmp (s.nodes node).key) (l := levels 0)] at hlevel
  exact hlevel.suffix

theorem scanned_unbounded (xs : List NodePtr) : scanned cmp s .Unbounded xs = xs :=
  List.dropWhile_eq_self_iff.mpr fun _ => by simp [Bound.from_start]

/-- A range that is scanned alone yields what is left of the nodes from its start on. -/
theorem WellFormed.collect_range (h : WellFormed cmp s levels) (start_bound end_bound : Bound) :
    ∃ enough, ∀ fuel, enough ≤ fuel →
      (range cmp fuel s start_bound end_bound).bind (RangeIter.collect s fuel) =
        some ((scanned cmp s start_bound (levels 0)).takeWhile
          fun node => !end_bound.stops (s.nodes node).key) := by
  have hchain := h.scanned_chain start_bound
  have hstart : ∃ enough, ∀ fuel, enough ≤ fuel → range cmp fuel s start_bound end_bound =
      some { start := (scanned cmp s start_bound (levels 0)).head?, end_bound } := by
    have hseek : ∀ key, ∃ enough, ∀ fuel, enough ≤ fuel → seek cmp fuel s key = some
        ((levels 0).dropWhile fun node =>
          !decide (cmp.compare (s.nodes node).key key ≠ .lt)).head? := by
      intro key
      obtain ⟨ctx, -, enough, hruns⟩ := h.search_runs key
      exact ⟨enough, fun fuel hfuel => by rw [(hruns fuel hfuel).2.2, first_from_eq_head?]⟩
    cases start_bound with
    | Included key | Excluded key =>
      obtain ⟨enough, hruns⟩ := hseek key
      refine ⟨enough, fun fuel hfuel => ?_⟩
      simp only [range, hruns fuel hfuel, Option.bind_eq_bind, Option.bind_some]
      rfl
    | Unbounded =>
      refine ⟨0, fun fuel _ => ?_⟩
      rw [range, scanned_unbounded, ← (h.chain 0).2.head?]
      rfl
  obtain ⟨enough, hrange⟩ := hstart
  refine ⟨enough + (scanned cmp s start_bound (levels 0)).length + 1, fun fuel hfuel => ?_⟩
  rw [hrange fuel (by omega), Option.bind_some]
  exact collect_chain hchain fuel (by omega)

end collect

section exact

variable (cmp) in
/-- A scan that runs alone yields the nodes within the bounds and no others, each once and
in the comparator's order. -/
def RangeExact (s : SkipList) (start_bound end_bound : Bound) : Prop :=
  ∃ nodes, (∃ enough, ∀ fuel, enough ≤ fuel →
      (range cmp fuel s start_bound end_bound).bind (RangeIter.collect s fuel) = some nodes) ∧
    nodes.Pairwise (KeyLt cmp s) ∧
    ∀ node, node ∈ nodes ↔ OnLevel s 0 node ∧
      start_bound.admits_start cmp (s.nodes node).key ∧
      end_bound.admits_end cmp (s.nodes node).key

variable (cmp) in
/-- A node from the start bound on, with none before it at which the iterator stops. -/
structure Reached (s : SkipList) (start_bound end_bound : Bound) (node : NodePtr) : Prop where
  onLevel : OnLevel s 0 node
  from_start : start_bound.from_start cmp (s.nodes node).key
  before : ∀ other, OnLevel s 0 other → start_bound.from_start cmp (s.nodes other).key →
    KeyLt cmp s other node → end_bound.stops (s.nodes other).key = false

variable (cmp) in
/-- The iterator's stop, in byte order, does what the bounds say in the comparator's order.
An excluded start that is in the list is yielded unless the iterator stops at it. -/
structure BoundsAgree (s : SkipList) (start_bound end_bound : Bound) : Prop where
  excluded : ∀ node, OnLevel s 0 node → start_bound = .Excluded (s.nodes node).key →
    end_bound.stops (s.nodes node).key = true ∧ ∀ other, OnLevel s 0 other →
      KeyLt cmp s node other → ¬ end_bound.admits_end cmp (s.nodes other).key
  reached : (∀ node, OnLevel s 0 node → start_bound ≠ .Excluded (s.nodes node).key) →
    ∀ node, Reached cmp s start_bound end_bound node →
      (end_bound.stops (s.nodes node).key = false ↔
        end_bound.admits_end cmp (s.nodes node).key)

theorem KeyLt.asymm (x y : NodePtr) (hxy : KeyLt cmp s x y) : ¬ KeyLt cmp s y x := fun hyx =>
  cmp.lt_irrefl _ (cmp.lt_trans hxy hyx)

/-- The keys left of a start bound come first. -/
theorem Bound.from_start_closed (start_bound : Bound) (x y : NodePtr) (hlt : KeyLt cmp s x y)
    (hy : !start_bound.from_start cmp (s.nodes y).key) :
    !start_bound.from_start cmp (s.nodes x).key := by
  cases start_bound with
  | Included key | Excluded key =>
    simp only [Bound.from_start, Bool.not_eq_true', decide_eq_false_iff_not, not_not] at hy ⊢
    exact cmp.lt_trans hlt hy
  | Unbounded => exact hy

/-- The keys that an end bound admits come first. -/
theorem Bound.admits_end_closed {x y : NodePtr} (hlt : KeyLt cmp s x y)
    (hy : end_bound.admits_end cmp (s.nodes y).key) :
    end_bound.admits_end cmp (s.nodes x).key := by
  cases end_bound with
  | Included key =>
    intro hgt
    have hkey := cmp.lt_trans (cmp.lt_of_gt hgt) hlt
    exact hy (Std.OrientedCmp.gt_iff_lt.mpr hkey)
  | Excluded key => exact cmp.lt_trans hlt hy
  | Unbounded => trivial

theorem WellFormed.mem_scanned (h : WellFormed cmp s levels) {node : NodePtr} :
    node ∈ scanned cmp s start_bound (levels 0) ↔
      OnLevel s 0 node ∧ start_bound.from_start cmp (s.nodes node).key := by
  rw [scanned, linked.mem_dropWhile_iff (Bound.from_start_closed start_bound) h.sorted,
    h.towers.onLevel_iff]
  simp

theorem WellFormed.scanned_sorted (h : WellFormed cmp s levels) (start_bound : Bound) :
    (scanned cmp s start_bound (levels 0)).Pairwise (KeyLt cmp s) :=
  h.sorted.sublist (List.dropWhile_sublist _)

theorem WellFormed.mem_collected (h : WellFormed cmp s levels) {node : NodePtr} :
    node ∈ ((scanned cmp s start_bound (levels 0)).takeWhile
        fun node => !end_bound.stops (s.nodes node).key) ↔
      Reached cmp s start_bound end_bound node ∧ end_bound.stops (s.nodes node).key = false := by
  rw [linked.mem_takeWhile_iff KeyLt.asymm (h.scanned_sorted start_bound)]
  simp only [h.mem_scanned, Bool.not_eq_true']
  constructor
  · rintro ⟨⟨hlevel, hfrom⟩, hstops, hbefore⟩
    exact ⟨⟨hlevel, hfrom, fun other ho hof hlt => hbefore other ⟨ho, hof⟩ hlt⟩, hstops⟩
  · rintro ⟨⟨hlevel, hfrom, hbefore⟩, hstops⟩
    exact ⟨⟨hlevel, hfrom⟩, hstops, fun other ho hlt => hbefore other ho.1 ho.2 hlt⟩

theorem Bound.admits_start_iff (key : List Byte) : start_bound.admits_start cmp key ↔
    start_bound.from_start cmp key ∧ start_bound ≠ .Excluded key := by
  cases start_bound with
  | Included bound => simp [Bound.admits_start, Bound.from_start]
  | Excluded bound =>
    rw [Bound.admits_start, Bound.from_start, decide_eq_true_iff, Ne, Ne, Bound.Excluded.injEq,
      eq_comm (a := bound), ← @compare_eq_iff cmp]
    cases cmp.compare key bound <;> simp
  | Unbounded => simp [Bound.admits_start, Bound.from_start]

/-- Keys to the right of an excluded start that is in the list. -/
theorem lt_of_from_excluded {x y : NodePtr} (hfrom :
      (Bound.Excluded (s.nodes x).key).from_start cmp (s.nodes y).key)
    (hne : (s.nodes y).key ≠ (s.nodes x).key) : KeyLt cmp s x y := by
  rw [Bound.from_start, decide_eq_true_iff] at hfrom
  cases hcmp : cmp.compare (s.nodes y).key (s.nodes x).key with
  | lt => exact absurd hcmp hfrom
  | eq => exact absurd (compare_eq_iff.mp hcmp) hne
  | gt => exact cmp.lt_of_gt hcmp

variable (cmp end_bound) in
/-- An excluded start that is in the list is where the scan begins. -/
theorem Reached.excluded_start {node : NodePtr} (hnode : OnLevel s 0 node)
    (hstart : start_bound = .Excluded (s.nodes node).key) :
    Reached cmp s start_bound end_bound node := by
  subst hstart
  refine ⟨hnode, ?_, fun other _ hfrom hlt => ?_⟩
  · rw [Bound.from_start, decide_eq_true_iff]
    exact cmp.lt_irrefl _
  · rw [Bound.from_start, decide_eq_true_iff] at hfrom
    exact absurd hlt hfrom

/-- Where the end tests agree on all that is reached, the scan reaches all that the bounds
admit. -/
theorem WellFormed.reached_of_admitted (h : WellFormed cmp s levels)
    (hagree : ∀ node, Reached cmp s start_bound end_bound node →
      (end_bound.stops (s.nodes node).key = false ↔ end_bound.admits_end cmp (s.nodes node).key))
    {node : NodePtr} (hnode : OnLevel s 0 node)
    (hfrom : start_bound.from_start cmp (s.nodes node).key)
    (hend : end_bound.admits_end cmp (s.nodes node).key) :
    Reached cmp s start_bound end_bound node := by
  refine ⟨hnode, hfrom, fun other hother hofrom hlt => ?_⟩
  by_contra hstops
  -- the first node at which the iterator stops is reached, and admitted with `node`
  obtain ⟨first, hfirst, hpass, hle, hbefore⟩ := linked.exists_first_not (R := KeyLt cmp s)
    (p := fun node => !start_bound.from_start cmp (s.nodes node).key ||
      !end_bound.stops (s.nodes node).key) KeyLt.asymm h.sorted
    (h.towers.onLevel_iff.mp hother) (by simp [hofrom, hstops])
  simp only [Bool.or_eq_false_iff, Bool.not_eq_false'] at hpass
  have hreached : Reached cmp s start_bound end_bound first := by
    refine ⟨h.towers.onLevel_iff.mpr hfirst, hpass.1, fun z hz hzfrom hzlt => ?_⟩
    have hz' := hbefore z (h.towers.onLevel_iff.mp hz) hzlt
    simpa [hzfrom] using hz'
  have hltnode : KeyLt cmp s first node := by
    obtain rfl | hfo := hle
    · exact hlt
    · exact cmp.lt_trans hfo hlt
  have hpassed := (hagree first hreached).mpr (Bound.admits_end_closed hltnode hend)
  cases hpass.2.symm.trans hpassed

/-- What a scan yields is what it reaches before it stops. -/
theorem WellFormed.range_exact_iff_reached (h : WellFormed cmp s levels)
    (start_bound end_bound : Bound) : RangeExact cmp s start_bound end_bound ↔ ∀ node,
      Reached cmp s start_bound end_bound node ∧ end_bound.stops (s.nodes node).key = false ↔
        OnLevel s 0 node ∧
          (start_bound.from_start cmp (s.nodes node).key ∧
            start_bound ≠ .Excluded (s.nodes node).key) ∧
          end_bound.admits_end cmp (s.nodes node).key := by
  obtain ⟨enough, hcollect⟩ := h.collect_range start_bound end_bound
  simp only [← Bound.admits_start_iff]
  constructor
  · rintro ⟨nodes, ⟨enough', hnodes⟩, -, hmem⟩ node
    have hsame := (hcollect (enough + enough') (Nat.le_add_right ..)).symm.trans
      (hnodes (enough + enough') (Nat.le_add_left ..))
    rw [← hmem node, ← Option.some.inj hsame, h.mem_collected]
  · intro hmem
    refine ⟨_, ⟨enough, hcollect⟩, ?_, fun node => h.mem_collected.trans (hmem node)⟩
    exact (h.scanned_sorted start_bound).sublist (List.takeWhile_sublist _)

theorem WellFormed.bounds_agree_of_exact (h : WellFormed cmp s levels)
    (hexact : RangeExact cmp s start_bound end_bound) :
    BoundsAgree cmp s start_bound end_bound := by
  have hmem := (h.range_exact_iff_reached start_bound end_bound).mp hexact
  refine ⟨fun node hnode hstart => ?_, fun hmiss node hreached => ?_⟩
  · have hreached := Reached.excluded_start cmp end_bound hnode hstart
    have hstops : end_bound.stops (s.nodes node).key = true := by
      by_contra hpass
      have hadmitted := (hmem node).mp ⟨hreached, by simpa using hpass⟩
      exact hadmitted.2.1.2 hstart
    refine ⟨hstops, fun other hother hlt hend => ?_⟩
    have hfrom : start_bound.from_start cmp (s.nodes other).key := by
      rw [hstart, Bound.from_start, decide_eq_true_iff]
      exact KeyLt.asymm _ _ hlt
    have hne : start_bound ≠ .Excluded (s.nodes other).key := by
      rw [hstart]
      intro heq
      rw [KeyLt, Bound.Excluded.inj heq] at hlt
      exact cmp.lt_irrefl _ hlt
    have hpassed := ((hmem other).mpr ⟨hother, ⟨hfrom, hne⟩, hend⟩).1.before node hnode
      hreached.from_start hlt
    cases hstops.symm.trans hpassed
  · constructor
    · intro hpass
      exact ((hmem node).mp ⟨hreached, hpass⟩).2.2
    · intro hend
      exact ((hmem node).mpr ⟨hreached.onLevel, ⟨hreached.from_start,
        hmiss node hreached.onLevel⟩, hend⟩).2

theorem WellFormed.exact_of_bounds_agree (h : WellFormed cmp s levels)
    (hagrees : BoundsAgree cmp s start_bound end_bound) :
    RangeExact cmp s start_bound end_bound := by
  obtain ⟨hexcluded, hagree⟩ := hagrees
  rw [h.range_exact_iff_reached]
  intro node
  by_cases hmiss : ∀ node, OnLevel s 0 node → start_bound ≠ .Excluded (s.nodes node).key
  · constructor
    · rintro ⟨hreached, hpass⟩
      exact ⟨hreached.onLevel, ⟨hreached.from_start, hmiss node hreached.onLevel⟩,
        (hagree hmiss node hreached).mp hpass⟩
    · rintro ⟨hnode, ⟨hfrom, -⟩, hend⟩
      have hreached := h.reached_of_admitted (hagree hmiss) hnode hfrom hend
      exact ⟨hreached, (hagree hmiss node hreached).mpr hend⟩
  · -- the iterator stops at the excluded start, and nothing to its right is admitted
    push Not at hmiss
    obtain ⟨first, hfirst, hstart⟩ := hmiss
    obtain ⟨hstops, hnone⟩ := hexcluded first hfirst hstart
    have hright : start_bound.from_start cmp (s.nodes node).key →
        (s.nodes node).key = (s.nodes first).key ∨ KeyLt cmp s first node := by
      intro hfrom
      rw [hstart] at hfrom
      by_cases hkey : (s.nodes node).key = (s.nodes first).key
      · exact .inl hkey
      · exact .inr (lt_of_from_excluded hfrom hkey)
    constructor
    · rintro ⟨hreached, hpass⟩
      obtain hkey | hlt := hright hreached.from_start
      · rw [hkey] at hpass
        cases hstops.symm.trans hpass
      · have hfrom := (Reached.excluded_start cmp end_bound hfirst hstart).from_start
        cases hstops.symm.trans (hreached.before first hfirst hfrom hlt)
    · rintro ⟨hnode, ⟨hfrom, hne⟩, hend⟩
      obtain hkey | hlt := hright hfrom
      · exact absurd (hkey ▸ hstart) hne
      · exact absurd hend (hnone node hnode hlt)

/-- Of the lists that insertions build, a scan is exact exactly where the bounds agree. -/
theorem range_exact_iff {Tid : Type} [DecidableEq Tid] {c : Config Tid SkipList InsertThread}
    (hc : (skip_list_system cmp Tid).ReachableUnder entries_fit c) (start_bound end_bound : Bound) :
    RangeExact cmp c.shared start_bound end_bound ↔
      BoundsAgree cmp c.shared start_bound end_bound := by
  obtain ⟨levels, h⟩ := wellFormed_of_reachable hc
  exact ⟨h.bounds_agree_of_exact, h.exact_of_bounds_agree⟩

/-- An insertion of each of these keys, for a list that has just been made. -/
def insert_each (steps : Nat) (keys : List (List Byte)) : List (Unit × InsertAct) :=
  keys.flatMap fun key =>
    ((), .start (.insert_with key [])) :: List.replicate steps ((), .step false)

theorem range_exact_iff_half_open :
    ∃ c, (skip_list_system DefaultComparator Unit).ReachableUnder entries_fit c ∧
      c.shared.allocated = 2 ∧
      (RangeExact DefaultComparator c.shared (.Included [1]) (.Excluded [2]) ↔
        BoundsAgree DefaultComparator c.shared (.Included [1]) (.Excluded [2])) := by
  obtain ⟨c, hc, hseen⟩ := reachable_showing (skip_list_system DefaultComparator Unit) entries_fit
    (insert_each 8 [[1]]) (fun c => c.shared.allocated) 2 (by decide +kernel)
  exact ⟨c, hc, hseen, range_exact_iff hc _ _⟩

/-- A list of one node. -/
theorem onLevel_single {node : NodePtr} (hfirst : s.next sentinel 0 = some node)
    (hlast : s.next node 0 = none) {other : NodePtr} : OnLevel s 0 other ↔ other = node := by
  have hlevel : IsLevel s 0 [node] := ⟨rfl, hfirst, hlast⟩
  constructor
  · rintro ⟨xs, hxs, hmem⟩
    obtain rfl : xs = [node] := List.tail_eq_of_cons_eq (hxs.unique hlevel)
    exact List.mem_singleton.mp hmem
  · rintro rfl
    exact ⟨_, hlevel, List.mem_singleton_self _⟩

/-- An excluded start that is in the list is yielded. -/
theorem excluded_start_is_yielded :
    ∃ c, (skip_list_system DefaultComparator Unit).ReachableUnder entries_fit c ∧
      ¬ RangeExact DefaultComparator c.shared (.Excluded [1]) .Unbounded := by
  obtain ⟨c, hc, hseen⟩ := reachable_showing (skip_list_system DefaultComparator Unit) entries_fit
    (insert_each 8 [[1]])
    (fun c => (c.shared.next sentinel 0, c.shared.next 1 0, (c.shared.nodes 1).key))
    (some 1, none, [1]) (by decide +kernel)
  simp only [Prod.mk.injEq] at hseen
  obtain ⟨hfirst, hlast, hkey⟩ := hseen
  obtain ⟨levels, h⟩ := wellFormed_of_reachable hc
  refine ⟨c, hc, fun hexact => ?_⟩
  obtain ⟨hstops, -⟩ := (h.bounds_agree_of_exact hexact).excluded 1
    ((onLevel_single hfirst hlast).mpr rfl) (by rw [hkey])
  cases hstops

/-- The second version of the empty user key is the only entry. -/
theorem single_version :
    ∃ c, (skip_list_system InternalKeyComparator Unit).ReachableUnder entries_fit c ∧
      (∀ node, OnLevel c.shared 0 node ↔ node = 1) ∧
      (c.shared.nodes 1).key = encode [] 2 .Put := by
  obtain ⟨c, hc, hseen⟩ := reachable_showing (skip_list_system InternalKeyComparator Unit) entries_fit
    (insert_each 8 [encode [] 2 .Put])
    (fun c => (c.shared.next sentinel 0, c.shared.next 1 0, (c.shared.nodes 1).key))
    (some 1, none, encode [] 2 .Put) (by decide +kernel)
  simp only [Prod.mk.injEq] at hseen
  obtain ⟨hfirst, hlast, hkey⟩ := hseen
  exact ⟨c, hc, fun node => onLevel_single hfirst hlast, hkey⟩

/-- The newer of two versions is left of the older, but not in the order of bytes. -/
theorem newer_version_is_not_yielded :
    ∃ c, (skip_list_system InternalKeyComparator Unit).ReachableUnder entries_fit c ∧
      ¬ RangeExact InternalKeyComparator c.shared .Unbounded (.Excluded (encode [] 1 .Put)) := by
  obtain ⟨c, hc, honly, hkey⟩ := single_version
  obtain ⟨levels, h⟩ := wellFormed_of_reachable hc
  refine ⟨c, hc, fun hexact => ?_⟩
  have hreached : Reached InternalKeyComparator c.shared .Unbounded
      (.Excluded (encode [] 1 .Put)) 1 := by
    refine ⟨(honly 1).mpr rfl, rfl, fun other hother _ hlt => ?_⟩
    obtain rfl := (honly other).mp hother
    exact absurd hlt (KeyLt.asymm _ _ hlt)
  have htests := (h.bounds_agree_of_exact hexact).reached (fun _ _ => by simp) 1 hreached
  rw [hkey] at htests
  have hpass := htests.mpr (show _ = Ordering.lt by decide)
  exact absurd hpass (by decide)

/-- The scan is inexact at an excluded start, and where the comparator's order is not that
of the bytes. -/
theorem range_is_inexact :
    (∃ c, (skip_list_system DefaultComparator Unit).ReachableUnder entries_fit c ∧
      ¬ RangeExact DefaultComparator c.shared (.Excluded [1]) .Unbounded) ∧
    ∃ c, (skip_list_system InternalKeyComparator Unit).ReachableUnder entries_fit c ∧
      ¬ RangeExact InternalKeyComparator c.shared .Unbounded (.Excluded (encode [] 1 .Put)) :=
  ⟨excluded_start_is_yielded, newer_version_is_not_yielded⟩

end exact

end ordinum.mem_skip_list
