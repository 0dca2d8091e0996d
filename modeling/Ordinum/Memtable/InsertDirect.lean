import Ordinum.Memtable.FirstGe
import Ordinum.Memtable.Snapshot
import Ordinum.Utils.SkipLists.LongValues

open interleaving interleaving.System
open ordinum.key ordinum.mem_skip_list ordinum.utils

namespace ordinum.memtable

/-- `insert_direct` writes the parts of the internal key into the node. The source reads the
trailer through a pointer to a temporary that is gone by then; here it reads the trailer. -/
def insert_direct (user_key : List Byte) (seq_no : BitVec 64) (op : InternalKeyKind)
    (value : List Byte) : InsertCall :=
  .insert_with (key.encode user_key seq_no op) value

/-- What one reads of two lists with a comparator is the same; `get` is read with the order
of internal keys. -/
structure ReadsAgree (cmp : Comparator) (s t : SkipList) : Prop where
  first_ge : ∀ lookup, ∃ found enough, ∀ fuel, enough ≤ fuel →
    first_ge_by cmp fuel s lookup = some found ∧ first_ge_by cmp fuel t lookup = some found
  seek : ∀ lookup, ∃ found enough, ∀ fuel, enough ≤ fuel →
    (seek cmp fuel s lookup).map (Option.map (pair s)) = some found ∧
      (seek cmp fuel t lookup).map (Option.map (pair t)) = some found
  iterate : ∀ start_bound end_bound, ∃ es enough, ∀ fuel, enough ≤ fuel →
    ((range cmp fuel s start_bound end_bound).bind (RangeIter.collect s fuel)).map (pairs s) =
        some es ∧
      ((range cmp fuel t start_bound end_bound).bind (RangeIter.collect t fuel)).map (pairs t) =
        some es
  get : cmp = InternalKeyComparator → ∀ lookup, ∃ ret enough, ∀ fuel, enough ≤ fuel →
    get fuel s lookup = ret ∧ get fuel t lookup = ret

variable {cmp : Comparator} {s t : SkipList} {levels levels' : Nat → List NodePtr}

section reads

theorem pair_first_from (lookup : List Byte) (xs : List NodePtr) :
    (first_from cmp s lookup xs).map (pair s) =
      (pairs s xs).find? fun e => cmp.compare e.1 lookup ≠ .lt := by
  rw [first_from, pairs, List.find?_map]
  rfl

theorem pairs_scanned (start_bound end_bound : Bound) (xs : List NodePtr) :
    pairs s ((scanned cmp s start_bound xs).takeWhile
        fun node => !end_bound.stops (s.nodes node).key) =
      ((pairs s xs).dropWhile fun e => !start_bound.from_start cmp e.1).takeWhile
        fun e => !end_bound.stops e.1 := by
  rw [pairs, pairs, List.dropWhile_map, List.takeWhile_map]
  rfl

/-- What is read of a list depends on its pairs only. -/
theorem reads_agree (hs : Intact cmp s levels) (ht : Intact cmp t levels')
    (hpairs : pairs s (levels 0) = pairs t (levels' 0)) : ReadsAgree cmp s t := by
  have hfirst : ∀ lookup, ∃ found enough, ∀ fuel, enough ≤ fuel →
      first_ge_by cmp fuel s lookup = some found ∧ first_ge_by cmp fuel t lookup = some found := by
    intro lookup
    obtain ⟨ctx, hctx, enough, hruns⟩ := hs.wellFormed.search_runs lookup
    obtain ⟨ctx', hctx', enough', hruns'⟩ := ht.wellFormed.search_runs lookup
    refine ⟨(first_from cmp s lookup (levels 0)).map (pair s), enough + enough',
      fun fuel hfuel => ⟨?_, ?_⟩⟩
    · rw [first_ge_by, (hruns fuel (by omega)).1, Option.map_some, hctx.successors 0]
      rfl
    · rw [first_ge_by, (hruns' fuel (by omega)).1, Option.map_some, hctx'.successors 0]
      change some ((first_from cmp t lookup (levels' 0)).map (pair t)) =
        some ((first_from cmp s lookup (levels 0)).map (pair s))
      rw [pair_first_from, pair_first_from, hpairs]
  refine ⟨hfirst, fun lookup => ?_, fun start_bound end_bound => ?_, ?_⟩
  · obtain ⟨_, _, enough, hruns⟩ := hs.wellFormed.search_runs lookup
    obtain ⟨_, _, enough', hruns'⟩ := ht.wellFormed.search_runs lookup
    refine ⟨(first_from cmp s lookup (levels 0)).map (pair s), enough + enough',
      fun fuel hfuel => ⟨?_, ?_⟩⟩
    · rw [(hruns fuel (by omega)).2.2, Option.map_some]
    · rw [(hruns' fuel (by omega)).2.2, Option.map_some, pair_first_from, pair_first_from, hpairs]
  · obtain ⟨enough, hcollect⟩ := hs.wellFormed.collect_range start_bound end_bound
    obtain ⟨enough', hcollect'⟩ := ht.wellFormed.collect_range start_bound end_bound
    refine ⟨pairs s ((scanned cmp s start_bound (levels 0)).takeWhile
      fun node => !end_bound.stops (s.nodes node).key), enough + enough',
      fun fuel hfuel => ⟨?_, ?_⟩⟩
    · rw [hcollect fuel (by omega), Option.map_some]
    · rw [hcollect' fuel (by omega), Option.map_some, pairs_scanned, pairs_scanned, hpairs]
  · rintro rfl lookup
    obtain ⟨found, enough, hruns⟩ := hfirst lookup
    refine ⟨get_return lookup found, enough, fun fuel hfuel => ?_⟩
    obtain ⟨hread, hread'⟩ := hruns fuel hfuel
    rw [get_eq, get_eq, first_ge_eq, first_ge_eq, hread, hread']
    exact ⟨rfl, rfl⟩

end reads

variable (cmp) in
/-- Two insertions, each alone on its list, return nodes, and whatever ends they come to, the
lists hold the same pairs, the nodes that they return hold the same pair, and reads agree.
`room` tells whether the arenas have room for the nodes. -/
structure InsertionsAgree (room : Bool) (call call' : InsertCall) (s t : SkipList) : Prop where
  ends : (∃ s' node, InsertsAlone cmp call room s s' (some node)) ∧
    ∃ t' node, InsertsAlone cmp call' room t t' (some node)
  agree : ∀ s' inserted t' inserted', InsertsAlone cmp call room s s' inserted →
    InsertsAlone cmp call' room t t' inserted' → ∃ node node',
      (inserted = some node ∧ inserted' = some node') ∧
      (∃ levels levels', (Intact cmp s' levels ∧ Intact cmp t' levels') ∧
        pairs s' (levels 0) = pairs t' (levels' 0)) ∧
      pair s' node = pair t' node' ∧ ReadsAgree cmp s' t'

theorem start_ne_done (call : InsertCall) :
    (Progress.next call.start : Progress InsertPc Inserted) ≠ .done none :=
  fun h => by cases h

theorem insertions_agree (hs : Intact cmp s levels) (ht : Intact cmp t levels')
    (hpairs : pairs s (levels 0) = pairs t (levels' 0)) {call call' : InsertCall}
    (hfits : call.Fits) (hfits' : call'.Fits) (hkey : call.key = call'.key)
    (hvalue : call.value = call'.value) : InsertionsAgree cmp true call call' s t := by
  refine ⟨⟨hs.inserts hfits.key, ht.inserts hfits'.key⟩,
    fun s' inserted t' inserted' hrun hrun' => ?_⟩
  obtain ⟨node, rfl⟩ := InsertRun.returns hrun (start_ne_done call)
  obtain ⟨node', rfl⟩ := InsertRun.returns hrun' (start_ne_done call')
  obtain ⟨levels₁, h₁, hpairs₁, hmem₁, hkey₁⟩ := hs.inserted hfits.key hrun
  obtain ⟨levels₂, h₂, hpairs₂, hmem₂, hkey₂⟩ := ht.inserted hfits'.key hrun'
  have hstored : call.stored = call'.stored := by
    rw [InsertCall.stored, InsertCall.stored, hkey, hvalue]
  have hsame : pairs s' (levels₁ 0) = pairs t' (levels₂ 0) := by
    rw [hpairs₁, hpairs₂, hstored, hpairs]
  refine ⟨node, node', ⟨rfl, rfl⟩, ⟨levels₁, levels₂, ⟨h₁, h₂⟩, hsame⟩, ?_, reads_agree h₁ h₂ hsame⟩
  rw [← hsame] at hmem₂
  exact eq_of_key_of_sorted h₁.towers.pairs_sorted hmem₁ hmem₂
    (hkey₁.trans (hkey.trans hkey₂.symm))

/-- On lists with the same pairs, whatever their towers and random states, `insert_with` does
what `insert` does where the arenas have room, and so `insert_direct` of a memtable what
`insert` of the internal key does. -/
theorem in_place_insertion_agrees (hs : Intact cmp s levels) (ht : Intact cmp t levels')
    (hpairs : pairs s (levels 0) = pairs t (levels' 0)) {value : List Byte}
    (hvalue : value.length < 2 ^ 32) :
    (∀ key : List Byte, key.length < 2 ^ 16 →
      InsertionsAgree cmp true (.insert key value) (.insert_with key value) s t) ∧
    ∀ user_key seq_no op, user_key.length + TRAILER_LEN < 2 ^ 16 →
      InsertionsAgree cmp true (insert (key.encode user_key seq_no op) value)
        (insert_direct user_key seq_no op value) s t := by
  have hall : ∀ key : List Byte, key.length < 2 ^ 16 →
      InsertionsAgree cmp true (.insert key value) (.insert_with key value) s t :=
    fun key hkey => insertions_agree hs ht hpairs ⟨hkey, hvalue⟩ ⟨hkey, hvalue⟩ rfl rfl
  refine ⟨hall, fun user_key seq_no op hlength => hall _ ?_⟩
  rw [key.encode, List.length_append, encode_trailer, wire.length_to_be_bytes]
  exact hlength

/-- One put, and its list with another random state. -/
theorem in_place_insertion_agrees_one_put :
    ∃ (s : SkipList) (levels : Nat → List NodePtr),
      (Intact InternalKeyComparator s levels ∧ s.allocated = 2) ∧
      (∀ key : List Byte, key.length < 2 ^ 16 →
        InsertionsAgree InternalKeyComparator true (.insert key [7]) (.insert_with key [7]) s
          { s with seed := 8 }) ∧
      ∀ user_key seq_no op, user_key.length + TRAILER_LEN < 2 ^ 16 →
        InsertionsAgree InternalKeyComparator true (insert (key.encode user_key seq_no op) [7])
          (insert_direct user_key seq_no op [7]) s { s with seed := 8 } := by
  obtain ⟨c, hc, hseen⟩ := reachable_showing
    (skip_list_system InternalKeyComparator Unit) entries_fit
    (insert_each 8 [key.encode [] 1 .Put]) (fun c => c.shared.allocated) 2 (by decide +kernel)
  obtain ⟨levels, hs⟩ := intact_of_reachable hc
  have ht : Intact InternalKeyComparator { c.shared with seed := 8 } levels :=
    ⟨hs.towers.quiet rfl rfl rfl hs.towers.max_level, hs.heights⟩
  exact ⟨c.shared, levels, ⟨hs, hseen⟩, in_place_insertion_agrees hs ht rfl (by decide)⟩

/-- Where the arena is full, `insert_with` panics. -/
theorem insert_with_panics {key value : List Byte} {s' : SkipList} {inserted : Inserted}
    (hrun : InsertsAlone cmp (.insert_with key value) false s s' inserted) : inserted = none :=
  InsertRun.refused hrun rfl

/-- A key that is there, inserted again: into a full arena `insert` returns the node and
`insert_with` panics, and with a value of 4 GiB `insert` leaves the memory as it is and
`insert_with` writes behind the arena's only block. -/
theorem present_key_insertions_differ :
    (∃ (s : SkipList) (levels : Nat → List NodePtr),
      Intact InternalKeyComparator s levels ∧
      (∃ s', InsertsAlone InternalKeyComparator (insert (key.encode [] 1 .Put) [7]) false s s'
        (some 1)) ∧
      (∀ s' inserted, InsertsAlone InternalKeyComparator (insert_direct [] 1 .Put [7]) false s s'
        inserted → inserted = none) ∧
      ¬ InsertionsAgree InternalKeyComparator false (insert (key.encode [] 1 .Put) [7])
        (insert_direct [] 1 .Put [7]) s s) ∧
    ∃ l₀ c d e, LeavesBlock l₀ c d e := by
  refine ⟨?_, long_value_leaves_block⟩
  obtain ⟨c, hc, hseen⟩ := reachable_showing
    (skip_list_system InternalKeyComparator Unit) entries_fit
    (insert_each 8 [key.encode [] 1 .Put]) (fun c => (run_alone (insert_step InternalKeyComparator
      (insert (key.encode [] 1 .Put) [7]) true) 4 c.shared (.search .load_max_level)).map Prod.snd)
    (some (some 1)) (by decide +kernel)
  obtain ⟨levels, hs⟩ := intact_of_reachable hc
  obtain ⟨⟨s', inserted⟩, hrun, rfl⟩ := Option.map_eq_some_iff.mp hseen
  refine ⟨c.shared, levels, hs, ⟨s', .of_finishes (.of_run_alone hrun)⟩,
    fun t' inserted hrun => insert_with_panics hrun, fun hagree => ?_⟩
  obtain ⟨-, t', node, hpanics⟩ := hagree.ends
  cases insert_with_panics hpanics

end ordinum.memtable
