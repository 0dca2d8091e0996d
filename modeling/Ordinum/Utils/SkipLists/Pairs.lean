import Ordinum.Utils.SkipLists.RangeScan
import Ordinum.Utils.SkipLists.SequentialInsert

open interleaving interleaving.System
open ordinum.key ordinum.utils

namespace ordinum.mem_skip_list

/-- A key with its value. -/
abbrev Pair := List Byte × List Byte

def pair (s : SkipList) (node : NodePtr) : Pair := ((s.nodes node).key, (s.nodes node).value)

/-- What nodes hold, in their order. -/
def pairs (s : SkipList) (xs : List NodePtr) : List Pair := xs.map (pair s)

variable (cmp : Comparator)

def PairLt (a b : Pair) : Prop := cmp.compare a.1 b.1 = .lt

/-- An ordered list of pairs with one more, unless its key is there. -/
def inserted (e : Pair) (es : List Pair) : List Pair :=
  if ∃ x ∈ es, x.1 = e.1 then es
  else es.takeWhile (fun x => cmp.compare x.1 e.1 = .lt) ++
    e :: es.dropWhile fun x => cmp.compare x.1 e.1 = .lt

variable {cmp} {s s' t : SkipList} {levels : Nat → List NodePtr} {call : InsertCall}

section ordered

instance : Std.Irrefl (PairLt cmp) := ⟨fun _ => cmp.lt_irrefl _⟩

theorem PairLt.asymm (a b : Pair) (hab : PairLt cmp a b) : ¬ PairLt cmp b a := fun hba =>
  cmp.lt_irrefl _ (cmp.lt_trans hab hba)

instance : Std.Antisymm (PairLt cmp) := ⟨fun a b hab hba => absurd hba (PairLt.asymm a b hab)⟩

variable {e : Pair} {es : List Pair}

theorem mem_inserted {x : Pair} :
    x ∈ inserted cmp e es ↔ x ∈ es ∨ x = e ∧ ∀ y ∈ es, y.1 ≠ e.1 := by
  rw [inserted]
  split
  · rename_i hpresent
    obtain ⟨y, hy, hkey⟩ := hpresent
    exact ⟨.inl, fun h => h.resolve_right fun h => h.2 y hy hkey⟩
  · rename_i habsent
    push Not at habsent
    have hsplit := List.takeWhile_append_dropWhile
      (p := fun x : Pair => decide (cmp.compare x.1 e.1 = .lt)) (l := es)
    constructor
    · intro hx
      obtain hx | hx := List.mem_append.mp hx
      · exact .inl ((List.takeWhile_sublist _).subset hx)
      · obtain rfl | hx := List.mem_cons.mp hx
        · exact .inr ⟨rfl, habsent⟩
        · exact .inl ((List.dropWhile_sublist _).subset hx)
    · rintro (hx | ⟨rfl, -⟩)
      · rw [← hsplit] at hx
        obtain hx | hx := List.mem_append.mp hx
        · exact List.mem_append_left _ hx
        · exact List.mem_append_right _ (List.mem_cons_of_mem _ hx)
      · exact List.mem_append_right _ List.mem_cons_self

theorem inserted_sorted (hes : es.Pairwise (PairLt cmp)) :
    (inserted cmp e es).Pairwise (PairLt cmp) := by
  rw [inserted]
  split
  · exact hes
  · rename_i habsent
    push Not at habsent
    have hclosed : ∀ x y : Pair, PairLt cmp x y → decide (cmp.compare y.1 e.1 = .lt) = true →
        decide (cmp.compare x.1 e.1 = .lt) = true := by
      intro x y hlt hy
      exact decide_eq_true (cmp.lt_trans hlt (of_decide_eq_true hy))
    have hleft : ∀ x ∈ es.takeWhile (fun x => decide (cmp.compare x.1 e.1 = .lt)),
        PairLt cmp x e := by
      intro x hx
      have hlt := ((linked.mem_takeWhile_iff PairLt.asymm hes).mp hx).2.1
      rwa [decide_eq_true_iff] at hlt
    have hright : ∀ x ∈ es.dropWhile (fun x => decide (cmp.compare x.1 e.1 = .lt)),
        PairLt cmp e x := by
      intro x hx
      obtain ⟨hmem, hnot⟩ := (linked.mem_dropWhile_iff hclosed hes).mp hx
      have hne := habsent x hmem
      rw [decide_eq_true_iff] at hnot
      cases hcmp : cmp.compare x.1 e.1 with
      | lt => exact absurd hcmp hnot
      | eq => exact absurd (compare_eq_iff.mp hcmp) hne
      | gt => exact cmp.lt_of_gt hcmp
    refine List.pairwise_append.mpr ⟨hes.sublist (List.takeWhile_sublist _),
      List.pairwise_cons.mpr ⟨hright, hes.sublist (List.dropWhile_sublist _)⟩, ?_⟩
    intro x hx y hy
    obtain rfl | hy := List.mem_cons.mp hy
    · exact hleft x hx
    · exact cmp.lt_trans (hleft x hx) (hright y hy)

/-- A key is in an ordered list of pairs with one value. -/
theorem eq_of_key_of_sorted (hes : es.Pairwise (PairLt cmp)) {a b : Pair} (ha : a ∈ es)
    (hb : b ∈ es) (hkey : a.1 = b.1) : a = b := by
  have hne : ∀ x y : Pair, PairLt cmp x y → x.1 ≠ y.1 := by
    intro x y hlt heq
    rw [PairLt, heq] at hlt
    exact cmp.lt_irrefl _ hlt
  exact List.Pairwise.forall_of_forall_of_flip (R := fun x y => x.1 = y.1 → x = y)
    (fun _ _ _ => rfl) (hes.imp fun hlt heq => absurd heq (hne _ _ hlt))
    (hes.imp fun hlt heq => absurd heq.symm (hne _ _ hlt)) ha hb hkey

end ordered

section pairs

theorem Towers.pairs_sorted (hs : Towers cmp s levels) :
    (pairs s (levels 0)).Pairwise (PairLt cmp) :=
  List.pairwise_map.mpr (hs.sorted 0)

theorem Towers.mem_pairs (hs : Towers cmp s levels) {e : Pair} :
    e ∈ pairs s (levels 0) ↔ ∃ node, OnLevel s 0 node ∧ pair s node = e := by
  rw [pairs, List.mem_map]
  simp only [hs.onLevel_iff]

end pairs

section runs

variable (cmp call) in
/-- An insertion that runs alone, whatever exchanges fail for no reason, in an arena that has
room for its node or not: it leaves `s'` and returns a node, or panics. -/
inductive InsertRun (room : Bool) :
    SkipList → Progress InsertPc Inserted → SkipList → Inserted → Prop where
  | ends (s : SkipList) (inserted : Inserted) : InsertRun room s (.done inserted) s inserted
  | step {s pc s' inserted} (choice : Bool)
    (hroom : ∀ ctx height, pc = .alloc ctx height → choice = !room)
    (rest : InsertRun room (insert_step cmp call choice s pc).1
      (insert_step cmp call choice s pc).2 s' inserted) : InsertRun room s (.next pc) s' inserted

theorem InsertRun.of_finishes {progress : Progress InsertPc Inserted} {result : Inserted}
    {room : Bool} (h : Finishes (insert_step cmp call !room) s progress s' result) :
    InsertRun cmp call room s progress s' result := by
  induction h with
  | done => exact .ends _ _
  | next _ ih => exact .step (!room) (fun _ _ _ => rfl) ih

/-- Only the arena's refusal ends an insertion without a node. -/
theorem insert_step_done {pc : InsertPc} {choice : Bool}
    (h : (insert_step cmp call choice s pc).2 = .done none) :
    choice = true ∧ ∃ ctx height, pc = .alloc ctx height := by
  cases pc with
  | search pc =>
    rw [insert_step] at h
    split at h
    · cases h
    · split at h <;> cases h
  | fetch_add_entries | load_seed | store_seed | store_next => cases h
  | load_max_level ctx height =>
    rw [insert_step] at h
    split at h <;> cases h
  | cas_max_level ctx height max_height =>
    rw [insert_step] at h
    split at h
    · cases h
    · dsimp only at h
      split at h <;> cases h
  | alloc ctx height =>
    refine ⟨?_, ctx, height, rfl⟩
    cases choice with
    | true => rfl
    | false => cases ctx <;> cases h
  | search_again node level pc =>
    rw [insert_step] at h
    split at h
    · cases h
    · split at h <;> cases h
  | cas_next node level ctx =>
    rw [insert_step] at h
    split at h
    · dsimp only at h
      split at h <;> cases h
    · cases h

/-- The insertion, from its start. -/
def InsertsAlone (cmp : Comparator) (call : InsertCall) (room : Bool) (s s' : SkipList)
    (inserted : Inserted) : Prop :=
  InsertRun cmp call room s (.next call.start) s' inserted

/-- Where the arena has room an insertion that ends has a node. -/
theorem InsertRun.returns {progress : Progress InsertPc Inserted} {inserted : Inserted}
    (h : InsertRun cmp call true s progress s' inserted) (hprogress : progress ≠ .done none) :
    ∃ node, inserted = some node := by
  induction h with
  | ends s inserted =>
    cases inserted with
    | none => exact absurd rfl hprogress
    | some node => exact ⟨node, rfl⟩
  | step choice hroom rest ih =>
    apply ih
    intro hdone
    obtain ⟨hfull, ctx, height, halloc⟩ := insert_step_done hdone
    rw [hroom ctx height halloc] at hfull
    cases hfull

/-- From its count to its allocation an insertion has no node. -/
def InsertPc.unallocated : InsertPc → Bool
  | .fetch_add_entries _ | .load_seed _ | .store_seed _ _ | .load_max_level _ _
  | .cas_max_level _ _ _ | .alloc _ _ => true
  | _ => false

/-- An insertion that has yet to allocate its node panics where the arena is full. -/
theorem InsertRun.refused {progress : Progress InsertPc Inserted} {inserted : Inserted}
    (h : InsertRun cmp call false s progress s' inserted)
    (hprogress : progress.elim (fun pc => pc.unallocated = true) fun result => result = none) :
    inserted = none := by
  induction h with
  | ends s inserted => exact hprogress
  | @step s pc s' inserted choice hroom rest ih =>
    apply ih
    cases pc with
    | fetch_add_entries | load_seed | store_seed => rfl
    | load_max_level ctx height =>
      rw [insert_step]
      split <;> rfl
    | cas_max_level ctx height max_height =>
      rw [insert_step]
      split
      · rfl
      · dsimp only
        split <;> rfl
    | alloc ctx height =>
      rw [hroom ctx height rfl]
      rfl
    | search | search_again | store_next | cas_next => cases hprogress

theorem Intact.alone_start (h : Intact cmp s levels) (hfits : call.KeyFits) :
    AloneOk cmp s call call.start where
  towers := ⟨levels, h.towers⟩
  fits := hfits
  insert := .start s call
  heights := h.heights
  height := by
    cases call with
    | insert | insert_with => trivial

/-- It ends, if its exchanges do not fail for no reason. -/
theorem Intact.inserts (h : Intact cmp s levels) (hfits : call.KeyFits) :
    ∃ s' node, InsertsAlone cmp call true s s' (some node) := by
  obtain ⟨s', node, hfinishes⟩ := insert_ends (h.alone_start hfits)
  exact ⟨s', node, .of_finishes hfinishes⟩

variable (cmp call) in
/-- What an insertion has done to the list that it began with. -/
structure RunOk (s₀ s : SkipList) (progress : Progress InsertPc Inserted) : Prop where
  alone : ∀ pc, progress = .next pc → AloneOk cmp s call pc
  intact : ∃ levels, Intact cmp s levels
  grows : Grows s₀ s
  written : ∀ node, OnLevel s 0 node → OnLevel s₀ 0 node ∨
    ∃ height, s.nodes node = Node.write height call.key call.value
  returned : ∀ node, progress = .done (some node) →
    OnLevel s 0 node ∧ (s.nodes node).key = call.key

theorem RunOk.step {s₀ : SkipList} {pc : InsertPc} (h : RunOk cmp call s₀ s (.next pc))
    (choice : Bool) : RunOk cmp call s₀ (insert_step cmp call choice s pc).1
      (insert_step cmp call choice s pc).2 := by
  have halone := h.alone pc rfl
  obtain ⟨levels, hs⟩ := halone.towers
  have hok := insert_step_ok hs halone.fits halone.insert choice
  have hheights := insert_step_heights cmp call halone.heights halone.height choice
  have hgrows := hok.tower.grows hs
  obtain ⟨levels', hs', -⟩ := hs.step hok.tower
  refine ⟨fun pc' hpc' => halone.step choice (Prod.ext rfl hpc'), ⟨levels', hs', hheights.heights⟩,
    h.grows.trans hgrows, fun node hnode => ?_, fun node hdone => ?_⟩
  · obtain hold | hown := hok.tower.onLevel_or hs hnode
    · rw [hs.nodes_eq hgrows hold]
      exact h.written node hold
    · rw [hgrows.nodes node (halone.insert.own_allocated hown)]
      exact .inr ⟨_, halone.insert.own_written hown⟩
  · have hprogress := hok.progress
    rw [hdone] at hprogress
    exact hprogress

theorem InsertRun.ok {s₀ : SkipList} {progress : Progress InsertPc Inserted} {room : Bool}
    {inserted : Inserted} (h : InsertRun cmp call room s progress s' inserted)
    (hok : RunOk cmp call s₀ s progress) : RunOk cmp call s₀ s' (.done inserted) := by
  induction h with
  | ends s inserted => exact hok
  | step choice hroom rest ih => exact ih (hok.step choice)

/-- The pair that an insertion stores. -/
def InsertCall.stored (call : InsertCall) : Pair :=
  (call.key, call.value.take (call.value.length % 2 ^ 32))

theorem pair_of_written {height : Nat} {node : NodePtr} (hfits : call.KeyFits)
    (h : s.nodes node = Node.write height call.key call.value) : pair s node = call.stored := by
  rw [pair, h, Node.write_key hfits]
  rfl

/-- Of either kind, an insertion makes the ordered pairs into those with its own, and
returns the node that holds its key. -/
theorem Intact.inserted (h : Intact cmp s levels) (hfits : call.KeyFits) {room : Bool}
    {node : NodePtr} (hrun : InsertsAlone cmp call room s s' (some node)) :
    ∃ levels', Intact cmp s' levels' ∧
      pairs s' (levels' 0) = mem_skip_list.inserted cmp call.stored (pairs s (levels 0)) ∧
      pair s' node ∈ pairs s' (levels' 0) ∧ (pair s' node).1 = call.key := by
  have hs := h.towers
  have hstart : RunOk cmp call s s (.next call.start) :=
    ⟨fun pc hpc => by cases hpc; exact h.alone_start hfits, ⟨levels, h⟩, .refl s,
      fun node hnode => .inl hnode, fun _ hdone => by cases hdone⟩
  obtain ⟨-, ⟨levels', h'⟩, hgrows, hwritten, hreturned⟩ := InsertRun.ok hrun hstart
  obtain ⟨hnode, hkey⟩ := hreturned node rfl
  have hs' := h'.towers
  have hsame : ∀ {n}, OnLevel s 0 n → pair s' n = pair s n := fun hn => by
    rw [pair, hs.nodes_eq hgrows hn, pair]
  have hmem : ∀ e, e ∈ pairs s' (levels' 0) ↔
      e ∈ mem_skip_list.inserted cmp call.stored (pairs s (levels 0)) := by
    intro e
    rw [mem_inserted, hs'.mem_pairs, hs.mem_pairs]
    constructor
    · rintro ⟨n, hn, rfl⟩
      by_cases hold : OnLevel s 0 n
      · exact .inl ⟨n, hold, (hsame hold).symm⟩
      · obtain ⟨height, hwrite⟩ := (hwritten n hn).resolve_left hold
        have hpair := pair_of_written hfits hwrite
        refine .inr ⟨hpair, fun y hy heq => hold ?_⟩
        obtain ⟨m, hm, rfl⟩ := hs.mem_pairs.mp hy
        have hkeys : (s'.nodes m).key = (s'.nodes n).key := by
          have hmk := congrArg Prod.fst (hsame hm)
          exact hmk.trans (heq.trans (congrArg Prod.fst hpair).symm)
        rwa [← hs'.eq_of_key (hgrows.onLevel 0 m hm) hn hkeys]
    · rintro (⟨n, hn, rfl⟩ | ⟨rfl, habsent⟩)
      · exact ⟨n, hgrows.onLevel 0 n hn, hsame hn⟩
      · have hnew : ¬ OnLevel s 0 node := by
          intro hold
          apply habsent (pair s node) (hs.mem_pairs.mpr ⟨node, hold, rfl⟩)
          rw [← hsame hold]
          exact hkey
        obtain ⟨height, hwrite⟩ := (hwritten node hnode).resolve_left hnew
        exact ⟨node, hnode, pair_of_written hfits hwrite⟩
  refine ⟨levels', h', ?_, hs'.mem_pairs.mpr ⟨node, hnode, rfl⟩, hkey⟩
  exact hs'.pairs_sorted.eq_of_mem_iff (inserted_sorted hs.pairs_sorted) hmem

end runs

end ordinum.mem_skip_list
