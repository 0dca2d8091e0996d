import Ordinum.Interleaving.Census
import Ordinum.Utils.SkipLists.ConcurrentInsert

open interleaving interleaving.System
open ordinum.key ordinum.utils

namespace ordinum.mem_skip_list

variable {cmp : Comparator} {s s' : SkipList} {levels : Nat → List NodePtr} {call : InsertCall}

/-- One for an insertion that has been counted and has no node on the base level yet. -/
def InsertPc.pending : InsertPc → Nat
  | .search _ | .fetch_add_entries _ => 0
  | .load_seed _ | .store_seed _ _ | .load_max_level _ _ | .cas_max_level _ _ _ | .alloc _ _ => 1
  | .search_again _ level _ | .store_next _ level _ | .cas_next _ level _ =>
    if level = 0 then 1 else 0

def InsertThread.pending (l : InsertThread) : Nat :=
  l.running.elim 0 fun (_, pc) => pc.pending

/-- One for an insertion that has been counted and ends without a node of its own: with one
that was there before, or with a panic of the arena. -/
def InsertPc.lost (pc : InsertPc) : Progress InsertPc Inserted → Nat
  | .next _ => 0
  | .done inserted => if inserted.isSome ∧ inserted = pc.own then 0 else pc.pending

def InsertPc.counted (pc : InsertPc) : Nat :=
  match pc with
  | .fetch_add_entries _ => 1
  | _ => 0

def pending_next : Progress InsertPc Inserted → Nat
  | .next pc => pc.pending
  | .done _ => 0

section step

theorem link_level_pending (node : NodePtr) (level : Nat) (ctx : TraversalCtx) :
    (link_level node level ctx).pending = if level = 0 then 1 else 0 := by
  rw [link_level]
  split <;> rfl

/-- A node that is linked in on the base level makes it longer by one, on another level it
leaves it as it is. -/
theorem Towers.link_length (hs : Towers cmp s levels) {n pred : NodePtr} {l : Nat}
    (hlink : Linkable cmp s n l pred) :
    ∃ levels', Towers cmp (s.set_next pred l (some n)) levels' ∧
      (levels' 0).length = (levels 0).length + if l = 0 then 1 else 0 := by
  obtain ⟨levels', hs', hiff⟩ := hs.link hlink
  have hnodup := (List.nodup_cons.mp (hs.chain 0).nodup).2
  have hnodup' := (List.nodup_cons.mp (hs'.chain 0).nodup).2
  refine ⟨levels', hs', ?_⟩
  split
  · rename_i hzero
    subst hzero
    have hfresh : n ∉ levels 0 := fun hmem => hlink.unlinked (hs.onLevel_iff.mpr hmem)
    have hperm : (levels' 0).Perm (n :: levels 0) := by
      apply (List.perm_ext_iff_of_nodup hnodup' (List.nodup_cons.mpr ⟨hfresh, hnodup⟩)).mpr
      intro m
      rw [hiff, List.mem_cons, or_comm, eq_self, true_and]
    rw [hperm.length_eq, List.length_cons]
  · rename_i hl
    have hperm : (levels' 0).Perm (levels 0) := by
      apply (List.perm_ext_iff_of_nodup hnodup' hnodup).mpr
      intro m
      rw [hiff]
      exact or_iff_left fun h => hl h.1.symm
    rw [hperm.length_eq, Nat.add_zero]

variable (cmp) in
/-- What one access does to the count: what it counts goes to the base level, stays
pending or is lost. -/
def CountKept (s : SkipList) (levels : Nat → List NodePtr) (pc : InsertPc)
    (r : SkipList × Progress InsertPc Inserted) : Prop :=
  r.1.entries = s.entries + BitVec.ofNat 64 pc.counted ∧
    ∃ levels', Towers cmp r.1 levels' ∧
      (levels' 0).length + pending_next r.2 + pc.lost r.2 =
        (levels 0).length + pc.pending + pc.counted

theorem CountKept.same {pc pc' : InsertPc} (hs : Towers cmp s' levels)
    (hentries : s'.entries = s.entries + BitVec.ofNat 64 pc.counted)
    (hpending : pc'.pending = pc.pending + pc.counted) :
    CountKept cmp s levels pc (s', .next pc') := by
  refine ⟨hentries, levels, hs, ?_⟩
  rw [pending_next, hpending, InsertPc.lost, Nat.add_zero, Nat.add_assoc]

theorem insert_step_count (hs : Towers cmp s levels) (hfits : call.KeyFits) {pc : InsertPc}
    (hpc : InsertOk cmp s call pc) (choice : Bool) :
    CountKept cmp s levels pc (insert_step cmp call choice s pc) := by
  have hsame : s.entries = s.entries + BitVec.ofNat 64 0 := (BitVec.add_zero _).symm
  cases pc with
  | search pc =>
    cases hstep : search_step cmp s call.key pc with
    | next pc' =>
      simp only [insert_step, hstep]
      exact .same hs hsame rfl
    | done ctx =>
      cases hfound : ctx.searched_node with
      | some found =>
        simp only [insert_step, hstep, hfound]
        exact ⟨hsame, levels, hs, rfl⟩
      | none =>
        simp only [insert_step, hstep, hfound]
        exact .same hs hsame rfl
  | fetch_add_entries ctx => exact .same (hs.quiet rfl rfl rfl hs.max_level) rfl rfl
  | load_seed ctx => exact .same hs hsame rfl
  | store_seed ctx seed => exact .same (hs.quiet rfl rfl rfl hs.max_level) hsame rfl
  | load_max_level ctx height =>
    simp only [insert_step]
    split
    · exact .same hs hsame rfl
    · exact .same hs hsame rfl
  | cas_max_level ctx height max_height =>
    simp only [insert_step]
    split
    · exact .same (hs.quiet rfl rfl rfl hpc.2.2) hsame rfl
    · split
      · exact .same hs hsame rfl
      · exact .same hs hsame rfl
  | alloc ctx height =>
    cases choice with
    | true => exact ⟨hsame, levels, hs, rfl⟩
    | false =>
      have hs' := hs.alloc (Node.write height call.key call.value)
      cases ctx with
      | none => exact .same hs' hsame rfl
      | some ctx => exact .same hs' hsame (link_level_pending _ _ _)
  | search_again node level pc =>
    obtain ⟨hown, hpc⟩ := hpc
    have hkey := hown.search_key hfits
    have hsearch := search_step_ok hs hpc
    cases hstep : search_step cmp s call.key pc with
    | next pc' =>
      simp only [insert_step, hkey, hstep]
      exact .same hs hsame rfl
    | done ctx =>
      rw [hstep] at hsearch
      cases hfound : ctx.searched_node with
      | none =>
        simp only [insert_step, hkey, hstep, hfound]
        exact .same hs hsame (link_level_pending _ _ _)
      | some found =>
        cases level with
        | succ level =>
          simp only [insert_step, hkey, hstep, hfound]
          exact .same hs hsame (link_level_pending _ _ _)
        | zero =>
          simp only [insert_step, hkey, hstep, hfound]
          have hne : found ≠ node := by
            rintro rfl
            exact hown.unlinked 0 (Nat.le_refl 0) (hsearch.found found hfound).1
          refine ⟨hsame, levels, hs, ?_⟩
          simp [pending_next, InsertPc.lost, InsertPc.pending, InsertPc.own, InsertPc.counted, hne]
  | store_next node level ctx =>
    obtain ⟨hown, -⟩ := hpc
    exact .same (hs.store _ hown.ne_sentinel (hown.unlinked level (Nat.le_refl level))) hsame rfl
  | cas_next node level ctx =>
    by_cases hcas : s.next (ctx.predecessors level) level = ctx.successors level
    · obtain ⟨levels', hs', hlength⟩ := hs.link_length (cas_next_linkable hs hfits hpc hcas)
      by_cases hheight : level + 1 < (s.nodes node).height
      · simp only [insert_step, if_pos hcas, if_pos hheight]
        refine ⟨hsame, levels', hs', ?_⟩
        rw [pending_next, link_level_pending, if_neg (Nat.succ_ne_zero level), hlength]
        rfl
      · simp only [insert_step, if_pos hcas, if_neg hheight]
        refine ⟨hsame, levels', hs', ?_⟩
        simp [pending_next, InsertPc.lost, InsertPc.pending, InsertPc.own, InsertPc.counted, hlength]
    · simp only [insert_step, if_neg hcas]
      exact .same hs hsame rfl

end step

section runs

variable (cmp) in
/-- Whether a step of a thread loses a counted insertion. -/
def step_lost (a : InsertAct) (s : SkipList) (l : InsertThread) : Nat :=
  match a, l.running with
  | .step choice, some (call, pc) => pc.lost (insert_step cmp call choice s pc).2
  | _, _ => 0

variable {Tid : Type} [DecidableEq Tid] {c : Config Tid SkipList InsertThread} {n : Nat}

variable (cmp) in
/-- The runs on keys and values that a node can hold, with the number of insertions lost. -/
inductive CountedRun : Nat → Config Tid SkipList InsertThread → Prop where
  | init : CountedRun 0 (skip_list_system cmp Tid).init
  | step {n c t a r} (hrun : CountedRun n c) (hfits : entries_fit t a c.shared (c.threads t))
    (hr : skip_list_step cmp a c.shared (c.threads t) = some r) :
    CountedRun (n + step_lost cmp a c.shared (c.threads t)) (c.move t r)

theorem CountedRun.reachable (h : CountedRun cmp n c) :
    (skip_list_system cmp Tid).ReachableUnder entries_fit c := by
  induction h with
  | init => exact .init
  | step hrun hfits hr ih => exact ih.tail ⟨_, _, _, hfits, hr, rfl⟩

/-- Every run has its number of insertions lost. -/
theorem exists_countedRun (hc : (skip_list_system cmp Tid).ReachableUnder entries_fit c) :
    ∃ n, CountedRun cmp n c := by
  refine System.ReachableUnder.induction (P := fun c => ∃ n, CountedRun cmp n c) ⟨0, .init⟩ ?_ hc
  rintro c t a r - ⟨n, hrun⟩ hG hr
  exact ⟨_, hrun.step hG hr⟩

variable (cmp) in
/-- A step moves an insertion that it counts between the base level, the pending ones and
the lost ones. -/
theorem thread_step_count {l : InsertThread} (hs : Towers cmp s levels) (hl : ThreadOk cmp s l)
    {a : InsertAct} {r : SkipList × InsertThread} (hr : skip_list_step cmp a s l = some r) :
    ∃ levels' added, Towers cmp r.1 levels' ∧ r.1.entries = s.entries + BitVec.ofNat 64 added ∧
      (levels' 0).length + r.2.pending + step_lost cmp a s l =
        (levels 0).length + l.pending + added := by
  obtain ⟨running, returned⟩ := l
  cases a with
  | start call =>
    cases running with
    | some running => cases hr
    | none =>
      cases hr
      refine ⟨levels, 0, hs, (BitVec.add_zero _).symm, ?_⟩
      cases call with
      | insert | insert_with => rfl
  | step choice =>
    obtain _ | ⟨call, pc⟩ := running
    · cases hr
    · obtain ⟨hfits, hpc⟩ := hl.running call pc rfl
      obtain ⟨hentries, levels', hs', hlength⟩ := insert_step_count hs hfits hpc choice
      have hpending : r.1 = (insert_step cmp call choice s pc).1 ∧
          r.2.pending = pending_next (insert_step cmp call choice s pc).2 := by
        simp only [skip_list_step, Option.some.injEq] at hr
        subst hr
        obtain ⟨s', pc' | _ | node⟩ := insert_step cmp call choice s pc
        · exact ⟨rfl, rfl⟩
        · exact ⟨rfl, rfl⟩
        · exact ⟨rfl, rfl⟩
      obtain ⟨hshared, hnext⟩ := hpending
      rw [← hshared] at hentries hs'
      rw [← hnext] at hlength
      exact ⟨levels', pc.counted, hs', hentries, hlength⟩

/-- In every run the counter is what is on the base level, pending and lost. -/
theorem CountedRun.entries_eq [Fintype Tid] (h : CountedRun cmp n c) :
    ∃ levels, Towers cmp c.shared levels ∧ c.shared.entries =
      BitVec.ofNat 64 ((levels 0).length + c.total InsertThread.pending + n) := by
  induction h with
  | init =>
    refine ⟨_, towers_new cmp, ?_⟩
    rw [(skip_list_system cmp Tid).total_init rfl]
    rfl
  | @step n c t a r hrun hfits hr ih =>
    obtain ⟨levels, hs, hentries⟩ := ih
    have hl := (insert_outline_holds (hrun.reachable.mono keys_fit_of_entries_fit)).thread t
    obtain ⟨levels', added, hs', hentries', hlength⟩ := thread_step_count cmp hs hl hr
    have htotal := c.total_move InsertThread.pending t r
    refine ⟨levels', hs', ?_⟩
    rw [Config.move_shared, hentries', hentries, ← BitVec.ofNat_add]
    congr 1
    omega

/-- With no insertion in progress, the counter is the number of nodes on the base level
exactly if none was lost in the run (or as many as the counter wraps round at). -/
theorem entries_count_iff [Fintype Tid] (hrun : CountedRun cmp n c)
    (hidle : ∀ t, (c.threads t).running = none) :
    (∃ nodes, IsLevel c.shared 0 nodes ∧
      c.shared.entries = BitVec.ofNat 64 nodes.length) ↔ n % 2 ^ 64 = 0 := by
  obtain ⟨levels, hs, hentries⟩ := hrun.entries_eq
  have hnone : c.total InsertThread.pending = 0 := by
    rw [Config.total_eq_zero]
    intro t
    rw [InsertThread.pending, hidle t]
    rfl
  rw [hnone, Nat.add_zero] at hentries
  rw [hentries, ← ofNat_add_eq_iff (levels 0).length]
  constructor
  · rintro ⟨nodes, hnodes, hcount⟩
    obtain rfl : nodes = levels 0 := List.tail_eq_of_cons_eq (hnodes.unique (hs.chain 0))
    exact hcount
  · exact fun hcount => ⟨levels 0, hs.chain 0, hcount⟩

/-- The same key inserted twice. -/
def insert_twice : List (Unit × InsertAct) :=
  [[1], [1]].flatMap fun key =>
    ((), .start (.insert_with key [])) :: List.replicate 8 ((), .step false)

/-- The second insertion returns the node of the first, after it has been counted. -/
theorem insert_twice_reachable :
    ∃ c, (skip_list_system DefaultComparator Unit).ReachableUnder entries_fit c ∧
      (∀ t, (c.threads t).running = none) ∧ IsLevel c.shared 0 [1] ∧ c.shared.entries = 2 := by
  obtain ⟨c, hc, hseen⟩ := reachable_showing (skip_list_system DefaultComparator Unit) entries_fit
    insert_twice
    (fun c => ((c.threads ()).running.isNone, c.shared.next sentinel 0, c.shared.next 1 0,
      c.shared.entries))
    (true, some 1, none, 2) (by decide +kernel)
  simp only [Prod.mk.injEq, Option.isNone_iff_eq_none] at hseen
  obtain ⟨hidle, hfirst, hlast, hentries⟩ := hseen
  exact ⟨c, hc, fun _ => hidle, ⟨rfl, hfirst, hlast⟩, hentries⟩

theorem entries_count_iff_twice :
    ∃ (c : Config Unit SkipList InsertThread) (n : Nat),
      (CountedRun DefaultComparator n c ∧ c.shared.entries = 2) ∧
      ((∃ nodes, IsLevel c.shared 0 nodes ∧
        c.shared.entries = BitVec.ofNat 64 nodes.length) ↔ n % 2 ^ 64 = 0) := by
  obtain ⟨c, hc, hidle, -, hentries⟩ := insert_twice_reachable
  obtain ⟨n, hrun⟩ := exists_countedRun hc
  exact ⟨c, n, ⟨hrun, hentries⟩, entries_count_iff hrun hidle⟩

/-- One node, counted twice. -/
theorem present_key_is_counted :
    ∃ c, (skip_list_system DefaultComparator Unit).ReachableUnder entries_fit c ∧
      (∀ t, (c.threads t).running = none) ∧
      ¬ ∃ nodes, IsLevel c.shared 0 nodes ∧
        c.shared.entries = BitVec.ofNat 64 nodes.length := by
  obtain ⟨c, hc, hidle, hlevel, hentries⟩ := insert_twice_reachable
  refine ⟨c, hc, hidle, ?_⟩
  rintro ⟨nodes, hnodes, hcount⟩
  obtain rfl : nodes = [1] := List.tail_eq_of_cons_eq (hnodes.unique hlevel)
  rw [hentries] at hcount
  exact absurd hcount (by decide)

end runs

end ordinum.mem_skip_list
