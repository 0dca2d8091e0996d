import Ordinum.Utils.SkipLists.ConcurrentInsert

open interleaving interleaving.System
open ordinum.key ordinum.utils

namespace ordinum.mem_skip_list

variable {cmp : Comparator} {s s' : SkipList} {levels : Nat → List NodePtr} {key : List Byte}

variable (cmp) in
/-- The first node of the base level that is not left of `key`. -/
structure FirstFrom (s : SkipList) (key : List Byte) (found : Option NodePtr) : Prop where
  right : ∀ node, found = some node →
    OnLevel s 0 node ∧ cmp.compare (s.nodes node).key key ≠ .lt
  first : ∀ node, OnLevel s 0 node → cmp.compare (s.nodes node).key key = .lt ∨
    ∃ x, found = some x ∧ (node = x ∨ KeyLt cmp s x node)

/-- What follows a predecessor of `key`, unless it is one itself. -/
theorem Towers.firstFrom_next (hs : Towers cmp s levels) {pred : NodePtr}
    (hpred : PredOk cmp s key 0 pred)
    (hright : ∀ x, s.next pred 0 = some x → cmp.compare (s.nodes x).key key ≠ .lt) :
    FirstFrom cmp s key (s.next pred 0) where
  right := fun x hx => ⟨hs.next_onLevel (hpred.imp_right And.left) hx, hright x hx⟩
  first := fun _ hnode => hs.position hpred hnode

/-- Keys ascend along a level. -/
theorem Towers.lt_next (hs : Towers cmp s levels) {l : Nat} {node succ : NodePtr}
    (hnode : OnLevel s l node) (hnext : s.next node l = some succ) : KeyLt cmp s node succ := by
  obtain ⟨before, after, hsplit, hhead, hfront⟩ := hs.split (.inr hnode)
  have hsorted := hs.sorted l
  obtain ⟨front, rfl⟩ : ∃ front, before = front ++ [node] :=
    hfront.resolve_left fun h => hs.ne_sentinel hnode h.2
  rw [hsplit, List.pairwise_append] at hsorted
  refine hsorted.2.2 node (by simp) succ (List.mem_of_mem_head? ?_)
  rw [← hhead, hnext]
  rfl

/-- What follows a node on the base level is the next one to the right. -/
theorem Towers.next_first (hs : Towers cmp s levels) {node other : NodePtr}
    (hnode : OnLevel s 0 node) (hother : OnLevel s 0 other) (hlt : KeyLt cmp s node other) :
    ∃ succ, s.next node 0 = some succ ∧ (other = succ ∨ KeyLt cmp s succ other) := by
  have hpred : PredOk cmp s (s.nodes other).key 0 node := .inr ⟨hnode, hlt⟩
  exact (hs.position hpred hother).resolve_left (cmp.lt_irrefl _)

/-- What the sentinel points to is the first node. -/
theorem Towers.sentinel_first (hs : Towers cmp s levels) {node : NodePtr}
    (hnode : OnLevel s 0 node) :
    ∃ succ, s.next sentinel 0 = some succ ∧ (node = succ ∨ KeyLt cmp s succ node) := by
  have hpred : PredOk cmp s (s.nodes node).key 0 sentinel := .inl rfl
  exact (hs.position hpred hnode).resolve_left (cmp.lt_irrefl _)

theorem leave_level_done {ctx ctx' : TraversalCtx} {level : Nat} {pred : NodePtr}
    {curr : Option NodePtr} (h : leave_level ctx level pred curr = .done ctx') :
    level = 0 ∧ ctx'.successors 0 = curr := by
  cases level with
  | zero =>
    cases h
    exact ⟨rfl, by simp⟩
  | succ level => cases h

/-- A search ends with the first node from `key` on at the time of its last
load. -/
theorem search_step_done (hs : Towers cmp s levels) (hmax : 0 < s.max_level) {pc : SearchPc}
    (hpc : SearchOk cmp s key pc) {ctx : TraversalCtx}
    (hdone : search_step cmp s key pc = .done ctx) : FirstFrom cmp s key (ctx.successors 0) := by
  cases pc with
  | load_max_level =>
    obtain ⟨level, hlevel⟩ := Nat.exists_eq_add_one_of_ne_zero hmax.ne'
    rw [search_step, hlevel] at hdone
    cases hdone
  | skip_levels level =>
    simp only [search_step] at hdone
    split at hdone
    · rename_i hnone
      cases level with
      | succ level => cases hdone
      | zero =>
        have hempty := Option.isNone_iff_eq_none.mp hnone
        cases hdone
        refine ⟨fun _ h => (by cases h), fun node hnode => ?_⟩
        obtain ⟨succ, hsucc, -⟩ := hs.sentinel_first hnode
        cases hempty.symm.trans hsucc
    · cases hdone
  | walk ctx' level pred =>
    obtain ⟨hlevel, hctx, hpred⟩ := hpc
    cases hnext : s.next pred level with
    | none =>
      simp only [search_step, hnext] at hdone
      obtain ⟨rfl, hsuccessor⟩ := leave_level_done hdone
      rw [hsuccessor, ← hnext]
      exact hs.firstFrom_next hpred fun x hx => by cases hnext.symm.trans hx
    | some curr =>
      have hright : cmp.compare (s.nodes curr).key key ≠ .lt → level = 0 →
          FirstFrom cmp s key (some curr) := by
        rintro hne rfl
        rw [← hnext]
        apply hs.firstFrom_next hpred
        intro x hx
        obtain rfl : curr = x := Option.some.inj (hnext.symm.trans hx)
        exact hne
      cases hcmp : cmp.compare (s.nodes curr).key key with
      | lt =>
        simp only [search_step, hnext, hcmp] at hdone
        cases hdone
      | eq | gt =>
        simp only [search_step, hnext, hcmp] at hdone
        obtain ⟨rfl, hsuccessor⟩ := leave_level_done hdone
        rw [hsuccessor]
        exact hright (by rw [hcmp]; decide) rfl

section runs

variable {Tid : Type} [DecidableEq Tid] {c : Config Tid SkipList InsertThread}

theorem insert_step_max_level {call : InsertCall} (choice : Bool) {pc : InsertPc}
    (hpc : InsertOk cmp s call pc) (hmax : 0 < s.max_level) :
    0 < (insert_step cmp call choice s pc).1.max_level := by
  cases pc with
  | cas_max_level ctx height max_height =>
    simp only [insert_step]
    split
    · exact hpc.2.1
    · exact hmax
  | alloc ctx height =>
    cases choice with
    | true | false => exact hmax
  | cas_next node level ctx =>
    simp only [insert_step]
    split
    · exact hmax
    · exact hmax
  | _ => exact hmax

/-- A level is in use in every run. -/
theorem max_level_pos (hc : (skip_list_system cmp Tid).ReachableUnder keys_fit c) :
    0 < c.shared.max_level := by
  refine System.ReachableUnder.induction (P := fun c => 0 < c.shared.max_level) Nat.one_pos ?_ hc
  intro c t a r hreach ih _ hr
  rcases skip_list_step_cases hr with ⟨call, -, -, rfl⟩ |
    ⟨call, pc, choice, hrunning, ⟨pc', hstep, -⟩ | ⟨inserted, hstep, -⟩⟩
  · exact ih
  all_goals
    have hpc := (((insert_outline_holds hreach).thread t).running call pc hrunning).2
    have hmax := insert_step_max_level choice hpc ih
    rwa [hstep] at hmax

/-- A step of a run takes nothing back. -/
theorem run_step_grows (hc : (skip_list_system cmp Tid).ReachableUnder keys_fit c) {t : Tid}
    {a : InsertAct} {r : SkipList × InsertThread} (hG : keys_fit t a c.shared (c.threads t))
    (hr : skip_list_step cmp a c.shared (c.threads t) = some r) : Grows c.shared r.1 := by
  obtain ⟨levels, hs⟩ := (insert_outline_holds hc).shared
  exact (run_step_ok hc hG hr).tower.grows hs

end runs

end ordinum.mem_skip_list
