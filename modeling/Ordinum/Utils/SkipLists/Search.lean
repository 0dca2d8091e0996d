import Ordinum.Utils.SkipLists.Towers

open interleaving
open ordinum.key ordinum.utils

namespace ordinum.mem_skip_list

variable (cmp : Comparator)

/-- A node to the left of `key` at the level. -/
def PredOk (s : SkipList) (key : List Byte) (level : Nat) (pred : NodePtr) : Prop :=
  pred = sentinel ∨ OnLevel s level pred ∧ cmp.compare (s.nodes pred).key key = .lt

/-- What a context says, at whatever time each of its entries was written. -/
structure CtxOk (s : SkipList) (key : List Byte) (ctx : TraversalCtx) : Prop where
  predecessors : ∀ l, PredOk cmp s key l (ctx.predecessors l)
  successors : ∀ l x, ctx.successors l = some x →
    OnLevel s l x ∧ cmp.compare (s.nodes x).key key ≠ .lt
  found : ∀ x, ctx.searched_node = some x → OnLevel s 0 x ∧ (s.nodes x).key = key
  not_found : ctx.searched_node = none → ∀ l x, ctx.successors l = some x →
    (s.nodes x).key ≠ key

def SearchOk (s : SkipList) (key : List Byte) : SearchPc → Prop
  | .load_max_level => True
  | .skip_levels level => level < MAX_HEAD_HEIGHT
  | .walk ctx level pred =>
    level < MAX_HEAD_HEIGHT ∧ CtxOk cmp s key ctx ∧ PredOk cmp s key level pred

variable {cmp} {s s' : SkipList} {levels : Nat → List NodePtr} {key : List Byte}

section grows

/-- What is on a level is allocated. -/
theorem Towers.allocated (hs : Towers cmp s levels) {l : Nat} {n : NodePtr} (hn : OnLevel s l n) :
    n < s.allocated :=
  (hs.node l n (hs.onLevel_iff.mp hn)).1

theorem Towers.nodes_eq (hs : Towers cmp s levels) (hgrows : Grows s s') {l : Nat} {n : NodePtr}
    (hn : OnLevel s l n) : s'.nodes n = s.nodes n :=
  hgrows.nodes n (hs.allocated hn)

theorem PredOk.grows (hs : Towers cmp s levels) (hgrows : Grows s s') {l : Nat} {pred : NodePtr}
    (h : PredOk cmp s key l pred) : PredOk cmp s' key l pred := by
  refine h.imp_right fun ⟨hlevel, hlt⟩ => ⟨hgrows.onLevel l pred hlevel, ?_⟩
  rwa [hs.nodes_eq hgrows hlevel]

theorem CtxOk.grows (hs : Towers cmp s levels) (hgrows : Grows s s') {ctx : TraversalCtx}
    (h : CtxOk cmp s key ctx) : CtxOk cmp s' key ctx := by
  refine ⟨fun l => (h.predecessors l).grows hs hgrows, ?_, ?_, ?_⟩
  · intro l x hx
    obtain ⟨hlevel, hge⟩ := h.successors l x hx
    exact ⟨hgrows.onLevel l x hlevel, by rwa [hs.nodes_eq hgrows hlevel]⟩
  · intro x hx
    obtain ⟨hlevel, hkey⟩ := h.found x hx
    exact ⟨hgrows.onLevel 0 x hlevel, by rwa [hs.nodes_eq hgrows hlevel]⟩
  · intro hnone l x hx
    rw [hs.nodes_eq hgrows (h.successors l x hx).1]
    exact h.not_found hnone l x hx

theorem SearchOk.grows (hs : Towers cmp s levels) (hgrows : Grows s s') {pc : SearchPc}
    (h : SearchOk cmp s key pc) : SearchOk cmp s' key pc := by
  cases pc with
  | load_max_level => trivial
  | skip_levels level => exact h
  | walk ctx level pred =>
    exact ⟨h.1, h.2.1.grows hs hgrows, h.2.2.grows hs hgrows⟩

end grows

/-- A node of the level is left of the key, or not left of what follows a
predecessor of the key. -/
theorem Towers.position (hs : Towers cmp s levels) {l : Nat} {pred n : NodePtr}
    (hpred : PredOk cmp s key l pred) (hn : OnLevel s l n) :
    cmp.compare (s.nodes n).key key = .lt ∨
      ∃ x, s.next pred l = some x ∧ (n = x ∨ KeyLt cmp s x n) := by
  obtain ⟨before, after, hsplit, hhead, hfront⟩ := hs.split (hpred.imp_right And.left)
  have hmem := hs.onLevel_iff.mp hn
  have hsorted := hs.sorted l
  rw [hsplit] at hmem hsorted
  obtain hbefore | hafter := List.mem_append.mp hmem
  · left
    obtain ⟨rfl, -⟩ | ⟨front, rfl⟩ := hfront
    · exact absurd hbefore List.not_mem_nil
    · have hlevel : OnLevel s l pred := hs.onLevel_iff.mpr (by rw [hsplit]; simp)
      obtain ⟨-, hkey⟩ := hpred.resolve_left (hs.ne_sentinel hlevel)
      obtain hfront | hlast := List.mem_append.mp hbefore
      · have hfirst := (List.pairwise_append.mp hsorted).1
        exact cmp.lt_trans ((List.pairwise_append.mp hfirst).2.2 n hfront pred (by simp)) hkey
      · rwa [List.mem_singleton.mp hlast]
  · right
    cases after with
    | nil => exact absurd hafter List.not_mem_nil
    | cons x rest =>
      refine ⟨x, hhead, ?_⟩
      obtain rfl | hrest := List.mem_cons.mp hafter
      · exact .inl rfl
      · have hright := (List.pairwise_append.mp hsorted).2.1
        exact .inr ((List.pairwise_cons.mp hright).1 n hrest)

theorem ctxOk_new : CtxOk cmp s key .new where
  predecessors := fun _ => .inl rfl
  successors := fun _ _ h => by cases h
  found := fun _ h => by cases h
  not_found := fun _ _ _ h => by cases h

variable (cmp) in
/-- A search that goes on well, or ends with a context that tells the truth. -/
def SearchProgressOk (s : SkipList) (key : List Byte) : Progress SearchPc TraversalCtx → Prop
  | .next pc => SearchOk cmp s key pc
  | .done ctx => CtxOk cmp s key ctx

theorem enter_levels_ok {level : Nat} (hlevel : level ≤ MAX_HEAD_HEIGHT) :
    SearchProgressOk cmp s key (enter_levels level) := by
  cases level with
  | zero => exact ctxOk_new
  | succ level => exact hlevel

theorem leave_level_ok (hs : Towers cmp s levels) {ctx : TraversalCtx} {level : Nat}
    {pred : NodePtr} {curr : Option NodePtr} (hlevel : level < MAX_HEAD_HEIGHT)
    (hctx : CtxOk cmp s key ctx) (hpred : PredOk cmp s key level pred)
    (hcurr : ∀ x, curr = some x → OnLevel s level x ∧ cmp.compare (s.nodes x).key key ≠ .lt ∧
      (ctx.searched_node = none → (s.nodes x).key ≠ key)) :
    SearchProgressOk cmp s key (leave_level ctx level pred curr) := by
  have hctx' : CtxOk cmp s key { ctx with
      predecessors := Function.update ctx.predecessors level pred
      successors := Function.update ctx.successors level curr } := by
    refine ⟨?_, ?_, hctx.found, ?_⟩
    · intro l
      by_cases hl : l = level
      · subst hl
        simpa using hpred
      · simpa [hl] using hctx.predecessors l
    · intro l x hx
      by_cases hl : l = level
      · subst hl
        have hsame := hcurr x (by simpa using hx)
        exact ⟨hsame.1, hsame.2.1⟩
      · exact hctx.successors l x (by simpa [hl] using hx)
    · intro hnone l x hx
      by_cases hl : l = level
      · subst hl
        exact (hcurr x (by simpa using hx)).2.2 hnone
      · exact hctx.not_found hnone l x (by simpa [hl] using hx)
  cases level with
  | zero => exact hctx'
  | succ level =>
    refine ⟨Nat.lt_of_succ_lt hlevel, hctx', ?_⟩
    exact hpred.imp_right fun h => ⟨hs.onLevel_of_le (Nat.le_succ level) h.1, h.2⟩

/-- Every load of a search keeps what it knows. -/
theorem search_step_ok (hs : Towers cmp s levels) {pc : SearchPc} (hpc : SearchOk cmp s key pc) :
    SearchProgressOk cmp s key (search_step cmp s key pc) := by
  cases pc with
  | load_max_level => exact enter_levels_ok hs.max_level
  | skip_levels level =>
    simp only [search_step]
    split
    · exact enter_levels_ok (Nat.le_of_lt hpc)
    · exact ⟨hpc, ctxOk_new, .inl rfl⟩
  | walk ctx level pred =>
    obtain ⟨hlevel, hctx, hpred⟩ := hpc
    cases hnext : s.next pred level with
    | none =>
      simp only [search_step, hnext]
      exact leave_level_ok hs hlevel hctx hpred fun x hx => by cases hx
    | some curr =>
      have hcurr : OnLevel s level curr := hs.next_onLevel (hpred.imp_right And.left) hnext
      cases hcmp : cmp.compare (s.nodes curr).key key with
      | lt =>
        simp only [search_step, hnext, hcmp]
        exact ⟨hlevel, hctx, .inr ⟨hcurr, hcmp⟩⟩
      | eq =>
        have hkey := cmp.eq_of_compare hcmp
        have hfound : CtxOk cmp s key { ctx with searched_node := some curr } := by
          refine ⟨hctx.predecessors, hctx.successors, ?_, fun h => by cases h⟩
          rintro x ⟨⟩
          exact ⟨hs.onLevel_of_le (Nat.zero_le level) hcurr, hkey⟩
        simp only [search_step, hnext, hcmp]
        apply leave_level_ok hs hlevel hfound hpred
        rintro x ⟨⟩
        exact ⟨hcurr, by rw [hcmp]; decide, fun h => by cases h⟩
      | gt =>
        simp only [search_step, hnext, hcmp]
        apply leave_level_ok hs hlevel hctx hpred
        rintro x ⟨⟩
        refine ⟨hcurr, by rw [hcmp]; decide, fun _ heq => ?_⟩
        rw [heq] at hcmp
        exact absurd (cmp.lt_of_gt hcmp) (cmp.lt_irrefl key)

end ordinum.mem_skip_list
