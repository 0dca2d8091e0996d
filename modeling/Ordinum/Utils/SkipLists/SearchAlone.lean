import Ordinum.Interleaving.Alone
import Ordinum.Utils.SkipLists.Search

open interleaving
open ordinum.key ordinum.utils

namespace ordinum.mem_skip_list

variable (cmp : Comparator)

/-- A search as a call that leaves the list as it is. -/
def search_alone (key : List Byte) (s : SkipList) (pc : SearchPc) :
    SkipList × Progress SearchPc TraversalCtx :=
  (s, search_step cmp s key pc)

/-- From `level` up, the context says what the links are now. -/
def CurrentFrom (s : SkipList) (level : Nat) (ctx : TraversalCtx) : Prop :=
  ∀ l, level ≤ l → s.next (ctx.predecessors l) l = ctx.successors l

variable {cmp} {s : SkipList} {levels : Nat → List NodePtr} {key : List Byte}

/-- The search ends; where the context was current above the level it is
current at the end. -/
def SearchEnds (cmp : Comparator) (s : SkipList) (key : List Byte)
    (progress : Progress SearchPc TraversalCtx) (current : Prop) : Prop :=
  ∃ ctx, Finishes (search_alone cmp key) s progress s ctx ∧ (current → CurrentFrom s 0 ctx)

theorem SearchEnds.step {pc : SearchPc} {current : Prop}
    (h : SearchEnds cmp s key (search_step cmp s key pc) current) :
    SearchEnds cmp s key (.next pc) current := by
  obtain ⟨ctx, hfinishes, hcurrent⟩ := h
  exact ⟨ctx, .next hfinishes, hcurrent⟩

theorem SearchEnds.mono {progress : Progress SearchPc TraversalCtx} {current current' : Prop}
    (h : SearchEnds cmp s key progress current) (himp : current' → current) :
    SearchEnds cmp s key progress current' := by
  obtain ⟨ctx, hfinishes, hcurrent⟩ := h
  exact ⟨ctx, hfinishes, fun h => hcurrent (himp h)⟩

theorem CurrentFrom.update {ctx : TraversalCtx} {level : Nat} {pred : NodePtr}
    {curr : Option NodePtr} (h : CurrentFrom s (level + 1) ctx) (hnext : s.next pred level = curr) :
    CurrentFrom s level { ctx with
      predecessors := Function.update ctx.predecessors level pred
      successors := Function.update ctx.successors level curr } := by
  intro l hl
  by_cases heq : l = level
  · subst heq
    simpa using hnext
  · simpa [heq] using h l (by omega)

/-- The walk at one level ends as the levels below do; the induction is on what
is left of the level. -/
theorem walk_level_ends {level : Nat}
    (hbelow : ∀ ctx pred curr, pred = sentinel ∨ OnLevel s level pred →
      s.next pred level = curr →
      SearchEnds cmp s key (leave_level ctx level pred curr) (CurrentFrom s (level + 1) ctx))
    (hnext : ∀ pred x, pred = sentinel ∨ OnLevel s level pred → s.next pred level = some x →
      OnLevel s level x) :
    ∀ xs ctx pred, pred = sentinel ∨ OnLevel s level pred →
      linked.IsChain (fun node => s.next node level) (s.next pred level) xs →
      SearchEnds cmp s key (.next (.walk ctx level pred)) (CurrentFrom s (level + 1) ctx) := by
  intro xs
  induction xs with
  | nil =>
    intro ctx pred hpred hchain
    have hnone : s.next pred level = none := hchain
    refine .step ?_
    simp only [search_step, hnone]
    exact hbelow ctx pred none hpred hnone
  | cons x xs ih =>
    intro ctx pred hpred hchain
    obtain ⟨hx, hrest⟩ := hchain
    refine .step ?_
    cases hcmp : cmp.compare (s.nodes x).key key with
    | lt =>
      simp only [search_step, hx, hcmp]
      exact ih ctx x (.inr (hnext pred x hpred hx)) hrest
    | eq =>
      simp only [search_step, hx, hcmp]
      exact hbelow _ pred (some x) hpred hx
    | gt =>
      simp only [search_step, hx, hcmp]
      exact hbelow ctx pred (some x) hpred hx

/-- What follows a predecessor on its level. -/
theorem Towers.chain_after (hs : Towers cmp s levels) {l : Nat} {pred : NodePtr}
    (hpred : pred = sentinel ∨ OnLevel s l pred) :
    ∃ xs, linked.IsChain (fun node => s.next node l) (s.next pred l) xs := by
  obtain rfl | hpred := hpred
  · exact ⟨levels l, (hs.chain l).2⟩
  · obtain ⟨front, after, hsplit⟩ := List.append_of_mem (hs.onLevel_iff.mp hpred)
    have hchain := hs.chain l
    rw [IsLevel, hsplit, ← List.cons_append] at hchain
    exact ⟨after, hchain.tail⟩

theorem walk_ends (hs : Towers cmp s levels) : ∀ level ctx pred,
    pred = sentinel ∨ OnLevel s level pred →
      SearchEnds cmp s key (.next (.walk ctx level pred)) (CurrentFrom s (level + 1) ctx) := by
  intro level
  induction level with
  | zero =>
    intro ctx pred hpred
    obtain ⟨xs, hchain⟩ := hs.chain_after hpred
    refine walk_level_ends ?_ (fun _ _ => hs.next_onLevel) xs ctx pred hpred hchain
    intro ctx pred curr hpred hcurr
    exact ⟨_, .done, fun hcurrent => hcurrent.update hcurr⟩
  | succ level ih =>
    intro ctx pred hpred
    obtain ⟨xs, hchain⟩ := hs.chain_after hpred
    refine walk_level_ends ?_ (fun _ _ => hs.next_onLevel) xs ctx pred hpred hchain
    intro ctx pred curr hpred hcurr
    refine (ih _ pred (hpred.imp_right ?_)).mono fun hcurrent => hcurrent.update hcurr
    exact hs.onLevel_of_le (Nat.le_succ level)

theorem enter_levels_ends (hs : Towers cmp s levels) : ∀ level,
    SearchEnds cmp s key (enter_levels level) (∀ l, level ≤ l → s.next sentinel l = none) := by
  intro level
  induction level with
  | zero => exact ⟨.new, .done, fun hempty l hl => hempty l hl⟩
  | succ level ih =>
    refine .step ?_
    rw [search_step]
    split
    · rename_i hnone
      apply ih.mono
      intro hempty l hl
      obtain rfl | hlt := Nat.eq_or_lt_of_le hl
      · exact Option.isNone_iff_eq_none.mp hnone
      · exact hempty l hlt
    · exact (walk_ends hs level .new sentinel (.inl rfl)).mono fun hempty l hl => hempty l hl

/-- Every search ends; one that begins when the levels above `max_level` are
empty ends with the links of now. -/
theorem search_ends (hs : Towers cmp s levels) {pc : SearchPc} (hpc : SearchOk cmp s key pc) :
    SearchEnds cmp s key (.next pc)
      (pc = .load_max_level ∧ ∀ l, s.max_level ≤ l → s.next sentinel l = none) := by
  cases pc with
  | load_max_level => exact .step ((enter_levels_ends hs s.max_level).mono And.right)
  | skip_levels level =>
    exact (enter_levels_ends hs (level + 1)).mono fun h => by cases h.1
  | walk ctx level pred =>
    exact (walk_ends hs level ctx pred (hpc.2.2.imp_right And.left)).mono fun h => by cases h.1

theorem Finishes.ctxOk (hs : Towers cmp s levels) {pc : SearchPc} (hpc : SearchOk cmp s key pc)
    {s' : SkipList} {ctx : TraversalCtx}
    (h : Finishes (search_alone cmp key) s (.next pc) s' ctx) : s' = s ∧ CtxOk cmp s key ctx := by
  have hkeeps := h.keeps (P := fun s' progress => s' = s ∧ SearchProgressOk cmp s key progress) ?_
    ⟨rfl, hpc⟩
  · exact hkeeps
  · rintro _ pc ⟨rfl, hpc⟩
    exact ⟨rfl, search_step_ok hs hpc⟩

end ordinum.mem_skip_list
