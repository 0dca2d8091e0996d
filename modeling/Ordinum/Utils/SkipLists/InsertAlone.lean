import Ordinum.Utils.SkipLists.ConcurrentInsert
import Ordinum.Utils.SkipLists.SearchAlone

open interleaving interleaving.System
open ordinum.key ordinum.utils

namespace ordinum.mem_skip_list

variable {cmp : Comparator} {s s' : SkipList} {levels : Nat → List NodePtr} {call : InsertCall}

section heights

/-- No node is higher than `max_level`. -/
def HeightsOk (s : SkipList) : Prop :=
  ∀ node, node ≠ sentinel → node < s.allocated → (s.nodes node).height ≤ s.max_level

def InsertHeightOk (s : SkipList) : InsertPc → Prop
  | .cas_max_level _ height max_height => max_height < height
  | .alloc _ height => height ≤ s.max_level
  | _ => True

def InsertHeightProgressOk (s : SkipList) : Progress InsertPc Inserted → Prop
  | .next pc => InsertHeightOk s pc
  | .done _ => True

theorem link_level_heightOk (node : NodePtr) (level : Nat) (ctx : TraversalCtx) :
    InsertHeightOk s (link_level node level ctx) := by
  rw [link_level]
  split
  · trivial
  · trivial

/-- The height is raised to before a node of that height is allocated. -/
theorem raise_max_level_ok (ctx : Option TraversalCtx) (height : Nat) :
    InsertHeightProgressOk s (if s.max_level < height then
      .next (.cas_max_level ctx height s.max_level) else .next (.alloc ctx height)) := by
  split
  · rename_i hlt
    exact hlt
  · rename_i hge
    exact Nat.le_of_not_lt hge

theorem HeightsOk.alloc (hs : HeightsOk s) {node : Node} (hheight : node.height ≤ s.max_level) :
    HeightsOk { s with
      allocated := s.allocated + 1
      nodes := Function.update s.nodes s.allocated node
      next := Function.update s.next s.allocated fun _ => none } := by
  intro n hne hlt
  by_cases hnew : n = s.allocated
  · subst hnew
    simpa using hheight
  · simp only [Function.update_of_ne hnew]
    exact hs n hne (Nat.lt_of_le_of_ne (Nat.le_of_lt_succ hlt) hnew)

/-- What one access does to the heights. -/
structure HeightStepOk (s : SkipList) (r : SkipList × Progress InsertPc Inserted) : Prop where
  max_level : s.max_level ≤ r.1.max_level
  heights : HeightsOk r.1
  progress : InsertHeightProgressOk r.1 r.2

variable (cmp call) in
theorem insert_step_heights (hs : HeightsOk s) {pc : InsertPc} (hpc : InsertHeightOk s pc)
    (choice : Bool) : HeightStepOk s (insert_step cmp call choice s pc) := by
  cases pc with
  | search pc =>
    simp only [insert_step]
    refine ⟨Nat.le_refl _, hs, ?_⟩
    split
    · trivial
    · split
      · trivial
      · trivial
  | fetch_add_entries | load_seed | store_seed => exact ⟨Nat.le_refl _, hs, trivial⟩
  | load_max_level ctx height => exact ⟨Nat.le_refl _, hs, raise_max_level_ok ctx height⟩
  | cas_max_level ctx height max_height =>
    simp only [insert_step]
    split
    · rename_i hcas
      have hle : s.max_level ≤ height := by
        rw [hcas.1]
        exact Nat.le_of_lt hpc
      exact ⟨hle, fun node hne hlt => (hs node hne hlt).trans hle, Nat.le_refl height⟩
    · exact ⟨Nat.le_refl _, hs, raise_max_level_ok ctx height⟩
  | alloc ctx height =>
    cases choice with
    | true => exact ⟨Nat.le_refl _, hs, trivial⟩
    | false =>
      refine ⟨Nat.le_refl _, hs.alloc hpc, ?_⟩
      cases ctx with
      | some ctx => exact link_level_heightOk _ _ _
      | none => trivial
  | search_again node level pc =>
    simp only [insert_step]
    refine ⟨Nat.le_refl _, hs, ?_⟩
    split
    · trivial
    · split
      · trivial
      · exact link_level_heightOk _ _ _
  | store_next node level ctx => exact ⟨Nat.le_refl _, hs, trivial⟩
  | cas_next node level ctx =>
    simp only [insert_step]
    split
    · refine ⟨Nat.le_refl _, hs, ?_⟩
      split
      · exact link_level_heightOk _ _ _
      · trivial
    · exact ⟨Nat.le_refl _, hs, trivial⟩

/-- Levels from `max_level` up are empty. -/
theorem HeightsOk.next_sentinel (h : HeightsOk s) (hs : Towers cmp s levels) {l : Nat}
    (hl : s.max_level ≤ l) : s.next sentinel l = none := by
  cases hnext : s.next sentinel l with
  | none => rfl
  | some node =>
    have hnode : OnLevel s l node := hs.next_onLevel (.inl rfl) hnext
    obtain ⟨hlt, hheight⟩ := hs.node l node (hs.onLevel_iff.mp hnode)
    have := h node (hs.ne_sentinel hnode) hlt
    omega

theorem InsertHeightOk.mono {pc : InsertPc} (h : InsertHeightOk s pc)
    (hle : s.max_level ≤ s'.max_level) : InsertHeightOk s' pc := by
  cases pc with
  | alloc ctx height => exact Nat.le_trans h hle
  | _ => exact h

variable {Tid : Type}

def heights_outline (Tid : Type) : Outline Tid SkipList InsertThread where
  shared := HeightsOk
  thread := fun _ s l => ∀ call pc, l.running = some (call, pc) → InsertHeightOk s pc
  apart := fun _ _ => True

variable (cmp) in
theorem heights_outline_valid {G : StepCondition Tid InsertAct SkipList InsertThread} :
    Outline.trivial.ValidOver (heights_outline Tid) (skip_list_system cmp Tid) G where
  init_shared := by
    intro node hne hlt
    exact absurd (Nat.lt_one_iff.mp hlt) hne
  init_thread := fun _ _ _ h => by cases h
  init_apart := trivial
  step_own := by
    rintro t a s l r - - hs hl - hr
    rcases skip_list_step_cases hr with ⟨call, rfl, -, rfl⟩ |
      ⟨call, pc, choice, hrunning, ⟨pc', hstep, hl'⟩ | ⟨inserted, hstep, hl'⟩⟩
    · refine ⟨hs, ?_⟩
      rintro _ _ ⟨⟩
      cases call with
      | insert => trivial
      | insert_with => trivial
    · have hok := insert_step_heights cmp call hs (hl call pc hrunning) choice
      rw [hstep] at hok
      refine ⟨hok.heights, ?_⟩
      intro call' pc'' hrunning'
      rw [hl'] at hrunning'
      cases hrunning'
      exact hok.progress
    · have hok := insert_step_heights cmp call hs (hl call pc hrunning) choice
      rw [hstep] at hok
      refine ⟨hok.heights, ?_⟩
      intro call' pc'' hrunning'
      rw [hl'] at hrunning'
      cases hrunning'
  step_other := by
    rintro t u a s l m r - - ⟨hs, hl, hm, -, -⟩ - hr
    refine ⟨?_, trivial, trivial⟩
    rcases skip_list_step_cases hr with ⟨call, rfl, -, rfl⟩ |
      ⟨call, pc, choice, hrunning, ⟨pc', hstep, -⟩ | ⟨inserted, hstep, -⟩⟩
    · exact hm
    · have hok := insert_step_heights cmp call hs (hl call pc hrunning) choice
      rw [hstep] at hok
      exact fun call' pc' h => (hm call' pc' h).mono hok.max_level
    · have hok := insert_step_heights cmp call hs (hl call pc hrunning) choice
      rw [hstep] at hok
      exact fun call' pc' h => (hm call' pc' h).mono hok.max_level

end heights

section ends

variable (cmp) in
/-- What an insertion knows that runs alone. -/
structure AloneOk (s : SkipList) (call : InsertCall) (pc : InsertPc) : Prop where
  towers : ∃ levels, Towers cmp s levels
  fits : call.KeyFits
  insert : InsertOk cmp s call pc
  heights : HeightsOk s
  height : InsertHeightOk s pc

theorem AloneOk.step {pc pc' : InsertPc} (h : AloneOk cmp s call pc) (choice : Bool)
    (hstep : insert_step cmp call choice s pc = (s', .next pc')) : AloneOk cmp s' call pc' := by
  obtain ⟨levels, hs⟩ := h.towers
  have hok := insert_step_ok hs h.fits h.insert choice
  have hheights := insert_step_heights cmp call h.heights h.height choice
  rw [hstep] at hok hheights
  obtain ⟨levels', hs', -⟩ := hs.step hok.tower
  exact ⟨⟨levels', hs'⟩, h.fits, hok.progress, hheights.heights, hheights.progress⟩

variable (cmp) in
/-- The insertion, running alone, returns a node. -/
def InsertEnds (call : InsertCall) (s : SkipList) (progress : Progress InsertPc Inserted) : Prop :=
  ∃ s' node, Finishes (insert_step cmp call false) s progress s' (some node)

theorem InsertEnds.step {pc : InsertPc} {r : SkipList × Progress InsertPc Inserted}
    (hstep : insert_step cmp call false s pc = r) (h : InsertEnds cmp call r.1 r.2) :
    InsertEnds cmp call s (.next pc) := by
  obtain ⟨s', node, hfinishes⟩ := h
  subst hstep
  exact ⟨s', node, .next hfinishes⟩

/-- Storing the successor does not touch the link that the exchange is on. -/
theorem link_level_ends {node : NodePtr} {level : Nat} {ctx : TraversalCtx}
    (h : AloneOk cmp s call (link_level node level ctx))
    (hcas : ∀ s', s'.nodes = s.nodes →
      s'.next (ctx.predecessors level) level = s.next (ctx.predecessors level) level →
      AloneOk cmp s' call (.cas_next node level ctx) →
      InsertEnds cmp call s' (.next (.cas_next node level ctx))) :
    InsertEnds cmp call s (.next (link_level node level ctx)) := by
  by_cases hsucc : (ctx.successors level).isSome
  · rw [link_level, if_pos hsucc] at h ⊢
    obtain ⟨hown, hlink⟩ := h.insert
    have hne : ctx.predecessors level ≠ node := by
      intro heq
      obtain hsentinel | hlevel := hlink.1.predecessors level
      · exact hown.ne_sentinel (heq.symm.trans hsentinel)
      · exact hown.unlinked level (Nat.le_refl level) (heq ▸ hlevel.1)
    have hstep : insert_step cmp call false s (.store_next node level ctx) =
        (s.set_next node level (ctx.successors level), .next (.cas_next node level ctx)) := rfl
    refine .step hstep (hcas _ rfl ?_ (h.step false hstep))
    rw [congrFun (set_next_same s node level _) _, Function.update_of_ne hne]
  · rw [link_level, if_neg hsucc] at h ⊢
    exact hcas s rfl rfl h

/-- Where the exchange is on a current link it succeeds, and the insertion goes
on at the next level. -/
theorem cas_next_succeeds {node : NodePtr} {level : Nat} {ctx : TraversalCtx}
    (h : AloneOk cmp s call (.cas_next node level ctx))
    (hcas : s.next (ctx.predecessors level) level = ctx.successors level)
    (habove : ∀ s', s'.nodes = s.nodes → level + 1 < (s.nodes node).height →
      AloneOk cmp s' call (.cas_next node (level + 1) ctx) →
      InsertEnds cmp call s' (.next (.cas_next node (level + 1) ctx))) :
    InsertEnds cmp call s (.next (.cas_next node level ctx)) := by
  by_cases hheight : level + 1 < (s.nodes node).height
  · have hstep : insert_step cmp call false s (.cas_next node level ctx) =
        (s.set_next (ctx.predecessors level) level (some node),
          .next (link_level node (level + 1) ctx)) := by
      simp only [insert_step, if_pos hcas, if_pos hheight]
    refine .step hstep (link_level_ends (h.step false hstep) ?_)
    exact fun s' hnodes _ hs' => habove s' hnodes hheight hs'
  · refine .step (r := (s.set_next (ctx.predecessors level) level (some node),
      .done (some node))) ?_ ⟨_, node, .done⟩
    simp only [insert_step, if_pos hcas, if_neg hheight]

/-- What an insertion with a node of its own does after a search. -/
def after_search (node : NodePtr) (level : Nat) (ctx : TraversalCtx) :
    Progress InsertPc Inserted :=
  match ctx.searched_node, level with
  | some found, 0 => .done (some found)
  | _, _ => .next (link_level node level ctx)

/-- With a node of its own the insertion searches, and ends if it does with what
it then links. -/
theorem search_again_ends {node : NodePtr} {level : Nat} {pc : SearchPc}
    (h : AloneOk cmp s call (.search_again node level pc))
    (hlink : ∀ ctx, AloneOk cmp s call (link_level node level ctx) →
      (pc = .load_max_level →
        s.next (ctx.predecessors level) level = ctx.successors level) →
      InsertEnds cmp call s (.next (link_level node level ctx))) :
    InsertEnds cmp call s (.next (.search_again node level pc)) := by
  obtain ⟨levels, hs⟩ := h.towers
  obtain ⟨hown, hpc⟩ := h.insert
  obtain ⟨ctx, hsearch, hcurrent⟩ := search_ends hs hpc
  have hctx := (Finishes.ctxOk hs hpc hsearch).2
  have hkey := hown.search_key h.fits
  have hends : InsertEnds cmp call s (after_search node level ctx) := by
    have hlinks : (level = 0 → ctx.searched_node = none) →
        InsertEnds cmp call s (.next (link_level node level ctx)) := by
      intro hnone
      refine hlink ctx ⟨h.towers, h.fits, link_level_ok hown ⟨hctx, hnone⟩, h.heights,
        link_level_heightOk node level ctx⟩ ?_
      rintro rfl
      exact hcurrent ⟨rfl, fun l hl => h.heights.next_sentinel hs hl⟩ level (Nat.zero_le level)
    unfold after_search
    split
    · exact ⟨s, _, .done⟩
    · rename_i hother
      refine hlinks fun hzero => Option.eq_none_iff_forall_ne_some.mpr fun found hfound => ?_
      exact hother found hfound hzero
  obtain ⟨s', inserted, hfinishes⟩ := hends
  refine ⟨s', inserted, Finishes.call (insert_step cmp call false) (.search_again node level)
    (after_search node level) (P := fun t => t = s) (fun _ _ ht => ht) ?_ rfl hsearch hfinishes⟩
  intro t pc' ht
  simp only [ht, insert_step, hkey, search_alone]
  cases search_step cmp s call.key pc' with
  | next pc'' => rfl
  | done ctx => rfl

/-- The exchanges of an insertion that runs alone fail at most once a level. -/
theorem cas_next_ends {node : NodePtr} : ∀ above s level ctx,
    (s.nodes node).height - level = above → AloneOk cmp s call (.cas_next node level ctx) →
    InsertEnds cmp call s (.next (.cas_next node level ctx)) := by
  intro above
  induction above with
  | zero =>
    intro s level ctx habove h
    have := h.insert.1.height
    omega
  | succ above ih =>
    intro s level ctx habove h
    have hsucceeds : ∀ s' ctx, s'.nodes = s.nodes →
        s'.next (ctx.predecessors level) level = ctx.successors level →
        AloneOk cmp s' call (.cas_next node level ctx) →
        InsertEnds cmp call s' (.next (.cas_next node level ctx)) := by
      intro s' ctx hnodes hcas h'
      apply cas_next_succeeds h' hcas
      intro s'' hnodes' hheight h''
      exact ih s'' (level + 1) ctx (by rw [hnodes', hnodes]; omega) h''
    by_cases hcas : s.next (ctx.predecessors level) level = ctx.successors level
    · exact hsucceeds s ctx rfl hcas h
    · have hstep : insert_step cmp call false s (.cas_next node level ctx) =
          (s, .next (.search_again node level .load_max_level)) := by
        simp only [insert_step, if_neg hcas]
      refine .step hstep (search_again_ends (h.step false hstep) fun ctx' h' hcurrent => ?_)
      apply link_level_ends h'
      intro s' hnodes hnext hs'
      exact hsucceeds s' ctx' hnodes (hnext.trans (hcurrent rfl)) hs'

theorem alloc_ends {ctx : Option TraversalCtx} {height : Nat}
    (h : AloneOk cmp s call (.alloc ctx height)) :
    InsertEnds cmp call s (.next (.alloc ctx height)) := by
  cases ctx with
  | none =>
    refine .step rfl (search_again_ends (h.step false rfl) fun ctx' h' _ => ?_)
    exact link_level_ends h' fun s' _ _ hs' => cas_next_ends _ s' 0 ctx' rfl hs'
  | some ctx =>
    refine .step rfl (link_level_ends (h.step false rfl) fun s' _ _ hs' => ?_)
    exact cas_next_ends _ s' 0 ctx rfl hs'

theorem cas_max_level_ends {ctx : Option TraversalCtx} {height max_height : Nat}
    (h : AloneOk cmp s call (.cas_max_level ctx height max_height)) :
    InsertEnds cmp call s (.next (.cas_max_level ctx height max_height)) := by
  have hcurrent : ∀ {max_height}, s.max_level = max_height →
      AloneOk cmp s call (.cas_max_level ctx height max_height) →
      InsertEnds cmp call s (.next (.cas_max_level ctx height max_height)) := by
    intro max_height hmax h
    have hstep : insert_step cmp call false s (.cas_max_level ctx height max_height) =
        ({ s with max_level := height }, .next (.alloc ctx height)) := by
      simp only [insert_step, hmax, and_self, if_true]
    exact .step hstep (alloc_ends (h.step false hstep))
  by_cases hmax : s.max_level = max_height
  · exact hcurrent hmax h
  · by_cases hlt : s.max_level < height
    · have hstep : insert_step cmp call false s (.cas_max_level ctx height max_height) =
          (s, .next (.cas_max_level ctx height s.max_level)) := by
        simp only [insert_step, hmax, false_and, if_false, if_pos hlt]
      exact .step hstep (hcurrent rfl (h.step false hstep))
    · have hstep : insert_step cmp call false s (.cas_max_level ctx height max_height) =
          (s, .next (.alloc ctx height)) := by
        simp only [insert_step, hmax, false_and, if_false, if_neg hlt]
      exact .step hstep (alloc_ends (h.step false hstep))

theorem load_max_level_ends {ctx : Option TraversalCtx} {height : Nat}
    (h : AloneOk cmp s call (.load_max_level ctx height)) :
    InsertEnds cmp call s (.next (.load_max_level ctx height)) := by
  by_cases hlt : s.max_level < height
  · have hstep : insert_step cmp call false s (.load_max_level ctx height) =
        (s, .next (.cas_max_level ctx height s.max_level)) := by
      simp only [insert_step, if_pos hlt]
    exact .step hstep (cas_max_level_ends (h.step false hstep))
  · have hstep : insert_step cmp call false s (.load_max_level ctx height) =
        (s, .next (.alloc ctx height)) := by
      simp only [insert_step, if_neg hlt]
    exact .step hstep (alloc_ends (h.step false hstep))

theorem fetch_add_entries_ends {ctx : Option TraversalCtx}
    (h : AloneOk cmp s call (.fetch_add_entries ctx)) :
    InsertEnds cmp call s (.next (.fetch_add_entries ctx)) := by
  have hentries : AloneOk cmp { s with entries := s.entries + 1 } call (.load_seed ctx) :=
    h.step false rfl
  have hseed := hentries.step false rfl
  exact .step rfl (.step rfl (.step rfl (load_max_level_ends (hseed.step false rfl))))

/-- What `insert` does after its first search. -/
def after_first_search (ctx : TraversalCtx) : Progress InsertPc Inserted :=
  match ctx.searched_node with
  | some node => .done (some node)
  | none => .next (.fetch_add_entries (some ctx))

/-- The search that `insert` makes first. -/
theorem first_search_ends {pc : SearchPc} (h : AloneOk cmp s call (.search pc)) :
    InsertEnds cmp call s (.next (.search pc)) := by
  obtain ⟨levels, hs⟩ := h.towers
  obtain ⟨ctx, hsearch, -⟩ := search_ends hs h.insert
  have hctx := (Finishes.ctxOk hs h.insert hsearch).2
  have hends : InsertEnds cmp call s (after_first_search ctx) := by
    rw [after_first_search]
    cases hfound : ctx.searched_node with
    | some node => exact ⟨s, node, .done⟩
    | none =>
      refine fetch_add_entries_ends ⟨h.towers, h.fits, ?_, h.heights, trivial⟩
      rintro _ ⟨⟩
      exact ⟨hctx, fun _ => hfound⟩
  obtain ⟨s', inserted, hfinishes⟩ := hends
  refine ⟨s', inserted, Finishes.call (insert_step cmp call false) .search after_first_search
    (P := fun t => t = s) (fun _ _ ht => ht) ?_ rfl hsearch hfinishes⟩
  intro t pc' ht
  simp only [ht, insert_step, search_alone]
  cases search_step cmp s call.key pc' with
  | next pc'' => rfl
  | done ctx => rfl

/-- An insertion that runs alone ends, wherever it stands. -/
theorem insert_ends {pc : InsertPc} (h : AloneOk cmp s call pc) :
    InsertEnds cmp call s (.next pc) := by
  cases pc with
  | search pc => exact first_search_ends h
  | fetch_add_entries ctx => exact fetch_add_entries_ends h
  | load_seed ctx => exact .step rfl (.step rfl (load_max_level_ends ((h.step false rfl).step false rfl)))
  | store_seed ctx seed => exact .step rfl (load_max_level_ends (h.step false rfl))
  | load_max_level ctx height => exact load_max_level_ends h
  | cas_max_level ctx height max_height => exact cas_max_level_ends h
  | alloc ctx height => exact alloc_ends h
  | search_again node level pc =>
    refine search_again_ends h fun ctx h' _ => link_level_ends h' fun s' _ _ hs' => ?_
    exact cas_next_ends _ s' level ctx rfl hs'
  | store_next node level ctx =>
    exact .step rfl (cas_next_ends _ _ level ctx rfl (h.step false rfl))
  | cas_next node level ctx => exact cas_next_ends _ s level ctx rfl h

end ends

end ordinum.mem_skip_list
