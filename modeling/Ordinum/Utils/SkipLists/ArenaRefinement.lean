import Ordinum.Utils.SkipLists.ArenaRepresents

open interleaving interleaving.System wire
open ordinum.arena ordinum.key ordinum.utils

namespace ordinum.mem_skip_list

variable {Tid : Type} {cmp : Comparator} {policy : ArenaPolicy} {t : Tid}

section relations

variable {nodes nodes' : List Extent}

variable (nodes) in
structure CtxRel (ctx ctx' : TraversalCtx) : Prop where
  searched_node : Option.Rel (Points nodes) ctx.searched_node ctx'.searched_node
  predecessors : ∀ level, Points nodes (ctx.predecessors level) (ctx'.predecessors level)
  successors : ∀ level, Option.Rel (Points nodes) (ctx.successors level) (ctx'.successors level)

variable (nodes) in
/-- Searches at the same point, with nodes in the one and their addresses in the other. -/
inductive SearchRel : SearchPc → SearchPc → Prop
  | load_max_level : SearchRel .load_max_level .load_max_level
  | skip_levels (level : Nat) : SearchRel (.skip_levels level) (.skip_levels level)
  | walk {ctx ctx' : TraversalCtx} (level : Nat) {pred : NodePtr} {pred' : Nat}
    (hctx : CtxRel nodes ctx ctx') (hpred : Points nodes pred pred') :
    SearchRel (.walk ctx level pred) (.walk ctx' level pred')

/-- Insertions at the same point. Between the layout of a node and its last byte the list
has not allocated it yet. -/
inductive InsertRel (nodes : List Extent) (mem : Memory) (call : InsertCall) :
    InsertPc → ArenaInsertPc → Prop
  | search {pc pc' : SearchPc} (h : SearchRel nodes pc pc') :
    InsertRel nodes mem call (.search pc) (.list (.search pc'))
  | fetch_add_entries {ctx ctx' : Option TraversalCtx} (h : Option.Rel (CtxRel nodes) ctx ctx') :
    InsertRel nodes mem call (.fetch_add_entries ctx) (.list (.fetch_add_entries ctx'))
  | load_seed {ctx ctx' : Option TraversalCtx} (h : Option.Rel (CtxRel nodes) ctx ctx') :
    InsertRel nodes mem call (.load_seed ctx) (.list (.load_seed ctx'))
  | store_seed {ctx ctx' : Option TraversalCtx} (seed : BitVec 64)
    (h : Option.Rel (CtxRel nodes) ctx ctx') :
    InsertRel nodes mem call (.store_seed ctx seed) (.list (.store_seed ctx' seed))
  | load_max_level {ctx ctx' : Option TraversalCtx} (height : Nat)
    (h : Option.Rel (CtxRel nodes) ctx ctx') :
    InsertRel nodes mem call (.load_max_level ctx height) (.list (.load_max_level ctx' height))
  | cas_max_level {ctx ctx' : Option TraversalCtx} (height max_height : Nat)
    (h : Option.Rel (CtxRel nodes) ctx ctx') :
    InsertRel nodes mem call (.cas_max_level ctx height max_height)
      (.list (.cas_max_level ctx' height max_height))
  | alloc {ctx ctx' : Option TraversalCtx} (height : Nat)
    (h : Option.Rel (CtxRel nodes) ctx ctx') :
    InsertRel nodes mem call (.alloc ctx height) (.list (.alloc ctx' height))
  | alloc_raw {ctx ctx' : Option TraversalCtx} (height : Nat) (layout : Layout) (pc : AllocPc)
    (h : Option.Rel (CtxRel nodes) ctx ctx') :
    InsertRel nodes mem call (.alloc ctx height) (.alloc_raw ctx' height layout pc)
  | init_node {ctx ctx' : Option TraversalCtx} (height node : Nat)
    (h : Option.Rel (CtxRel nodes) ctx ctx') :
    InsertRel nodes mem call (.alloc ctx height) (.init_node ctx' height node)
  | copy_entry {ctx ctx' : Option TraversalCtx} (height node : Nat)
    (h : Option.Rel (CtxRel nodes) ctx ctx') (hinit : Initialised mem node height call) :
    InsertRel nodes mem call (.alloc ctx height) (.copy_entry ctx' height node)
  | search_again {node : NodePtr} {node' : Nat} (level : Nat) {pc pc' : SearchPc}
    (hnode : Points nodes node node') (h : SearchRel nodes pc pc') :
    InsertRel nodes mem call (.search_again node level pc) (.list (.search_again node' level pc'))
  | store_next {node : NodePtr} {node' : Nat} (level : Nat) {ctx ctx' : TraversalCtx}
    (hnode : Points nodes node node') (h : CtxRel nodes ctx ctx') :
    InsertRel nodes mem call (.store_next node level ctx) (.list (.store_next node' level ctx'))
  | cas_next {node : NodePtr} {node' : Nat} (level : Nat) {ctx ctx' : TraversalCtx}
    (hnode : Points nodes node node') (h : CtxRel nodes ctx ctx') :
    InsertRel nodes mem call (.cas_next node level ctx) (.list (.cas_next node' level ctx'))

theorem CtxRel.append {ctx ctx' : TraversalCtx} (h : CtxRel nodes ctx ctx') (more : List Extent) :
    CtxRel (nodes ++ more) ctx ctx' where
  searched_node := option_rel_mono (fun _ _ hpoints => hpoints.append) h.searched_node
  predecessors := fun level => (h.predecessors level).append
  successors := fun level =>
    option_rel_mono (fun _ _ hpoints => hpoints.append) (h.successors level)

theorem ctxs_append {ctx ctx' : Option TraversalCtx} (h : Option.Rel (CtxRel nodes) ctx ctx')
    (more : List Extent) : Option.Rel (CtxRel (nodes ++ more)) ctx ctx' :=
  option_rel_mono (fun _ _ hctx => hctx.append more) h

theorem SearchRel.append {pc pc' : SearchPc} (h : SearchRel nodes pc pc') (more : List Extent) :
    SearchRel (nodes ++ more) pc pc' := by
  cases h with
  | load_max_level => exact .load_max_level
  | skip_levels level => exact .skip_levels level
  | walk level hctx hpred => exact .walk level (hctx.append more) hpred.append

/-- The steps of others leave an insertion where it is, if they leave its bytes. -/
theorem InsertRel.frame {mem mem' : Memory} {call : InsertCall} {pc : InsertPc}
    {pc' : ArenaInsertPc} (h : InsertRel nodes mem call pc pc') (more : List Extent)
    (hkept : ∀ e, pc'.owned call = some e → mem.SameOn mem' e) :
    InsertRel (nodes ++ more) mem' call pc pc' := by
  cases h with
  | search h => exact .search (h.append more)
  | fetch_add_entries h => exact .fetch_add_entries (ctxs_append h more)
  | load_seed h => exact .load_seed (ctxs_append h more)
  | store_seed seed h => exact .store_seed seed (ctxs_append h more)
  | load_max_level height h => exact .load_max_level height (ctxs_append h more)
  | cas_max_level height max_height h => exact .cas_max_level height max_height (ctxs_append h more)
  | alloc height h => exact .alloc height (ctxs_append h more)
  | alloc_raw height layout pc h => exact .alloc_raw height layout pc (ctxs_append h more)
  | init_node height node h => exact .init_node height node (ctxs_append h more)
  | copy_entry height node h hinit =>
    refine .copy_entry height node (ctxs_append h more) (hinit.same ((hkept _ rfl).mono
      (Nat.le_refl _) ?_))
    exact Nat.add_le_add_left (Nat.le_trans (Nat.le_add_right ..) (Nat.le_add_right ..)) node
  | search_again level hnode h => exact .search_again level hnode.append (h.append more)
  | store_next level hnode h => exact .store_next level hnode.append (h.append more)
  | cas_next level hnode h => exact .cas_next level hnode.append (h.append more)

theorem link_level_rel {mem : Memory} {call : InsertCall} {node : NodePtr} {node' : Nat}
    (level : Nat) {ctx ctx' : TraversalCtx} (hnode : Points nodes node node')
    (h : CtxRel nodes ctx ctx') :
    InsertRel nodes mem call (link_level node level ctx) (.list (link_level node' level ctx')) := by
  rw [link_level, link_level]
  obtain ⟨hx, hy⟩ | ⟨x, y, hx, hy, -⟩ := option_rel_cases (h.successors level)
  · rw [hx, hy]
    exact .cas_next level hnode h
  · rw [hx, hy]
    exact .store_next level hnode h

/-- Both go on alike from the `max_level` they have read. -/
theorem raise_max_level_rel {mem : Memory} {call : InsertCall} (height max_level : Nat)
    {ctx ctx' : Option TraversalCtx} (h : Option.Rel (CtxRel nodes) ctx ctx') :
    Progress.Rel (InsertRel nodes mem call) (Option.Rel (Points nodes))
      (if max_level < height then .next (.cas_max_level ctx height max_level)
        else .next (.alloc ctx height))
      (.next (.list (if max_level < height then .cas_max_level ctx' height max_level
        else .alloc ctx' height))) := by
  split
  · exact .next (.cas_max_level height max_level h)
  · exact .next (.alloc height h)

end relations

section search

variable {l : ArenaList Tid} {s : SkipList} {levels : Nat → List NodePtr} {key : List Byte}

/-- A predecessor is high enough for its level. -/
theorem PredOk.within (hs : Towers cmp s levels)
    (hsentinel : (s.nodes sentinel).height = MAX_HEAD_HEIGHT) {level : Nat} {pred : NodePtr}
    (h : PredOk cmp s key level pred) (hlevel : level < MAX_HEAD_HEIGHT) :
    level < (s.nodes pred).height := by
  obtain rfl | ⟨hpred, -⟩ := h
  · rw [hsentinel]
    exact hlevel
  · exact (hs.node level pred (hs.onLevel_iff.mp hpred)).2

theorem new_ctx_rel (hrep : Represents l s) : CtxRel l.nodes .new l.new_ctx where
  searched_node := .none
  predecessors := fun _ => hrep.sentinel
  successors := fun _ => .none

theorem enter_levels_rel (hrep : Represents l s) (level : Nat) :
    Progress.Rel (SearchRel l.nodes) (CtxRel l.nodes) (enter_levels level)
      (l.enter_levels level) := by
  cases level with
  | zero => exact .done (new_ctx_rel hrep)
  | succ level => exact .next (.skip_levels level)

theorem leave_level_rel {nodes : List Extent} {ctx ctx' : TraversalCtx} (level : Nat)
    {pred pred' : Nat} {curr curr' : Option Nat} (hctx : CtxRel nodes ctx ctx')
    (hpred : Points nodes pred pred') (hcurr : Option.Rel (Points nodes) curr curr') :
    Progress.Rel (SearchRel nodes) (CtxRel nodes) (leave_level ctx level pred curr)
      (leave_level ctx' level pred' curr') := by
  have hleft : CtxRel nodes
      { ctx with
        predecessors := Function.update ctx.predecessors level pred
        successors := Function.update ctx.successors level curr }
      { ctx' with
        predecessors := Function.update ctx'.predecessors level pred'
        successors := Function.update ctx'.successors level curr' } := by
    refine ⟨hctx.searched_node, ?_, ?_⟩
    · intro level'
      by_cases heq : level' = level
      · subst heq
        simpa using hpred
      · simpa [heq] using hctx.predecessors level'
    · intro level'
      by_cases heq : level' = level
      · subst heq
        simpa using hcurr
      · simpa [heq] using hctx.successors level'
  cases level with
  | zero => exact .done hleft
  | succ level => exact .next (.walk level hleft hpred)

/-- A search in memory does what the search of the list does. -/
theorem search_step_rel (hrep : Represents l s) (hs : Towers cmp s levels)
    (hsentinel : (s.nodes sentinel).height = MAX_HEAD_HEIGHT) {pc pc' : SearchPc}
    (hok : SearchOk cmp s key pc) (h : SearchRel l.nodes pc pc') :
    Progress.Rel (SearchRel l.nodes) (CtxRel l.nodes) (search_step cmp s key pc)
      (l.search_step cmp key pc') := by
  cases h with
  | load_max_level =>
    rw [search_step, ArenaList.search_step, hrep.max_level]
    exact enter_levels_rel hrep s.max_level
  | skip_levels level =>
    have hlevel : level < (s.nodes sentinel).height := by
      rw [hsentinel]
      exact hok
    obtain ⟨e, he, hstart⟩ := hrep.sentinel.extent
    have hnext := hrep.next sentinel e level he hlevel
    rw [hstart] at hnext
    rw [search_step, ArenaList.search_step]
    generalize s.next sentinel level = x at hnext
    generalize Node.load_next l.memory l.sentinel level = y at hnext
    cases hnext with
    | none => exact enter_levels_rel hrep level
    | some hx => exact .next (.walk level (new_ctx_rel hrep) hrep.sentinel)
  | @walk ctx ctx' level pred pred' hctx hpred =>
    obtain ⟨hlevel, -, hpredOk⟩ := hok
    obtain ⟨e, he, hstart⟩ := hpred.extent
    have hnext := hrep.next pred e level he (hpredOk.within hs hsentinel hlevel)
    rw [hstart] at hnext
    rw [search_step, ArenaList.search_step]
    generalize s.next pred level = x at hnext
    generalize Node.load_next l.memory pred' level = y at hnext
    cases hnext with
    | none => exact leave_level_rel level hctx hpred .none
    | @some curr curr' hcurr =>
      obtain ⟨f, hf, hcurr_start⟩ := hcurr.extent
      have hkey := (hrep.node curr f hf).key
      rw [hcurr_start] at hkey
      simp only [hkey]
      cases cmp.compare (s.nodes curr).key key with
      | lt => exact .next (.walk level hctx hcurr)
      | eq =>
        refine leave_level_rel level ?_ hpred (.some hcurr)
        exact ⟨.some hcurr, hctx.predecessors, hctx.successors⟩
      | gt => exact leave_level_rel level hctx hpred (.some hcurr)

end search

section steps

variable {l l' : ArenaList Tid} {s : SkipList} {levels : Nat → List NodePtr} {call : InsertCall}
  {choice : AllocChoice} {pc : InsertPc} {pc' : ArenaInsertPc}
  {r : ArenaList Tid × Progress ArenaInsertPc Inserted}

/-- A step writes into nodes of the list and into bytes of its own, and nowhere else. -/
structure MemoryStep (l : ArenaList Tid) (owned : Option Extent) (l' : ArenaList Tid) : Prop where
  nodes : ∃ more, l'.nodes = l.nodes ++ more
  kept : ∀ e, (∀ f ∈ l.nodes, f.Apart e) → (∀ f, owned = some f → f.Apart e) →
    l.memory.SameOn l'.memory e

theorem MemoryStep.of_eq {owned : Option Extent} (hnodes : l'.nodes = l.nodes)
    (hmemory : l'.memory = l.memory) : MemoryStep l owned l' where
  nodes := ⟨[], by rw [hnodes, List.append_nil]⟩
  kept := by
    intro e _ _
    rw [hmemory]
    exact .refl _ e

theorem MemoryStep.store_next (hrep : Represents l s) {node : NodePtr} {node' : Nat}
    (hnode : Points l.nodes node node') {level : Nat} (hlevel : level < (s.nodes node).height)
    (succ : Option Nat) (owned : Option Extent) :
    MemoryStep l owned { l with memory := Node.store_next l.memory node' level succ } where
  nodes := ⟨[], (List.append_nil _).symm⟩
  kept := by
    intro e hnodes _
    obtain ⟨f, hf, rfl⟩ := hnode.extent
    obtain ⟨hle, hword, hend⟩ := (hrep.node node f hf).word_within hlevel
    exact ((store_next_changes l.memory f.start level succ).mono
      (Nat.le_trans (Nat.le_add_right ..) hle) (Nat.le_trans hword hend)).sameOn
      (hnodes f (List.mem_of_getElem? hf))

theorem init_node_changes (mem : Memory) (node : Nat) (call : InsertCall) {height : Nat}
    (hheight : height ≤ MAX_HEAD_HEIGHT) :
    mem.ChangesOnly (Node.init_node mem node (BitVec.ofNat 16 height)
      (BitVec.ofNat 16 call.key.length) (BitVec.ofNat 32 call.value.length))
      (Node.extent node height call.key.length call.value.length) := by
  intro a ha
  have htower : (BitVec.ofNat 16 height).toNat = height := by
    unfold MAX_HEAD_HEIGHT at hheight
    rw [BitVec.toNat_ofNat, Nat.mod_eq_of_lt (by omega)]
  have hsize : Node.layout.size + height * layout_ptr.size = 8 + height * 8 := rfl
  apply Node.init_node_of_outside
  rw [htower, Nat.add_assoc, hsize]
  simp only [Node.extent, hsize] at ha
  omega

theorem MemoryStep.of_changes {mem : Memory} {e : Extent} (hchanges : l.memory.ChangesOnly mem e) :
    MemoryStep l (some e) { l with memory := mem } where
  nodes := ⟨[], (List.append_nil _).symm⟩
  kept := fun _ _ howned => hchanges.sameOn (howned e rfl)

theorem MemoryStep.copy_entry {height node : Nat} (hinit : Initialised l.memory node height call)
    (hfits : call.Fits) (hheight : height ≤ MAX_HEAD_HEIGHT) :
    MemoryStep l (some (Node.extent node height call.key.length call.value.length))
      { l with
        memory := Node.copy_entry l.memory node call.key call.value
        nodes := l.nodes ++ [Node.extent node height call.key.length call.value.length] } where
  nodes := ⟨_, rfl⟩
  kept := by
    intro e _ howned
    have hsize : Node.layout.size + height * layout_ptr.size = 8 + height * 8 := rfl
    refine ((hinit.filled hfits hheight).2.mono (Nat.le_add_right ..) ?_).sameOn (howned _ rfl)
    simp only [Node.extent, hsize]
    omega

variable (cmp s call pc) in
/-- What a step in memory is for the list: nothing, or the step of the list. -/
inductive StepRefines (r : ArenaList Tid × Progress ArenaInsertPc Inserted) : Prop
  | stays {pc' : ArenaInsertPc} (shared : Represents r.1 s) (next : r.2 = .next pc')
    (rel : InsertRel r.1.nodes r.1.memory call pc pc')
  | steps (choice : Bool) (shared : Represents r.1 (insert_step cmp call choice s pc).1)
    (rel : Progress.Rel (InsertRel r.1.nodes r.1.memory call) (Option.Rel (Points r.1.nodes))
      (insert_step cmp call choice s pc).2 r.2)

/-- The exchange of `max_level` fails in the list for no reason where it fails in memory. -/
theorem cas_max_level_refines (hrep : Represents l s) {ctx ctx' : Option TraversalCtx}
    (height max_height : Nat) (h : Option.Rel (CtxRel l.nodes) ctx ctx')
    (hr : l.insert_step cmp policy t call choice
      (.list (.cas_max_level ctx' height max_height)) = some r) :
    MemoryStep l none r.1 ∧ StepRefines cmp s call (.cas_max_level ctx height max_height) r := by
  simp only [ArenaList.insert_step, hrep.max_level] at hr
  split at hr
  · rename_i hcas
    obtain rfl := (Option.some.inj hr).symm
    have hstep : s.max_level = max_height ∧ false = false := ⟨hcas.1, rfl⟩
    refine ⟨.of_eq rfl rfl, .steps false ?_ ?_⟩
    · rw [insert_step, if_pos hstep]
      exact ⟨hrep.length, hrep.sentinel, hrep.seed, hrep.entries, rfl, hrep.node, hrep.next⟩
    · rw [insert_step, if_pos hstep]
      exact .next (.alloc height h)
  · obtain rfl := (Option.some.inj hr).symm
    have hstep : ¬ (s.max_level = max_height ∧ true = false) := fun hcas => by cases hcas.2
    refine ⟨.of_eq rfl rfl, .steps true ?_ ?_⟩
    · rw [insert_step, if_neg hstep]
      exact hrep
    · rw [insert_step, if_neg hstep]
      exact raise_max_level_rel height s.max_level h

/-- The search for the place of a node that is filled. -/
theorem search_again_refines (hrep : Represents l s) (hs : Towers cmp s levels)
    (hsentinel : (s.nodes sentinel).height = MAX_HEAD_HEIGHT) (hfits : call.KeyFits)
    {node : NodePtr} {node' : Nat} (level : Nat) {pc pc' : SearchPc}
    (hok : InsertOk cmp s call (.search_again node level pc))
    (hnode : Points l.nodes node node') (h : SearchRel l.nodes pc pc')
    (hr : l.insert_step cmp policy t call choice (.list (.search_again node' level pc')) = some r) :
    MemoryStep l none r.1 ∧ StepRefines cmp s call (.search_again node level pc) r := by
  obtain rfl := (Option.some.inj hr).symm
  refine ⟨.of_eq rfl rfl, .steps false hrep ?_⟩
  obtain ⟨e, he, hstart⟩ := hnode.extent
  have hkey : call.search_key (s.nodes node) = call.key := hok.1.search_key hfits
  have hkey' : l.search_key node' call = call.key := by
    rw [← hkey]
    cases call with
    | insert => rfl
    | insert_with =>
      rw [ArenaList.search_key, ← hstart]
      exact (hrep.node node e he).key
  have hstep := search_step_rel hrep hs hsentinel hok.2 h
  simp only [insert_step, hkey, hkey']
  generalize search_step cmp s call.key pc = x at hstep
  generalize l.search_step cmp call.key pc' = y at hstep
  cases hstep with
  | next h => exact .next (.search_again level hnode h)
  | @done ctx ctx' hctx =>
    obtain ⟨hx, hy⟩ | ⟨found, found', hx, hy, hfound⟩ := option_rel_cases hctx.searched_node
    · simp only [hx, hy]
      exact .next (link_level_rel level hnode hctx)
    · cases level with
      | zero =>
        simp only [hx, hy]
        exact .done (.some hfound)
      | succ level =>
        simp only [hx, hy]
        exact .next (link_level_rel _ hnode hctx)

/-- The exchange of a link succeeds on addresses where it does on nodes, since no two
nodes have one address. -/
theorem cas_next_refines (hrep : Represents l s) (hplaced : Placed l.nodes)
    (hs : Towers cmp s levels) (hsentinel : (s.nodes sentinel).height = MAX_HEAD_HEIGHT)
    {node : NodePtr} {node' : Nat} (level : Nat) {ctx ctx' : TraversalCtx}
    (hok : InsertOk cmp s call (.cas_next node level ctx))
    (hnode : Points l.nodes node node') (h : CtxRel l.nodes ctx ctx')
    (hr : l.insert_step cmp policy t call choice (.list (.cas_next node' level ctx')) = some r) :
    MemoryStep l none r.1 ∧ StepRefines cmp s call (.cas_next node level ctx) r := by
  have hlevel := Nat.lt_of_lt_of_le hok.1.height hok.1.height_le
  have hwithin := (hok.2.1.1.predecessors level).within hs hsentinel hlevel
  have hpred := h.predecessors level
  obtain ⟨e, he, hstart⟩ := hpred.extent
  have hload := hrep.next _ e level he hwithin
  rw [hstart] at hload
  have hiff := hplaced.rel_eq_iff hload (h.successors level)
  simp only [ArenaList.insert_step] at hr
  split at hr
  · rename_i hcas
    have hcas' := hiff.mp hcas
    obtain rfl := (Option.some.inj hr).symm
    have hlinked := hrep.set_next hplaced hpred hwithin (Option.Rel.some hnode)
    obtain ⟨f, hf, hstart'⟩ := hnode.extent
    have hheight := (hlinked.node node f hf).height_at
    rw [hstart'] at hheight
    refine ⟨.store_next hrep hpred hwithin _ none, .steps false ?_ ?_⟩
    · simp only [insert_step, if_pos hcas']
      exact hlinked
    · simp only [insert_step, if_pos hcas', hheight, set_next_nodes]
      split
      · exact .next (link_level_rel _ hnode h)
      · exact .done (.some hnode)
  · rename_i hcas
    have hcas' : ¬ s.next (ctx.predecessors level) level = ctx.successors level :=
      fun heq => hcas (hiff.mpr heq)
    obtain rfl := (Option.some.inj hr).symm
    refine ⟨.of_eq rfl rfl, .steps false ?_ ?_⟩
    · simp only [insert_step, if_neg hcas']
      exact hrep
    · simp only [insert_step, if_neg hcas']
      exact .next (.search_again level hnode .load_max_level)

/-- The steps up to the layout of a node, and those that link it. -/
theorem list_step_refines (hrep : Represents l s) (hplaced : Placed l.nodes)
    (hs : Towers cmp s levels) (hsentinel : (s.nodes sentinel).height = MAX_HEAD_HEIGHT)
    (hfits : call.KeyFits) (hok : InsertOk cmp s call pc) {p : InsertPc}
    (hrel : InsertRel l.nodes l.memory call pc (.list p))
    (hr : l.insert_step cmp policy t call choice (.list p) = some r) :
    MemoryStep l none r.1 ∧ StepRefines cmp s call pc r := by
  cases hrel with
  | @search pc pc' h =>
    obtain rfl := (Option.some.inj hr).symm
    refine ⟨.of_eq rfl rfl, .steps false hrep ?_⟩
    have hstep := search_step_rel hrep hs hsentinel hok h
    simp only [insert_step]
    generalize search_step cmp s call.key pc = x at hstep
    generalize l.search_step cmp call.key pc' = y at hstep
    cases hstep with
    | next h => exact .next (.search h)
    | @done ctx ctx' hctx =>
      obtain ⟨hx, hy⟩ | ⟨node, node', hx, hy, hfound⟩ := option_rel_cases hctx.searched_node
      · simp only [hx, hy]
        exact .next (.fetch_add_entries (.some hctx))
      · simp only [hx, hy]
        exact .done (.some hfound)
  | fetch_add_entries h =>
    obtain rfl := (Option.some.inj hr).symm
    refine ⟨.of_eq rfl rfl, .steps false ?_ (.next (.load_seed h))⟩
    exact ⟨hrep.length, hrep.sentinel, hrep.seed, congrArg (· + 1) hrep.entries, hrep.max_level,
      hrep.node, hrep.next⟩
  | load_seed h =>
    obtain rfl := (Option.some.inj hr).symm
    refine ⟨.of_eq rfl rfl, .steps false hrep ?_⟩
    rw [hrep.seed]
    exact .next (.store_seed s.seed h)
  | store_seed seed h =>
    obtain rfl := (Option.some.inj hr).symm
    refine ⟨.of_eq rfl rfl, .steps false ?_ (.next (.load_max_level _ h))⟩
    exact ⟨hrep.length, hrep.sentinel, rfl, hrep.entries, hrep.max_level, hrep.node, hrep.next⟩
  | load_max_level height h =>
    obtain rfl := (Option.some.inj hr).symm
    refine ⟨.of_eq rfl rfl, .steps false hrep ?_⟩
    simp only [insert_step, hrep.max_level]
    exact raise_max_level_rel height s.max_level h
  | cas_max_level height max_height h =>
    exact cas_max_level_refines hrep height max_height h hr
  | @alloc ctx ctx' height h =>
    obtain rfl := (Option.some.inj hr).symm
    refine ⟨.of_eq rfl rfl, ?_⟩
    cases hprogress : ArenaList.alloc policy call ctx' height with
    | next pc' =>
      obtain ⟨layout, -, -, rfl⟩ := alloc_cases hprogress
      exact .stays hrep rfl (.alloc_raw height layout .get_chunk h)
    | done inserted =>
      obtain rfl := alloc_done hprogress
      exact .steps true hrep (.done .none)
  | search_again level hnode h =>
    exact search_again_refines hrep hs hsentinel hfits level hok hnode h hr
  | store_next level hnode h =>
    obtain rfl := (Option.some.inj hr).symm
    have hlevel := hok.1.height
    exact ⟨.store_next hrep hnode hlevel _ none,
      .steps false (hrep.set_next hplaced hnode hlevel (h.successors level))
        (.next (.cas_next level hnode h))⟩
  | cas_next level hnode h =>
    exact cas_next_refines hrep hplaced hs hsentinel level hok hnode h hr

theorem Represents.of_arena (h : Represents l s) (arena : ArenaShared Tid) :
    Represents { l with arena } s :=
  ⟨h.length, h.sentinel, h.seed, h.entries, h.max_level, h.node, h.next⟩

/-- Every step in memory is a step of the list, or none. -/
theorem insert_step_refines (hrep : Represents l s) (hplaced : Placed l.nodes)
    (hs : Towers cmp s levels) (hsentinel : (s.nodes sentinel).height = MAX_HEAD_HEIGHT)
    (hfits : call.Fits) (hok : InsertOk cmp s call pc) (hsized : pc'.Sized call)
    (howned : ∀ e, pc'.owned call = some e → ∀ f ∈ l.nodes, e.Apart f)
    (hrel : InsertRel l.nodes l.memory call pc pc')
    (hr : l.insert_step cmp policy t call choice pc' = some r) :
    MemoryStep l (pc'.owned call) r.1 ∧ StepRefines cmp s call pc r := by
  cases pc' with
  | list p => exact list_step_refines hrep hplaced hs hsentinel hfits.key hok hrel hr
  | alloc_raw ctx' height layout apc =>
    cases hrel with
    | alloc_raw height layout apc h =>
      obtain ⟨⟨arena, progress⟩, -, rfl⟩ := Option.map_eq_some_iff.mp hr
      refine ⟨.of_eq rfl rfl, ?_⟩
      have hrep' := hrep.of_arena arena
      cases hprogress : ArenaList.allocated ctx' height layout progress with
      | next pc'' =>
        obtain ⟨apc', -, rfl⟩ | ⟨node, -, rfl⟩ := allocated_cases hprogress
        · exact .stays hrep' rfl (.alloc_raw height layout apc' h)
        · exact .stays hrep' rfl (.init_node height node h)
      | done inserted =>
        obtain rfl := allocated_done hprogress
        exact .steps true hrep' (.done .none)
  | init_node ctx' height node =>
    cases hrel with
    | init_node height node h =>
      obtain rfl := (Option.some.inj hr).symm
      have hchanges := init_node_changes l.memory node call hsized
      refine ⟨.of_changes hchanges, .stays (hrep.frame ?_) rfl
        (.copy_entry height node h (.init_node l.memory node call hsized))⟩
      intro e he
      exact hchanges.sameOn (howned _ rfl e he)
  | copy_entry ctx' height node =>
    cases hrel with
    | copy_entry height node h hinit =>
      obtain rfl := (Option.some.inj hr).symm
      have hfilled := hrep.filled hinit hfits hsized (howned _ rfl)
      refine ⟨.copy_entry hinit hfits hsized, .steps false hfilled ?_⟩
      have hnode : Points (l.nodes ++ [Node.extent node height call.key.length
          call.value.length]) s.allocated node := by
        rw [Points, ← hrep.length, List.getElem?_concat_length]
        rfl
      cases ctxs_append h [Node.extent node height call.key.length call.value.length] with
      | none => exact .next (.search_again 0 hnode .load_max_level)
      | some hctx => exact .next (link_level_rel 0 hnode hctx)

end steps

end ordinum.mem_skip_list
