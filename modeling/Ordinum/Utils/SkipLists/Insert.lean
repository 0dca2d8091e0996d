import Ordinum.Utils.SkipLists.Search

open interleaving
open ordinum.key ordinum.utils

namespace ordinum.mem_skip_list

/-- The node that an insertion has allocated and not yet linked everywhere. -/
def InsertPc.own : InsertPc → Option NodePtr
  | .search_again node _ _ | .store_next node _ _ | .cas_next node _ _ => some node
  | _ => none

variable (cmp : Comparator)

/-- The own node of an insertion that is about to link it at `level`. -/
structure OwnOk (s : SkipList) (call : InsertCall) (node : NodePtr) (level : Nat) : Prop where
  ne_sentinel : node ≠ sentinel
  allocated : node < s.allocated
  written : s.nodes node = Node.write (s.nodes node).height call.key call.value
  height : level < (s.nodes node).height
  height_le : (s.nodes node).height ≤ MAX_HEAD_HEIGHT
  linked : ∀ l, l < level → OnLevel s l node
  unlinked : ∀ l, level ≤ l → ¬ OnLevel s l node
  next : ∀ l, level ≤ l → ∀ x, s.next node l = some x →
    OnLevel s l x ∧ cmp.compare call.key (s.nodes x).key = .lt

/-- The context that a node is linked with; at the base level the key was not
there. -/
def LinkOk (s : SkipList) (call : InsertCall) (level : Nat) (ctx : TraversalCtx) : Prop :=
  CtxOk cmp s call.key ctx ∧ (level = 0 → ctx.searched_node = none)

def InsertOk (s : SkipList) (call : InsertCall) : InsertPc → Prop
  | .search pc => SearchOk cmp s call.key pc
  | .fetch_add_entries ctx | .load_seed ctx | .store_seed ctx _ =>
    ∀ c, ctx = some c → LinkOk cmp s call 0 c
  | .load_max_level ctx height | .cas_max_level ctx height _ | .alloc ctx height =>
    (∀ c, ctx = some c → LinkOk cmp s call 0 c) ∧ 0 < height ∧ height ≤ MAX_HEAD_HEIGHT
  | .search_again node level pc => OwnOk cmp s call node level ∧ SearchOk cmp s call.key pc
  | .store_next node level ctx => OwnOk cmp s call node level ∧ LinkOk cmp s call level ctx
  | .cas_next node level ctx =>
    OwnOk cmp s call node level ∧ LinkOk cmp s call level ctx ∧
      ((ctx.successors level).isSome → s.next node level = ctx.successors level)

variable {cmp} {s s' : SkipList} {levels : Nat → List NodePtr} {call : InsertCall}

/-- The key fits the length field of a node. -/
def InsertCall.KeyFits (call : InsertCall) : Prop := call.key.length < 2 ^ 16

/-- Key and value fit the length fields of a node. A longer value is copied past its node. -/
structure InsertCall.Fits (call : InsertCall) : Prop where
  key : call.KeyFits
  value : call.value.length < 2 ^ 32

theorem Node.write_key (hfits : call.KeyFits) (height : Nat) :
    (Node.write height call.key call.value).key = call.key := by
  rw [Node.write, Nat.mod_eq_of_lt hfits, List.take_length]

theorem OwnOk.key (hfits : call.KeyFits) {node : NodePtr} {level : Nat}
    (h : OwnOk cmp s call node level) : (s.nodes node).key = call.key := by
  rw [h.written, Node.write_key hfits]

theorem OwnOk.search_key (hfits : call.KeyFits) {node : NodePtr} {level : Nat}
    (h : OwnOk cmp s call node level) :
    call.search_key (s.nodes node) = call.key := by
  cases call with
  | insert => rfl
  | insert_with => exact h.key hfits

section stability

/-- Another thread's access leaves an own node alone. -/
theorem OwnOk.step (hs : Towers cmp s levels) {own : Option NodePtr}
    (hstep : TowerStep cmp s own s') {node : NodePtr} {level : Nat}
    (h : OwnOk cmp s call node level) (hown : own ≠ some node) :
    OwnOk cmp s' call node level := by
  have hgrows := hstep.grows hs
  have hnode := hgrows.nodes node h.allocated
  refine ⟨h.ne_sentinel, h.allocated.trans_le hgrows.allocated, by rw [hnode]; exact h.written,
    by rw [hnode]; exact h.height, by rw [hnode]; exact h.height_le,
    fun l hl => hgrows.onLevel l node (h.linked l hl), ?_, ?_⟩
  · intro l hl hlinked
    exact (hstep.onLevel_or hs hlinked).elim (h.unlinked l hl) hown
  · intro l hl x hx
    rw [hstep.next_eq h.ne_sentinel h.allocated hown (h.unlinked l hl)] at hx
    obtain ⟨hlevel, hlt⟩ := h.next l hl x hx
    exact ⟨hgrows.onLevel l x hlevel, by rwa [hs.nodes_eq hgrows hlevel]⟩

theorem LinkOk.grows (hs : Towers cmp s levels) (hgrows : Grows s s') {level : Nat}
    {ctx : TraversalCtx} (h : LinkOk cmp s call level ctx) : LinkOk cmp s' call level ctx :=
  ⟨h.1.grows hs hgrows, h.2⟩

/-- Another thread's access does not interfere with an insertion. -/
theorem InsertOk.step (hs : Towers cmp s levels) {own : Option NodePtr}
    (hstep : TowerStep cmp s own s') {pc : InsertPc} (h : InsertOk cmp s call pc)
    (hown : ∀ node, pc.own = some node → own ≠ some node) : InsertOk cmp s' call pc := by
  have hgrows := hstep.grows hs
  cases pc with
  | search pc => exact SearchOk.grows hs hgrows h
  | fetch_add_entries | load_seed | store_seed => exact fun c hc => (h c hc).grows hs hgrows
  | load_max_level | cas_max_level | alloc =>
    exact ⟨fun c hc => (h.1 c hc).grows hs hgrows, h.2⟩
  | search_again node level pc =>
    exact ⟨h.1.step hs hstep (hown node rfl), h.2.grows hs hgrows⟩
  | store_next node level ctx =>
    exact ⟨h.1.step hs hstep (hown node rfl), h.2.grows hs hgrows⟩
  | cas_next node level ctx =>
    refine ⟨h.1.step hs hstep (hown node rfl), h.2.1.grows hs hgrows, ?_⟩
    rw [hstep.next_eq h.1.ne_sentinel h.1.allocated (hown node rfl)
      (h.1.unlinked level (Nat.le_refl level))]
    exact h.2.2

end stability

section height

theorem lower_height_bounds (height : Nat) :
    lower_height height ≤ height ∧ (0 < height → 0 < lower_height height) := by
  fun_induction lower_height height with
  | case1 height hge ih => omega
  | case2 height hlt => exact ⟨Nat.le_refl height, id⟩

theorem random_height_bounds (seed : BitVec 64) :
    0 < random_height seed ∧ random_height seed ≤ MAX_HEAD_HEIGHT := by
  have hbounds := lower_height_bounds (min MAX_HEAD_HEIGHT (seed.ctz.toNat + 1))
  refine ⟨hbounds.2 ?_, hbounds.1.trans (Nat.min_le_left _ _)⟩
  exact Nat.lt_min.mpr ⟨by decide, Nat.succ_pos _⟩

end height

variable (cmp) in
/-- An insertion that goes on well, or returns a node with its key. -/
def InsertProgressOk (s : SkipList) (call : InsertCall) : Progress InsertPc Inserted → Prop
  | .next pc => InsertOk cmp s call pc
  | .done none => True
  | .done (some node) => OnLevel s 0 node ∧ (s.nodes node).key = call.key

variable (cmp) in
/-- What one atomic access of an insertion does. -/
structure InsertStepOk (s : SkipList) (call : InsertCall) (pc : InsertPc)
    (r : SkipList × Progress InsertPc Inserted) : Prop where
  tower : TowerStep cmp s pc.own r.1
  progress : InsertProgressOk cmp r.1 call r.2
  own : ∀ pc', r.2 = .next pc' → pc'.own = pc.own ∨ pc.own = none ∧ pc'.own = some s.allocated
  released : ∀ node inserted, pc.own = some node → r.2 = .done inserted → OnLevel r.1 0 node →
    inserted = some node ∧ ∀ l, l < (r.1.nodes node).height → OnLevel r.1 l node

theorem link_level_ok {node : NodePtr} {level : Nat} {ctx : TraversalCtx}
    (hown : OwnOk cmp s call node level) (hlink : LinkOk cmp s call level ctx) :
    InsertOk cmp s call (link_level node level ctx) := by
  rw [link_level]
  split
  · exact ⟨hown, hlink⟩
  · rename_i hnone
    exact ⟨hown, hlink, fun h => absurd h hnone⟩

theorem link_level_own (node : NodePtr) (level : Nat) (ctx : TraversalCtx) :
    (link_level node level ctx).own = some node := by
  rw [link_level]
  split <;> rfl

/-- The successor in a context is right of the key where the node is not linked. -/
theorem OwnOk.lt_successor (hs : Towers cmp s levels) (hfits : call.KeyFits) {node : NodePtr}
    {level : Nat} {ctx : TraversalCtx} (hown : OwnOk cmp s call node level)
    (hlink : LinkOk cmp s call level ctx) {x : NodePtr} (hx : ctx.successors level = some x) :
    OnLevel s level x ∧ cmp.compare call.key (s.nodes x).key = .lt := by
  obtain ⟨hlevel, hge⟩ := hlink.1.successors level x hx
  have hne : (s.nodes x).key ≠ call.key := by
    obtain hzero | hpos := Nat.eq_zero_or_pos level
    · exact hlink.1.not_found (hlink.2 hzero) level x hx
    · -- the node is at the base already, and its key occurs there once
      intro hkey
      have hsame : x = node := hs.eq_of_key (hs.onLevel_of_le (Nat.zero_le level) hlevel)
        (hown.linked 0 hpos) (hkey.trans (hown.key hfits).symm)
      exact hown.unlinked level (Nat.le_refl level) (hsame ▸ hlevel)
  refine ⟨hlevel, ?_⟩
  cases hcmp : cmp.compare (s.nodes x).key call.key with
  | lt => exact absurd hcmp hge
  | eq => exact absurd (cmp.eq_of_compare hcmp) hne
  | gt => exact cmp.lt_of_gt hcmp

/-- Where the exchange succeeds the node can be linked in. -/
theorem cas_next_linkable (hs : Towers cmp s levels) (hfits : call.KeyFits) {node : NodePtr} {level : Nat}
    {ctx : TraversalCtx} (hpc : InsertOk cmp s call (.cas_next node level ctx))
    (hcas : s.next (ctx.predecessors level) level = ctx.successors level) :
    Linkable cmp s node level (ctx.predecessors level) := by
  obtain ⟨hown, hlink, hstored⟩ := hpc
  have hpred := hlink.1.predecessors level
  have hkey := hown.key hfits
  refine ⟨?_, ?_, ?_, hown.ne_sentinel, hown.allocated, hown.height,
    hown.unlinked level (Nat.le_refl level), hown.linked⟩
  · refine hpred.imp_right fun ⟨hlevel, hlt⟩ => ⟨hlevel, ?_⟩
    rw [KeyLt, hkey]
    exact hlt
  · intro x hx
    rw [KeyLt, hkey]
    exact (hown.lt_successor hs hfits hlink (hcas ▸ hx)).2
  · rw [hcas]
    cases hsucc : ctx.successors level with
    | some x => rw [hstored (by rw [hsucc]; rfl), hsucc]
    | none =>
      -- an older successor would still be on the level, right of the key
      cases hold : s.next node level with
      | none => rfl
      | some x =>
        obtain ⟨hlevel, hlt⟩ := hown.next level (Nat.le_refl level) x hold
        obtain hleft | ⟨y, hy, -⟩ := hs.position hpred hlevel
        · exact absurd (cmp.lt_trans hlt hleft) (cmp.lt_irrefl _)
        · rw [hcas, hsucc] at hy
          cases hy

/-- Linking a node in keeps it its owner's above the level. -/
theorem OwnOk.linked_in (hs : Towers cmp s levels) {node pred : NodePtr} {level : Nat}
    (hown : OwnOk cmp s call node level) (hlink : Linkable cmp s node level pred)
    (hheight : level + 1 < (s.nodes node).height) :
    OwnOk cmp (s.set_next pred level (some node)) call node (level + 1) := by
  obtain ⟨levels', hs', hiff⟩ := hs.link hlink
  have honLevel : ∀ l m, OnLevel (s.set_next pred level (some node)) l m ↔
      OnLevel s l m ∨ l = level ∧ m = node := by
    intro l m
    rw [hs'.onLevel_iff, hiff, hs.onLevel_iff]
  refine ⟨hown.ne_sentinel, hown.allocated, hown.written, hheight, hown.height_le, ?_, ?_, ?_⟩
  · intro l hl
    rw [honLevel]
    obtain hl | rfl := Nat.lt_succ_iff_lt_or_eq.mp hl
    · exact .inl (hown.linked l hl)
    · exact .inr ⟨rfl, rfl⟩
  · intro l hl
    rw [honLevel]
    rintro (hlinked | ⟨rfl, -⟩)
    · exact hown.unlinked l (by omega) hlinked
    · omega
  · intro l hl x hx
    rw [congrFun (set_next_other s pred _ (by omega : l ≠ level)) node] at hx
    obtain ⟨hlevel, hlt⟩ := hown.next l (by omega) x hx
    exact ⟨(honLevel l x).mpr (.inl hlevel), hlt⟩

/-- Writing the successor into the own tower. -/
theorem OwnOk.stored (hs : Towers cmp s levels) {node : NodePtr} {level : Nat}
    {succ : Option NodePtr} (hown : OwnOk cmp s call node level)
    (hsucc : ∀ x, succ = some x → OnLevel s level x ∧
      cmp.compare call.key (s.nodes x).key = .lt) :
    OwnOk cmp (s.set_next node level succ) call node level := by
  have hs' := hs.store succ hown.ne_sentinel (hown.unlinked level (Nat.le_refl level))
  have honLevel : ∀ l m, OnLevel (s.set_next node level succ) l m ↔ OnLevel s l m := by
    intro l m
    rw [hs'.onLevel_iff, hs.onLevel_iff]
  refine ⟨hown.ne_sentinel, hown.allocated, hown.written, hown.height, hown.height_le, ?_, ?_, ?_⟩
  · intro l hl
    exact (honLevel l node).mpr (hown.linked l hl)
  · intro l hl
    rw [honLevel]
    exact hown.unlinked l hl
  · intro l hl x hx
    rw [honLevel]
    by_cases heq : l = level
    · subst heq
      rw [congrFun (set_next_same s node l succ) node, Function.update_self] at hx
      exact hsucc x hx
    · rw [congrFun (set_next_other s node succ heq) node] at hx
      exact hown.next l hl x hx

/-- A new node. -/
theorem ownOk_alloc (call : InsertCall) (hs : Towers cmp s levels) {height : Nat} (hpos : 0 < height)
    (hle : height ≤ MAX_HEAD_HEIGHT) :
    OwnOk cmp { s with
      allocated := s.allocated + 1
      nodes := Function.update s.nodes s.allocated (Node.write height call.key call.value)
      next := Function.update s.next s.allocated fun _ => none } call s.allocated 0 := by
  have hs' := hs.alloc (Node.write height call.key call.value)
  refine ⟨hs.sentinel_allocated.ne', Nat.lt_succ_self _, ?_, ?_, ?_, ?_, ?_, ?_⟩
  · simp [Node.write]
  · simpa [Node.write] using hpos
  · simpa [Node.write] using hle
  · exact fun l hl => absurd hl (Nat.not_lt_zero l)
  · intro l _ hlinked
    have hold : OnLevel s l s.allocated := hs.onLevel_iff.mpr (hs'.onLevel_iff.mp hlinked)
    exact Nat.lt_irrefl _ (hs.allocated hold)
  · intro l _ x hx
    simp at hx

theorem InsertStepOk.of_next {pc pc' : InsertPc} (htower : TowerStep cmp s pc.own s')
    (hpc' : InsertOk cmp s' call pc')
    (hown : pc'.own = pc.own ∨ pc.own = none ∧ pc'.own = some s.allocated) :
    InsertStepOk cmp s call pc (s', .next pc') := by
  refine ⟨htower, hpc', ?_, fun _ _ _ h => by cases h⟩
  rintro _ ⟨⟩
  exact hown

/-- Every atomic access of an insertion keeps what the insertion knows. -/
theorem insert_step_ok (hs : Towers cmp s levels) (hfits : call.KeyFits) {pc : InsertPc}
    (hpc : InsertOk cmp s call pc) (choice : Bool) :
    InsertStepOk cmp s call pc (insert_step cmp call choice s pc) := by
  have hsame : TowerStep cmp s pc.own s := .quiet rfl rfl rfl hs.max_level
  cases pc with
  | search pc =>
    have hsearch := search_step_ok hs hpc
    cases hstep : search_step cmp s call.key pc with
    | next pc' =>
      rw [hstep] at hsearch
      simp only [insert_step, hstep]
      exact .of_next hsame hsearch (.inl rfl)
    | done ctx =>
      rw [hstep] at hsearch
      cases hfound : ctx.searched_node with
      | some found =>
        simp only [insert_step, hstep, hfound]
        exact ⟨hsame, hsearch.found found hfound, fun _ h => (by cases h), fun _ _ h => by cases h⟩
      | none =>
        simp only [insert_step, hstep, hfound]
        refine .of_next hsame ?_ (.inl rfl)
        rintro _ ⟨⟩
        exact ⟨hsearch, fun _ => hfound⟩
  | fetch_add_entries ctx =>
    have hquiet : TowerStep cmp s none { s with entries := s.entries + 1 } :=
      .quiet rfl rfl rfl hs.max_level
    exact .of_next hquiet (fun c hc => (hpc c hc).grows hs (hquiet.grows hs)) (.inl rfl)
  | load_seed ctx => exact .of_next hsame hpc (.inl rfl)
  | store_seed ctx seed =>
    have hquiet : TowerStep cmp s none { s with seed := xorshift seed } :=
      .quiet rfl rfl rfl hs.max_level
    exact .of_next hquiet ⟨fun c hc => (hpc c hc).grows hs (hquiet.grows hs),
      random_height_bounds _⟩ (.inl rfl)
  | load_max_level ctx height =>
    simp only [insert_step]
    split
    · exact .of_next hsame hpc (.inl rfl)
    · exact .of_next hsame hpc (.inl rfl)
  | cas_max_level ctx height max_height =>
    simp only [insert_step]
    split
    · have hquiet : TowerStep cmp s none { s with max_level := height } :=
        .quiet rfl rfl rfl hpc.2.2
      exact .of_next hquiet ⟨fun c hc => (hpc.1 c hc).grows hs (hquiet.grows hs), hpc.2⟩ (.inl rfl)
    · split
      · exact .of_next hsame hpc (.inl rfl)
      · exact .of_next hsame hpc (.inl rfl)
  | alloc ctx height =>
    cases choice with
    | true => exact ⟨hsame, trivial, fun _ h => (by cases h), fun _ _ h => by cases h⟩
    | false =>
      have halloc : TowerStep cmp s none _ := .alloc (Node.write height call.key call.value)
      have hown := ownOk_alloc call hs hpc.2.1 hpc.2.2
      cases ctx with
      | some ctx =>
        refine .of_next halloc (link_level_ok hown ((hpc.1 ctx rfl).grows hs (halloc.grows hs)))
          (.inr ⟨rfl, ?_⟩)
        exact link_level_own _ 0 ctx
      | none => exact .of_next halloc ⟨hown, trivial⟩ (.inr ⟨rfl, rfl⟩)
  | search_again node level pc =>
    obtain ⟨hown, hpc⟩ := hpc
    have hkey := hown.search_key hfits
    have hsearch := search_step_ok hs hpc
    cases hstep : search_step cmp s call.key pc with
    | next pc' =>
      rw [hstep] at hsearch
      simp only [insert_step, hkey, hstep]
      exact .of_next hsame ⟨hown, hsearch⟩ (.inl rfl)
    | done ctx =>
      rw [hstep] at hsearch
      have hlink : LinkOk cmp s call level ctx → InsertStepOk cmp s call
          (.search_again node level pc) (s, .next (link_level node level ctx)) := fun hlink =>
        .of_next hsame (link_level_ok hown hlink) (.inl (link_level_own node level ctx))
      cases hfound : ctx.searched_node with
      | none =>
        simp only [insert_step, hkey, hstep, hfound]
        exact hlink ⟨hsearch, fun _ => hfound⟩
      | some found =>
        cases level with
        | succ level =>
          simp only [insert_step, hkey, hstep, hfound]
          exact hlink ⟨hsearch, fun h => absurd h (Nat.succ_ne_zero level)⟩
        | zero =>
          simp only [insert_step, hkey, hstep, hfound]
          refine ⟨hsame, hsearch.found found hfound, fun _ h => (by cases h), ?_⟩
          rintro _ _ ⟨⟩ - hlinked
          exact absurd hlinked (hown.unlinked 0 (Nat.le_refl 0))
  | store_next node level ctx =>
    obtain ⟨hown, hlink⟩ := hpc
    have hstore : TowerStep cmp s (some node) (s.set_next node level (ctx.successors level)) :=
      .store hown.ne_sentinel (hown.unlinked level (Nat.le_refl level))
    refine .of_next hstore ⟨?_, hlink.grows hs (hstore.grows hs), fun _ => ?_⟩ (.inl rfl)
    · exact hown.stored hs fun x hx => hown.lt_successor hs hfits hlink hx
    · rw [congrFun (set_next_same s node level _) node, Function.update_self]
  | cas_next node level ctx =>
    by_cases hcas : s.next (ctx.predecessors level) level = ctx.successors level
    · have hlinkable := cas_next_linkable hs hfits hpc hcas
      have hstep : TowerStep cmp s (some node) _ := .link hlinkable
      obtain ⟨levels', hs', hiff⟩ := hs.link hlinkable
      obtain ⟨hown, hlink, -⟩ := hpc
      by_cases hheight : level + 1 < (s.nodes node).height
      · simp only [insert_step, if_pos hcas, if_pos hheight]
        refine .of_next hstep (link_level_ok (hown.linked_in hs hlinkable hheight) ?_)
          (.inl (link_level_own node _ ctx))
        exact ⟨hlink.1.grows hs (hstep.grows hs), fun h => absurd h (Nat.succ_ne_zero level)⟩
      · simp only [insert_step, if_pos hcas, if_neg hheight]
        have hall : ∀ l, l < (s.nodes node).height →
            OnLevel (s.set_next (ctx.predecessors level) level (some node)) l node := by
          intro l hl
          rw [hs'.onLevel_iff, hiff]
          rcases Nat.lt_succ_iff_lt_or_eq.mp (by omega : l < level + 1) with hlt | heq
          · exact .inl (hs.onLevel_iff.mp (hown.linked l hlt))
          · exact .inr ⟨heq, rfl⟩
        refine ⟨hstep, ⟨hall 0 (by have := hown.height; omega), hown.key hfits⟩,
          fun _ h => (by cases h), ?_⟩
        rintro _ _ ⟨⟩ ⟨⟩ -
        exact ⟨rfl, hall⟩
    · simp only [insert_step, if_neg hcas]
      exact .of_next hsame ⟨hpc.1, trivial⟩ (.inl rfl)

end ordinum.mem_skip_list
