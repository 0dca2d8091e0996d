import Ordinum.Interleaving.Linearization
import Ordinum.Memtable.Snapshot
import Ordinum.Utils.SkipLists.BaseLevel

open interleaving interleaving.System
open ordinum.key ordinum.mem_skip_list ordinum.utils

namespace ordinum.memtable

inductive MemtableOp where
  | insert (key value : List Byte)
  | get (key : List Byte)
  deriving DecidableEq, Repr

/-- An insertion returns the entry that holds its key; `none` is a panic of `get`. -/
inductive MemtableRet where
  | inserted (entry : Pair)
  | read (ret : Option MemReturn)
  deriving DecidableEq, Repr

/-- The memtable with one call at a time: ordered entries of which the first with a
key stays. -/
def ordered_entries : Object MemtableOp MemtableRet (List Pair) where
  init := []
  effect
    | .insert key value, es, ret, es' =>
      es' = inserted InternalKeyComparator (InsertCall.stored (.insert key value)) es ∧
        ∃ e ∈ es', e.1 = key ∧ ret = .inserted e
    | .get key, es, ret, es' =>
      es' = es ∧ ret = .read (get_return key
        (es.find? fun e => InternalKeyComparator.compare e.1 key ≠ .lt))

/-- A thread inserts and reads. -/
inductive Role where
  | inserts
  | reads
  deriving DecidableEq, Repr

def insert_op (call : InsertCall) : MemtableOp := .insert call.key call.value

/-- The own node of an insertion once it is linked at the base level. -/
def InsertPc.linked : InsertPc → Option NodePtr
  | .search_again node level _ | .store_next node level _ | .cas_next node level _ =>
    if level = 0 then none else some node
  | _ => none

/-- An insertion has its effect when it links its node at the base level. -/
def insert_pending (s : SkipList) (call : InsertCall) (pc : InsertPc) :
    Pending MemtableOp MemtableRet :=
  (InsertPc.linked pc).elim (.called (insert_op call)) fun node =>
    .answered (insert_op call) (.inserted (pair s node))

/-- A `get` has its effect when its search ends. -/
def get_pending (s : SkipList) (key : List Byte) : GetPc → Pending MemtableOp MemtableRet
  | .search _ => .called (.get key)
  | .read found => .answered (.get key) (.read (get_return key (entry s found)))

def memtable_pending (s : SkipList) (l : Observing InsertThread GetThread) :
    Role → Pending MemtableOp MemtableRet
  | .inserts => l.own.running.elim .idle fun running => insert_pending s running.1 running.2
  | .reads => l.reads.running.elim .idle fun running => get_pending s running.1 running.2

variable {Tid : Type}

/-- What is seen of one access of an insertion. -/
def insert_events (t : Tid) (call : InsertCall) (r : SkipList × Progress InsertPc Inserted) :
    List (Event (Tid × Role) MemtableOp MemtableRet) :=
  match r.2 with
  | .next _ => []
  | .done none => [.panicked (t, .inserts) (insert_op call)]
  | .done (some node) => [.returned (t, .inserts) (insert_op call) (.inserted (pair r.1 node))]

/-- What is seen of one load of a `get`. -/
def get_events (t : Tid) (key : List Byte) (progress : Progress GetPc (Option MemReturn)) :
    List (Event (Tid × Role) MemtableOp MemtableRet) :=
  match progress with
  | .next _ => []
  | .done ret => [.returned (t, .reads) (.get key) (.read ret)]

def memtable_events : Events Tid Role (ObservingAct InsertAct GetAct) SkipList
    (Observing InsertThread GetThread) MemtableOp MemtableRet
  | t, .own (.start call), _, _, _ => [.called (t, .inserts) (insert_op call)]
  | t, .own (.step choice), s, l, _ => l.own.running.elim [] fun running =>
    insert_events t running.1 (insert_step InternalKeyComparator running.1 choice s running.2)
  | t, .read (.get key), _, _, _ => [.called (t, .reads) (.get key)]
  | t, .read .step, s, l, _ => l.reads.running.elim [] fun running =>
    get_events t running.1 (get_load running.1 s running.2)

/-- The memtable with the history of its calls. -/
def memtable_history (Tid : Type) := (memtable_system Tid).with_events memtable_events

section insert

variable [DecidableEq Tid] {t : Tid} {s s' : SkipList} {levels levels' : Nat → List NodePtr}
  {call : InsertCall} {pc pc' : InsertPc} {r : SkipList × Progress InsertPc Inserted}

/-- What one access of an insertion is to the ordered entries. -/
def InsertDoes (t : Tid) (call : InsertCall) (s : SkipList) (levels : Nat → List NodePtr)
    (pc : InsertPc) (r : SkipList × Progress InsertPc Inserted) : Prop :=
  ∃ levels', Towers InternalKeyComparator r.1 levels' ∧
    ordered_entries.Does (t, Role.inserts) (insert_pending s call pc) (pairs s (levels 0))
      (insert_events t call r) (r.2.elim (insert_pending r.1 call) fun _ => .idle)
      (pairs r.1 (levels' 0))

omit [DecidableEq Tid] in
theorem link_level_linked (node : NodePtr) (level : Nat) (ctx : TraversalCtx) :
    InsertPc.linked (link_level node level ctx) = if level = 0 then none else some node := by
  rw [link_level]
  split <;> rfl

/-- A key that is linked is among the entries. -/
theorem insert_present (hs : Towers InternalKeyComparator s levels) {node : NodePtr}
    (hnode : OnLevel s 0 node) (hkey : (s.nodes node).key = call.key) :
    ordered_entries.effect (insert_op call) (pairs s (levels 0)) (.inserted (pair s node))
      (pairs s (levels 0)) := by
  have hmem : pair s node ∈ pairs s (levels 0) := hs.mem_pairs.mpr ⟨node, hnode, rfl⟩
  exact ⟨(inserted_of_present (e := call.stored) hmem hkey).symm, pair s node, hmem, hkey, rfl⟩

/-- A step that links no node at the base level, in an insertion that goes on. -/
theorem InsertDoes.quiet (hs : Towers InternalKeyComparator s levels)
    (hs' : Towers InternalKeyComparator s' levels') (hgrows : Grows s s')
    (hsame : ∀ node, OnLevel s' 0 node → OnLevel s 0 node)
    (hlinked : InsertPc.linked pc' = InsertPc.linked pc)
    (hnode : ∀ node, InsertPc.linked pc = some node → OnLevel s 0 node) :
    InsertDoes t call s levels pc (s', .next pc') := by
  refine ⟨levels', hs', ?_⟩
  have hpending : insert_pending s' call pc' = insert_pending s call pc := by
    rw [insert_pending, insert_pending, hlinked]
    cases hcase : InsertPc.linked pc with
    | none => rfl
    | some node => rw [Option.elim_some, Option.elim_some, hs.pair_eq hgrows (hnode node hcase)]
  rw [Progress.elim_next, hpending, hs.pairs_same hs' hgrows hsame]
  exact .stay

/-- An insertion whose key is there already. -/
theorem InsertDoes.found (hs : Towers InternalKeyComparator s levels)
    (hpc : InsertPc.linked pc = none) {node : NodePtr} (hnode : OnLevel s 0 node)
    (hkey : (s.nodes node).key = call.key) :
    InsertDoes t call s levels pc (s, .done (some node)) := by
  refine ⟨levels, hs, ?_⟩
  rw [insert_pending, hpc]
  exact .take_effect_and_answer (insert_present hs hnode hkey)

/-- A step that leaves every level as it is. -/
theorem InsertDoes.same_levels {own : Option NodePtr}
    (hs : Towers InternalKeyComparator s levels) (hs' : Towers InternalKeyComparator s' levels)
    (hstep : TowerStep InternalKeyComparator s own s')
    (hlinked : InsertPc.linked pc' = InsertPc.linked pc)
    (hnode : ∀ node, InsertPc.linked pc = some node → OnLevel s 0 node) :
    InsertDoes t call s levels pc (s', .next pc') := by
  refine .quiet hs hs' (hstep.grows hs) (fun node hnode => ?_) hlinked hnode
  exact hs.onLevel_iff.mpr (hs'.onLevel_iff.mp hnode)

omit [DecidableEq Tid] in
theorem InsertOk.linked_onLevel (hpc : InsertOk InternalKeyComparator s call pc)
    {node : NodePtr} (hlinked : InsertPc.linked pc = some node) : OnLevel s 0 node := by
  have hown : ∀ {node' level}, OwnOk InternalKeyComparator s call node' level →
      (if level = 0 then none else some node') = some node → OnLevel s 0 node := by
    intro node' level hown hsome
    split at hsome
    · cases hsome
    · rename_i hlevel
      cases hsome
      exact hown.linked 0 (Nat.pos_of_ne_zero hlevel)
  cases pc with
  | search_again | store_next | cas_next => exact hown hpc.1 hlinked
  | _ => cases hlinked

/-- The exchange that links the node at a level. -/
theorem InsertDoes.link (hs : Towers InternalKeyComparator s levels) (hfits : call.KeyFits)
    {node pred : NodePtr} {level : Nat} {ctx : TraversalCtx}
    (hown : OwnOk InternalKeyComparator s call node level)
    (hlinkable : Linkable InternalKeyComparator s node level pred)
    {progress : Progress InsertPc Inserted}
    (hprogress : progress = .done (some node) ∨
      ∃ ctx, progress = .next (link_level node (level + 1) ctx)) :
    InsertDoes t call s levels (.cas_next node level ctx)
      (s.set_next pred level (some node), progress) := by
  have hgrows := TowerStep.grows hs (.link hlinkable)
  obtain ⟨levels', hs', hiff⟩ := hs.link hlinkable
  have honLevel : ∀ m, OnLevel (s.set_next pred level (some node)) 0 m ↔
      OnLevel s 0 m ∨ 0 = level ∧ m = node := by
    intro m
    rw [hs'.onLevel_iff, hiff, hs.onLevel_iff]
  refine ⟨levels', hs', ?_⟩
  have hanswer : ∀ y a, ordered_entries.Does (t, Role.inserts) y a []
      (.answered (insert_op call) (.inserted (pair s node)))
      (pairs (s.set_next pred level (some node)) (levels' 0)) →
      ordered_entries.Does (t, Role.inserts) y a
        (insert_events t call (s.set_next pred level (some node), progress))
        (progress.elim (insert_pending (s.set_next pred level (some node)) call) fun _ => .idle)
        (pairs (s.set_next pred level (some node)) (levels' 0)) := by
    intro y a hdoes
    obtain rfl | ⟨ctx, rfl⟩ := hprogress
    · exact hdoes.trans .answer
    · rw [Progress.elim_next, insert_pending, link_level_linked, if_neg (Nat.succ_ne_zero level)]
      exact hdoes
  apply hanswer
  obtain rfl | hlevel := Nat.eq_zero_or_pos level
  · have hnode := (honLevel node).mpr (.inr ⟨rfl, rfl⟩)
    have hentries := hs.pairs_added hs' hgrows hnode (hown.unlinked 0 (Nat.le_refl 0))
      fun m hm => ((honLevel m).mp hm).imp_right And.right
    have hmem : pair s node ∈ pairs (s.set_next pred 0 (some node)) (levels' 0) :=
      hs'.mem_pairs.mpr ⟨node, hnode, rfl⟩
    have hpair : pair (s.set_next pred 0 (some node)) node = call.stored :=
      pair_of_written hfits hown.written
    rw [hpair] at hentries
    exact .take_effect ⟨hentries, pair s node, hmem, hown.key hfits, rfl⟩
  · rw [hs.pairs_same hs' hgrows fun m hm => ((honLevel m).mp hm).resolve_right fun h =>
      absurd h.1 hlevel.ne, insert_pending, InsertPc.linked, if_neg hlevel.ne']
    exact .stay

/-- Every access of an insertion is one of the ordered entries, or none. -/
theorem insert_does (t : Tid) (hs : Towers InternalKeyComparator s levels) (hfits : call.KeyFits)
    (hpc : InsertOk InternalKeyComparator s call pc) (choice : Bool) :
    InsertDoes t call s levels pc (insert_step InternalKeyComparator call choice s pc) := by
  have hok := insert_step_ok hs hfits hpc choice
  have hnode : ∀ node, InsertPc.linked pc = some node → OnLevel s 0 node :=
    fun _ => InsertOk.linked_onLevel hpc
  have hquiet : TowerStep InternalKeyComparator s none s := .quiet rfl rfl rfl hs.max_level
  have hstay : ∀ {pc'}, InsertPc.linked pc' = InsertPc.linked pc →
      InsertDoes t call s levels pc (s, .next pc') := fun hlinked =>
    .same_levels hs hs hquiet hlinked hnode
  cases pc with
  | search pc =>
    cases hstep : search_step InternalKeyComparator s call.key pc with
    | next pc' =>
      simp only [insert_step, hstep]
      exact hstay rfl
    | done ctx =>
      have hsearch := search_step_ok hs hpc
      rw [hstep] at hsearch
      cases hfound : ctx.searched_node with
      | some found =>
        obtain ⟨hlevel, hkey⟩ := hsearch.found found hfound
        simp only [insert_step, hstep, hfound]
        exact .found hs rfl hlevel hkey
      | none =>
        simp only [insert_step, hstep, hfound]
        exact hstay rfl
  | fetch_add_entries ctx =>
    exact .same_levels hs (hs.quiet rfl rfl rfl hs.max_level) hok.tower rfl hnode
  | load_seed ctx => exact hstay rfl
  | store_seed ctx seed =>
    exact .same_levels hs (hs.quiet rfl rfl rfl hs.max_level) hok.tower rfl hnode
  | load_max_level ctx height =>
    simp only [insert_step]
    split
    · exact hstay rfl
    · exact hstay rfl
  | cas_max_level ctx height max_height =>
    simp only [insert_step] at hok ⊢
    split
    · rename_i hcas
      rw [if_pos hcas] at hok
      exact .same_levels hs (hs.quiet rfl rfl rfl hpc.2.2) hok.tower rfl hnode
    · split
      · exact hstay rfl
      · exact hstay rfl
  | alloc ctx height =>
    cases choice with
    | true => exact ⟨levels, hs, .panic⟩
    | false =>
      have hs' := hs.alloc (Node.write height call.key call.value)
      cases ctx with
      | some ctx => exact .same_levels hs hs' hok.tower (link_level_linked _ 0 ctx) hnode
      | none => exact .same_levels hs hs' hok.tower rfl hnode
  | search_again node level pc =>
    obtain ⟨hown, hpc⟩ := hpc
    have hkey := hown.search_key hfits
    cases hstep : search_step InternalKeyComparator s call.key pc with
    | next pc' =>
      simp only [insert_step, hkey, hstep]
      exact hstay rfl
    | done ctx =>
      have hsearch := search_step_ok hs hpc
      rw [hstep] at hsearch
      cases hfound : ctx.searched_node with
      | none =>
        simp only [insert_step, hkey, hstep, hfound]
        exact hstay (link_level_linked node level ctx)
      | some found =>
        cases level with
        | succ level =>
          simp only [insert_step, hkey, hstep, hfound]
          exact hstay (link_level_linked node (level + 1) ctx)
        | zero =>
          obtain ⟨hlevel, hkey'⟩ := hsearch.found found hfound
          simp only [insert_step, hkey, hstep, hfound]
          exact .found hs rfl hlevel hkey'
  | store_next node level ctx =>
    have hs' := hs.store (ctx.successors level) hpc.1.ne_sentinel
      (hpc.1.unlinked level (Nat.le_refl level))
    exact .same_levels hs hs' hok.tower rfl hnode
  | cas_next node level ctx =>
    by_cases hcas : s.next (ctx.predecessors level) level = ctx.successors level
    · have hlinkable := cas_next_linkable hs hfits hpc hcas
      simp only [insert_step, if_pos hcas]
      apply InsertDoes.link hs hfits hpc.1 hlinkable
      split
      · exact .inr ⟨ctx, rfl⟩
      · exact .inl rfl
    · simp only [insert_step, if_neg hcas]
      exact hstay rfl

end insert

section get

variable {s s' : SkipList} {levels : Nat → List NodePtr} {key : List Byte}

/-- What a running `get` knows. -/
def GetRunningOk (s : SkipList) (key : List Byte) : GetPc → Prop
  | .search pc => SearchOk InternalKeyComparator s key pc
  | .read found => ∀ node, found = some node → OnLevel s 0 node

def GetThreadOk (s : SkipList) (l : GetThread) : Prop :=
  ∀ key pc, l.running = some (key, pc) → GetRunningOk s key pc

/-- A step of a `get` is its start or one of its loads. -/
theorem get_step_cases {a : GetAct} {l l' : GetThread} (hstep : get_step a s l = some l') :
    (∃ key, a = .get key ∧ l.running = none ∧
      l' = { running := some (key, .search .load_max_level), returned := l.returned }) ∨
    ∃ key pc, a = .step ∧ l.running = some (key, pc) ∧
      l' = (get_load key s pc).elim
        (fun pc => { running := some (key, pc), returned := l.returned })
        fun result => { running := none, returned := l.returned ++ [(key, result)] } := by
  obtain ⟨running, returned⟩ := l
  cases a with
  | get key =>
    cases running with
    | none =>
      cases hstep
      exact .inl ⟨key, rfl, rfl, rfl⟩
    | some running => cases hstep
  | step =>
    obtain _ | ⟨key, pc⟩ := running
    · cases hstep
    · cases hstep
      refine .inr ⟨key, pc, rfl, rfl, ?_⟩
      cases get_load key s pc with
      | next | done => rfl

theorem GetThreadOk.grow (hs : Towers InternalKeyComparator s levels) (hgrows : Grows s s')
    {l : GetThread} (h : GetThreadOk s l) : GetThreadOk s' l := by
  intro key pc hrunning
  have hpc := h key pc hrunning
  cases pc with
  | search pc => exact SearchOk.grows hs hgrows hpc
  | read found => exact fun node hnode => hgrows.onLevel 0 node (hpc node hnode)

variable (hs : Towers InternalKeyComparator s levels) (hmax : 0 < s.max_level)

include hs hmax

theorem GetThreadOk.step {a : GetAct} {l l' : GetThread} (h : GetThreadOk s l)
    (hstep : get_step a s l = some l') : GetThreadOk s l' := by
  obtain ⟨key, rfl, -, rfl⟩ | ⟨key, pc, rfl, hrunning, rfl⟩ := get_step_cases hstep
  · rintro _ _ ⟨⟩
    exact True.intro
  · have hpc := h key pc hrunning
    cases pc with
    | search pc =>
      have hsearch := search_step_finds hs hmax hpc
      cases hnext : search_step InternalKeyComparator s key pc with
      | next pc' =>
        rw [hnext] at hsearch
        simp only [get_load, hnext]
        rintro _ _ ⟨⟩
        exact hsearch
      | done ctx =>
        rw [hnext] at hsearch
        simp only [get_load, hnext]
        rintro _ _ ⟨⟩
        exact fun node hnode => (hsearch.right node hnode).1
    | read found =>
      intro _ _ h
      cases h

/-- The last load of the search is the moment at which a `get` reads the entries. -/
theorem get_does [DecidableEq Tid] (t : Tid) {pc : GetPc} (hpc : GetRunningOk s key pc) :
    ordered_entries.Does (t, Role.reads) (get_pending s key pc) (pairs s (levels 0))
      (get_events t key (get_load key s pc))
      ((get_load key s pc).elim (get_pending s key) fun _ => .idle) (pairs s (levels 0)) := by
  cases pc with
  | search pc =>
    have hsearch := search_step_finds hs hmax hpc
    cases hnext : search_step InternalKeyComparator s key pc with
    | next pc' =>
      simp only [get_load, hnext]
      exact .stay
    | done ctx =>
      rw [hnext] at hsearch
      simp only [get_load, hnext]
      refine .take_effect ⟨rfl, ?_⟩
      rw [hs.find_pair hsearch]
      rfl
  | read found => exact .answer

end get

section runs

variable [DecidableEq Tid] {c : Config Tid SkipList (Observing InsertThread GetThread)}

theorem get_thread_ok (hc : (memtable_system Tid).ReachableUnder (underneath entries_fit) c)
    (t : Tid) : GetThreadOk c.shared (c.threads t).reads := by
  refine StepsUnder.observer (P := GetThreadOk) hc t (fun _ _ h => by cases h) ?_ ?_
  · intro e a reads reads' he hok hread
    have hreach : (skip_list_system InternalKeyComparator Tid).ReachableUnder keys_fit e :=
      ReachableUnder.mono keys_fit_of_entries_fit he
    obtain ⟨levels, hs⟩ := (insert_outline_holds hreach).shared
    exact hok.step hs (max_level_pos hreach) hread
  · intro e u a r reads he hG hr hok
    have hreach : (skip_list_system InternalKeyComparator Tid).ReachableUnder keys_fit e :=
      ReachableUnder.mono keys_fit_of_entries_fit he
    obtain ⟨levels, hs⟩ := (insert_outline_holds hreach).shared
    exact hok.grow hs (run_step_grows hreach (keys_fit_of_entries_fit u a _ _ hG) hr)

/-- What has taken effect stays as it is. -/
theorem memtable_pending_grows {s s' : SkipList} {levels : Nat → List NodePtr}
    (hs : Towers InternalKeyComparator s levels) (hgrows : Grows s s')
    {l : Observing InsertThread GetThread} (hown : ThreadOk InternalKeyComparator s l.own)
    (hreads : GetThreadOk s l.reads) (role : Role) :
    memtable_pending s' l role = memtable_pending s l role := by
  cases role with
  | inserts =>
    cases hrunning : l.own.running with
    | none => simp only [memtable_pending, hrunning, Option.elim_none]
    | some running =>
      obtain ⟨call, pc⟩ := running
      have hpc := (hown.running call pc hrunning).2
      simp only [memtable_pending, hrunning, Option.elim_some, insert_pending]
      cases hlinked : InsertPc.linked pc with
      | none => rfl
      | some node =>
        rw [Option.elim_some, Option.elim_some,
          hs.pair_eq hgrows (InsertOk.linked_onLevel hpc hlinked)]
  | reads =>
    cases hrunning : l.reads.running with
    | none => simp only [memtable_pending, hrunning, Option.elim_none]
    | some running =>
      obtain ⟨key, pc⟩ := running
      simp only [memtable_pending, hrunning, Option.elim_some]
      cases pc with
      | search pc => rfl
      | read found =>
        rw [get_pending, get_pending, entry_grows hs hgrows (hreads key (.read found) hrunning)]

omit [DecidableEq Tid] in
theorem skip_list_step_of_step {choice : Bool} {s : SkipList} {l : InsertThread}
    {r : SkipList × InsertThread}
    (hr : skip_list_step InternalKeyComparator (.step choice) s l = some r) :
    ∃ call pc, l.running = some (call, pc) ∧
      r.1 = (insert_step InternalKeyComparator call choice s pc).1 ∧
      r.2.running = (insert_step InternalKeyComparator call choice s pc).2.elim
        (fun pc => some (call, pc)) fun _ => none := by
  obtain ⟨_ | ⟨call, pc⟩, returned⟩ := l
  · cases hr
  · refine ⟨call, pc, rfl, ?_⟩
    simp only [skip_list_step, Option.some.injEq] at hr
    subst hr
    obtain ⟨s', pc' | _ | node⟩ := insert_step InternalKeyComparator call choice s pc
    · exact ⟨rfl, rfl⟩
    · exact ⟨rfl, rfl⟩
    · exact ⟨rfl, rfl⟩

section thread

variable {s : SkipList} {levels : Nat → List NodePtr} {l : Observing InsertThread GetThread}
  (t : Tid) (hs : Towers InternalKeyComparator s levels)

include hs

theorem insert_thread_does (hl : ThreadOk InternalKeyComparator s l.own) {a : InsertAct}
    {r : SkipList × InsertThread} (hr : skip_list_step InternalKeyComparator a s l.own = some r)
    (after : SkipList × Observing InsertThread GetThread) :
    ∃ levels', Towers InternalKeyComparator r.1 levels' ∧
      ordered_entries.Does (t, Role.inserts) (memtable_pending s l .inserts) (pairs s (levels 0))
        (memtable_events t (.own a) s l after)
        (memtable_pending r.1 { l with own := r.2 } .inserts) (pairs r.1 (levels' 0)) := by
  cases a with
  | start call =>
    obtain ⟨⟨_ | running, returned⟩, reads⟩ := l
    · cases hr
      refine ⟨levels, hs, ?_⟩
      cases call with
      | insert | insert_with => exact .call
    · cases hr
  | step choice =>
    obtain ⟨call, pc, hrunning, hshared, hnext⟩ := skip_list_step_of_step hr
    obtain ⟨hfits, hpc⟩ := hl.running call pc hrunning
    obtain ⟨levels', hs', hdoes⟩ := insert_does t hs hfits hpc choice
    rw [← hshared] at hs' hdoes
    refine ⟨levels', hs', ?_⟩
    simp only [memtable_pending, memtable_events, hrunning, hnext, Option.elim_some]
    cases hprogress : (insert_step InternalKeyComparator call choice s pc).2 with
    | next pc' =>
      rw [hprogress] at hdoes
      exact hdoes
    | done inserted =>
      rw [hprogress] at hdoes
      exact hdoes

theorem get_thread_does (hmax : 0 < s.max_level) (hl : GetThreadOk s l.reads) {a : GetAct}
    {reads : GetThread} (hr : get_step a s l.reads = some reads)
    (after : SkipList × Observing InsertThread GetThread) :
    ordered_entries.Does (t, Role.reads) (memtable_pending s l .reads) (pairs s (levels 0))
      (memtable_events t (.read a) s l after) (memtable_pending s { l with reads } .reads)
      (pairs s (levels 0)) := by
  obtain ⟨key, rfl, hidle, rfl⟩ | ⟨key, pc, rfl, hrunning, rfl⟩ := get_step_cases hr
  · simp only [memtable_pending, hidle, Option.elim_none, Option.elim_some]
    exact .call
  · have hdoes := get_does hs hmax t (hl key pc hrunning)
    simp only [memtable_pending, memtable_events, hrunning, Option.elim_some]
    cases hprogress : get_load key s pc with
    | next pc' =>
      rw [hprogress] at hdoes
      exact hdoes
    | done ret =>
      rw [hprogress] at hdoes
      exact hdoes

end thread

/-- Insertions and reads, a load or an exchange at a time, are calls of the ordered
entries. -/
theorem memtable_carries_out : (memtable_system Tid).CarriesOut (underneath entries_fit)
    ordered_entries memtable_events
    (fun s es => ∃ levels, Towers InternalKeyComparator s levels ∧ es = pairs s (levels 0))
    memtable_pending where
  init := ⟨_, towers_new InternalKeyComparator, rfl⟩
  idle := fun role => by
    cases role with
    | inserts | reads => rfl
  own := by
    rintro c t a r state hc hG hr ⟨levels, hs, rfl⟩
    have hbase : (skip_list_system InternalKeyComparator Tid).ReachableUnder keys_fit
      c.unobserved := (ReachableUnder.unobserved hc).mono keys_fit_of_entries_fit
    cases a with
    | own a =>
      obtain ⟨r, hr', rfl⟩ := Option.map_eq_some_iff.mp hr
      have hl := (insert_outline_holds hbase).thread t
      obtain ⟨levels', hs', hdoes⟩ := insert_thread_does t hs hl hr'
        (r.1, { c.threads t with own := r.2 })
      refine ⟨.inserts, _, ⟨levels', hs', rfl⟩, hdoes, ?_⟩
      rintro (_ | _) hother
      · exact absurd rfl hother
      · exact memtable_pending_grows hs
          (run_step_grows hbase (keys_fit_of_entries_fit t a _ _ hG) hr') hl
          (get_thread_ok hc t) .reads
    | read a =>
      obtain ⟨reads, hr', rfl⟩ := Option.map_eq_some_iff.mp hr
      have hdoes := get_thread_does t hs (max_level_pos hbase) (get_thread_ok hc t) hr'
        (c.shared, { c.threads t with reads })
      refine ⟨.reads, _, ⟨levels, hs, rfl⟩, hdoes, ?_⟩
      rintro (_ | _) hother
      · rfl
      · exact absurd rfl hother
  other := by
    intro c t a r hc hG hr u hu role
    have hbase : (skip_list_system InternalKeyComparator Tid).ReachableUnder keys_fit
      c.unobserved := (ReachableUnder.unobserved hc).mono keys_fit_of_entries_fit
    have hholds := insert_outline_holds hbase
    obtain ⟨levels, hs⟩ := hholds.shared
    cases a with
    | own a =>
      obtain ⟨r, hr', rfl⟩ := Option.map_eq_some_iff.mp hr
      exact memtable_pending_grows hs
        (run_step_grows hbase (keys_fit_of_entries_fit t a _ _ hG) hr') (hholds.thread u)
        (get_thread_ok hc u) role
    | read a =>
      obtain ⟨reads, -, rfl⟩ := Option.map_eq_some_iff.mp hr
      rfl

/-- Every history of insertions and reads is one of the ordered entries, which are
those of the base level. -/
theorem memtable_linearizable {c : Config Tid (SkipList × List (Event (Tid × Role) MemtableOp
    MemtableRet)) (Observing InsertThread GetThread × Unit)}
    (hc : (memtable_history Tid).ReachableUnder (forgetful (underneath entries_fit)) c) :
    ordered_entries.Linearizable c.shared.2 ∧ ∃ nodes, IsLevel c.shared.1 0 nodes ∧
      ordered_entries.Atomic (seen_as memtable_pending c (pairs c.shared.1 nodes)) := by
  obtain ⟨_, ⟨levels, hs, rfl⟩, hatomic⟩ := memtable_carries_out.atomic hc
  exact ⟨⟨_, hatomic, rfl⟩, levels 0, hs.chain 0, hatomic⟩

end runs

/-- A `get` that has loaded `max_level`, and two insertions of one key meanwhile. -/
def get_across_inserts (put lookup : List Byte) : List (Bool × ObservingAct InsertAct GetAct) :=
  (false, .read (.get lookup)) :: (false, .read .step) ::
    (true, .own (.start (.insert put [1]))) :: List.replicate 8 (true, .own (.step false)) ++
    (false, .own (.start (.insert_with put [2]))) ::
    List.replicate 8 (false, .own (.step false)) ++ List.replicate 3 (false, .read .step)

/-- What is seen of them: both insertions return the first value, which is read. -/
def seen_across_inserts (put lookup : List Byte) :
    List (Event (Bool × Role) MemtableOp MemtableRet) :=
  [.called (false, .reads) (.get lookup),
    .called (true, .inserts) (.insert put [1]),
    .returned (true, .inserts) (.insert put [1]) (.inserted (put, [1])),
    .called (false, .inserts) (.insert put [2]),
    .returned (false, .inserts) (.insert put [2]) (.inserted (put, [1])),
    .returned (false, .reads) (.get lookup) (.read (some (.Value [1])))]

theorem memtable_linearizable_across_inserts :
    ∃ c : Config Bool (SkipList × List (Event (Bool × Role) MemtableOp MemtableRet))
        (Observing InsertThread GetThread × Unit),
      (memtable_history Bool).ReachableUnder (forgetful (underneath entries_fit)) c ∧
      c.shared.2 = seen_across_inserts (key.encode [] 1 .Put) (key.encode [] 2 .Max) ∧
      ordered_entries.Linearizable c.shared.2 := by
  obtain ⟨c, hc, hseen⟩ := reachable_showing (memtable_history Bool)
    (forgetful (underneath entries_fit))
    (get_across_inserts (key.encode [] 1 .Put) (key.encode [] 2 .Max)) (fun c => c.shared.2)
    (seen_across_inserts (key.encode [] 1 .Put) (key.encode [] 2 .Max)) (by decide +kernel)
  exact ⟨c, hc, hseen, (memtable_linearizable hc).1⟩

end ordinum.memtable
