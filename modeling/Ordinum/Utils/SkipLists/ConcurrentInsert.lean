import Ordinum.Utils.SkipLists.Insert

open interleaving
open interleaving.System
open ordinum.key

namespace ordinum.mem_skip_list

variable {cmp : Comparator} {Tid : Type} [DecidableEq Tid]

def InsertThread.own (l : InsertThread) : Option NodePtr :=
  l.running.bind fun (_, pc) => pc.own

variable (cmp) in
/-- What a thread knows: its running insertion, and that the insertions it has
finished returned linked nodes with their keys. -/
structure ThreadOk (s : SkipList) (l : InsertThread) : Prop where
  running : ∀ call pc, l.running = some (call, pc) → call.KeyFits ∧ InsertOk cmp s call pc
  returned : ∀ call node, (call, node) ∈ l.returned →
    OnLevel s 0 node ∧ (s.nodes node).key = call.key

variable (cmp Tid) in
def insert_outline : Outline Tid SkipList InsertThread where
  shared := fun s => ∃ levels, Towers cmp s levels
  thread := fun _ s l => ThreadOk cmp s l
  apart := fun l m => ∀ node, l.own = some node → m.own ≠ some node

/-- Runs whose insertions meet the condition. -/
def inserts_of (P : InsertCall → Prop) : StepCondition Tid InsertAct SkipList InsertThread :=
  fun _ a _ _ => ∀ call, a = .start call → P call

/-- Runs on keys that a node can hold. -/
abbrev keys_fit : StepCondition Tid InsertAct SkipList InsertThread := inserts_of InsertCall.KeyFits

/-- Runs on keys and values that a node can hold. -/
abbrev entries_fit : StepCondition Tid InsertAct SkipList InsertThread := inserts_of InsertCall.Fits

omit [DecidableEq Tid] in
theorem keys_fit_of_entries_fit (t : Tid) (a : InsertAct) (s : SkipList) (l : InsertThread)
    (h : entries_fit t a s l) : keys_fit t a s l :=
  fun call ha => (h call ha).key

instance (call : InsertCall) : Decidable call.KeyFits :=
  inferInstanceAs (Decidable (_ < _))

instance (call : InsertCall) : Decidable call.Fits :=
  decidable_of_iff (call.KeyFits ∧ call.value.length < 2 ^ 32)
    ⟨fun h => ⟨h.1, h.2⟩, fun h => ⟨h.key, h.value⟩⟩

instance (P : InsertCall → Prop) [∀ call, Decidable (P call)] (t : Tid) (a : InsertAct)
    (s : SkipList) (l : InsertThread) : Decidable (inserts_of P t a s l) :=
  match a with
  | .start call =>
    decidable_of_iff (P call)
      ⟨fun h _ heq => InsertAct.start.inj heq ▸ h, fun h => h call rfl⟩
  | .step _ => .isTrue fun _ heq => by cases heq

/-- A step is the start of an insertion or one of its atomic accesses. -/
theorem skip_list_step_cases {a : InsertAct} {s : SkipList} {l : InsertThread}
    {r : SkipList × InsertThread} (hr : skip_list_step cmp a s l = some r) :
    (∃ call, a = .start call ∧ l.running = none ∧
      r = (s, { running := some (call, call.start), returned := l.returned })) ∨
    ∃ call pc choice, l.running = some (call, pc) ∧
      ((∃ pc', insert_step cmp call choice s pc = (r.1, .next pc') ∧
        r.2 = { running := some (call, pc'), returned := l.returned }) ∨
      ∃ inserted, insert_step cmp call choice s pc = (r.1, .done inserted) ∧
        r.2 = { running := none
                returned := l.returned ++ inserted.toList.map fun node => (call, node) }) := by
  obtain ⟨running, returned⟩ := l
  cases a with
  | start call =>
    cases running with
    | none =>
      cases hr
      exact .inl ⟨call, rfl, rfl, rfl⟩
    | some running => cases hr
  | step choice =>
    obtain _ | ⟨call, pc⟩ := running
    · cases hr
    · refine .inr ⟨call, pc, choice, rfl, ?_⟩
      simp only [skip_list_step, Option.some.injEq] at hr
      subst hr
      obtain ⟨s', pc' | _ | node⟩ := insert_step cmp call choice s pc
      · exact .inl ⟨pc', rfl, rfl⟩
      · exact .inr ⟨none, rfl, by simp⟩
      · exact .inr ⟨some node, rfl, by simp⟩

/-- An own node is allocated. -/
theorem InsertOk.own_allocated {s : SkipList} {call : InsertCall} {pc : InsertPc}
    (h : InsertOk cmp s call pc) {node : NodePtr} (hown : pc.own = some node) :
    node < s.allocated := by
  cases pc with
  | search_again | store_next | cas_next =>
    cases hown
    exact h.1.allocated
  | _ => cases hown

theorem start_own (call : InsertCall) : call.start.own = none := by
  cases call with
  | insert => rfl
  | insert_with => rfl

theorem InsertOk.start (s : SkipList) (call : InsertCall) : InsertOk cmp s call call.start := by
  cases call with
  | insert => trivial
  | insert_with => exact fun _ h => by cases h

/-- What an insertion returned stays what it is. -/
theorem ThreadOk.returned_grows {s s' : SkipList} {levels : Nat → List NodePtr}
    {l : InsertThread} (h : ThreadOk cmp s l) (hs : Towers cmp s levels) (hgrows : Grows s s')
    {call : InsertCall} {node : NodePtr} (hmem : (call, node) ∈ l.returned) :
    OnLevel s' 0 node ∧ (s'.nodes node).key = call.key := by
  obtain ⟨hlevel, hkey⟩ := h.returned call node hmem
  exact ⟨hgrows.onLevel 0 node hlevel, by rw [hs.nodes_eq hgrows hlevel, hkey]⟩

/-- Another thread's access does not interfere with a thread. -/
theorem ThreadOk.step {s s' : SkipList} {levels : Nat → List NodePtr} {own : Option NodePtr}
    {l : InsertThread} (h : ThreadOk cmp s l) (hs : Towers cmp s levels)
    (hstep : TowerStep cmp s own s') (hown : ∀ node, l.own = some node → own ≠ some node) :
    ThreadOk cmp s' l := by
  constructor
  · intro call pc hrunning
    obtain ⟨hfits, hpc⟩ := h.running call pc hrunning
    refine ⟨hfits, hpc.step hs hstep ?_⟩
    intro node hnode
    exact hown node (by rw [InsertThread.own, hrunning]; exact hnode)
  · intro call node hmem
    exact h.returned_grows hs (hstep.grows hs) hmem

theorem ThreadOk.own_allocated {s : SkipList} {l : InsertThread} (h : ThreadOk cmp s l)
    {node : NodePtr} (hown : l.own = some node) : node < s.allocated := by
  obtain ⟨⟨call, pc⟩, hrunning, hpc⟩ := Option.bind_eq_some_iff.mp hown
  exact (h.running call pc hrunning).2.own_allocated hpc

variable (cmp) in
/-- What one step of a thread does. -/
structure ThreadStepOk (s : SkipList) (l : InsertThread) (r : SkipList × InsertThread) :
    Prop where
  tower : TowerStep cmp s l.own r.1
  thread : ThreadOk cmp r.1 r.2
  own : ∀ node, r.2.own = some node → l.own = some node ∨ node = s.allocated
  released : ∀ node, l.own = some node → r.2.own ≠ some node → OnLevel r.1 0 node →
    ∀ level, level < (r.1.nodes node).height → OnLevel r.1 level node

theorem thread_step_ok {s : SkipList} {levels : Nat → List NodePtr} (hs : Towers cmp s levels)
    {l : InsertThread} (hl : ThreadOk cmp s l) {a : InsertAct} {r : SkipList × InsertThread}
    (hfits : ∀ call, a = .start call → call.KeyFits) (hr : skip_list_step cmp a s l = some r) :
    ThreadStepOk cmp s l r := by
  rcases skip_list_step_cases hr with ⟨call, rfl, hidle, rfl⟩ |
    ⟨call, pc, choice, hrunning, ⟨pc', hstep, hl'⟩ | ⟨inserted, hstep, hl'⟩⟩
  · have hown : InsertThread.own { running := some (call, call.start), returned := l.returned } =
        none := start_own call
    have hlown : l.own = none := by rw [InsertThread.own, hidle]; rfl
    refine ⟨.quiet rfl rfl rfl hs.max_level, ⟨?_, hl.returned⟩, ?_, ?_⟩
    · rintro _ _ ⟨⟩
      exact ⟨hfits call rfl, .start s call⟩
    · intro node hnode
      rw [hown] at hnode
      cases hnode
    · intro node hnode
      rw [hlown] at hnode
      cases hnode
  · obtain ⟨hcall, hpc⟩ := hl.running call pc hrunning
    have hok := insert_step_ok hs hcall hpc choice
    have hlown : l.own = pc.own := by rw [InsertThread.own, hrunning]; rfl
    have hown : r.2.own = pc'.own := by rw [hl']; rfl
    rw [hstep] at hok
    refine ⟨hlown ▸ hok.tower, ⟨?_, ?_⟩, ?_, ?_⟩
    · intro call' pc'' hrunning'
      rw [hl'] at hrunning'
      cases hrunning'
      exact ⟨hcall, hok.progress⟩
    · intro call' node hmem
      rw [hl'] at hmem
      exact hl.returned_grows hs (hok.tower.grows hs) hmem
    · intro node hnode
      rw [hown] at hnode
      obtain hsame | ⟨-, hnew⟩ := hok.own pc' rfl
      · exact .inl (by rw [hlown, ← hsame, hnode])
      · exact .inr (Option.some.inj (hnode.symm.trans hnew))
    · intro node hnode hleft
      rw [hlown] at hnode
      obtain hsame | ⟨hnone, -⟩ := hok.own pc' rfl
      · exact absurd (by rw [hown, hsame, hnode]) hleft
      · cases hnone.symm.trans hnode
  · obtain ⟨hcall, hpc⟩ := hl.running call pc hrunning
    have hok := insert_step_ok hs hcall hpc choice
    have hlown : l.own = pc.own := by rw [InsertThread.own, hrunning]; rfl
    have hown : r.2.own = none := by rw [hl']; rfl
    rw [hstep] at hok
    refine ⟨hlown ▸ hok.tower, ⟨?_, ?_⟩, ?_, ?_⟩
    · intro call' pc'' hrunning'
      rw [hl'] at hrunning'
      cases hrunning'
    · intro call' node hmem
      rw [hl', List.mem_append] at hmem
      obtain hmem | hmem := hmem
      · exact hl.returned_grows hs (hok.tower.grows hs) hmem
      · obtain ⟨node', hnode', heq⟩ := List.mem_map.mp hmem
        cases heq
        rw [Option.mem_toList] at hnode'
        obtain rfl : inserted = some node := hnode'
        exact hok.progress
    · intro node hnode
      rw [hown] at hnode
      cases hnode
    · intro node hnode _ hlinked
      exact (hok.released node inserted (hlown ▸ hnode) rfl hlinked).2

variable (cmp) in
theorem towers_new : Towers cmp .new fun _ => [] := by
  refine ⟨fun l => ?_, fun l => .nil, fun l => List.Subset.refl _, ?_, ?_, ?_⟩
  · exact ⟨rfl, rfl⟩
  · exact fun l n hn => absurd hn List.not_mem_nil
  · exact Nat.zero_lt_one
  · decide

omit [DecidableEq Tid] in
/-- The outline is kept by every access of every thread. -/
theorem insert_outline_valid : Outline.trivial.ValidOver (insert_outline cmp Tid)
    (skip_list_system cmp Tid) keys_fit where
  init_shared := ⟨_, towers_new cmp⟩
  init_thread := fun _ => ⟨fun _ _ h => (by cases h), fun _ _ h => absurd h List.not_mem_nil⟩
  init_apart := fun _ h => by cases h
  step_own := by
    rintro t a s l r - - ⟨levels, hs⟩ hl hG hr
    have hok := thread_step_ok hs hl hG hr
    obtain ⟨levels', hs', -⟩ := hs.step hok.tower
    exact ⟨⟨levels', hs'⟩, hok.thread⟩
  step_other := by
    rintro t u a s l m r - - ⟨⟨levels, hs⟩, hl, hm, hlm, hml⟩ hG hr
    have hok := thread_step_ok hs hl hG hr
    have happart : ∀ node, m.own = some node → r.2.own ≠ some node := by
      intro node hnode hown
      obtain hold | rfl := hok.own node hown
      · exact hml node hnode hold
      · exact Nat.lt_irrefl _ (hm.own_allocated hnode)
    refine ⟨hm.step hs hok.tower fun node hnode => hml node hnode, ?_, happart⟩
    exact fun node hown hnode => happart node hnode hown

section runs

variable {c d : Config Tid SkipList InsertThread}

theorem insert_outline_holds (hc : (skip_list_system cmp Tid).ReachableUnder keys_fit c) :
    (insert_outline cmp Tid).Holds c :=
  insert_outline_valid.holds_of_trivial hc

/-- The step of a thread in a run. -/
theorem run_step_ok (hc : (skip_list_system cmp Tid).ReachableUnder keys_fit c) {t : Tid}
    {a : InsertAct} {r : SkipList × InsertThread} (hG : keys_fit t a c.shared (c.threads t))
    (hr : skip_list_step cmp a c.shared (c.threads t) = some r) :
    ThreadStepOk cmp c.shared (c.threads t) r := by
  have hholds := insert_outline_holds hc
  obtain ⟨levels, hs⟩ := hholds.shared
  exact thread_step_ok hs (hholds.thread t) hG hr

/-- A linked node whose insertion has returned is linked on all its levels. -/
theorem linked_or_owned (hc : (skip_list_system cmp Tid).ReachableUnder keys_fit c)
    {node : NodePtr} (hnode : OnLevel c.shared 0 node) :
    (∀ level, level < (c.shared.nodes node).height → OnLevel c.shared level node) ∨
      ∃ t, (c.threads t).own = some node := by
  revert node
  refine System.ReachableUnder.induction (G := keys_fit) (P := fun c => ∀ {node : NodePtr},
    OnLevel c.shared 0 node →
      (∀ level, level < (c.shared.nodes node).height → OnLevel c.shared level node) ∨
        ∃ t, (c.threads t).own = some node) ?_ ?_ hc
  · intro node hnode
    exact absurd ((towers_new cmp).onLevel_iff.mp hnode) List.not_mem_nil
  · intro c t a r hreach ih hG hr node hnode
    obtain ⟨levels, hs⟩ := (insert_outline_holds hreach).shared
    have hok := run_step_ok hreach hG hr
    have hgrows := hok.tower.grows hs
    rw [Config.move_shared] at hnode ⊢
    by_cases hown : r.2.own = some node
    · exact .inr ⟨t, by rw [Config.move_threads_self, hown]⟩
    obtain hold | hlinked := hok.tower.onLevel_or hs hnode
    · obtain hall | ⟨u, hu⟩ := ih hold
      · refine .inl fun level hlevel => hgrows.onLevel level node (hall level ?_)
        rwa [hs.nodes_eq hgrows hold] at hlevel
      · by_cases hut : u = t
        · subst hut
          exact .inl (hok.released node hu hown hnode)
        · exact .inr ⟨u, by rw [c.move_threads_of_ne r hut, hu]⟩
    · exact .inl (hok.released node hlinked hown hnode)

/-- Runs take nothing back. -/
theorem run_grows (hc : (skip_list_system cmp Tid).ReachableUnder keys_fit c)
    (hsteps : (skip_list_system cmp Tid).StepsUnder keys_fit c d) : Grows c.shared d.shared := by
  refine System.StepsUnder.related (R := fun c d => Grows c.shared d.shared) ?_ ?_ hc hsteps ?_
  · exact fun c => .refl c.shared
  · exact fun c d e => .trans
  · intro c t a r hreach hG hr
    obtain ⟨levels, hs⟩ := (insert_outline_holds hreach).shared
    exact (run_step_ok hreach hG hr).tower.grows hs

end runs

/-- What holds of the list in every state, for every later state. -/
structure InsertsSafe (cmp : Comparator) (sys : System Tid InsertAct SkipList InsertThread)
    (c : Config Tid SkipList InsertThread) : Prop where
  sorted : ∃ xs, IsLevel c.shared 0 xs ∧ xs.Pairwise (KeyLt cmp c.shared)
  sublist : ∀ level, ∃ xs ys, IsLevel c.shared (level + 1) xs ∧ IsLevel c.shared level ys ∧
    xs.Sublist ys
  stays : ∀ d, sys.StepsUnder entries_fit c d → ∀ level node, OnLevel c.shared level node →
    OnLevel d.shared level node ∧ d.shared.nodes node = c.shared.nodes node
  returned : ∀ t call node, (call, node) ∈ (c.threads t).returned →
    OnLevel c.shared 0 node ∧ (c.shared.nodes node).key = call.key
  complete : (∀ t, (c.threads t).running = none) → ∀ level node, OnLevel c.shared level node →
    ∀ level', level' < (c.shared.nodes node).height → OnLevel c.shared level' node

theorem concurrent_inserts (cmp : Comparator) {c : Config Tid SkipList InsertThread}
    (hreach : (skip_list_system cmp Tid).ReachableUnder entries_fit c) :
    InsertsSafe cmp (skip_list_system cmp Tid) c := by
  have hc := hreach.mono keys_fit_of_entries_fit
  have hholds := insert_outline_holds hc
  obtain ⟨levels, hs⟩ := hholds.shared
  refine ⟨⟨levels 0, hs.chain 0, hs.sorted 0⟩, ?_, ?_, ?_, ?_⟩
  · exact fun level => ⟨_, _, hs.chain (level + 1), hs.chain level, hs.sublist level⟩
  · intro d hsteps level node hnode
    have hgrows := run_grows hc (hsteps.mono keys_fit_of_entries_fit)
    exact ⟨hgrows.onLevel level node hnode, hs.nodes_eq hgrows hnode⟩
  · exact fun t => (hholds.thread t).returned
  · intro hidle level node hnode
    obtain hall | ⟨t, ht⟩ := linked_or_owned hc (hs.onLevel_of_le (Nat.zero_le level) hnode)
    · exact hall
    · rw [InsertThread.own, hidle t] at ht
      cases ht

/-- Two threads own a node for one key; the exchange of the second fails, and it
returns the node of the first. -/
theorem concurrent_inserts_same_key :
    ∃ c, (skip_list_system DefaultComparator Bool).ReachableUnder entries_fit c ∧
      ((c.threads true).returned, (c.threads false).returned) =
        ([(.insert [5#8] [1#8], 2)], [(.insert_with [5#8] [2#8], 2)]) ∧
      InsertsSafe DefaultComparator (skip_list_system DefaultComparator Bool) c := by
  obtain ⟨c, hc, hreturned⟩ := reachable_showing (skip_list_system DefaultComparator Bool) entries_fit
    ([(true, .start (.insert [5#8] [1#8])), (false, .start (.insert_with [5#8] [2#8]))] ++
      List.replicate 7 (true, .step false) ++ List.replicate 8 (false, .step false) ++
      List.replicate 4 (true, .step false))
    (fun c => ((c.threads true).returned, (c.threads false).returned))
    ([(.insert [5#8] [1#8], 2)], [(.insert_with [5#8] [2#8], 2)]) (by decide +kernel)
  exact ⟨c, hc, hreturned, concurrent_inserts DefaultComparator hc⟩

end ordinum.mem_skip_list
