import Ordinum.Utils.SkipLists.InsertAlone

open interleaving interleaving.System
open ordinum.key ordinum.utils

namespace ordinum.mem_skip_list

variable {cmp : Comparator} {Tid : Type} [DecidableEq Tid]
  {c : Config Tid SkipList InsertThread}

section alone

/-- Only thread `t` moves, none of its exchanges fails without a reason and the
arena has room. -/
def only (t : Tid) : StepCondition Tid InsertAct SkipList InsertThread := fun u a _ _ =>
  u = t ∧ a = .step false

/-- The steps of an insertion that runs alone are steps of its thread. -/
theorem alone_steps {call : InsertCall} {t : Tid} {s s' : SkipList}
    {progress : Progress InsertPc Inserted} {inserted : Inserted}
    (h : Finishes (insert_step cmp call false) s progress s' inserted) :
    ∀ (c : Config Tid SkipList InsertThread) pc, progress = .next pc → c.shared = s →
      (c.threads t).running = some (call, pc) →
      ∃ d, (skip_list_system cmp Tid).StepsUnder (only t) c d ∧
        (d.threads t).running = none ∧ (d.threads t).returned =
          (c.threads t).returned ++ inserted.toList.map fun node => (call, node) := by
  induction h with
  | done => exact fun _ _ h => by cases h
  | @next s pc s' result hrest ih =>
    rintro c _ ⟨⟩ rfl hrunning
    have hfire : ∀ r, skip_list_step cmp (.step false) c.shared (c.threads t) = some r →
        (skip_list_system cmp Tid).StepUnder (only t) c (c.move t r) := fun r hr =>
      ⟨t, .step false, r, ⟨rfl, rfl⟩, hr, rfl⟩
    have hthread : c.threads t = { running := some (call, pc), returned := (c.threads t).returned } := by
      rw [← hrunning]
    rcases hstep : insert_step cmp call false c.shared pc with ⟨s₁, pc' | inserted⟩
    · let l' : InsertThread :=
        { running := some (call, pc'), returned := (c.threads t).returned }
      have hr : skip_list_step cmp (.step false) c.shared (c.threads t) = some (s₁, l') := by
        rw [hthread]
        simp only [skip_list_step, hstep, l']
      simp only [hstep] at ih
      obtain ⟨d, hsteps, hd⟩ := ih (c.move t (s₁, l')) pc' rfl rfl (by rw [Config.move_threads_self])
      rw [Config.move_threads_self] at hd
      exact ⟨d, .head (hfire _ hr) hsteps, hd⟩
    · let l' : InsertThread :=
        { running := none
          returned := (c.threads t).returned ++ inserted.toList.map fun node => (call, node) }
      have hr : skip_list_step cmp (.step false) c.shared (c.threads t) = some (s₁, l') := by
        rw [hthread]
        cases hinserted : inserted with
        | none => simp [skip_list_step, hstep, l', hinserted]
        | some node => simp [skip_list_step, hstep, l', hinserted]
      rw [hstep] at hrest
      cases hrest
      refine ⟨c.move t (s₁, l'), .single (hfire _ hr), ?_⟩
      rw [Config.move_threads_self]
      exact ⟨rfl, rfl⟩

/-- In every state of a run, a thread that goes on alone returns a node. -/
theorem returns_alone (hc : (skip_list_system cmp Tid).ReachableUnder keys_fit c) {t : Tid}
    {call : InsertCall} {pc : InsertPc} (hrunning : (c.threads t).running = some (call, pc)) :
    ∃ d node, (skip_list_system cmp Tid).StepsUnder (only t) c d ∧
      (d.threads t).running = none ∧
      (d.threads t).returned = (c.threads t).returned ++ [(call, node)] := by
  have hholds := insert_outline_holds hc
  have hheights := (heights_outline_valid cmp).holds_of_trivial hc
  obtain ⟨hfits, hpc⟩ := (hholds.thread t).running call pc hrunning
  obtain ⟨s', node, hfinishes⟩ := insert_ends ⟨hholds.shared, hfits, hpc, hheights.shared,
    hheights.thread t call pc hrunning⟩
  obtain ⟨d, hsteps, hd⟩ := alone_steps hfinishes c pc rfl rfl hrunning
  exact ⟨d, node, hsteps, hd⟩

end alone

section history

/-- The first insertion of its key returned the node, which holds what it was
given. -/
def FirstInsert (s : SkipList) (returned : List (InsertCall × NodePtr)) (node : NodePtr) : Prop :=
  ∃ before call after, returned = before ++ (call, node) :: after ∧
    (∀ e ∈ before, e.1.key ≠ call.key) ∧
    s.nodes node = Node.write (s.nodes node).height call.key call.value

/-- A list and the insertions that one thread has made into it. -/
structure HistoryOk (c : Config Unit SkipList InsertThread) : Prop where
  first : ∀ node, OnLevel c.shared 0 node →
    (c.threads ()).own = some node ∨ FirstInsert c.shared (c.threads ()).returned node
  fresh : ∀ call node, (call, node) ∈ (c.threads ()).returned → (c.threads ()).own ≠ some node

theorem FirstInsert.append {s s' : SkipList} {returned more : List (InsertCall × NodePtr)}
    {node : NodePtr} (h : FirstInsert s returned node) (hnode : s'.nodes node = s.nodes node) :
    FirstInsert s' (returned ++ more) node := by
  obtain ⟨before, call, after, hreturned, hbefore, hwritten⟩ := h
  refine ⟨before, call, after ++ more, ?_, hbefore, by rw [hnode]; exact hwritten⟩
  rw [hreturned, List.append_assoc, List.cons_append]

/-- The own node holds what its insertion was given. -/
theorem InsertOk.own_written {s : SkipList} {call : InsertCall} {pc : InsertPc}
    (h : InsertOk cmp s call pc) {node : NodePtr} (hown : pc.own = some node) :
    s.nodes node = Node.write (s.nodes node).height call.key call.value := by
  cases pc with
  | search_again | store_next | cas_next =>
    cases hown
    exact h.1.written
  | _ => cases hown

theorem history_ok {c : Config Unit SkipList InsertThread}
    (hc : (skip_list_system cmp Unit).ReachableUnder keys_fit c) : HistoryOk c := by
  refine System.ReachableUnder.induction (G := keys_fit) (P := HistoryOk) ?_ ?_ hc
  · refine ⟨fun node hnode => ?_, fun _ _ h => absurd h List.not_mem_nil⟩
    exact absurd ((towers_new cmp).onLevel_iff.mp hnode) List.not_mem_nil
  · rintro c ⟨⟩ a r hreach ⟨hfirst, hfresh⟩ hG hr
    have hholds := insert_outline_holds hreach
    obtain ⟨levels, hs⟩ := hholds.shared
    have hl := hholds.thread ()
    have hok := run_step_ok hreach hG hr
    have hgrows := hok.tower.grows hs
    rcases skip_list_step_cases hr with ⟨call, rfl, hidle, rfl⟩ |
      ⟨call, pc, choice, hrunning, ⟨pc', hstep, hl'⟩ | ⟨inserted, hstep, hl'⟩⟩
    · have hown : (c.threads ()).own = none := by rw [InsertThread.own, hidle]; rfl
      refine ⟨fun node hnode => .inr ?_, fun call' node _ hnode => ?_⟩
      · refine (hfirst node hnode).resolve_left fun h => ?_
        cases hown.symm.trans h
      · rw [Config.move_threads_self] at hnode
        cases (start_own call).symm.trans hnode
    · obtain ⟨hcall, hpc⟩ := hl.running call pc hrunning
      have hown := (insert_step_ok hs hcall hpc choice).own pc' (by rw [hstep])
      have hlown : (c.threads ()).own = pc.own := by rw [InsertThread.own, hrunning]; rfl
      have hrown : r.2.own = pc'.own := by rw [hl']; rfl
      -- a thread that runs on keeps its node
      have hkeeps : ∀ node, (c.threads ()).own = some node → r.2.own = some node := by
        intro node hnode
        rw [hlown] at hnode
        obtain hsame | ⟨hnone, -⟩ := hown
        · rw [hrown, hsame, hnode]
        · cases hnone.symm.trans hnode
      constructor
      · intro node hnode
        rw [Config.move_threads_self]
        obtain hold | hlinked := hok.tower.onLevel_or hs hnode
        · refine (hfirst node hold).imp (hkeeps node) fun h => ?_
          rw [hl', ← List.append_nil (c.threads ()).returned]
          exact h.append (hs.nodes_eq hgrows hold)
        · exact .inl (hkeeps node hlinked)
      · intro call' node hmem hnode
        rw [Config.move_threads_self] at hmem hnode
        rw [hl'] at hmem
        obtain hold | rfl := hok.own node hnode
        · exact hfresh call' node hmem hold
        · exact Nat.lt_irrefl _ (hs.allocated (hl.returned call' _ hmem).1)
    · obtain ⟨hcall, hpc⟩ := hl.running call pc hrunning
      have hinsert := insert_step_ok hs hcall hpc choice
      rw [hstep] at hinsert
      have hlown : (c.threads ()).own = pc.own := by rw [InsertThread.own, hrunning]; rfl
      refine ⟨fun node hnode => .inr ?_, fun call' node _ hnode => ?_⟩
      · rw [Config.move_shared, Config.move_threads_self, hl']
        by_cases hown : (c.threads ()).own = some node
        · rw [hlown] at hown
          obtain ⟨rfl, -⟩ := hinsert.released node inserted hown rfl hnode
          refine ⟨(c.threads ()).returned, call, [], rfl, ?_, ?_⟩
          · rintro ⟨call', node'⟩ hmem hkey
            obtain ⟨hlevel, hkey'⟩ := hl.returned call' node' hmem
            obtain ⟨levels', hs', -⟩ := hs.step hinsert.tower
            have hsame : node' = node := by
              apply hs'.eq_of_key (hgrows.onLevel 0 node' hlevel) hnode
              rw [hs.nodes_eq hgrows hlevel, hkey', hkey]
              exact hinsert.progress.2.symm
            exact hfresh call' node' hmem (by rw [hlown, hown, hsame])
          · rw [hgrows.nodes node (hpc.own_allocated hown)]
            exact hpc.own_written hown
        · have hold := (hok.tower.onLevel_or hs hnode).resolve_right hown
          exact ((hfirst node hold).resolve_left hown).append (hs.nodes_eq hgrows hold)
      · rw [Config.move_threads_self, hl'] at hnode
        cases hnode

end history

end ordinum.mem_skip_list
