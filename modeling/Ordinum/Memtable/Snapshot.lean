import Ordinum.Interleaving.Observer
import Ordinum.Memtable.Memtable
import Ordinum.Utils.SkipLists.ConcurrentSearch
import Ordinum.Utils.SkipLists.SequentialInsert

open interleaving interleaving.System
open ordinum.key ordinum.mem_skip_list ordinum.utils

namespace ordinum.memtable

/-- Program points of `get`: before a load of its search, and before it reads the
entry that the search found. -/
inductive GetPc where
  | search (pc : SearchPc)
  | read (found : Option NodePtr)

/-- The entry of a node. -/
def entry (s : SkipList) (found : Option NodePtr) : Option (List Byte × List Byte) :=
  found.map fun node => ((s.nodes node).key, (s.nodes node).value)

/-- What `get` returns for the entry that `first_ge` found; `none` is a panic. -/
def get_return (key : List Byte) : Option (List Byte × List Byte) → Option MemReturn
  | none => some .NotFound
  | some (skip_key, v) =>
    let sk := InternalKeyRef.from_key skip_key
    let lookup := InternalKeyRef.from_key key
    if sk.user_key ≠ lookup.user_key then some .NotFound
    else match InternalKeyKind.try_from sk.op with
      | .ok kind => MemReturn.of_kind v kind
      | .error _ => none

/-- One load of `get`. -/
def get_load (key : List Byte) (s : SkipList) : GetPc → Progress GetPc (Option MemReturn)
  | .search pc =>
    match search_step InternalKeyComparator s key pc with
    | .next pc => .next (.search pc)
    | .done ctx => .next (.read (ctx.successors 0))
  | .read found => .done (get_return key (entry s found))

/-- A thread with its running `get`; `returned` is the history of the results. -/
structure GetThread where
  running : Option (List Byte × GetPc)
  returned : List (List Byte × Option MemReturn)

inductive GetAct where
  | get (key : List Byte)
  | step
  deriving DecidableEq, Repr

def get_step : GetAct → SkipList → GetThread → Option GetThread
  | .get key, _, { running := none, returned } =>
    some { running := some (key, .search .load_max_level), returned }
  | .step, s, { running := some (key, pc), returned } =>
    some (match get_load key s pc with
      | .next pc => { running := some (key, pc), returned }
      | .done result => { running := none, returned := returned ++ [(key, result)] })
  | _, _, _ => none

/-- Any number of threads that read and insert into one memtable. -/
def memtable_system (Tid : Type) :
    System Tid (ObservingAct InsertAct GetAct) SkipList (Observing InsertThread GetThread) :=
  (skip_list_system InternalKeyComparator Tid).observed { running := none, returned := [] } get_step

/-- A call of `get` that leaves the list as it is. -/
def get_alone (key : List Byte) (s : SkipList) (pc : GetPc) :
    SkipList × Progress GetPc (Option MemReturn) :=
  (s, get_load key s pc)

variable {s s' : SkipList} {levels : Nat → List NodePtr} {user_key k : List Byte}
  {snapshot : BitVec 64} {found found' : Option NodePtr}

theorem get_eq (fuel : Nat) (s : SkipList) (k : List Byte) :
    get fuel s k = (first_ge fuel s k).bind (get_return k) := by
  rw [get]
  congr 1

/-- An entry that no read of the user key at the snapshot may see. -/
def NotSeen (user_key : List Byte) (snapshot : BitVec 64) (key : List Byte) : Prop :=
  TRAILER_LEN ≤ key.length ∧ ((InternalKeyRef.from_key key).user_key ≠ user_key ∨
    snapshot.toNat < (InternalKeyRef.from_key key).seq_no.toNat)

instance (key : List Byte) : Decidable (NotSeen user_key snapshot key) :=
  inferInstanceAs (Decidable (_ ∧ _))

/-- Of the encoded keys these are the ones of other user keys and the newer ones. -/
theorem notSeen_encode (other : List Byte) {seq_no : BitVec 64} (hseq : seq_no.toNat < 2 ^ 56)
    (kind : InternalKeyKind) : NotSeen user_key snapshot (key.encode other seq_no kind) ↔
      other ≠ user_key ∨ snapshot.toNat < seq_no.toNat := by
  rw [NotSeen, from_key_encode other kind hseq, key.encode, List.length_append, encode_trailer,
    wire.length_to_be_bytes]
  exact and_iff_right (Nat.le_add_left _ _)

/-- While the snapshot is read, what is inserted is an internal key of another
user key or newer than the snapshot. -/
def newer_inserts (Tid : Type) (user_key : List Byte) (snapshot : BitVec 64) :
    StepCondition Tid InsertAct SkipList InsertThread := fun _ a _ _ =>
  ∀ call, a = .start call → call.Fits ∧ NotSeen user_key snapshot call.key

section order

theorem split_trailer_length (h : TRAILER_LEN ≤ k.length) : (split_trailer k).2.length = 8 := by
  rw [split_trailer, List.splitAt_eq, List.length_drop]
  change 8 ≤ k.length at h
  change k.length - (k.length - 8) = 8
  omega

/-- A newer entry of the user key is left of the lookup key. -/
theorem NotSeen.left (hsnapshot : snapshot.toNat < 2 ^ 56) (h : NotSeen user_key snapshot k)
    (huser : (InternalKeyRef.from_key k).user_key = user_key) :
    InternalKeyComparator.compare k (key.encode user_key snapshot .Max) = .lt := by
  obtain ⟨hlength, hcase⟩ := h
  have hnewer := hcase.resolve_left (not_not_intro huser)
  have hsplit := split_trailer_length hlength
  change (split_trailer k).1 = user_key at huser
  generalize htrailer : (split_trailer k).2 = trailer at hsplit
  have hself : compare user_key user_key = .eq := Std.ReflCmp.compare_self
  have hbytes := wire.to_be_bytes_from_be_bytes (w := 64) trailer (by rw [hsplit])
  rw [hsplit] at hbytes
  have hword : snapshot.toNat < (wire.from_be_bytes 64 trailer).toNat / 2 ^ 8 := by
    rw [← Nat.shiftRight_eq_div_pow, ← BitVec.toNat_ushiftRight, ← htrailer]
    exact hnewer
  have hmax : InternalKeyKind.Max.to_u8.toNat = 255 := rfl
  have hcompare : compare (encode_trailer snapshot .Max) trailer = .lt := by
    rw [← hbytes, encode_trailer, wire.compare_to_be_bytes 8 (BitVec.isLt _) (BitVec.isLt _),
      pack_trailer_toNat hsnapshot, hmax, Nat.compare_eq_lt]
    omega
  simp only [InternalKeyComparator, compare_internal_keys, split_trailer_encode, huser, htrailer,
    hself, hcompare]

/-- What is not left of the lookup key and left of an entry of its user key is an
entry of its user key. -/
theorem user_key_between {a b : List Byte}
    (hright : InternalKeyComparator.compare a (key.encode user_key snapshot .Max) ≠ .lt)
    (hleft : InternalKeyComparator.compare a b = .lt)
    (huser : (InternalKeyRef.from_key b).user_key = user_key) :
    (InternalKeyRef.from_key a).user_key = user_key := by
  change (split_trailer b).1 = user_key at huser
  change (split_trailer a).1 = user_key
  simp only [InternalKeyComparator, compare_internal_keys, split_trailer_encode] at hright hleft
  rw [huser] at hleft
  cases hcompare : compare (split_trailer a).1 user_key with
  | lt => exact absurd (by rw [hcompare]) hright
  | eq => exact Std.LawfulEqCmp.eq_of_compare hcompare
  | gt =>
    rw [hcompare] at hleft
    cases hleft

end order

section answer

/-- Nodes that stay are read as they were. -/
theorem entry_grows (hs : Towers InternalKeyComparator s levels) (hgrows : Grows s s')
    (hfound : ∀ node, found = some node → OnLevel s 0 node) : entry s' found = entry s found := by
  cases found with
  | none => rfl
  | some node => rw [entry, entry, Option.map_some, Option.map_some, hs.nodes_eq hgrows (hfound node rfl)]

/-- An entry of another user key is no answer. -/
theorem get_return_other {node : NodePtr} (hsnapshot : snapshot.toNat < 2 ^ 56)
    (huser : (InternalKeyRef.from_key (s.nodes node).key).user_key ≠ user_key) :
    get_return (key.encode user_key snapshot .Max) (entry s (some node)) = some .NotFound := by
  rw [entry, Option.map_some, get_return, from_key_encode user_key .Max hsnapshot]
  exact if_pos huser

/-- Entries that are not seen leave the answer as it is, wherever they come in. -/
theorem get_return_stable (hsnapshot : snapshot.toNat < 2 ^ 56)
    (hs : Towers InternalKeyComparator s levels) (hgrows : Grows s s')
    (hnew : ∀ node, OnLevel s' 0 node →
      OnLevel s 0 node ∨ NotSeen user_key snapshot (s'.nodes node).key)
    (hfound : FirstFrom InternalKeyComparator s (key.encode user_key snapshot .Max) found)
    (hfound' : FirstFrom InternalKeyComparator s' (key.encode user_key snapshot .Max) found') :
    get_return (key.encode user_key snapshot .Max) (entry s' found') =
      get_return (key.encode user_key snapshot .Max) (entry s found) := by
  -- what was found before is still there, and not left of what is found now
  have hold : ∀ y, found = some y → OnLevel s' 0 y ∧ ∃ x, found' = some x ∧
      (y = x ∨ KeyLt InternalKeyComparator s' x y) := by
    intro y hy
    obtain ⟨hlevel, hright⟩ := hfound.right y hy
    have hlevel' := hgrows.onLevel 0 y hlevel
    refine ⟨hlevel', (hfound'.first y hlevel').resolve_left ?_⟩
    rwa [hs.nodes_eq hgrows hlevel]
  rw [← entry_grows hs hgrows fun y hy => (hfound.right y hy).1]
  cases hx : found' with
  | none =>
    cases hy : found with
    | none => rfl
    | some y =>
      obtain ⟨-, x, hx', -⟩ := hold y hy
      cases hx.symm.trans hx'
  | some x =>
    obtain ⟨hlevel, hright⟩ := hfound'.right x hx
    by_cases huser : (InternalKeyRef.from_key (s'.nodes x).key).user_key = user_key
    · -- an entry of the user key was there before, and was the first then
      have hbefore := (hnew x hlevel).resolve_right fun h => hright (h.left hsnapshot huser)
      have hkey := hs.nodes_eq hgrows hbefore
      rw [hkey] at hright
      obtain ⟨y, hy, hcase⟩ := (hfound.first x hbefore).resolve_left hright
      obtain ⟨-, x', hx', hcase'⟩ := hold y hy
      obtain rfl := Option.some.inj (hx.symm.trans hx')
      obtain rfl | hlt := hcase
      · rw [hy]
      · obtain rfl | hlt' := hcase'
        · rw [hy]
        · rw [KeyLt, ← hs.nodes_eq hgrows (hfound.right y hy).1, ← hkey] at hlt
          exact absurd (InternalKeyComparator.lt_trans hlt hlt') (InternalKeyComparator.lt_irrefl _)
    · rw [get_return_other hsnapshot huser]
      cases hy : found with
      | none => rfl
      | some y =>
        obtain ⟨-, x', hx', hcase⟩ := hold y hy
        obtain rfl := Option.some.inj (hx.symm.trans hx')
        refine (get_return_other hsnapshot fun hother => huser ?_).symm
        obtain rfl | hlt := hcase
        · exact hother
        · exact user_key_between hright hlt hother

end answer

section alone

/-- A search that goes on well, or has found the first node from its key on. -/
def Finds (s : SkipList) (k : List Byte) : Progress SearchPc TraversalCtx → Prop
  | .next pc => SearchOk InternalKeyComparator s k pc
  | .done ctx => FirstFrom InternalKeyComparator s k (ctx.successors 0)

variable (hs : Towers InternalKeyComparator s levels) (hmax : 0 < s.max_level)

include hs hmax

theorem search_step_finds {pc : SearchPc} (hpc : SearchOk InternalKeyComparator s k pc) :
    Finds s k (search_step InternalKeyComparator s k pc) := by
  have hnext := search_step_ok hs hpc
  cases hstep : search_step InternalKeyComparator s k pc with
  | next pc' =>
    rw [hstep] at hnext
    exact hnext
  | done ctx => exact search_step_done hs hmax hpc hstep

/-- A search that runs alone ends with the first node from its key on. -/
theorem search_finds {pc : SearchPc} (hpc : SearchOk InternalKeyComparator s k pc) :
    ∃ ctx, Finishes (search_alone InternalKeyComparator k) s (.next pc) s ctx ∧
      FirstFrom InternalKeyComparator s k (ctx.successors 0) := by
  obtain ⟨ctx, hfinishes, -⟩ := search_ends hs hpc
  refine ⟨ctx, hfinishes, ?_⟩
  have hkeeps := hfinishes.keeps (P := fun s' progress => s' = s ∧ Finds s k progress) ?_ ⟨rfl, hpc⟩
  · exact hkeeps.2
  · rintro _ pc ⟨rfl, hpc⟩
    exact ⟨rfl, search_step_finds hs hmax hpc⟩

/-- A `get` that goes on alone from its search returns what it finds. -/
theorem get_finishes {pc : SearchPc} (hpc : SearchOk InternalKeyComparator s k pc) :
    ∃ found, FirstFrom InternalKeyComparator s k found ∧
      Finishes (get_alone k) s (.next (.search pc)) s (get_return k (entry s found)) := by
  obtain ⟨ctx, hsearch, hfound⟩ := search_finds hs hmax hpc
  refine ⟨ctx.successors 0, hfound, ?_⟩
  refine Finishes.call (get_alone k) GetPc.search (fun ctx => .next (.read (ctx.successors 0)))
    (P := fun _ => True) (fun _ _ _ => trivial) ?_ trivial hsearch (.next .done)
  intro s pc _
  rw [get_alone, get_load, search_alone]
  cases search_step InternalKeyComparator s k pc with
  | next | done => rfl

/-- The result of a `get` that runs alone. -/
theorem get_runs (k : List Byte) : ∃ found, FirstFrom InternalKeyComparator s k found ∧
    ∃ enough, ∀ fuel, enough ≤ fuel → get fuel s k = get_return k (entry s found) := by
  obtain ⟨ctx, hsearch, hfound⟩ := search_finds hs hmax
    (show SearchOk InternalKeyComparator s k .load_max_level from trivial)
  obtain ⟨enough, hrun⟩ := hsearch.run_alone _ rfl
  refine ⟨ctx.successors 0, hfound, enough, fun fuel hfuel => ?_⟩
  rw [get_eq, first_ge, hrun fuel hfuel]
  rfl

end alone

section runs

variable {Tid : Type} [DecidableEq Tid] {b e : Config Tid SkipList InsertThread}

/-- Every insertion that runs, and every node that has been linked since `b`, is
not seen. -/
structure OnlyNewer (user_key : List Byte) (snapshot : BitVec 64)
    (b e : Config Tid SkipList InsertThread) : Prop where
  running : ∀ t call pc, (e.threads t).running = some (call, pc) →
    NotSeen user_key snapshot call.key
  linked : ∀ node, OnLevel e.shared 0 node →
    OnLevel b.shared 0 node ∨ NotSeen user_key snapshot (e.shared.nodes node).key

omit [DecidableEq Tid] in
theorem keys_fit_of_newer (t : Tid) (a : InsertAct) (s : SkipList) (l : InsertThread)
    (h : newer_inserts Tid user_key snapshot t a s l) : keys_fit t a s l :=
  fun call ha => (h call ha).1.key

/-- A step links at most the node of a running insertion. -/
theorem OnlyNewer.step (hb : OnlyNewer user_key snapshot b e)
    (he : (skip_list_system InternalKeyComparator Tid).ReachableUnder keys_fit e) {t : Tid}
    {a : InsertAct} {r : SkipList × InsertThread}
    (hG : newer_inserts Tid user_key snapshot t a e.shared (e.threads t))
    (hr : skip_list_step InternalKeyComparator a e.shared (e.threads t) = some r) :
    OnlyNewer user_key snapshot b (e.move t r) := by
  have hholds := insert_outline_holds he
  obtain ⟨levels, hs⟩ := hholds.shared
  have hok := run_step_ok he (keys_fit_of_newer t a _ _ hG) hr
  have hgrows := hok.tower.grows hs
  constructor
  · intro u call pc hrunning
    by_cases hu : u = t
    · subst hu
      rw [Config.move_threads_self] at hrunning
      rcases skip_list_step_cases hr with ⟨call', rfl, -, rfl⟩ |
        ⟨call', pc', choice, hold, ⟨pc'', -, hr'⟩ | ⟨inserted, -, hr'⟩⟩
      · cases hrunning
        exact (hG call rfl).2
      · rw [hr'] at hrunning
        cases hrunning
        exact hb.running u call pc' hold
      · rw [hr'] at hrunning
        cases hrunning
    · rw [e.move_threads_of_ne r hu] at hrunning
      exact hb.running u call pc hrunning
  · intro node hnode
    rw [Config.move_shared] at hnode ⊢
    obtain hold | hown := hok.tower.onLevel_or hs hnode
    · rw [hs.nodes_eq hgrows hold]
      exact hb.linked node hold
    · obtain ⟨⟨call, pc⟩, hrunning, hpcown⟩ := Option.bind_eq_some_iff.mp hown
      obtain ⟨hfits, hpc⟩ := (hholds.thread t).running call pc hrunning
      right
      rw [hgrows.nodes node (hpc.own_allocated hpcown), hpc.own_written hpcown,
        Node.write_key hfits]
      exact hb.running t call pc hrunning

theorem OnlyNewer.steps
    (hb : (skip_list_system InternalKeyComparator Tid).ReachableUnder keys_fit b)
    (hnewer : ∀ t call pc, (b.threads t).running = some (call, pc) →
      NotSeen user_key snapshot call.key)
    (hsteps : (skip_list_system InternalKeyComparator Tid).StepsUnder
      (newer_inserts Tid user_key snapshot) b e) :
    (skip_list_system InternalKeyComparator Tid).ReachableUnder keys_fit e ∧
      OnlyNewer user_key snapshot b e := by
  induction hsteps with
  | refl => exact ⟨hb, hnewer, fun _ h => .inl h⟩
  | tail _ hstep ih =>
    obtain ⟨t, a, r, hG, hr, rfl⟩ := hstep
    exact ⟨ih.1.tail ⟨t, a, r, keys_fit_of_newer t a _ _ hG, hr, rfl⟩, ih.2.step ih.1 hG hr⟩

/-- A running `get` that will return `ret`, whatever is inserted meanwhile. -/
def GetPcOk (s : SkipList) (k : List Byte) (ret : Option MemReturn) : GetPc → Prop
  | .search pc => SearchOk InternalKeyComparator s k pc
  | .read found => (∀ node, found = some node → OnLevel s 0 node) ∧ get_return k (entry s found) = ret

/-- The `get` that started after `before` still runs, or was the next to
return. -/
def GetOk (before : List (List Byte × Option MemReturn)) (k : List Byte) (ret : Option MemReturn)
    (s : SkipList) (l : GetThread) : Prop :=
  (∃ pc, l.running = some (k, pc) ∧ l.returned = before ∧ GetPcOk s k ret pc) ∨
    ∃ after, l.returned = before ++ (k, ret) :: after

omit [DecidableEq Tid] in
/-- No insertion interferes with a `get`. -/
theorem GetOk.grow (hs : Towers InternalKeyComparator s levels) (hgrows : Grows s s')
    {before : List (List Byte × Option MemReturn)} {ret : Option MemReturn} {l : GetThread}
    (h : GetOk before k ret s l) : GetOk before k ret s' l := by
  apply h.imp_left
  rintro ⟨pc, hrunning, hreturned, hpc⟩
  refine ⟨pc, hrunning, hreturned, ?_⟩
  cases pc with
  | search pc => exact SearchOk.grows hs hgrows hpc
  | read found =>
    refine ⟨fun node hnode => hgrows.onLevel 0 node (hpc.1 node hnode), ?_⟩
    rw [entry_grows hs hgrows hpc.1]
    exact hpc.2

omit [DecidableEq Tid] in
/-- The loads of a `get` whose search finds an entry that it returns `ret` for. -/
theorem GetOk.step (hs : Towers InternalKeyComparator s levels) (hmax : 0 < s.max_level)
    {before : List (List Byte × Option MemReturn)} {ret : Option MemReturn} {a : GetAct}
    {l l' : GetThread} (h : GetOk before k ret s l)
    (hfinds : ∀ found, FirstFrom InternalKeyComparator s k found →
      get_return k (entry s found) = ret)
    (hstep : get_step a s l = some l') : GetOk before k ret s l' := by
  obtain ⟨running, returned⟩ := l
  obtain ⟨pc, hrunning, hreturned, hpc⟩ | ⟨after, hafter⟩ := h
  · obtain rfl : running = some (k, pc) := hrunning
    obtain rfl : returned = before := hreturned
    cases a with
    | get => cases hstep
    | step =>
      cases hstep
      cases pc with
      | search pc =>
        have hsearch := search_step_finds hs hmax hpc
        cases hnext : search_step InternalKeyComparator s k pc with
        | next pc' =>
          rw [hnext] at hsearch
          rw [get_load, hnext]
          exact .inl ⟨_, rfl, rfl, hsearch⟩
        | done ctx =>
          rw [hnext] at hsearch
          rw [get_load, hnext]
          exact .inl ⟨_, rfl, rfl, fun node hnode => (hsearch.right node hnode).1, hfinds _ hsearch⟩
      | read found =>
        refine .inr ⟨[], ?_⟩
        rw [← hpc.2]
        rfl
  · obtain rfl : returned = before ++ (k, ret) :: after := hafter
    cases a with
    | get =>
      cases running with
      | none =>
        cases hstep
        exact .inr ⟨after, rfl⟩
      | some running => cases hstep
    | step =>
      cases running with
      | none => cases hstep
      | some running =>
        obtain ⟨k', pc⟩ := running
        cases hstep
        cases get_load k' s pc with
        | next pc' => exact .inr ⟨after, rfl⟩
        | done result => exact .inr ⟨after ++ [(k', result)], by simp⟩

variable {c d : Config Tid SkipList (Observing InsertThread GetThread)}

/-- A `get` at a snapshot, with only other user keys and newer versions inserted
meanwhile, returns what it would have returned alone in the state in which it
started; as long as it runs, it would return this with no further insertions. -/
theorem snapshot_read_stable (user_key : List Byte) {snapshot : BitVec 64}
    (hsnapshot : snapshot.toNat < 2 ^ 56) {t : Tid}
    (hc : (memtable_system Tid).ReachableUnder (underneath entries_fit) c)
    (hstart : (c.threads t).reads.running =
      some (key.encode user_key snapshot .Max, .search .load_max_level))
    (hrunning : ∀ u call pc, (c.threads u).own.running = some (call, pc) →
      NotSeen user_key snapshot call.key)
    (hsteps : (memtable_system Tid).StepsUnder
      (underneath (newer_inserts Tid user_key snapshot)) c d) :
    ∃ ret, (∃ enough, ∀ fuel, enough ≤ fuel →
        get fuel c.shared (key.encode user_key snapshot .Max) = ret) ∧
      ((∃ after, (d.threads t).reads.returned =
          (c.threads t).reads.returned ++ (key.encode user_key snapshot .Max, ret) :: after) ∨
        ∃ pc, (d.threads t).reads.running = some (key.encode user_key snapshot .Max, pc) ∧
          Finishes (get_alone (key.encode user_key snapshot .Max)) d.shared (.next pc) d.shared
            ret) := by
  have hbase : (skip_list_system InternalKeyComparator Tid).ReachableUnder keys_fit c.unobserved :=
    (ReachableUnder.unobserved hc).mono keys_fit_of_entries_fit
  obtain ⟨levels, hs⟩ := (insert_outline_holds hbase).shared
  obtain ⟨found, hfound, hget⟩ := get_runs hs (max_level_pos hbase)
    (key.encode user_key snapshot .Max)
  refine ⟨get_return (key.encode user_key snapshot .Max) (entry c.shared found), hget, ?_⟩
  -- whatever is found later is answered alike
  have hfinds : ∀ e, (skip_list_system InternalKeyComparator Tid).StepsUnder
      (newer_inserts Tid user_key snapshot) c.unobserved e → ∀ found',
      FirstFrom InternalKeyComparator e.shared (key.encode user_key snapshot .Max) found' →
      get_return (key.encode user_key snapshot .Max) (entry e.shared found') =
        get_return (key.encode user_key snapshot .Max) (entry c.shared found) := by
    intro e he found' hfound'
    have hnewer := (OnlyNewer.steps hbase hrunning he).2
    have hgrows := run_grows hbase (he.mono keys_fit_of_newer)
    exact get_return_stable hsnapshot hs hgrows hnewer.linked hfound hfound'
  have hok := StepsUnder.observer (P := GetOk (c.threads t).reads.returned
    (key.encode user_key snapshot .Max)
    (get_return (key.encode user_key snapshot .Max) (entry c.shared found))) hsteps t
    (.inl ⟨_, hstart, rfl, trivial⟩) ?_ ?_
  · obtain ⟨pc, hpcrunning, -, hpc⟩ | hreturned := hok
    · refine .inr ⟨pc, hpcrunning, ?_⟩
      have hd : (skip_list_system InternalKeyComparator Tid).StepsUnder
        (newer_inserts Tid user_key snapshot) c.unobserved d.unobserved := hsteps.unobserved
      have hreach := (OnlyNewer.steps hbase hrunning hd).1
      obtain ⟨levels', hs'⟩ := (insert_outline_holds hreach).shared
      cases pc with
      | search pc =>
        obtain ⟨found', hfound', hfinishes⟩ := get_finishes hs' (max_level_pos hreach) hpc
        rw [← hfinds d.unobserved hd found' hfound']
        exact hfinishes
      | read found' =>
        rw [← hpc.2]
        exact .next .done
    · exact .inl hreturned
  · intro e a reads reads' he hok hread
    have hreach := (OnlyNewer.steps hbase hrunning he).1
    obtain ⟨levels', hs'⟩ := (insert_outline_holds hreach).shared
    exact hok.step hs' (max_level_pos hreach) (hfinds e he) hread
  · intro e u a r reads he hG hr hok
    have hreach := (OnlyNewer.steps hbase hrunning he).1
    obtain ⟨levels', hs'⟩ := (insert_outline_holds hreach).shared
    exact hok.grow hs' (run_step_grows hreach (keys_fit_of_newer u a _ _ hG) hr)

end runs

instance (Tid : Type) (t : Tid) (a : InsertAct) (s : SkipList) (l : InsertThread) :
    Decidable (newer_inserts Tid user_key snapshot t a s l) :=
  match a with
  | .start call =>
    decidable_of_iff (call.Fits ∧ NotSeen user_key snapshot call.key)
      ⟨fun h _ heq => InsertAct.start.inj heq ▸ h, fun h => h call rfl⟩
  | .step _ => .isTrue fun _ heq => by cases heq

/-- A put of the empty user key, and a `get` at the next snapshot. -/
def get_after_put : List (Bool × ObservingAct InsertAct GetAct) :=
  (true, .own (.start (.insert (key.encode [] 1 .Put) [1]))) ::
    List.replicate 8 (true, .own (.step false)) ++ [(false, .read (.get (key.encode [] 2 .Max)))]

/-- A newer delete of the same user key, between the loads of the `get`. -/
def delete_during_get : List (Bool × ObservingAct InsertAct GetAct) :=
  (false, .read .step) :: (true, .own (.start (.insert (key.encode [] 3 .Delete) []))) ::
    List.replicate 10 (true, .own (.step false)) ++ List.replicate 4 (false, .read .step)

/-- The key of a `get` that has just started. -/
def GetThread.started : GetThread → Option (List Byte)
  | { running := some (k, .search .load_max_level), .. } => some k
  | _ => none

theorem GetThread.running_of_started {l : GetThread} (h : l.started = some k) :
    l.running = some (k, .search .load_max_level) := by
  unfold GetThread.started at h
  split at h
  · cases h
    rfl
  · cases h

theorem snapshot_read_stable_below_delete :
    ∃ c d : Config Bool SkipList (Observing InsertThread GetThread),
      ((memtable_system Bool).ReachableUnder (underneath entries_fit) c ∧
        (memtable_system Bool).StepsUnder (underneath (newer_inserts Bool [] 2)) c d ∧
        (d.threads true).own.returned.length = 2) ∧
      ∃ enough, ∀ fuel, enough ≤ fuel →
        get fuel c.shared (key.encode [] 2 .Max) = some (.Value [1]) := by
  obtain ⟨c, d, hc, hsteps, hseen⟩ := steps_showing (memtable_system Bool) (underneath entries_fit)
    (underneath (newer_inserts Bool [] 2)) get_after_put delete_during_get
    (fun c d => ((c.threads false).reads.started,
      (c.threads true).own.running.isNone && (c.threads false).own.running.isNone &&
        (c.threads false).reads.returned.isEmpty && (d.threads true).own.returned.length == 2 &&
        (d.threads false).reads.running.isNone,
      (d.threads false).reads.returned))
    (some (key.encode [] 2 .Max), true, [(key.encode [] 2 .Max, some (.Value [1]))])
    (by decide +kernel)
  simp only [Prod.mk.injEq, Bool.and_eq_true, Option.isNone_iff_eq_none, List.isEmpty_iff,
    beq_iff_eq] at hseen
  obtain ⟨hstart, ⟨⟨⟨⟨htrue, hfalse⟩, hbefore⟩, hlength⟩, hdone⟩, hreturned⟩ := hseen
  have hidle : ∀ u, (c.threads u).own.running = none := by
    intro u
    cases u with
    | true => exact htrue
    | false => exact hfalse
  obtain ⟨ret, hget, hend⟩ := snapshot_read_stable [] (show (2 : BitVec 64).toNat < 2 ^ 56 by decide)
    hc (GetThread.running_of_started hstart) (fun u call pc h => by rw [hidle u] at h; cases h)
    hsteps
  refine ⟨c, d, ⟨hc, hsteps, hlength⟩, ?_⟩
  obtain ⟨after, hafter⟩ | ⟨pc, hpc, -⟩ := hend
  · rw [hreturned, hbefore, List.nil_append, List.cons.injEq, Prod.mk.injEq] at hafter
    rwa [← hafter.1.2] at hget
  · rw [hdone] at hpc
    cases hpc

end ordinum.memtable
