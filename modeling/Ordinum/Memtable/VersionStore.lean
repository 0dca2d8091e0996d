import Ordinum.Memtable.Linearization
import Ordinum.Memtable.Read

open interleaving interleaving.System
open ordinum.key ordinum.mem_skip_list ordinum.utils

namespace ordinum.memtable

/-- Calls of the memtable by versions: insertions of values that a node can hold, and
reads at a snapshot. -/
inductive VersionOp where
  | insert (i : Insert) (hshort : i.value.length < 2 ^ 32)
  | get (user_key : List Byte) (snapshot : BitVec 64) (hsnapshot : snapshot.toNat < 2 ^ 56)

def VersionOp.encode : VersionOp → MemtableOp
  | .insert i _ => .insert i.version.encode i.value
  | .get user_key snapshot _ => .get (key.encode user_key snapshot .Max)

/-- The first insertion of a version. -/
def first_of (inserts : List Insert) (version : Version) : Option Insert :=
  inserts.find? fun j => j.version = version

/-- The store of versions with one call at a time. Its state is what has been inserted,
in order; of a version that is inserted again the first value stays. -/
def version_store : Object VersionOp MemtableRet (List Insert) where
  init := []
  effect
    | .insert i _, inserts, ret, inserts' => inserts' = inserts ++ [i] ∧
      ∃ first, first_of inserts' i.version = some first ∧
        ret = .inserted (i.version.encode, first.value)
    | .get user_key snapshot _, inserts, ret, inserts' => inserts' = inserts ∧
      ∃ answer, Answers inserts user_key snapshot answer ∧ ret = .read (some answer)

/-- The entries are the first insertions of the versions. -/
structure Holds (es : List Pair) (inserts : List Insert) : Prop where
  sorted : es.Pairwise (PairLt InternalKeyComparator)
  short : ∀ i ∈ inserts, i.value.length < 2 ^ 32
  mem : ∀ e, e ∈ es ↔ ∃ i, first_of inserts i.version = some i ∧ e = (i.version.encode, i.value)

variable {es : List Pair} {inserts : List Insert} {i : Insert}

theorem first_of_version {version : Version} (h : first_of inserts version = some i) :
    i.version = version := by
  have hfound := List.find?_some h
  exact of_decide_eq_true hfound

theorem first_of_mem {version : Version} (h : first_of inserts version = some i) : i ∈ inserts :=
  List.mem_of_find?_eq_some h

theorem first_of_append (version : Version) :
    first_of (inserts ++ [i]) version =
      (first_of inserts version).or (if i.version = version then some i else none) := by
  rw [first_of, List.find?_append, ← first_of, List.find?_singleton]
  simp only [decide_eq_true_eq]

/-- One more insertion: of a new version it is the first. -/
theorem Holds.insert (h : Holds es inserts) (hshort : i.value.length < 2 ^ 32) :
    Holds (inserted InternalKeyComparator (i.version.encode, i.value) es) (inserts ++ [i]) := by
  have hold : ∀ {version j}, first_of inserts version = some j →
      first_of (inserts ++ [i]) version = some j := by
    intro version j hj
    rw [first_of_append, hj, Option.some_or]
  refine ⟨inserted_sorted h.sorted, fun j hj => ?_, fun e => ?_⟩
  · obtain hj | hj := List.mem_append.mp hj
    · exact h.short j hj
    · rwa [List.mem_singleton.mp hj]
  · rw [mem_inserted]
    constructor
    · rintro (he | ⟨rfl, hnew⟩)
      · obtain ⟨j, hj, rfl⟩ := (h.mem e).mp he
        exact ⟨j, hold hj, rfl⟩
      · refine ⟨i, ?_, rfl⟩
        cases hfirst : first_of inserts i.version with
        | none => rw [first_of_append, hfirst, Option.none_or, if_pos rfl]
        | some j =>
          have hversion := first_of_version hfirst
          rw [← hversion] at hfirst
          exact absurd (congrArg Version.encode hversion)
            (hnew _ ((h.mem _).mpr ⟨j, hfirst, rfl⟩))
    · rintro ⟨j, hj, rfl⟩
      rw [first_of_append] at hj
      cases hfirst : first_of inserts j.version with
      | some j' =>
        rw [hfirst, Option.some_or] at hj
        cases hj
        exact .inl ((h.mem _).mpr ⟨j, hfirst, rfl⟩)
      | none =>
        rw [hfirst, Option.none_or] at hj
        split at hj
        · cases hj
          refine .inr ⟨rfl, fun y hy heq => ?_⟩
          obtain ⟨j', hj', rfl⟩ := (h.mem y).mp hy
          rw [Version.encode_injective heq, hfirst] at hj'
          cases hj'
        · cases hj

/-- The entry of a version holds its first value. -/
theorem Holds.value {version : Version} {e : Pair} (h : Holds es inserts) (he : e ∈ es)
    (hkey : e.1 = version.encode) :
    ∃ first, first_of inserts version = some first ∧ e = (version.encode, first.value) := by
  obtain ⟨j, hj, rfl⟩ := (h.mem e).mp he
  obtain rfl := Version.encode_injective hkey
  exact ⟨j, hj, rfl⟩

/-- A sequence of insertions leaves the entries in a memtable at rest. -/
theorem Holds.exists_filled (h : Holds es inserts) : ∃ c levels, Filled inserts c ∧
    Towers InternalKeyComparator c.shared levels ∧ pairs c.shared (levels 0) = es := by
  obtain ⟨c, hc⟩ := memtable.exists_filled inserts
  obtain ⟨levels, hs⟩ := (insert_outline_holds hc.fits).shared
  have hstored : ∀ j ∈ inserts, j.stored.value = j.value := by
    intro j hj
    rw [Insert.stored, Nat.mod_eq_of_lt (h.short j hj), List.take_length]
  have hnode : ∀ node, OnLevel c.shared 0 node → ∃ j, first_of inserts j.version = some j ∧
      pair c.shared node = (j.version.encode, j.value) := by
    intro node hnode
    obtain ⟨before, j, after, hinserts, hbefore, hkey, hvalue⟩ := hc.first hnode
    have hj : j ∈ inserts := by rw [hinserts]; simp
    refine ⟨j, ?_, Prod.ext hkey (hvalue.trans (hstored j hj))⟩
    rw [first_of, hinserts]
    exact find_first after hbefore
  refine ⟨c, levels, hc, hs, hs.pairs_sorted.eq_of_mem_iff h.sorted fun e => ?_⟩
  rw [hs.mem_pairs, h.mem]
  constructor
  · rintro ⟨node, hlevel, rfl⟩
    exact hnode node hlevel
  · rintro ⟨j, hj, rfl⟩
    obtain ⟨node, hlevel, hkey⟩ := hc.linked (first_of_mem hj)
    obtain ⟨j', hj', hpair⟩ := hnode node hlevel
    have hversion : j'.version = j.version :=
      Version.encode_injective ((congrArg Prod.fst hpair).symm.trans hkey)
    rw [hversion, hj] at hj'
    cases hj'
    exact ⟨node, hlevel, hpair⟩

/-- What is read of the entries answers for the insertions. -/
theorem Holds.answers (h : Holds es inserts) (user_key : List Byte) {snapshot : BitVec 64}
    (hsnapshot : snapshot.toNat < 2 ^ 56) : ∃ answer, Answers inserts user_key snapshot answer ∧
      get_return (key.encode user_key snapshot .Max) (es.find? fun e =>
        InternalKeyComparator.compare e.1 (key.encode user_key snapshot .Max) ≠ .lt) =
        some answer := by
  obtain ⟨c, levels, hc, hs, rfl⟩ := h.exists_filled
  obtain ⟨answer, hanswer, enough, hget⟩ := get_answers hc user_key hsnapshot
  obtain ⟨found, hfound, enough', hreturn⟩ := get_runs hs (max_level_pos hc.fits)
    (key.encode user_key snapshot .Max)
  rw [map_stored h.short] at hanswer
  refine ⟨answer, hanswer, ?_⟩
  rw [hs.find_pair hfound]
  exact (hreturn _ (Nat.le_add_left enough' enough)).symm.trans
    (hget _ (Nat.le_add_right enough enough'))

/-- On encoded versions the ordered entries are the store of versions. -/
theorem entries_refine_versions :
    ordered_entries.Refines version_store VersionOp.encode Holds where
  init := by
    refine ⟨.nil, fun i hi => absurd hi List.not_mem_nil, fun e =>
      ⟨fun he => absurd he List.not_mem_nil, ?_⟩⟩
    rintro ⟨i, hi, -⟩
    cases hi
  effect := by
    rintro (⟨i, hshort⟩ | ⟨user_key, snapshot, hsnapshot⟩) es inserts ret es' h heffect
    · obtain ⟨rfl, e, he, hkey, rfl⟩ := heffect
      have hstored : InsertCall.stored (.insert i.version.encode i.value) =
          (i.version.encode, i.value) := by
        rw [InsertCall.stored, InsertCall.key, InsertCall.value, Nat.mod_eq_of_lt hshort,
          List.take_length]
      rw [hstored] at he ⊢
      have h' := h.insert hshort
      obtain ⟨first, hfirst, rfl⟩ := h'.value he hkey
      exact ⟨inserts ++ [i], ⟨rfl, first, hfirst, rfl⟩, h'⟩
    · obtain ⟨rfl, rfl⟩ := heffect
      obtain ⟨answer, hanswer, hread⟩ := h.answers user_key hsnapshot
      exact ⟨inserts, ⟨rfl, answer, hanswer, by rw [hread]⟩, h⟩

section runs

/-- The call that a step begins. -/
def begun : ObservingAct InsertAct GetAct → Option MemtableOp
  | .own (.start call) => some (insert_op call)
  | .read (.get key) => some (.get key)
  | _ => none

variable {Tid : Type}

/-- Runs on encoded versions. -/
def version_calls : StepCondition Tid (ObservingAct InsertAct GetAct) SkipList
    (Observing InsertThread GetThread) := fun _ a _ _ =>
  ∀ op, begun a = some op → ∃ op' : VersionOp, op'.encode = op

theorem fits_of_version_calls (t : Tid) (a : ObservingAct InsertAct GetAct) (s : SkipList)
    (l : Observing InsertThread GetThread) (h : version_calls t a s l) :
    underneath entries_fit t a s l := by
  cases a with
  | read a => trivial
  | own a =>
    rintro call rfl
    obtain ⟨⟨i, hshort⟩ | ⟨user_key, snapshot, hsnapshot⟩, hop⟩ := h _ rfl
    · obtain ⟨hkey, hvalue⟩ := MemtableOp.insert.inj hop
      have hfits := i.fits
      rw [InsertCall.KeyFits] at hfits
      refine ⟨?_, hvalue ▸ hshort⟩
      rw [InsertCall.KeyFits, ← hkey]
      exact hfits
    · cases hop

/-- A step is seen to begin the call that it begins. -/
theorem begun_of_called {t : Tid} {a : ObservingAct InsertAct GetAct} {s : SkipList}
    {l : Observing InsertThread GetThread} {r : SkipList × Observing InsertThread GetThread}
    {p : Tid × Role} {op : MemtableOp} (h : .called p op ∈ memtable_events t a s l r) :
    begun a = some op := by
  obtain (call | choice) | (key | _) := a
  · cases List.mem_singleton.mp h
    rfl
  · rw [memtable_events] at h
    cases hrunning : l.own.running with
    | none =>
      rw [hrunning] at h
      cases h
    | some running =>
      rw [hrunning, Option.elim_some] at h
      rcases hstep : insert_step InternalKeyComparator running.1 choice s running.2 with
        ⟨s', pc | _ | node⟩
      · rw [hstep] at h
        cases h
      · rw [hstep] at h
        cases List.mem_singleton.mp h
      · rw [hstep] at h
        cases List.mem_singleton.mp h
  · cases List.mem_singleton.mp h
    rfl
  · rw [memtable_events] at h
    cases hrunning : l.reads.running with
    | none =>
      rw [hrunning] at h
      cases h
    | some running =>
      rw [hrunning, Option.elim_some] at h
      cases hload : get_load running.1 s running.2 with
      | next pc =>
        rw [hload] at h
        cases h
      | done ret =>
        rw [hload] at h
        cases List.mem_singleton.mp h

variable [DecidableEq Tid] {c : Config Tid (SkipList × List (Event (Tid × Role) MemtableOp
  MemtableRet)) (Observing InsertThread GetThread × Unit)}

theorem version_calls_seen
    (hc : (memtable_history Tid).ReachableUnder (forgetful version_calls) c) (p : Tid × Role)
    (op : MemtableOp) (hop : .called p op ∈ c.shared.2) : ∃ op' : VersionOp, op'.encode = op := by
  refine ReachableUnder.seen (P := fun e => ∀ p op, e = .called p op →
    ∃ op' : VersionOp, op'.encode = op) ?_ hc _ hop p op rfl
  rintro t a s l r hG _ he p op rfl
  exact hG op (begun_of_called he)

/-- Where every call is one of versions, the history is one of the store of versions. -/
theorem version_trace
    (hc : (memtable_history Tid).ReachableUnder (forgetful (underneath entries_fit)) c)
    (hcalls : ∀ p op, .called p op ∈ c.shared.2 → ∃ op' : VersionOp, op'.encode = op) :
    ∃ x levels, version_store.Atomic x ∧ c.shared.2 = x.history.map (Event.map VersionOp.encode) ∧
      Towers InternalKeyComparator c.shared.1 levels ∧
      Holds (pairs c.shared.1 (levels 0)) x.state := by
  obtain ⟨_, ⟨levels, hs, rfl⟩, hatomic⟩ := memtable_carries_out.atomic hc
  obtain ⟨x, hmeans, hx⟩ := entries_refine_versions.atomic hatomic hcalls
  exact ⟨x, levels, hx, hmeans.history, hs, hmeans.state⟩

theorem fits_of_version_run
    (hc : (memtable_history Tid).ReachableUnder (forgetful version_calls) c) :
    (memtable_history Tid).ReachableUnder (forgetful (underneath entries_fit)) c :=
  hc.mono fun t a s l h => fits_of_version_calls t a s.1 l.1 h

/-- Every history of insertions of versions and reads at snapshots is one of the store
of versions, whose first insertions are the entries of the base level. -/
theorem versions_linearizable
    (hc : (memtable_history Tid).ReachableUnder (forgetful version_calls) c) :
    ∃ x, version_store.Atomic x ∧ c.shared.2 = x.history.map (Event.map VersionOp.encode) ∧
      ∃ nodes, IsLevel c.shared.1 0 nodes ∧ Holds (pairs c.shared.1 nodes) x.state := by
  obtain ⟨x, levels, hx, hhistory, hs, hholds⟩ :=
    version_trace (fits_of_version_run hc) (version_calls_seen hc)
  exact ⟨x, hx, hhistory, levels 0, hs.chain 0, hholds⟩

/-- The actions of a script. -/
def scripted (acts : List (ObservingAct InsertAct GetAct)) :
    StepCondition Tid (ObservingAct InsertAct GetAct) SkipList (Observing InsertThread GetThread) :=
  fun _ a _ _ => a ∈ acts

instance (acts : List (ObservingAct InsertAct GetAct)) (t : Tid)
    (a : ObservingAct InsertAct GetAct) (s : SkipList) (l : Observing InsertThread GetThread) :
    Decidable (scripted acts t a s l) :=
  inferInstanceAs (Decidable (a ∈ acts))

/-- A version is inserted twice while a `get` of it runs. -/
theorem exists_across_inserts :
    ∃ c : Config Bool (SkipList × List (Event (Bool × Role) MemtableOp MemtableRet))
        (Observing InsertThread GetThread × Unit),
      (memtable_history Bool).ReachableUnder (forgetful version_calls) c ∧
      c.shared.2 = seen_across_inserts (key.encode [] 1 .Put) (key.encode [] 2 .Max) := by
  obtain ⟨c, hc, hseen⟩ := reachable_showing (memtable_history Bool)
    (forgetful (scripted [.read (.get (key.encode [] 2 .Max)), .read .step, .own (.step false),
      .own (.start (.insert (key.encode [] 1 .Put) [1])),
      .own (.start (.insert_with (key.encode [] 1 .Put) [2]))]))
    (get_across_inserts (key.encode [] 1 .Put) (key.encode [] 2 .Max)) (fun c => c.shared.2)
    (seen_across_inserts (key.encode [] 1 .Put) (key.encode [] 2 .Max)) (by decide +kernel)
  refine ⟨c, hc.mono fun t a s l h => ?_, hseen⟩
  have hone : ([1] : List Byte).length < 2 ^ 32 := by decide
  have htwo : ([2] : List Byte).length < 2 ^ 32 := by decide
  change a ∈ _ at h
  intro op hop
  simp only [List.mem_cons, List.not_mem_nil, or_false] at h
  obtain rfl | rfl | rfl | rfl | rfl := h
  · cases hop
    exact ⟨.get [] 2 (by decide), rfl⟩
  · cases hop
  · cases hop
  · cases hop
    exact ⟨.insert ⟨first_put, [1]⟩ hone, rfl⟩
  · cases hop
    exact ⟨.insert ⟨first_put, [2]⟩ htwo, rfl⟩

theorem versions_linearizable_across_inserts :
    ∃ (c : Config Bool (SkipList × List (Event (Bool × Role) MemtableOp MemtableRet))
        (Observing InsertThread GetThread × Unit))
      (x : Trace (Bool × Role) VersionOp MemtableRet (List Insert)),
      c.shared.2 = seen_across_inserts (key.encode [] 1 .Put) (key.encode [] 2 .Max) ∧
      version_store.Atomic x ∧ c.shared.2 = x.history.map (Event.map VersionOp.encode) := by
  obtain ⟨c, hc, hseen⟩ := exists_across_inserts
  obtain ⟨x, hx, hhistory, -⟩ := versions_linearizable hc
  exact ⟨c, x, hseen, hx, hhistory⟩

end runs

section between

variable {Process : Type} [DecidableEq Process]
  {x y : Trace Process VersionOp MemtableRet (List Insert)}

/-- What has been inserted, against the calls that have been seen. -/
structure InsertsSeen (x : Trace Process VersionOp MemtableRet (List Insert)) : Prop where
  answered : ∀ p i hshort ret, x.pending p = .answered (.insert i hshort) ret → i ∈ x.state
  returned : ∀ p i hshort ret, .returned p (.insert i hshort) ret ∈ x.history → i ∈ x.state
  called : ∀ i ∈ x.state, ∃ p hshort, .called p (.insert i hshort) ∈ x.history

/-- An effect inserts what its call was given, or nothing. -/
theorem version_effect_cases {op : VersionOp} {ret : MemtableRet} {inserts inserts' : List Insert}
    (h : version_store.effect op inserts ret inserts') : inserts' = inserts ∨
      ∃ i hshort, op = .insert i hshort ∧ inserts' = inserts ++ [i] := by
  cases op with
  | insert i hshort => exact .inr ⟨i, hshort, rfl, h.1⟩
  | get user_key snapshot hsnapshot => exact .inl h.1

theorem version_state_grows (hsteps : version_store.Steps x y) : x.state <+: y.state := by
  induction hsteps with
  | refl => exact List.prefix_rfl
  | tail _ hstep ih =>
    apply ih.trans
    cases hstep with
    | call | answer | panic => exact List.prefix_rfl
    | take_effect _ heffect =>
      obtain rfl | ⟨i, -, -, rfl⟩ := version_effect_cases heffect
      · exact List.prefix_rfl
      · exact List.prefix_append _ _

theorem InsertsSeen.step (h : InsertsSeen x) (hx : version_store.Atomic x)
    (hstep : version_store.Step x y) : InsertsSeen y := by
  have hstate := (version_state_grows (.single hstep)).subset
  have hhistory := (Object.Steps.history (.single hstep)).subset
  have hold : ∀ i ∈ x.state, ∃ p hshort, .called p (.insert i hshort) ∈ y.history := by
    intro i hi
    obtain ⟨p, hshort, hcalled⟩ := h.called i hi
    exact ⟨p, hshort, hhistory hcalled⟩
  -- only the process that moves has another call pending
  have hanswered : ∀ {p es u b}, y = x.goes p es u b →
      (∀ i hshort ret, u = .answered (.insert i hshort) ret → i ∈ y.state) →
      ∀ q i hshort ret, y.pending q = .answered (.insert i hshort) ret → i ∈ y.state := by
    rintro p es u b rfl hown q i hshort ret hq
    by_cases hqp : q = p
    · rw [hqp, x.goes_pending_self] at hq
      exact hown i hshort ret hq
    · rw [x.goes_pending_of_ne hqp] at hq
      exact hstate (h.answered q i hshort ret hq)
  cases hstep with
  | @call p op hidle =>
    refine ⟨hanswered rfl ?_, fun q i hshort ret hreturned => ?_, hold⟩
    · intro i hshort ret hu
      cases hu
    · obtain hreturned | hnew := List.mem_append.mp hreturned
      · exact h.returned q i hshort ret hreturned
      · cases List.mem_singleton.mp hnew
  | @take_effect p op ret b hcalled heffect =>
    refine ⟨hanswered rfl ?_, fun q i hshort ret' hreturned => ?_, ?_⟩
    · intro i hshort ret' hu
      cases hu
      exact heffect.1 ▸ List.mem_append_right _ (List.mem_singleton_self i)
    · rw [Trace.goes, List.append_nil] at hreturned
      exact hstate (h.returned q i hshort ret' hreturned)
    · obtain rfl | ⟨j, hshort, rfl, rfl⟩ := version_effect_cases heffect
      · exact hold
      · intro i hi
        obtain hi | hi := List.mem_append.mp hi
        · exact hold i hi
        · rw [List.mem_singleton.mp hi]
          refine ⟨p, hshort, hhistory (hx.called_mem ?_)⟩
          rw [hcalled]
          rfl
  | @answer p op ret hpending =>
    refine ⟨hanswered rfl ?_, fun q i hshort ret' hreturned => ?_, hold⟩
    · intro i hshort ret' hu
      cases hu
    · obtain hreturned | hnew := List.mem_append.mp hreturned
      · exact h.returned q i hshort ret' hreturned
      · cases List.mem_singleton.mp hnew
        exact h.answered _ i hshort _ hpending
  | @panic p op hcalled =>
    refine ⟨hanswered rfl ?_, fun q i hshort ret hreturned => ?_, hold⟩
    · intro i hshort ret hu
      cases hu
    · obtain hreturned | hnew := List.mem_append.mp hreturned
      · exact h.returned q i hshort ret hreturned
      · cases List.mem_singleton.mp hnew

theorem inserts_seen (hx : version_store.Atomic x) : InsertsSeen x := by
  refine Object.Atomic.induction (P := InsertsSeen) ?_ ?_ hx
  · exact ⟨fun _ _ _ _ h => (by cases h), fun _ _ _ _ h => absurd h List.not_mem_nil,
      fun _ h => absurd h List.not_mem_nil⟩
  · exact fun x y hx ih hstep => ih.step hx hstep

section encoded

/-- The call of a read, in versions. -/
theorem encoded_get {op : VersionOp} {user_key : List Byte} {snapshot : BitVec 64}
    (hsnapshot : snapshot.toNat < 2 ^ 56)
    (h : op.encode = .get (key.encode user_key snapshot .Max)) :
    op = .get user_key snapshot hsnapshot := by
  obtain ⟨i, hshort⟩ | ⟨user_key', snapshot', hsnapshot'⟩ := op
  · cases h
  · have href := congrArg InternalKeyRef.from_key (MemtableOp.get.inj h)
    rw [from_key_encode _ _ hsnapshot', from_key_encode _ _ hsnapshot,
      InternalKeyRef.mk.injEq] at href
    obtain ⟨rfl, rfl, -⟩ := href
    rfl

theorem encoded_insert {op : VersionOp} {i : Insert}
    (h : op.encode = .insert i.version.encode i.value) : ∃ hshort, op = .insert i hshort := by
  obtain ⟨⟨version, value⟩, hshort⟩ | ⟨user_key, snapshot, hsnapshot⟩ := op
  · obtain ⟨hversion, hvalue⟩ := MemtableOp.insert.inj h
    obtain ⟨version', value'⟩ := i
    cases Version.encode_injective hversion
    cases hvalue
    exact ⟨hshort, rfl⟩
  · cases h

end encoded

end between

section reads

variable {Tid : Type} [DecidableEq Tid] {c : Config Tid (SkipList × List (Event (Tid × Role)
  MemtableOp MemtableRet)) (Observing InsertThread GetThread × Unit)}

/-- What a read answers for: every insertion that returned before the read began, and
none that began after it returned. -/
structure ReadBetween (user_key : List Byte) (snapshot : BitVec 64)
    (before meanwhile : List (Event (Tid × Role) MemtableOp MemtableRet))
    (inserts : List Insert) (answer : MemReturn) : Prop where
  answers : Answers inserts user_key snapshot answer
  returned : ∀ i p ret, .returned p (.insert i.version.encode i.value) ret ∈ before →
    i ∈ inserts
  called : ∀ i ∈ inserts, ∃ p, .called p (.insert i.version.encode i.value) ∈ before ++ meanwhile

section between

variable {x : Trace (Tid × Role) VersionOp MemtableRet (List Insert)}
  {before meanwhile after : List (Event (Tid × Role) MemtableOp MemtableRet)} {t : Tid}
  {user_key : List Byte} {snapshot : BitVec 64} {ret : MemtableRet}

/-- A read of the store of versions answers for what had been inserted at some moment
between its call and its return. -/
theorem read_between (hx : version_store.Atomic x) (hsnapshot : snapshot.toNat < 2 ^ 56)
    (hhistory : x.history.map (Event.map VersionOp.encode) = before ++
      .called (t, .reads) (.get (key.encode user_key snapshot .Max)) :: (meanwhile ++
        .returned (t, .reads) (.get (key.encode user_key snapshot .Max)) ret :: after))
    (hquiet : ∀ e ∈ meanwhile, e.process ≠ (t, .reads)) :
    ∃ inserts answer, ret = .read (some answer) ∧
      ReadBetween user_key snapshot before meanwhile inserts answer := by
  rw [List.map_eq_append_iff] at hhistory
  obtain ⟨before', rest, hsplit, rfl, hrest⟩ := hhistory
  obtain ⟨call, rest', rfl, hcall, hrest'⟩ := List.map_eq_cons_iff.mp hrest
  obtain ⟨meanwhile', rest'', rfl, rfl, hrest''⟩ := List.map_eq_append_iff.mp hrest'
  obtain ⟨reply, after', rfl, hreply, -⟩ := List.map_eq_cons_iff.mp hrest''
  obtain ⟨op, hop, rfl⟩ := Event.map_eq_called hcall
  obtain ⟨op', hop', rfl⟩ := Event.map_eq_returned hreply
  obtain rfl := encoded_get hsnapshot hop
  obtain rfl := encoded_get hsnapshot hop'
  have hquiet' : ∀ e ∈ meanwhile', e.process ≠ (t, Role.reads) := by
    intro e he
    rw [← Event.map_process e]
    exact hquiet _ (List.mem_map_of_mem he)
  obtain ⟨u, y, b, hu, hbefore, hlater, hbegins, -, answer, hanswer, rfl⟩ :=
    hx.returned_within hsplit hquiet'
  refine ⟨y.state, answer, rfl, hanswer, ?_, ?_⟩
  · intro i p ret hreturned
    obtain ⟨e, he, hmap⟩ := List.mem_map.mp hreturned
    obtain ⟨op, hop, rfl⟩ := Event.map_eq_returned hmap
    obtain ⟨hshort, rfl⟩ := encoded_insert hop
    rw [← hbefore] at he
    exact (version_state_grows hlater).subset ((inserts_seen hu).returned p i hshort ret he)
  · intro i hi
    have hy : version_store.Atomic y := hu.trans hlater
    obtain ⟨p, hshort, hcalled⟩ := (inserts_seen hy).called i hi
    refine ⟨p, ?_⟩
    have hmem : Event.called p (MemtableOp.insert i.version.encode i.value) ∈
        (before' ++ .called (t, .reads) (.get user_key snapshot hsnapshot) :: meanwhile').map
          (Event.map VersionOp.encode) := List.mem_map_of_mem (hbegins.subset hcalled)
    rw [List.map_append, List.map_cons, List.mem_append, List.mem_cons] at hmem
    obtain hmem | hmem | hmem := hmem
    · exact List.mem_append_left _ hmem
    · cases hmem
    · exact List.mem_append_right _ hmem

end between

/-- Every read that has returned answers for the insertions that it may have seen and
had to see. -/
theorem reads_in_real_time
    (hc : (memtable_history Tid).ReachableUnder (forgetful version_calls) c)
    {before meanwhile after : List (Event (Tid × Role) MemtableOp MemtableRet)} {t : Tid}
    {user_key : List Byte} {snapshot : BitVec 64} (hsnapshot : snapshot.toNat < 2 ^ 56)
    {ret : MemtableRet} (hhistory : c.shared.2 = before ++
      .called (t, .reads) (.get (key.encode user_key snapshot .Max)) :: (meanwhile ++
        .returned (t, .reads) (.get (key.encode user_key snapshot .Max)) ret :: after))
    (hquiet : ∀ e ∈ meanwhile, e.process ≠ (t, .reads)) :
    ∃ inserts answer, ret = .read (some answer) ∧
      ReadBetween user_key snapshot before meanwhile inserts answer := by
  obtain ⟨x, -, hx, hseen, -⟩ := version_trace (fits_of_version_run hc) (version_calls_seen hc)
  exact read_between hx hsnapshot (hseen.symm.trans hhistory) hquiet

theorem reads_in_real_time_across_inserts : ∃ inserts answer,
    MemtableRet.read (some (.Value [1])) = .read (some answer) ∧
      ReadBetween [] 2 [] [.called (true, .inserts) (.insert (key.encode [] 1 .Put) [1]),
        .returned (true, .inserts) (.insert (key.encode [] 1 .Put) [1])
          (.inserted (key.encode [] 1 .Put, [1])),
        .called (false, .inserts) (.insert (key.encode [] 1 .Put) [2]),
        .returned (false, .inserts) (.insert (key.encode [] 1 .Put) [2])
          (.inserted (key.encode [] 1 .Put, [1]))] inserts answer := by
  obtain ⟨c, hc, hseen⟩ := exists_across_inserts
  refine reads_in_real_time (t := false) hc (by decide) hseen ?_
  intro e he
  simp only [List.mem_cons, List.not_mem_nil, or_false] at he
  obtain rfl | rfl | rfl | rfl := he <;> exact fun h => by cases h

end reads

end ordinum.memtable
