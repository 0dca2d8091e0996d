import Ordinum.Hazard.Ownership
import Ordinum.Interleaving.Alone

open interleaving
open linked

namespace ordinum.hazard

/-- The list is locked by the thread that moves, or was locked before by another. -/
theorem DomainMove.locked {s s' : HazPtrRecs} {pc pc' : DomainPc} (hmove : DomainMove s pc s' pc')
    (hl : RecordsKnown s pc) (hlocked : s'.avail_head.locked = true) :
    pc'.locks = true ∨ s.avail_head.locked = true ∧ pc.locks = false := by
  cases hmove with
  | lock | first | walk => exact .inl rfl
  | tagged htagged =>
    obtain ⟨_, tail, hstolen, -⟩ := hl
    exact absurd hstolen (htagged tail)
  | unlock | exchange => cases hlocked
  | null_tail | link_tail | chain =>
    rw [(store_available_frame _ _ _).avail_head] at hlocked
    exact .inr ⟨hlocked, rfl⟩
  | _ => exact .inr ⟨hlocked, rfl⟩

/-- A thread that is about to lock the list has just loaded its head. -/
theorem DomainMove.has_loaded {s s' : HazPtrRecs} {pc : DomainPc} {N : Nat} {avail_head : TaggedPtr}
    (hmove : DomainMove s pc s' (.acquire N (.fetch_or avail_head))) :
    s'.avail_head = avail_head := by
  cases hmove
  rfl

section between_calls

variable {Tid : Type} [DecidableEq Tid] {c : DomainConfig Tid}

/-- What calls that do not overlap keep: each lock is taken on the pointer that
was loaded, and it is given up with the call. -/
structure CallsApart (c : DomainConfig Tid) : Prop where
  reachable : (domain_system Tid).ReachableUnder locks_loaded c
  loaded : ∀ t N avail_head, c.threads t = .acquire N (.fetch_or avail_head) →
    c.shared.avail_head = avail_head
  locker : c.shared.avail_head.locked = true → ∃ t, (c.threads t).locks = true

theorem CallsApart.locks_loaded (hc : CallsApart c) (t : Tid) (a : DomainAct) :
    locks_loaded t a c.shared (c.threads t) := by
  unfold hazard.locks_loaded
  split
  · rename_i hpc
    intro _
    exact hc.loaded _ _ _ hpc
  · trivial

theorem calls_apart (hc : (domain_system Tid).Sequential c) : CallsApart c := by
  induction hc with
  | init =>
    refine ⟨.init, fun t N avail_head hpc => ?_, fun hlocked => ?_⟩
    · cases hpc
    · cases hlocked
  | @step c t a r hc hrest hr ih =>
    have hG := ih.locks_loaded t a
    have hmove := domain_step_move hG hr
    have hknown := (domain_outline_holds ih.reachable).1.thread t
    refine ⟨ih.reachable.tail ⟨t, a, r, hG, hr, rfl⟩, fun u N avail_head hpc => ?_,
      fun hlocked => ?_⟩
    · by_cases hu : u = t
      · subst hu
        rw [Config.move_threads_self] at hpc
        rw [hpc] at hmove
        exact hmove.has_loaded
      · rw [c.move_threads_of_ne r hu, hrest u hu] at hpc
        cases hpc
    · refine ⟨t, ?_⟩
      rw [Config.move_threads_self]
      obtain hlocks | ⟨hbefore, hnot⟩ := hmove.locked hknown hlocked
      · exact hlocks
      · obtain ⟨u, hlocks⟩ := ih.locker hbefore
        by_cases hu : u = t
        · rw [hu, hnot] at hlocks
          cases hlocks
        · rw [hrest u hu] at hlocks
          cases hlocks

/-- The records that are available, in the order of the list, which nobody has
locked. -/
structure Lists (s : HazPtrRecs) (available : List RecId) : Prop where
  unlocked : s.avail_head.locked = false
  chain : IsChain s.available s.avail_head.ptr available
  created : ∀ rec ∈ available, rec < s.created

/-- Between two calls the list is whole. -/
theorem lists_between_calls (hc : (domain_system Tid).Sequential c)
    (hidle : ∀ t, c.threads t = .idle) : ∃ available, Lists c.shared available := by
  have hapart := calls_apart hc
  obtain ⟨hO, hexclusive⟩ := domain_outline_holds hapart.reachable
  obtain ⟨listed, hlisted⟩ := hO.shared.listed
  refine ⟨listed, Bool.eq_false_iff.mpr fun hlocked => ?_, hlisted, fun rec hrec => ?_⟩
  · obtain ⟨t, hlocks⟩ := hapart.locker hlocked
    rw [hidle t] at hlocks
    cases hlocks
  · apply hexclusive.only_created rec none
    change rec ∈ (c.shared.on_list : Multiset RecId) + c.shared.held.flatten
    rw [on_list_eq hlisted]
    exact Multiset.mem_add.mpr (.inl hrec)

end between_calls

section acquire_many

variable {s₀ s : HazPtrRecs} {available : List RecId} {N k new counted : Nat}

/-- The array of a call from `s₀`: what the list has, then `k` new records. -/
def given (s₀ : HazPtrRecs) (available : List RecId) (N k : Nat) : List RecId :=
  available.take N ++ List.range' s₀.created k

theorem given_lt (hs : Lists s₀ available) {rec : RecId} (hrec : rec ∈ given s₀ available N k) :
    rec < s₀.created + k := by
  obtain hrec | hrec := List.mem_append.mp hrec
  · exact Nat.lt_add_right k (hs.created rec (List.mem_of_mem_take hrec))
  · exact (List.mem_range'_1.mp hrec).2

theorem given_succ : given s₀ available N (k + 1) = given s₀ available N k ++ [s₀.created + k] := by
  rw [given, List.range'_1_concat, ← List.append_assoc, given]

/-- What a call from `s₀` has done when the list is unlocked and `k` new records
hang on the others. -/
structure Given (s₀ : HazPtrRecs) (available : List RecId) (N k new counted : Nat)
    (s : HazPtrRecs) : Prop where
  avail_head : s.avail_head = ⟨(available.drop N).head?, false⟩
  held : s.held = s₀.held
  created : s.created = s₀.created + new
  count : s.count = s₀.count + counted
  others : ∀ rec, rec < s₀.created → rec ∉ available.take N → s.available rec = s₀.available rec
  chain : IsChain s.available (given s₀ available N k).head? (given s₀ available N k)
  length_le : (given s₀ available N k).length ≤ N

/-- Where a call from `s₀` stands. -/
def AcquirePoint (s₀ : HazPtrRecs) (available : List RecId) (N : Nat) (s : HazPtrRecs) :
    AcquirePc → Prop
  | .load_avail => s = s₀
  | .fetch_or avail_head => s = s₀ ∧ avail_head = s₀.avail_head ∧ avail_head ≠ .null
  | .first stolen_head =>
    s = { s₀ with avail_head := { s₀.avail_head with locked := true } } ∧
      ∃ tail rest, stolen_head = ⟨some tail, false⟩ ∧ available = tail :: rest
  | .walk walked next =>
    s = { s₀ with avail_head := { s₀.avail_head with locked := true } } ∧ walked ≠ [] ∧
      walked.length ≤ N ∧ ∃ rest, available = walked ++ rest ∧ next = rest.head?
  | .null_tail walked =>
    s = { s₀ with avail_head := ⟨(available.drop N).head?, false⟩ } ∧ walked ≠ [] ∧
      walked = available.take N
  | .collect head rest taken => ∃ k, Given s₀ available N k k k s ∧
    taken ++ rest = given s₀ available N k ∧ head = rest.head?
  | .new_rec taken => ∃ k, Given s₀ available N k k k s ∧
    taken = given s₀ available N k ∧ taken.length < N
  | .link rec _ taken | .count rec taken => ∃ k, Given s₀ available N k (k + 1) k s ∧
    taken = given s₀ available N k ∧ taken.length < N ∧ rec = s₀.created + k ∧
      s.available rec = none
  | .chain rec taken => ∃ k, Given s₀ available N k (k + 1) (k + 1) s ∧
    taken = given s₀ available N k ∧ taken.length < N ∧ rec = s₀.created + k ∧
      s.available rec = none

/-- What a call from `s₀` returns and leaves behind: as many records of the list as
it needs, from the front, then new ones, linked in the order of the array. -/
structure Acquired (s₀ : HazPtrRecs) (available : List RecId) (N : Nat) (records : List RecId)
    (s : HazPtrRecs) : Prop where
  records_eq : records = available.take (min N available.length) ++
    List.range' s₀.created (N - min N available.length)
  length : records.length = N
  nodup : records.Nodup
  created : s.created = s₀.created + (N - min N available.length)
  count : s.count = s₀.count + (N - min N available.length)
  held : s.held = records :: s₀.held
  linked : IsChain s.available records.head? records
  lists : Lists s (available.drop (min N available.length))

/-- Where the call stands after a step, or what it has returned. -/
def AcquireProgress (s₀ : HazPtrRecs) (available : List RecId) (N : Nat) (s : HazPtrRecs) :
    Progress AcquirePc AcquireResult → Prop
  | .next pc => AcquirePoint s₀ available N s pc
  | .done result => ∃ records, result = .records records ∧ Acquired s₀ available N records s

theorem given_nodup (hs : Lists s₀ available) : (given s₀ available N k).Nodup := by
  refine List.nodup_append.mpr ⟨hs.chain.nodup.sublist (List.take_sublist N available),
    List.nodup_range', ?_⟩
  rintro rec hrec other hother rfl
  have hold := hs.created rec (List.mem_of_mem_take hrec)
  exact absurd (List.mem_range'_1.mp hother).1 (Nat.not_le_of_lt hold)

/-- The list is shorter by the records that the call took, whose last one is
nulled. -/
theorem given_of_stolen (hs : Lists s₀ available) (hne : available.take N ≠ []) :
    Given s₀ available N 0 0 0
      ({ s₀ with avail_head := ⟨(available.drop N).head?, false⟩ }.store_available
        (available.take N).getLast? none) := by
  have hstore := store_available_frame
    { s₀ with avail_head := ⟨(available.drop N).head?, false⟩ } (available.take N).getLast? none
  have hchain := hs.chain
  rw [← List.take_append_drop N available] at hchain
  have hstolen := IsSegment.of_chain hchain
  rw [hstolen.head? hne] at hstolen
  refine ⟨hstore.avail_head, hstore.held, hstore.created, ?_, fun rec _ hrec => ?_, ?_, ?_⟩
  · unfold HazPtrRecs.store_available
    split <;> rfl
  · exact store_available_of_notMem none hrec
  · rw [given, List.range'_zero, List.append_nil]
    exact isSegment_none.mp (segment_store_available none hstolen hne
      (hs.chain.nodup.sublist (List.take_sublist N available)))
  · rw [given, List.range'_zero, List.append_nil]
    exact List.length_take_le N available

/-- From an empty list all records will be new. -/
theorem given_of_empty {s : HazPtrRecs} (hnull : s.avail_head = .null) :
    Given s [] N 0 0 0 s := by
  have hnone : given s [] N 0 = [] := by
    rw [given, List.take_nil, List.range'_zero, List.append_nil]
  refine ⟨?_, rfl, rfl, rfl, fun _ _ _ => rfl, ?_, ?_⟩
  · rw [hnull, List.drop_nil]
    rfl
  · rw [hnone]
    rfl
  · rw [hnone]
    exact Nat.zero_le N

/-- A new record is made, and hangs on nothing yet. -/
theorem Given.new_rec (hs : Lists s₀ available) (hgiven : Given s₀ available N k k k s) :
    Given s₀ available N k (k + 1) k s.new_rec := by
  have hkept : ∀ rec, rec < s₀.created + k → s.new_rec.available rec = s.available rec := by
    intro rec hrec
    rw [← hgiven.created] at hrec
    exact Function.update_of_ne (Nat.ne_of_lt hrec) ..
  refine ⟨hgiven.avail_head, hgiven.held, congrArg (· + 1) hgiven.created, hgiven.count,
    fun rec hold hrec => ?_, ?_, hgiven.length_le⟩
  · exact (hkept rec (Nat.lt_add_right k hold)).trans (hgiven.others rec hold hrec)
  · exact hgiven.chain.frame fun rec hrec => hkept rec (given_lt hs hrec)

/-- The list of all records is none of the lists of the call. -/
theorem Given.with_head (hgiven : Given s₀ available N k new counted s)
    (next : RecId → Option RecId) (head : Option RecId) :
    Given s₀ available N k new counted { s with next, head } :=
  ⟨hgiven.avail_head, hgiven.held, hgiven.created, hgiven.count, hgiven.others, hgiven.chain,
    hgiven.length_le⟩

/-- The new record hangs on the last one. -/
theorem Given.hang (hs : Lists s₀ available) (hgiven : Given s₀ available N k (k + 1) (k + 1) s)
    (hlt : (given s₀ available N k).length < N) (hnull : s.available (s₀.created + k) = none) :
    Given s₀ available N (k + 1) (k + 1) (k + 1)
      (s.store_available (given s₀ available N k).getLast? (some (s₀.created + k))) := by
  have hstore := store_available_frame s (given s₀ available N k).getLast? (some (s₀.created + k))
  have hnew : s₀.created + k ∉ given s₀ available N k :=
    fun hmem => Nat.lt_irrefl _ (given_lt hs hmem)
  refine ⟨hstore.avail_head.trans hgiven.avail_head, hstore.held.trans hgiven.held,
    hstore.created.trans hgiven.created, ?_, fun rec hold hrec => ?_, ?_, ?_⟩
  · refine Eq.trans ?_ hgiven.count
    unfold HazPtrRecs.store_available
    split <;> rfl
  · refine Eq.trans ?_ (hgiven.others rec hold hrec)
    apply store_available_of_notMem _
    intro hmem
    obtain hmem | hmem := List.mem_append.mp hmem
    · exact hrec hmem
    · exact absurd (List.mem_range'_1.mp hmem).1 (Nat.not_le_of_lt hold)
  · rw [given_succ]
    exact chain_store_available hnew (given_nodup hs) hgiven.chain hnull
  · rw [given_succ, List.length_append]
    exact hlt

/-- What the call leaves of the list. -/
theorem Given.lists (hs : Lists s₀ available) (hgiven : Given s₀ available N k new counted s) :
    Lists s (available.drop N) := by
  have hold : ∀ rec ∈ available.drop N, rec < s₀.created :=
    fun rec hrec => hs.created rec (List.mem_of_mem_drop hrec)
  have hchain := hs.chain
  rw [← List.take_append_drop N available] at hchain
  refine ⟨?_, ?_, fun rec hrec => ?_⟩
  · rw [hgiven.avail_head]
  · rw [hgiven.avail_head]
    refine hchain.suffix.frame fun rec hrec => hgiven.others rec (hold rec hrec) fun htaken => ?_
    exact List.disjoint_take_drop hs.chain.nodup (Nat.le_refl N) htaken hrec
  · rw [hgiven.created]
    exact Nat.lt_add_right new (hold rec hrec)

/-- The array is full. -/
theorem Given.acquired (hs : Lists s₀ available) (hgiven : Given s₀ available N k k k s)
    {rest taken : List RecId} (harray : taken ++ rest = given s₀ available N k)
    (hN : taken.length = N) :
    Acquired s₀ available N taken { s with held := taken :: s.held } := by
  have hlength := hgiven.length_le
  rw [← harray, List.length_append] at hlength
  obtain rfl : rest = [] := List.eq_nil_of_length_eq_zero (by omega)
  rw [List.append_nil] at harray
  have hk : k = N - min N available.length := by
    rw [harray, given, List.length_append, List.length_take, List.length_range'] at hN
    omega
  have hlists := hgiven.lists hs
  rw [List.drop_eq_drop_min] at hlists
  refine ⟨?_, hN, ?_, hk ▸ hgiven.created, hk ▸ hgiven.count, congrArg _ hgiven.held, ?_,
    ⟨hlists.unlocked, hlists.chain, hlists.created⟩⟩
  · rw [harray, given, List.take_eq_take_min, ← hk]
  · rw [harray]
    exact given_nodup hs
  · rw [harray]
    exact hgiven.chain

theorem acquire_step_point {spurious : Bool} {pc : AcquirePc} (hs : Lists s₀ available)
    (hN : 1 ≤ N) (hpoint : AcquirePoint s₀ available N s pc) :
    AcquireProgress s₀ available N (acquire_step N spurious s pc).1
      (acquire_step N spurious s pc).2 := by
  cases pc with
  | load_avail =>
    obtain rfl : s = s₀ := hpoint
    simp only [acquire_step]
    split
    · rename_i hnull
      -- the list is empty, and all records will be new
      have hchain := hs.chain
      rw [hnull] at hchain
      obtain rfl : available = [] := hchain.unique rfl
      refine ⟨0, given_of_empty hnull, ?_, rfl⟩
      rw [given, List.take_nil, List.range'_zero]
    · rename_i hsome
      exact ⟨rfl, rfl, hsome⟩
  | fetch_or avail_head =>
    obtain ⟨rfl, rfl, hsome⟩ := hpoint
    simp only [acquire_step, hs.unlocked]
    obtain ⟨tail, htail⟩ := s.avail_head.pointer_of_unlocked hs.unlocked hsome
    have hhead : some tail = available.head? := by
      rw [← hs.chain.head?, htail]
    obtain ⟨rest, hrest⟩ := List.head?_eq_some_iff.mp hhead.symm
    exact ⟨rfl, tail, rest, htail, hrest⟩
  | first stolen_head =>
    obtain ⟨rfl, tail, rest, rfl, rfl⟩ := hpoint
    refine ⟨rfl, List.cons_ne_nil _ _, hN, rest, rfl, ?_⟩
    exact hs.chain.2.head?
  | walk walked next =>
    obtain ⟨rfl, hne, hle, rest, rfl, rfl⟩ := hpoint
    cases rest with
    | nil =>
      -- the list is no longer than the array
      refine ⟨?_, hne, ?_⟩
      · rw [List.append_nil, List.drop_of_length_le hle]
        rfl
      · rw [List.append_nil, List.take_of_length_le hle]
    | cons next rest =>
      simp only [List.head?_cons, acquire_step]
      split
      · rename_i hlt
        refine ⟨rfl, List.append_ne_nil_of_right_ne_nil walked (List.cons_ne_nil next []), ?_, rest,
          ?_, hs.chain.tail.head?⟩
        · rw [List.length_append]
          exact hlt
        · rw [List.append_assoc]
          rfl
      · rename_i hnot
        have hlength : walked.length = N := Nat.le_antisymm hle (Nat.le_of_not_lt hnot)
        refine ⟨?_, hne, ?_⟩
        · rw [List.drop_left' hlength]
          rfl
        · rw [List.take_left' hlength]
  | null_tail walked =>
    obtain ⟨rfl, hne, rfl⟩ := hpoint
    refine ⟨0, given_of_stolen hs hne, ?_, rfl⟩
    rw [given, List.range'_zero, List.append_nil, List.nil_append]
  | collect head rest taken =>
    obtain ⟨k, hgiven, harray, rfl⟩ := hpoint
    simp only [acquire_step]
    split
    · rename_i hfull
      exact ⟨taken, rfl, hgiven.acquired hs harray hfull⟩
    · rename_i hnot
      cases rest with
      | cons hzd_rec rest =>
        have hchain := hgiven.chain
        rw [← harray] at hchain
        refine ⟨k, hgiven, ?_, hchain.tail.head?⟩
        rw [List.append_assoc]
        exact harray
      | nil =>
        rw [List.append_nil] at harray
        have hle := hgiven.length_le
        rw [← harray] at hle
        exact ⟨k, hgiven, harray, Nat.lt_of_le_of_ne hle hnot⟩
  | new_rec taken =>
    obtain ⟨k, hgiven, rfl, hlt⟩ := hpoint
    exact ⟨k, hgiven.new_rec hs, rfl, hlt, hgiven.created, Function.update_self ..⟩
  | link rec head taken =>
    obtain ⟨k, hgiven, rfl, hlt, rfl, hnull⟩ := hpoint
    simp only [acquire_step]
    split
    · exact ⟨k, hgiven.with_head _ _, rfl, hlt, rfl, hnull⟩
    · exact ⟨k, hgiven.with_head _ s.head, rfl, hlt, rfl, hnull⟩
  | count rec taken =>
    obtain ⟨k, hgiven, rfl, hlt, rfl, hnull⟩ := hpoint
    exact ⟨k, ⟨hgiven.avail_head, hgiven.held, hgiven.created, congrArg (· + 1) hgiven.count,
      hgiven.others, hgiven.chain, hgiven.length_le⟩, rfl, hlt, rfl, hnull⟩
  | chain rec taken =>
    obtain ⟨k, hgiven, rfl, hlt, rfl, hnull⟩ := hpoint
    refine ⟨k + 1, hgiven.hang hs hlt hnull, ?_, rfl⟩
    rw [List.append_nil, given_succ]

/-- A bound on the steps that the call still has to make, when no exchange fails
without reason. -/
def acquire_rank (N : Nat) (s : HazPtrRecs) : AcquirePc → Nat
  | .load_avail => 7 * N + 6
  | .fetch_or _ => 7 * N + 5
  | .first _ => 7 * N + 4
  | .walk walked _ => 6 * N + 3 + (N - walked.length)
  | .null_tail _ => 6 * N + 2
  | .collect _ _ taken => 6 * (N - taken.length) + 1
  | .new_rec taken => 6 * (N - taken.length)
  | .link _ head taken => 6 * (N - taken.length) - if s.head = head then 2 else 1
  | .count _ taken => 6 * (N - taken.length) - 3
  | .chain _ taken => 6 * (N - taken.length) - 4

theorem acquire_step_rank {pc : AcquirePc} (hs : Lists s₀ available) (hN : 1 ≤ N)
    (hpoint : AcquirePoint s₀ available N s pc) :
    (acquire_step N false s pc).2.elim (acquire_rank N (acquire_step N false s pc).1)
      (fun _ => 0) < acquire_rank N s pc := by
  cases pc with
  | load_avail =>
    simp only [acquire_step]
    split <;> simp only [Progress.elim_next, acquire_rank, List.length_nil] <;> omega
  | fetch_or avail_head =>
    obtain ⟨rfl, -, -⟩ := hpoint
    simp only [acquire_step, hs.unlocked, Bool.false_eq_true, if_false, Progress.elim_next,
      acquire_rank]
    omega
  | first stolen_head =>
    obtain ⟨rfl, tail, rest, rfl, rfl⟩ := hpoint
    simp only [acquire_step, Progress.elim_next, acquire_rank, List.length_singleton]
    omega
  | walk walked next =>
    cases next with
    | none =>
      simp only [acquire_step, Progress.elim_next, acquire_rank]
      omega
    | some next =>
      simp only [acquire_step]
      split <;> simp only [Progress.elim_next, acquire_rank, List.length_append,
        List.length_singleton] <;> omega
  | null_tail walked =>
    simp only [acquire_step, Progress.elim_next, acquire_rank, List.length_nil]
    omega
  | collect head rest taken =>
    obtain ⟨k, hgiven, harray, rfl⟩ := hpoint
    have hle := hgiven.length_le
    rw [← harray, List.length_append] at hle
    simp only [acquire_step]
    split
    · exact Nat.succ_pos _
    · cases rest with
      | cons =>
        simp only [List.head?_cons, Progress.elim_next, acquire_rank, List.length_append,
          List.length_singleton]
        omega
      | nil => exact Nat.lt_succ_self _
  | new_rec taken =>
    obtain ⟨k, -, -, hlt⟩ := hpoint
    simp only [acquire_step, Progress.elim_next, acquire_rank]
    split <;> omega
  | link rec head taken =>
    obtain ⟨k, -, -, hlt, -⟩ := hpoint
    simp only [acquire_step, and_true]
    split <;> simp only [Progress.elim_next, acquire_rank, if_true, *, if_false] <;> omega
  | count rec taken =>
    obtain ⟨k, -, -, hlt, -⟩ := hpoint
    simp only [acquire_step, Progress.elim_next, acquire_rank]
    omega
  | chain rec taken =>
    obtain ⟨k, -, -, hlt, -⟩ := hpoint
    simp only [acquire_step, Progress.elim_next, acquire_rank, List.length_append,
      List.length_singleton]
    omega

/-- `acquire_many::<N>`, where the environment decides which exchanges fail without
reason. -/
def acquire_call (N : Nat) (spurious : Bool) (s : HazPtrRecs) (pc : AcquirePc) :
    Option (HazPtrRecs × Progress AcquirePc AcquireResult) :=
  some (acquire_step N spurious s pc)

theorem acquire_call_ranked (hs : Lists s₀ available) (hN : 1 ≤ N) :
    Ranked (acquire_call N) (fun spurious _ => spurious = true) fun rank s progress =>
      progress.elim (acquire_rank N s) (fun _ => 0) = rank ∧
        AcquireProgress s₀ available N s progress := by
  rintro rank s pc spurious ⟨rfl, hpoint⟩
  refine ⟨_, acquire_step N spurious s pc, rfl, ⟨rfl, acquire_step_point hs hN hpoint⟩, ?_⟩
  cases spurious with
  | true => exact .inl rfl
  | false => exact .inr (acquire_step_rank hs hN hpoint)

/-- A call between calls comes to its end, with what it has to return. -/
theorem acquire_call_ends (hs : Lists s₀ available) (hN : 1 ≤ N) (spurious : Nat → Bool) :
    ((∃ n, ∀ m, n ≤ m → spurious m = false) → ∃ n s result,
      run_choosing (acquire_call N) spurious (s₀, .next .load_avail) n = some (s, .done result)) ∧
    ∀ n s result,
      run_choosing (acquire_call N) spurious (s₀, .next .load_avail) n = some (s, .done result) →
        ∃ records, result = .records records ∧ Acquired s₀ available N records s := by
  have hranked := acquire_call_ranked hs hN
  have hstart : AcquireProgress s₀ available N s₀ (.next .load_avail) := rfl
  refine ⟨?_, fun n s result hrun => ?_⟩
  · rintro ⟨n, hreliable⟩
    refine hranked.ends ⟨rfl, hstart⟩ ⟨n, fun m hm _ _ _ hspurious => ?_⟩
    rw [hreliable m hm] at hspurious
    cases hspurious
  · obtain ⟨_, _, hrun', -, hended⟩ := hranked.holds spurious ⟨rfl, hstart⟩ n
    rw [hrun] at hrun'
    cases hrun'
    exact hended

end acquire_many

section release_many

variable {s₀ s : HazPtrRecs} {available records : List RecId}

/-- An array that can be given back: its records are linked in order, and none of
them is on the list. -/
structure Releasable (s : HazPtrRecs) (available records : List RecId) : Prop where
  nonempty : records ≠ []
  linked : IsChain s.available records.head? records
  apart : ∀ rec ∈ available, rec ∉ records
  created : ∀ rec ∈ records, rec < s.created

/-- Where a call from `s₀` stands. -/
def ReleasePoint (s₀ : HazPtrRecs) (records : List RecId) (s : HazPtrRecs) : ReleasePc → Prop
  | .check | .load => s = s₀
  | .link avail => s = s₀ ∧ avail = s₀.avail_head.ptr
  | .exchange avail =>
    s = s₀.store_available records.getLast? avail ∧ avail = s₀.avail_head.ptr

/-- What a call from `s₀` leaves behind: the array stands before the list. -/
structure Released (s₀ : HazPtrRecs) (available records : List RecId) (s : HazPtrRecs) : Prop where
  lists : Lists s (records ++ available)
  created : s.created = s₀.created
  count : s.count = s₀.count
  held : s.held = s₀.held

def ReleaseProgress (s₀ : HazPtrRecs) (available records : List RecId) (s : HazPtrRecs) :
    Progress ReleasePc ReleaseResult → Prop
  | .next pc => ReleasePoint s₀ records s pc
  | .done result => result = .released ∧ Released s₀ available records s

theorem released_of_link (hs : Lists s₀ available) (hrecords : Releasable s₀ available records) :
    Released s₀ available records
      { s₀.store_available records.getLast? s₀.avail_head.ptr with
        avail_head := ⟨records.head?, false⟩ } := by
  have hstore := store_available_frame s₀ records.getLast? s₀.avail_head.ptr
  refine ⟨⟨rfl, ?_, fun rec hrec => ?_⟩, hstore.created, ?_, hstore.held⟩
  · have hlinked := segment_store_available s₀.avail_head.ptr
      (isSegment_none.mpr hrecords.linked) hrecords.nonempty hrecords.linked.nodup
    refine hlinked.append_chain (hs.chain.frame fun rec hrec => ?_)
    exact store_available_of_notMem _ (hrecords.apart rec hrec)
  · refine Nat.lt_of_lt_of_eq ?_ hstore.created.symm
    obtain hrec | hrec := List.mem_append.mp hrec
    · exact hrecords.created rec hrec
    · exact hs.created rec hrec
  · unfold HazPtrRecs.store_available
    split <;> rfl

/-- The steps that the call still has to make. -/
def release_rank : ReleasePc → Nat
  | .check => 4
  | .load => 3
  | .link _ => 2
  | .exchange _ => 1

theorem release_step_point {pc : ReleasePc} (hs : Lists s₀ available)
    (hrecords : Releasable s₀ available records) (hpoint : ReleasePoint s₀ records s pc) :
    ReleaseProgress s₀ available records (release_step records s pc).1
        (release_step records s pc).2 ∧
      (release_step records s pc).2.elim release_rank (fun _ => 0) < release_rank pc := by
  cases pc with
  | check =>
    obtain rfl : s = s₀ := hpoint
    have hlast : records.getLast? ≠ none :=
      fun hnone => hrecords.nonempty (List.getLast?_eq_none_iff.mp hnone)
    obtain ⟨tail, htail⟩ := Option.ne_none_iff_exists'.mp hlast
    have hnull := available_last_of_chain hrecords.linked htail
    simp only [release_step, htail, hnull, if_true]
    exact ⟨rfl, Nat.lt_succ_self 3⟩
  | load =>
    obtain rfl : s = s₀ := hpoint
    simp only [release_step, hs.unlocked, Bool.false_eq_true, if_false]
    exact ⟨⟨rfl, rfl⟩, Nat.lt_succ_self 2⟩
  | link avail =>
    obtain ⟨rfl, rfl⟩ := hpoint
    exact ⟨⟨rfl, rfl⟩, Nat.lt_succ_self 1⟩
  | exchange avail =>
    obtain ⟨rfl, rfl⟩ := hpoint
    have hsame : (s₀.store_available records.getLast? s₀.avail_head.ptr).avail_head =
        ⟨s₀.avail_head.ptr, false⟩ := by
      rw [(store_available_frame _ _ _).avail_head, ← hs.unlocked]
    simp only [release_step, hsame, if_true]
    exact ⟨⟨rfl, released_of_link hs hrecords⟩, Nat.lt_succ_self 0⟩

/-- `release_many(records)`; none of its exchanges fails without reason. -/
def release_call (records : List RecId) (_ : Unit) (s : HazPtrRecs) (pc : ReleasePc) :
    Option (HazPtrRecs × Progress ReleasePc ReleaseResult) :=
  some (release_step records s pc)

theorem release_call_ranked (hs : Lists s₀ available)
    (hrecords : Releasable s₀ available records) :
    Ranked (release_call records) (fun _ _ => False) fun rank s progress =>
      progress.elim release_rank (fun _ => 0) = rank ∧
        ReleaseProgress s₀ available records s progress := by
  rintro rank s pc _ ⟨rfl, hpoint⟩
  obtain ⟨hthere, hlower⟩ := release_step_point hs hrecords hpoint
  exact ⟨_, release_step records s pc, rfl, ⟨rfl, hthere⟩, .inr hlower⟩

/-- A call between calls comes to its end, and the array stands before the list. -/
theorem release_call_ends (hs : Lists s₀ available) (hrecords : Releasable s₀ available records) :
    (∃ n s result, run_choosing (release_call records) (fun _ => ()) (s₀, .next .check) n =
      some (s, .done result)) ∧
    ∀ n s result, run_choosing (release_call records) (fun _ => ()) (s₀, .next .check) n =
      some (s, .done result) → result = .released ∧ Released s₀ available records s := by
  have hranked := release_call_ranked hs hrecords
  have hstart : ReleaseProgress s₀ available records s₀ (.next .check) := rfl
  refine ⟨hranked.ends ⟨rfl, hstart⟩ ⟨0, fun _ _ _ _ _ => id⟩, fun n s result hrun => ?_⟩
  obtain ⟨_, _, hrun', -, hended⟩ := hranked.holds (fun _ => ()) ⟨rfl, hstart⟩ n
  rw [hrun] at hrun'
  cases hrun'
  exact hended

end release_many

section calls

variable {Tid : Type} [DecidableEq Tid] {c : DomainConfig Tid}

/-- Where a thread stands when its `acquire_many` has ended. -/
def after_acquire : AcquireResult → DomainPc
  | .records _ => .idle
  | .undefined => .undefined

theorem sequential_acquire (hc : (domain_system Tid).Sequential c)
    (hidle : ∀ t, c.threads t = .idle) {N : Nat} (hN : 1 ≤ N) {spurious : Nat → Bool} {n : Nat}
    {s : HazPtrRecs} {records : List RecId} (t : Tid)
    (hrun : run_choosing (acquire_call N) spurious (c.shared, .next .load_avail) n =
      some (s, .done (.records records))) :
    (domain_system Tid).Sequential (c.move t (s, .idle)) := by
  have hbegun : domain_step (.acquire_many N) c.shared (c.threads t) =
      some (c.shared, .acquire N .load_avail) := by
    rw [hidle t]
    exact if_pos hN
  have hcalled := System.Sequential.step hc (fun u _ => hidle u) hbegun
  refine System.Sequential.call DomainAct.step (DomainPc.acquire N) after_acquire
    (fun u _ => hidle u) ?_ hcalled hrun
  rintro choice s pc r ⟨⟩
  rfl

/-- An array that was given out can be given back. -/
theorem releasable_of_held (hc : (domain_system Tid).Sequential c) {available records : List RecId}
    (hlists : Lists c.shared available) (hheld : records ∈ c.shared.held) :
    Releasable { c.shared with held := c.shared.held.erase records } available records := by
  obtain ⟨hO, hexclusive⟩ := domain_outline_holds (calls_apart hc).reachable
  obtain ⟨hnonempty, hlinked⟩ := hO.shared.arrays records hheld
  have hshared : record_holdings.held c none =
      (available : Multiset RecId) + c.shared.held.flatten := by
    rw [← on_list_eq hlists.chain]
    rfl
  have hin : ∀ rec ∈ records, rec ∈ (c.shared.held.flatten : Multiset RecId) :=
    fun rec hrec => List.mem_flatten.mpr ⟨records, hheld, hrec⟩
  refine ⟨hnonempty, hlinked, fun rec havailable hrec => ?_, fun rec hrec => ?_⟩
  · have hnodup := hexclusive.nodup none
    rw [hshared, Multiset.nodup_add] at hnodup
    exact Multiset.disjoint_left.mp hnodup.2.2 havailable (hin rec hrec)
  · apply hexclusive.only_created rec none
    rw [hshared]
    exact Multiset.mem_add.mpr (.inr (hin rec hrec))

/-- An array that is given back between calls stands before the list. -/
theorem released_in_front (hc : (domain_system Tid).Sequential c)
    {available records : List RecId} (hlists : Lists c.shared available)
    (hheld : records ∈ c.shared.held) :
    (∃ n s result, run_choosing (release_call records) (fun _ => ())
      ({ c.shared with held := c.shared.held.erase records }, .next .check) n =
        some (s, .done result)) ∧
    ∀ n s result, run_choosing (release_call records) (fun _ => ())
      ({ c.shared with held := c.shared.held.erase records }, .next .check) n =
        some (s, .done result) → result = .released ∧ Lists s (records ++ available) := by
  have hlists' : Lists { c.shared with held := c.shared.held.erase records } available :=
    ⟨hlists.unlocked, hlists.chain, hlists.created⟩
  obtain ⟨hends, hpost⟩ := release_call_ends hlists' (releasable_of_held hc hlists hheld)
  refine ⟨hends, fun n s result hrun => ?_⟩
  obtain ⟨hresult, hreleased⟩ := hpost n s result hrun
  exact ⟨hresult, hreleased.lists⟩

/-- Where calls do not overlap, `acquire_many::<N>` takes the records of the list
from the front and creates only what is missing, and the array that it returns
can be given back: it then stands before what is left of the list. -/
theorem acquire_many_reuses_before_it_creates (hc : (domain_system Tid).Sequential c)
    (hidle : ∀ t, c.threads t = .idle) {N : Nat} (hN : 1 ≤ N) (t : Tid) (spurious : Nat → Bool) :
    ∃ available, Lists c.shared available ∧
      ((∃ n, ∀ m, n ≤ m → spurious m = false) → ∃ n s result,
        run_choosing (acquire_call N) spurious (c.shared, .next .load_avail) n =
          some (s, .done result)) ∧
      ∀ n s result,
        run_choosing (acquire_call N) spurious (c.shared, .next .load_avail) n =
          some (s, .done result) →
        ∃ records, result = .records records ∧ Acquired c.shared available N records s ∧
          (domain_system Tid).Sequential (c.move t (s, .idle)) ∧
          (∃ n s' result', run_choosing (release_call records) (fun _ => ())
            ({ s with held := s.held.erase records }, .next .check) n =
              some (s', .done result')) ∧
          ∀ n s' result', run_choosing (release_call records) (fun _ => ())
            ({ s with held := s.held.erase records }, .next .check) n =
              some (s', .done result') →
            result' = .released ∧
              Lists s' (records ++ available.drop (min N available.length)) := by
  obtain ⟨available, hlists⟩ := lists_between_calls hc hidle
  obtain ⟨hends, hpost⟩ := acquire_call_ends hlists hN spurious
  refine ⟨available, hlists, hends, fun n s result hrun => ?_⟩
  obtain ⟨records, rfl, hacquired⟩ := hpost n s result hrun
  have hafter := sequential_acquire hc hidle hN t hrun
  have hheld : records ∈ s.held := by
    rw [hacquired.held]
    exact List.mem_cons_self
  exact ⟨records, rfl, hacquired, hafter, released_in_front hafter hacquired.lists hheld⟩

/-- With one record on the list, an array of two takes it and creates the other. -/
theorem acquire_many_reuses_one_of_two : ∃ c : DomainConfig Bool,
    (domain_system Bool).Sequential c ∧ (∀ t, c.threads t = .idle) ∧ Lists c.shared [0] ∧
      ∃ n s, run_choosing (acquire_call 2) (fun _ => false) (c.shared, .next .load_avail) n =
        some (s, .done (.records [0, 1])) ∧ Acquired c.shared [0] 2 [0, 1] s := by
  have hrun : ((domain_system Bool).run_under System.anyStep (domain_system Bool).init
      (acquire_and_release true)).map
      (fun c => (c.threads true, c.threads false, c.shared.avail_head, c.shared.available 0,
        c.shared.created)) = some (.idle, .idle, ⟨some 0, false⟩, none, 1) := by
    decide +kernel
  obtain ⟨c, hc, hseen⟩ := Option.map_eq_some_iff.mp hrun
  simp only [Prod.mk.injEq] at hseen
  obtain ⟨htrue, hfalse, havail, hnull, hcreated⟩ := hseen
  have hseq := System.Sequential.init.run (t := true) (by decide) (fun _ _ => rfl) hc
  have hidle : ∀ t, c.threads t = .idle := Bool.forall_bool.mpr ⟨hfalse, htrue⟩
  obtain ⟨available, hlists, hends, hpost⟩ := acquire_many_reuses_before_it_creates hseq hidle
    (Nat.le_succ 1) true fun _ => false
  have hchain : IsChain c.shared.available c.shared.avail_head.ptr [0] := by
    rw [havail]
    exact ⟨rfl, hnull⟩
  obtain rfl : available = [0] := hlists.chain.unique hchain
  obtain ⟨n, s, result, hcall⟩ := hends ⟨0, fun _ _ => rfl⟩
  obtain ⟨records, rfl, hacquired, -⟩ := hpost n s result hcall
  have hrecords := hacquired.records_eq
  rw [hcreated] at hrecords
  obtain rfl : records = [0, 1] := hrecords
  exact ⟨c, hseq, hidle, hlists, n, s, hcall, hacquired⟩

end calls

end ordinum.hazard
