import Ordinum.Hazard.Records

open interleaving
open linked

namespace ordinum.hazard

open Classical in
/-- The list of available records, which the memory determines. -/
noncomputable def HazPtrRecs.on_list (s : HazPtrRecs) : List RecId :=
  if h : ∃ listed, IsChain s.available s.avail_head.ptr listed then h.choose else []

theorem on_list_eq {s : HazPtrRecs} {listed : List RecId}
    (hlisted : IsChain s.available s.avail_head.ptr listed) : s.on_list = listed := by
  have hexists : ∃ listed, IsChain s.available s.avail_head.ptr listed := ⟨listed, hlisted⟩
  rw [HazPtrRecs.on_list, dif_pos hexists]
  exact hexists.choose_spec.unique hlisted

/-- Where the records are: on the list of available ones or in an array that was
handed out, or in the hands of a thread that acquires them or pushes them back. -/
noncomputable def record_holdings : Holdings HazPtrRecs DomainPc RecId where
  shared := fun s => (s.on_list : Multiset RecId) + s.held.flatten
  thread := fun pc => pc.hand
  created := fun s rec => rec < s.created

section step

variable {s s' : HazPtrRecs} {pc pc' : DomainPc} {listed : List RecId}

theorem DomainMove.moves (hmove : DomainMove s pc s' pc') (hl : RecordsKnown s pc)
    (hlisted : IsChain s.available s.avail_head.ptr listed) (hseparate : Separate s pc listed) :
    ∃ fresh, record_holdings.Moves s pc (s', pc') fresh := by
  obtain ⟨listed', fresh, hlisted', hfresh, hbalance⟩ := hmove.transfers hl hlisted
    hseparate.not_listed fun rec hrec => hseparate.created rec (.inl hrec)
  have hmoved : record_holdings.shared s' + record_holdings.thread pc' =
      record_holdings.shared s + record_holdings.thread pc + fresh := by
    simp only [record_holdings, on_list_eq hlisted, on_list_eq hlisted']
    exact hbalance
  refine ⟨fresh, ?_⟩
  obtain ⟨rfl, hcreated⟩ | ⟨rfl, hcreated⟩ := hfresh
  · refine .of_balance _ ?_ fun rec => ?_
    · rw [hmoved, add_zero]
    · simp only [record_holdings, hcreated]
  · refine ⟨hmoved, Multiset.nodup_singleton _, fun rec hrec => ?_, fun rec => ?_⟩
    · rw [Multiset.mem_singleton.mp hrec]
      exact Nat.lt_irrefl _
    · simp only [record_holdings, hcreated, Multiset.mem_singleton]
      exact Nat.lt_succ_iff_lt_or_eq

end step

/-- No two threads have the list locked. -/
def domain_outline (Tid : Type) : System.Outline Tid HazPtrRecs DomainPc where
  shared := DomainIntact
  thread := fun _ => RecordsKnown
  apart := fun l m => ¬ (l.locks = true ∧ m.locks = true)

variable {Tid : Type} [DecidableEq Tid]

/-- What exclusive ownership says to one thread. -/
theorem separate_of_exclusive {c : DomainConfig Tid} {listed : List RecId}
    (hc : record_holdings.Exclusive c)
    (hlisted : IsChain c.shared.available c.shared.avail_head.ptr listed) (t : Tid) :
    Separate c.shared (c.threads t) listed := by
  have hshared : record_holdings.held c none =
      (listed : Multiset RecId) + c.shared.held.flatten := by
    rw [← on_list_eq hlisted]
    rfl
  have hapart : ∀ rec, rec ∈ record_holdings.held c none → rec ∉ (c.threads t).hand := by
    intro rec hrec hhand
    have hsame : (none : Option Tid) = some t := hc.same_place hrec hhand
    cases hsame
  refine ⟨hc.nodup (some t), fun rec hrec => hapart rec ?_, fun array harray rec hrec =>
    hapart rec ?_, fun rec hrec => ?_⟩
  · rw [hshared]
    exact Multiset.mem_add.mpr (.inl hrec)
  · rw [hshared]
    exact Multiset.mem_add.mpr (.inr (List.mem_flatten.mpr ⟨array, harray, hrec⟩))
  · obtain hrec | hrec | hrec := hrec
    · exact hc.only_created rec none (hshared ▸ Multiset.mem_add.mpr (.inl hrec))
    · exact hc.only_created rec none (hshared ▸ Multiset.mem_add.mpr (.inr hrec))
    · exact hc.only_created rec (some t) hrec

/-- A step leaves to the other threads what they know. -/
theorem DomainMove.other_known {c : DomainConfig Tid} {t u : Tid} {listed : List RecId}
    {s' : HazPtrRecs} {pc' : DomainPc} (hne : t ≠ u)
    (hmove : DomainMove c.shared (c.threads t) s' pc') (hO : (domain_outline Tid).Holds c)
    (hc : record_holdings.Exclusive c)
    (hlisted : IsChain c.shared.available c.shared.avail_head.ptr listed) :
    RecordsKnown s' (c.threads u) := by
  have hm := hO.thread u
  have hmine := separate_of_exclusive hc hlisted t
  refine hm.frame (fun rec hrec => ?_) (fun rec hrec => ?_) fun hlocks => ?_
  · refine hmove.available (fun hhand => ?_) (hc.only_created rec (some u) hrec)
    have hsame : some t = some u := hc.same_place hhand hrec
    exact hne (Option.some.inj hsame)
  · have hmem : rec ∈ listed := by
      generalize c.threads u = m at hm hrec
      unfold DomainPc.walked at hrec
      split at hrec
      · obtain ⟨rest, rfl, -⟩ := hm.2.2.2.2.chain_rest hlisted
        exact List.mem_append_left _ hrec
      · cases hrec
    exact hmove.available (hmine.not_listed rec hmem) (hmine.created rec (.inl hmem))
  · refine hmove.avail_head ?_ (hm.locked hlocks)
    exact Bool.eq_false_iff.mpr fun hother => hO.apart t u hne ⟨hother, hlocks⟩

/-- The list, the lock and the owners of the records hold together in every run
whose locks are on the pointer that was loaded. -/
theorem domain_outline_holds {c : DomainConfig Tid}
    (hc : (domain_system Tid).ReachableUnder locks_loaded c) :
    (domain_outline Tid).Holds c ∧ record_holdings.Exclusive c := by
  refine System.ReachableUnder.induction
    (P := fun c => (domain_outline Tid).Holds c ∧ record_holdings.Exclusive c) ?_ ?_ hc
  · have hlisted : IsChain HazPtrRecs.new.available HazPtrRecs.new.avail_head.ptr [] := rfl
    refine ⟨⟨⟨⟨[], hlisted⟩, nofun, rfl⟩, fun _ => trivial, fun _ _ _ h => nomatch h.1⟩, ?_⟩
    refine ⟨fun rec hrec => absurd hrec (Nat.not_lt_zero _), fun rec place hrec => ?_⟩
    cases place with
    | none =>
      have hshared : record_holdings.held (domain_system Tid).init none = 0 := by
        change ((HazPtrRecs.new.on_list : Multiset RecId) + (HazPtrRecs.new.held.flatten)) = 0
        rw [on_list_eq hlisted]
        rfl
      rw [hshared] at hrec
      exact absurd hrec (Multiset.notMem_zero rec)
    | some t => exact absurd hrec (Multiset.notMem_zero rec)
  · rintro c t a r - ⟨hO, hexclusive⟩ hG hstep
    have hmove := domain_step_move hG hstep
    obtain ⟨listed, hlisted⟩ := hO.shared.listed
    have hseparate := separate_of_exclusive hexclusive hlisted t
    have hl := hO.thread t
    refine ⟨hO.move (hmove.own_intact hO.shared hlisted hseparate hl)
      (hmove.own_known hO.shared hseparate hl) fun u hne => ?_, ?_⟩
    · have hlocks : ¬ (r.2.locks = true ∧ (c.threads u).locks = true) := by
        rintro ⟨ht, hu⟩
        obtain hmine | hfree := hmove.locks ht
        · exact hO.apart t u hne ⟨hmine, hu⟩
        · rw [(hO.thread u).locked hu] at hfree
          cases hfree
      exact ⟨hmove.other_known hne hO hexclusive hlisted, hlocks, fun h => hlocks ⟨h.2, h.1⟩⟩
    · obtain ⟨fresh, hmoves⟩ := hmove.moves hl hlisted hseparate
      exact hexclusive.move hmoves

/-- In every run in which each lock is taken on the pointer that was loaded
before, every record is in one place: on the list of available records once, in
one array that was handed out, or in the hands of one thread. No tagged pointer
is dereferenced, and no assertion fails. -/
theorem records_have_one_owner {c : DomainConfig Tid}
    (hc : (domain_system Tid).ReachableUnder locks_loaded c) :
    record_holdings.Exclusive c ∧
    IsChain c.shared.available c.shared.avail_head.ptr c.shared.on_list ∧
    c.shared.tagged_derefs = 0 ∧
    ∀ t, c.threads t ≠ .undefined ∧ ∀ records, c.threads t ≠ .panicked records := by
  obtain ⟨hO, hexclusive⟩ := domain_outline_holds hc
  obtain ⟨listed, hlisted⟩ := hO.shared.listed
  refine ⟨hexclusive, ?_, hO.shared.derefs, fun t => ⟨fun hpc => ?_, fun records hpc => ?_⟩⟩
  · rw [on_list_eq hlisted]
    exact hlisted
  · have hl := hO.thread t
    rw [hpc] at hl
    exact hl
  · have hl := hO.thread t
    rw [hpc] at hl
    exact hl

/-- A thread acquires a new record and gives it back. -/
def acquire_and_release (t : Bool) : List (Bool × DomainAct) :=
  (t, .acquire_many 1) :: List.replicate 7 (t, .step false) ++
    (t, .release_many [0]) :: List.replicate 4 (t, .step false)

/-- The second thread takes the only record between the first one's load and its
`fetch_or`, which finds the list empty. Where the load falls into the second
one's locked section, the first dereferences a tagged pointer. -/
theorem record_handed_out_twice :
    (∃ c : DomainConfig Bool, (domain_system Bool).Reachable c ∧ ¬ record_holdings.Exclusive c) ∧
    ∃ c : DomainConfig Bool, (domain_system Bool).Reachable c ∧ c.shared.tagged_derefs = 1 := by
  constructor
  · obtain ⟨c, hc, hseen⟩ := System.reachable_showing (domain_system Bool) System.anyStep
      (acquire_and_release true ++ [(true, .acquire_many 1), (true, .step false),
        (false, .acquire_many 1)] ++ List.replicate 7 (false, .step false) ++
        List.replicate 6 (true, .step false))
      (fun c => c.shared.held) [[0], [0]] (by decide +kernel)
    refine ⟨c, hc, fun hexclusive => ?_⟩
    have hheld : c.shared.held.flatten.Nodup :=
      (Multiset.nodup_add.mp (hexclusive.nodup none)).2.1
    rw [hseen] at hheld
    exact absurd hheld (by decide)
  · exact System.reachable_showing (domain_system Bool) System.anyStep
      (acquire_and_release true ++ [(false, .acquire_many 1), (false, .step false),
        (false, .step false), (true, .acquire_many 1), (true, .step false)] ++
        List.replicate 2 (false, .step false) ++ List.replicate 2 (true, .step false))
      (fun c => c.shared.tagged_derefs) 1 (by decide +kernel)

/-- Two threads in `acquire_many` at once: the second finds the list locked, and its new record
is linked after the exchange failed. -/
theorem records_have_one_owner_overlapping : ∃ c : DomainConfig Bool,
    (domain_system Bool).ReachableUnder locks_loaded c ∧
      c.shared.held = [[1], [0, 2]] ∧ record_holdings.Exclusive c := by
  obtain ⟨c, hc, hseen⟩ := System.reachable_showing (domain_system Bool) locks_loaded
    (acquire_and_release true ++ (true, .acquire_many 2) :: (false, .acquire_many 1) ::
      List.replicate 2 (true, .step false) ++ List.replicate 2 (false, .step false) ++
      List.replicate 5 (true, .step false) ++ List.replicate 3 (false, .step false) ++
      List.replicate 5 (true, .step false) ++ List.replicate 5 (false, .step false))
    (fun c => c.shared.held) [[1], [0, 2]] (by decide +kernel)
  exact ⟨c, hc, hseen, (records_have_one_owner hc).1⟩

end ordinum.hazard
