import Mathlib.Tactic.Abel
import Ordinum.Hazard.Steps
import Ordinum.Interleaving.Ownership

open interleaving
open linked

namespace ordinum.hazard

/-- The records in a thread's hands: those it acquires, from the unlock on, and
those it pushes back. -/
def DomainPc.hand : DomainPc → List RecId
  | .acquire _ (.null_tail walked) => walked
  | .acquire _ (.collect _ rest taken) => taken ++ rest
  | .acquire _ (.new_rec taken) => taken
  | .acquire _ (.link rec _ taken) => taken ++ [rec]
  | .acquire _ (.count rec taken) => taken ++ [rec]
  | .acquire _ (.chain rec taken) => taken ++ [rec]
  | .release records _ => records
  | .panicked records => records
  | _ => []

/-- The records that a thread walks over with the list locked. -/
def DomainPc.walked : DomainPc → List RecId
  | .acquire _ (.walk walked _) => walked
  | _ => []

/-- Where a thread holds the lock of the list. -/
def DomainPc.locks : DomainPc → Bool
  | .acquire _ (.first _) => true
  | .acquire _ (.walk _ _) => true
  | _ => false

section records

variable {s s' : HazPtrRecs} {pc pc' : DomainPc} {listed : List RecId}

/-- What a thread knows of the records that it works on. -/
def RecordsKnown (s : HazPtrRecs) : DomainPc → Prop
  | .idle => True
  | .acquire N pc => 1 ≤ N ∧
    match pc with
    | .load_avail => True
    | .fetch_or avail_head => avail_head ≠ .null
    | .first stolen_head =>
      ∃ tail, stolen_head = ⟨some tail, false⟩ ∧ s.avail_head = ⟨some tail, true⟩
    | .walk walked next =>
      s.avail_head.locked = true ∧ walked ≠ [] ∧ walked.length ≤ N ∧
        IsSegment s.available s.avail_head.ptr walked next
    | .null_tail walked =>
      walked ≠ [] ∧ walked.length ≤ N ∧ ∃ stop, IsSegment s.available walked.head? walked stop
    | .collect head rest taken =>
      (taken ++ rest).length ≤ N ∧ IsSegment s.available (taken ++ rest).head? taken head ∧
        IsChain s.available head rest
    | .new_rec taken => taken.length < N ∧ IsChain s.available taken.head? taken
    | .link rec _ taken | .count rec taken | .chain rec taken =>
      taken.length < N ∧ IsChain s.available taken.head? taken ∧ s.available rec = none
  | .release records pc => records ≠ [] ∧
    match pc with
    | .check => IsChain s.available records.head? records
    | .load | .link _ => ∃ stop, IsSegment s.available records.head? records stop
    | .exchange avail => IsSegment s.available records.head? records avail
  | .panicked _ | .undefined => False

/-- What lies in the domain: the list of available records and the arrays that
are held. -/
structure DomainIntact (s : HazPtrRecs) : Prop where
  listed : ∃ listed, IsChain s.available s.avail_head.ptr listed
  arrays : ∀ array ∈ s.held, array ≠ [] ∧ IsChain s.available array.head? array
  derefs : s.tagged_derefs = 0

theorem store_available_of_notMem {records : List RecId} {rec : RecId} (value : Option RecId)
    (hnot : rec ∉ records) :
    (s.store_available records.getLast? value).available rec = s.available rec := by
  unfold HazPtrRecs.store_available
  split
  · rename_i tail htail
    refine Function.update_of_ne ?_ ..
    rintro rfl
    exact hnot (List.mem_of_getLast? htail)
  · rfl

/-- The store changes nothing but `available`. -/
structure StoresAvailable (s s' : HazPtrRecs) : Prop where
  avail_head : s'.avail_head = s.avail_head
  held : s'.held = s.held
  created : s'.created = s.created
  derefs : s'.tagged_derefs = s.tagged_derefs

theorem store_available_frame (s : HazPtrRecs) (tail value : Option RecId) :
    StoresAvailable s (s.store_available tail value) := by
  unfold HazPtrRecs.store_available
  split <;> exact ⟨rfl, rfl, rfl, rfl⟩

/-- After the store the records end in the new value. -/
theorem segment_store_available {records : List RecId} {start stop : Option RecId}
    (value : Option RecId) (hsegment : IsSegment s.available start records stop)
    (hne : records ≠ []) (hnodup : records.Nodup) :
    IsSegment (s.store_available records.getLast? value).available start records value := by
  obtain ⟨init, tail, rfl⟩ := List.eq_nil_or_concat' records |>.resolve_left hne
  rw [List.getLast?_concat]
  apply hsegment.redirect
  intro hmem
  exact (List.nodup_append.mp hnodup).2.2 tail hmem tail (List.mem_singleton_self tail) rfl

/-- A step writes `available` of records in the thread's hands, and of one that
it creates. -/
theorem DomainMove.available (hmove : DomainMove s pc s' pc') {rec : RecId} (hrec : rec ∉ pc.hand)
    (hold : rec < s.created) : s'.available rec = s.available rec := by
  cases hmove with
  | null_tail | link_tail => exact store_available_of_notMem _ hrec
  | chain => exact store_available_of_notMem _ fun hmem => hrec (List.mem_append_left _ hmem)
  | new_rec => exact Function.update_of_ne (Nat.ne_of_lt hold) ..
  | _ => rfl

/-- A step moves records between the list, the arrays and the thread's hands, and
may create one. -/
def Transfers (s : HazPtrRecs) (pc : DomainPc) (s' : HazPtrRecs) (pc' : DomainPc)
    (listed : List RecId) : Prop :=
  ∃ (listed' : List RecId) (fresh : Multiset RecId),
    IsChain s'.available s'.avail_head.ptr listed' ∧
    (fresh = 0 ∧ s'.created = s.created ∨
      fresh = {s.created} ∧ s'.created = s.created + 1) ∧
    (listed' : Multiset RecId) + s'.held.flatten + pc'.hand =
      (listed : Multiset RecId) + s.held.flatten + pc.hand + fresh

/-- A store to a record in the thread's hands leaves all records where they are. -/
theorem StoresAvailable.transfers (hstore : StoresAvailable s s')
    (hkept : IsChain s'.available s.avail_head.ptr listed) (hhand : pc'.hand = pc.hand) :
    Transfers s pc s' pc' listed := by
  rw [← hstore.avail_head] at hkept
  refine ⟨listed, 0, hkept, .inl ⟨rfl, hstore.created⟩, ?_⟩
  rw [hstore.held, hhand, add_zero]

/-- What a step does to the list, and where the records go. -/
theorem DomainMove.transfers (hmove : DomainMove s pc s' pc') (hl : RecordsKnown s pc)
    (hlisted : IsChain s.available s.avail_head.ptr listed)
    (hapart : ∀ rec ∈ listed, rec ∉ pc.hand) (hcreated : ∀ rec ∈ listed, rec < s.created) :
    Transfers s pc s' pc' listed := by
  have hkept : IsChain s'.available s.avail_head.ptr listed :=
    hlisted.frame fun rec hrec => hmove.available (hapart rec hrec) (hcreated rec hrec)
  cases hmove with
  | @unlock N walked next =>
    obtain ⟨-, -, -, -, hwalked⟩ := hl
    obtain ⟨rest, rfl, hrest⟩ := hwalked.chain_rest hlisted
    refine ⟨rest, 0, hrest, .inl ⟨rfl, rfl⟩, ?_⟩
    simp only [DomainPc.hand, ← Multiset.coe_add, Multiset.coe_nil]
    abel
  | @exchange records avail hsame =>
    obtain ⟨hne, hsegment⟩ := hl
    rw [hsame] at hlisted
    refine ⟨records ++ listed, 0, hsegment.append_chain hlisted, .inl ⟨rfl, rfl⟩, ?_⟩
    simp only [DomainPc.hand, ← Multiset.coe_add, Multiset.coe_nil]
    abel
  | null_tail | link_tail => exact (store_available_frame ..).transfers hkept rfl
  | chain =>
    apply (store_available_frame ..).transfers hkept
    simp [DomainPc.hand]
  | @new_rec N taken =>
    refine ⟨listed, {s.created}, hkept, .inr ⟨rfl, rfl⟩, ?_⟩
    simp only [DomainPc.hand, HazPtrRecs.new_rec, ← Multiset.coe_add, Multiset.coe_singleton]
    abel
  | @release_many records hheld =>
    refine ⟨listed, 0, hkept, .inl ⟨rfl, rfl⟩, ?_⟩
    have hflatten : (s.held.flatten : Multiset RecId) =
        ↑records + (s.held.erase records).flatten := by
      rw [Multiset.coe_add, ← List.flatten_cons]
      exact Multiset.coe_eq_coe.mpr (List.perm_cons_erase hheld).flatten
    simp only [DomainPc.hand, hflatten, Multiset.coe_nil]
    abel
  | @collected N head rest taken hN =>
    obtain ⟨-, hlength, -⟩ := hl
    rw [List.length_append] at hlength
    obtain rfl : rest = [] := List.eq_nil_of_length_eq_zero (by omega)
    refine ⟨listed, 0, hkept, .inl ⟨rfl, rfl⟩, ?_⟩
    simp only [DomainPc.hand, List.flatten_cons, ← Multiset.coe_add, Multiset.coe_nil]
    abel
  | @take_stolen N hzd_rec rest taken =>
    obtain ⟨-, -, -, hrest⟩ := hl
    refine ⟨listed, 0, hkept, .inl ⟨rfl, rfl⟩, ?_⟩
    cases rest with
    | nil => cases hrest
    | cons first rest =>
      obtain rfl : hzd_rec = first := Option.some.inj hrest.1
      simp [DomainPc.hand]
  | @all_met N rest taken =>
    obtain ⟨-, -, -, hrest⟩ := hl
    obtain rfl : rest = [] := List.head?_eq_none_iff.mp hrest.head?.symm
    exact ⟨listed, 0, hkept, .inl ⟨rfl, rfl⟩, by simp [DomainPc.hand]⟩
  | acquire_many | none_available | load_avail | spin | lock | first | tagged | walk | link
  | relink | count | checked | panic | wait | load | exchange_fail =>
    exact ⟨listed, 0, hkept, .inl ⟨rfl, rfl⟩, by simp [DomainPc.hand]⟩

theorem TaggedPtr.pointer_of_unlocked (p : TaggedPtr) (hfree : p.locked = false)
    (hne : p ≠ .null) : ∃ rec, p = ⟨some rec, false⟩ := by
  obtain ⟨_ | rec, locked⟩ := p
  · exact absurd (congrArg (TaggedPtr.mk none) hfree) hne
  · exact ⟨rec, congrArg (TaggedPtr.mk (some rec)) hfree⟩

/-- A thread's records are its own, and all records were created. -/
structure Separate (s : HazPtrRecs) (pc : DomainPc) (listed : List RecId) : Prop where
  nodup : pc.hand.Nodup
  not_listed : ∀ rec ∈ listed, rec ∉ pc.hand
  not_held : ∀ array ∈ s.held, ∀ rec ∈ array, rec ∉ pc.hand
  created : ∀ rec, rec ∈ listed ∨ rec ∈ s.held.flatten ∨ rec ∈ pc.hand → rec < s.created

/-- The last record of an array points to nothing. -/
theorem available_last_of_chain {records : List RecId} {start : Option RecId} {tail : RecId}
    (hchain : IsChain s.available start records) (htail : records.getLast? = some tail) :
    s.available tail = none := by
  obtain ⟨init, rfl⟩ := List.getLast?_eq_some_iff.mp htail
  exact hchain.tail

/-- One more record is hung on the last one of an array. -/
theorem chain_store_available {taken : List RecId} {rec : RecId} (hne : rec ∉ taken)
    (hnodup : taken.Nodup) (hchain : IsChain s.available taken.head? taken)
    (hnull : s.available rec = none) :
    IsChain (s.store_available taken.getLast? (some rec)).available (taken ++ [rec]).head?
      (taken ++ [rec]) := by
  by_cases htaken : taken = []
  · subst htaken
    exact ⟨rfl, hnull⟩
  · have hsegment := segment_store_available (some rec) (isSegment_none.mpr hchain) htaken hnodup
    have hlast := hsegment.snoc
    rw [store_available_of_notMem _ hne, hnull] at hlast
    rw [List.head?_append_of_ne_nil _ htaken]
    exact isSegment_none.mp hlast

theorem known_chain {N : Nat} {rec : RecId} {taken : List RecId} (hne : rec ∉ taken)
    (hnodup : taken.Nodup) (hl : RecordsKnown s (.acquire N (.chain rec taken))) :
    RecordsKnown (s.store_available taken.getLast? (some rec))
      (.acquire N (.collect none [] (taken ++ [rec]))) := by
  obtain ⟨hN, hlt, hchain, hnull⟩ := hl
  refine ⟨hN, ?_, ?_, rfl⟩
  · rw [List.append_nil, List.length_append]
    exact hlt
  · rw [List.append_nil]
    exact isSegment_none.mpr (chain_store_available hne hnodup hchain hnull)

theorem DomainMove.own_known (hmove : DomainMove s pc s' pc') (hs : DomainIntact s)
    (hseparate : Separate s pc listed) (hl : RecordsKnown s pc) : RecordsKnown s' pc' := by
  cases hmove with
  | acquire_many hN => exact ⟨hN, trivial⟩
  | release_many hheld => exact hs.arrays _ hheld
  | none_available => exact ⟨hl.1, Nat.zero_le _, rfl, rfl⟩
  | load_avail havail => exact ⟨hl.1, havail⟩
  | spin => exact ⟨hl.1, trivial⟩
  | @lock N avail_head hfree hsame =>
    obtain ⟨hN, hne⟩ := hl
    obtain ⟨tail, htail⟩ := avail_head.pointer_of_unlocked (hsame ▸ hfree) hne
    refine ⟨hN, tail, htail, ?_⟩
    rw [hsame, htail]
  | first =>
    obtain ⟨hN, tail, heq, havail⟩ := hl
    cases heq
    refine ⟨hN, ?_, List.cons_ne_nil _ _, hN, ?_, rfl⟩ <;> rw [havail]
  | tagged htagged =>
    obtain ⟨-, tail, heq, -⟩ := hl
    exact absurd heq (htagged tail)
  | walk hlt =>
    obtain ⟨hN, hlocked, -, -, hwalked⟩ := hl
    refine ⟨hN, hlocked, by simp, ?_, hwalked.snoc⟩
    rw [List.length_append]
    exact hlt
  | @unlock N walked next =>
    obtain ⟨hN, -, hne, hlen, hwalked⟩ := hl
    refine ⟨hN, hne, hlen, next, ?_⟩
    rw [← hwalked.head? hne]
    exact hwalked
  | @null_tail N walked =>
    obtain ⟨hN, hne, hlen, stop, hwalked⟩ := hl
    exact ⟨hN, hlen, rfl, isSegment_none.mp
      (segment_store_available none hwalked hne hseparate.nodup)⟩
  | @take_stolen N hzd_rec rest taken hlt =>
    obtain ⟨hN, hlen, htaken, hrest⟩ := hl
    cases rest with
    | nil => cases hrest
    | cons first rest =>
      obtain rfl : hzd_rec = first := Option.some.inj hrest.1
      rw [List.append_cons] at hlen htaken
      exact ⟨hN, hlen, htaken.snoc, hrest.2⟩
  | @all_met N rest taken hlt =>
    obtain ⟨hN, hlen, htaken, hrest⟩ := hl
    obtain rfl : rest = [] := List.head?_eq_none_iff.mp hrest.head?.symm
    rw [List.append_nil] at hlen htaken
    exact ⟨hN, Nat.lt_of_le_of_ne hlen hlt, isSegment_none.mp htaken⟩
  | collected => trivial
  | @new_rec N taken =>
    obtain ⟨hN, hlt, hchain⟩ := hl
    refine ⟨hN, hlt, hchain.frame fun rec hrec => ?_, Function.update_self ..⟩
    exact Function.update_of_ne (Nat.ne_of_lt (hseparate.created rec (.inr (.inr hrec)))) ..
  | link | relink | count => exact hl
  | chain =>
    obtain ⟨hnodup, -, hdisjoint⟩ := List.nodup_append.mp hseparate.nodup
    exact known_chain (fun hmem => hdisjoint _ hmem _ (List.mem_singleton_self _) rfl) hnodup hl
  | checked => exact ⟨hl.1, none, isSegment_none.mpr hl.2⟩
  | @panic records hlinked =>
    obtain ⟨hne, hchain⟩ := hl
    obtain ⟨tail, htail⟩ := Option.ne_none_iff_exists'.mp (mt List.getLast?_eq_none_iff.mp hne)
    exact absurd (available_last_of_chain hchain htail) (hlinked tail htail)
  | wait | load => exact hl
  | @link_tail records avail =>
    obtain ⟨hne, stop, hrecords⟩ := hl
    exact ⟨hne, segment_store_available avail hrecords hne hseparate.nodup⟩
  | exchange => trivial
  | exchange_fail => exact ⟨hl.1, _, hl.2⟩

theorem DomainMove.own_intact (hmove : DomainMove s pc s' pc') (hs : DomainIntact s)
    (hlisted : IsChain s.available s.avail_head.ptr listed) (hseparate : Separate s pc listed)
    (hl : RecordsKnown s pc) : DomainIntact s' := by
  obtain ⟨listed', -, hlisted', -⟩ := hmove.transfers hl hlisted hseparate.not_listed
    fun rec hrec => hseparate.created rec (.inl hrec)
  have harrays : ∀ array ∈ s.held, array ≠ [] ∧ IsChain s'.available array.head? array := by
    intro array harray
    obtain ⟨hne, hchain⟩ := hs.arrays array harray
    refine ⟨hne, hchain.frame fun rec hrec => ?_⟩
    exact hmove.available (hseparate.not_held array harray rec hrec)
      (hseparate.created rec (.inr (.inl (List.mem_flatten.mpr ⟨array, harray, hrec⟩))))
  refine ⟨⟨listed', hlisted'⟩, ?_, ?_⟩
  · cases hmove with
    | release_many => exact fun array harray => harrays array (List.mem_of_mem_erase harray)
    | @collected N head rest taken hN =>
      obtain ⟨hpos, hlen, htaken, hrest⟩ := hl
      rw [List.length_append] at hlen
      obtain rfl : rest = [] := List.eq_nil_of_length_eq_zero (by omega)
      obtain rfl : head = none := hrest
      rw [List.append_nil] at htaken
      intro array harray
      obtain rfl | harray := List.mem_cons.mp harray
      · refine ⟨?_, isSegment_none.mp htaken⟩
        rintro rfl
        exact absurd hN (Nat.ne_of_lt hpos)
      · exact harrays array harray
    | null_tail | chain | link_tail =>
      rw [(store_available_frame ..).held]
      exact harrays
    | _ => exact harrays
  · cases hmove with
    | tagged htagged =>
      obtain ⟨-, tail, heq, -⟩ := hl
      exact absurd heq (htagged tail)
    | null_tail | chain | link_tail => exact (store_available_frame ..).derefs.trans hs.derefs
    | _ => exact hs.derefs

/-- A step leaves the head of the list to a thread that has it locked. -/
theorem DomainMove.avail_head (hmove : DomainMove s pc s' pc') (hnot : pc.locks = false)
    (hlocked : s.avail_head.locked = true) : s'.avail_head = s.avail_head := by
  cases hmove with
  | lock hfree =>
    rw [hlocked] at hfree
    cases hfree
  | unlock => cases hnot
  | exchange hsame =>
    rw [hsame] at hlocked
    cases hlocked
  | null_tail | chain | link_tail => exact (store_available_frame ..).avail_head
  | _ => rfl

/-- A thread that has the list locked after a step found it free, or had it. -/
theorem DomainMove.locks (hmove : DomainMove s pc s' pc') (hlocks : pc'.locks = true) :
    pc.locks = true ∨ s.avail_head.locked = false := by
  cases hmove with
  | lock hfree => exact .inr hfree
  | first | walk => exact .inl rfl
  | _ => cases hlocks

theorem RecordsKnown.locked {m : DomainPc} (hm : RecordsKnown s m) (hlocks : m.locks = true) :
    s.avail_head.locked = true := by
  cases m with
  | acquire N m =>
    cases m with
    | first =>
      obtain ⟨-, tail, -, havail⟩ := hm
      rw [havail]
    | walk => exact hm.2.1
    | _ => cases hlocks
  | _ => cases hlocks

/-- What a thread knows survives the steps of the others. -/
theorem RecordsKnown.frame {m : DomainPc} (hm : RecordsKnown s m)
    (hhand : ∀ rec ∈ m.hand, s'.available rec = s.available rec)
    (hwalked : ∀ rec ∈ m.walked, s'.available rec = s.available rec)
    (hlock : m.locks = true → s'.avail_head = s.avail_head) : RecordsKnown s' m := by
  cases m with
  | idle => trivial
  | acquire N m =>
    refine ⟨hm.1, ?_⟩
    have hm := hm.2
    cases m with
    | load_avail => trivial
    | fetch_or => exact hm
    | first =>
      obtain ⟨tail, heq, havail⟩ := hm
      exact ⟨tail, heq, (hlock rfl).trans havail⟩
    | walk =>
      obtain ⟨hlocked, hne, hlen, hsegment⟩ := hm
      rw [← hlock rfl] at hlocked hsegment
      exact ⟨hlocked, hne, hlen, hsegment.frame hwalked⟩
    | null_tail =>
      obtain ⟨hne, hlen, stop, hsegment⟩ := hm
      exact ⟨hne, hlen, stop, hsegment.frame hhand⟩
    | collect =>
      obtain ⟨hlen, htaken, hrest⟩ := hm
      exact ⟨hlen, htaken.frame fun rec hrec => hhand rec (List.mem_append_left _ hrec),
        hrest.frame fun rec hrec => hhand rec (List.mem_append_right _ hrec)⟩
    | new_rec => exact ⟨hm.1, hm.2.frame hhand⟩
    | link | count | chain =>
      obtain ⟨hlt, hchain, hnull⟩ := hm
      refine ⟨hlt, hchain.frame fun rec hrec => hhand rec (List.mem_append_left _ hrec), ?_⟩
      rw [hhand _ (List.mem_append_right _ (List.mem_singleton_self _))]
      exact hnull
  | release records m =>
    refine ⟨hm.1, ?_⟩
    have hm := hm.2
    cases m with
    | check => exact hm.frame hhand
    | load | link =>
      obtain ⟨stop, hsegment⟩ := hm
      exact ⟨stop, hsegment.frame hhand⟩
    | exchange => exact hm.frame hhand
  | panicked | undefined => exact hm

end records

end ordinum.hazard
