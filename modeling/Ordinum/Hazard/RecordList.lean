import Ordinum.Hazard.Domain
import Ordinum.Interleaving.Census
import Ordinum.Linked.Chain

open interleaving
open linked

namespace ordinum.hazard

/-- The record that a thread has created and not linked yet. -/
def DomainPc.linking : DomainPc → Option RecId
  | .acquire _ (.link rec _ _) => some rec
  | _ => none

/-- The records that a thread has pointers to, apart from one that it links. -/
def DomainPc.refers : DomainPc → List RecId
  | .acquire _ (.fetch_or avail_head) | .acquire _ (.first avail_head) => avail_head.ptr.toList
  | .acquire _ (.walk walked next) => next.toList ++ walked
  | .acquire _ (.null_tail walked) => walked
  | .acquire _ (.collect head _ taken) => head.toList ++ taken
  | .acquire _ (.new_rec taken) => taken
  | .acquire _ (.link _ head taken) => head.toList ++ taken
  | .acquire _ (.count rec taken) | .acquire _ (.chain rec taken) => rec :: taken
  | .release records (.link avail) | .release records (.exchange avail) => avail.toList ++ records
  | .release records _ | .panicked records => records
  | _ => []

/-- Linked records that `count` does not count yet. -/
def DomainPc.uncounted : DomainPc → Nat
  | .acquire _ (.count _ _) => 1
  | _ => 0

def DomainPc.unlinked (pc : DomainPc) : Nat := pc.linking.toList.length

/-- Where a pointer to a record may be found. -/
inductive Refers (s : HazPtrRecs) (pc : DomainPc) (rec : RecId) : Prop
  | head (h : s.head = some rec)
  | avail_head (h : s.avail_head.ptr = some rec)
  | available {other : RecId} (h : s.available other = some rec)
  | held {array : List RecId} (harray : array ∈ s.held) (h : rec ∈ array)
  | thread (h : rec ∈ pc.refers)

/-- What a step does to the list of all records. -/
inductive ListMove (s : HazPtrRecs) (pc : DomainPc) (s' : HazPtrRecs) (pc' : DomainPc) : Prop
  | stays (hhead : s'.head = s.head) (hnext : s'.next = s.next) (hcreated : s'.created = s.created)
    (hlinking : pc'.linking = pc.linking)
    (hcount : s'.count + pc'.uncounted = s.count + pc.uncounted)
  | creates (hhead : s'.head = s.head) (hnext : s'.next = Function.update s.next s.created none)
    (hcreated : s'.created = s.created + 1) (hnone : pc.linking = none)
    (hlinking : pc'.linking = some s.created)
    (hcount : s'.count + pc'.uncounted = s.count + pc.uncounted)
  | relinks {rec : RecId} {head : Option RecId} (hlinking : pc.linking = some rec)
    (hlinking' : pc'.linking = some rec) (hhead : s'.head = s.head)
    (hnext : s'.next = Function.update s.next rec head) (hcreated : s'.created = s.created)
    (hcount : s'.count + pc'.uncounted = s.count + pc.uncounted)
  | links {rec : RecId} (hlinking : pc.linking = some rec) (hnone : pc'.linking = none)
    (hhead : s'.head = some rec) (hnext : s'.next = Function.update s.next rec s.head)
    (hcreated : s'.created = s.created)
    (hcount : s'.count + pc'.uncounted = s.count + pc.uncounted + 1)

section steps

variable {s : HazPtrRecs} {rec : RecId} {N : Nat}

/-- A store to `available` leaves the list of all records as it is. -/
theorem store_available_list (s : HazPtrRecs) (tail value : Option RecId) :
    (s.store_available tail value).head = s.head ∧ (s.store_available tail value).next = s.next ∧
      (s.store_available tail value).count = s.count ∧
      (s.store_available tail value).created = s.created := by
  cases tail with
  | none => exact ⟨rfl, rfl, rfl, rfl⟩
  | some tail => exact ⟨rfl, rfl, rfl, rfl⟩

/-- What is referred to afterwards was before, if this goes for every place. -/
theorem Refers.back {s' : HazPtrRecs} {pc pc' : DomainPc} (h : Refers s' pc' rec)
    (hhead : s'.head = some rec → Refers s pc rec)
    (havail_head : s'.avail_head.ptr = some rec → Refers s pc rec)
    (havailable : ∀ other, s'.available other = some rec → Refers s pc rec)
    (hheld : s'.held = s.held) (hpc : rec ∈ pc'.refers → Refers s pc rec) : Refers s pc rec := by
  cases h with
  | head h => exact hhead h
  | avail_head h => exact havail_head h
  | available h => exact havailable _ h
  | held harray h => exact .held (hheld ▸ harray) h
  | thread h => exact hpc h

/-- A step that leaves the available records and the held arrays as they are. -/
theorem Refers.kept {s' : HazPtrRecs} {pc pc' : DomainPc} (h : Refers s' pc' rec)
    (hhead : s'.head = s.head) (havail_head : s'.avail_head.ptr = s.avail_head.ptr)
    (havailable : s'.available = s.available) (hheld : s'.held = s.held)
    (hpc : rec ∈ pc'.refers → Refers s pc rec) : Refers s pc rec :=
  h.back (fun h => .head (hhead ▸ h)) (fun h => .avail_head (havail_head ▸ h))
    (fun _ h => .available (havailable ▸ h)) hheld hpc

/-- A step that leaves the memory as it is. -/
theorem Refers.same {pc pc' : DomainPc} (h : Refers s pc' rec)
    (hpc : rec ∈ pc'.refers → Refers s pc rec) : Refers s pc rec :=
  h.kept rfl rfl rfl rfl hpc

/-- A pointer that is found after a write to `available` was written, or was there. -/
theorem Refers.of_update {pc : DomainPc} {tail other : RecId} {value : Option RecId}
    (h : Function.update s.available tail value other = some rec)
    (hvalue : value = some rec → Refers s pc rec) : Refers s pc rec := by
  by_cases heq : other = tail
  · subst heq
    rw [Function.update_self] at h
    exact hvalue h
  · rw [Function.update_of_ne heq] at h
    exact .available h

/-- After a store to `available`, what was referred to or what was stored is. -/
theorem Refers.stored {pc pc' : DomainPc} {tail value : Option RecId}
    (h : Refers (s.store_available tail value) pc' rec)
    (hvalue : value = some rec → Refers s pc rec) (hpc : rec ∈ pc'.refers → Refers s pc rec) :
    Refers s pc rec := by
  cases tail with
  | none => exact h.same hpc
  | some tail =>
    exact h.back (fun h => .head h) (fun h => .avail_head h)
      (fun _ h => .of_update h hvalue) rfl hpc

theorem acquire_list_move (spurious : Bool) (pc : AcquirePc) :
    ListMove s (.acquire N pc) (acquire_step N spurious s pc).1
      ((acquire_step N spurious s pc).2.elim (.acquire N) fun
        | .records _ => .idle
        | .undefined => .undefined) := by
  cases pc with
  | load_avail | fetch_or =>
    simp only [acquire_step]
    split
    · exact .stays rfl rfl rfl rfl rfl
    · exact .stays rfl rfl rfl rfl rfl
  | first stolen_head =>
    simp only [acquire_step]
    split
    · exact .stays rfl rfl rfl rfl rfl
    · exact .stays rfl rfl rfl rfl rfl
  | walk walked next =>
    cases next with
    | none => exact .stays rfl rfl rfl rfl rfl
    | some next =>
      simp only [acquire_step]
      split
      · exact .stays rfl rfl rfl rfl rfl
      · exact .stays rfl rfl rfl rfl rfl
  | null_tail walked =>
    obtain ⟨hhead, hnext, hcount, hcreated⟩ := store_available_list s walked.getLast? none
    exact .stays hhead hnext hcreated rfl (congrArg (· + 0) hcount)
  | collect head rest taken =>
    simp only [acquire_step]
    split
    · exact .stays rfl rfl rfl rfl rfl
    · cases head with
      | none | some => exact .stays rfl rfl rfl rfl rfl
  | new_rec taken => exact .creates rfl rfl rfl rfl rfl rfl
  | link rec head taken =>
    simp only [acquire_step]
    split
    · rename_i hcas
      obtain ⟨rfl, -⟩ := hcas
      exact .links rfl rfl rfl rfl rfl rfl
    · exact .relinks rfl rfl rfl rfl rfl rfl
  | count rec taken => exact .stays rfl rfl rfl rfl rfl
  | chain rec taken =>
    obtain ⟨hhead, hnext, hcount, hcreated⟩ := store_available_list s taken.getLast? (some rec)
    exact .stays hhead hnext hcreated rfl (congrArg (· + 0) hcount)

theorem release_list_move (records : List RecId) (pc : ReleasePc) :
    ListMove s (.release records pc) (release_step records s pc).1
      ((release_step records s pc).2.elim (.release records) fun
        | .released => .idle
        | .panicked => .panicked records) := by
  cases pc with
  | check =>
    simp only [release_step]
    split
    · split
      · exact .stays rfl rfl rfl rfl rfl
      · exact .stays rfl rfl rfl rfl rfl
    · exact .stays rfl rfl rfl rfl rfl
  | load =>
    simp only [release_step]
    split
    · exact .stays rfl rfl rfl rfl rfl
    · exact .stays rfl rfl rfl rfl rfl
  | link avail =>
    obtain ⟨hhead, hnext, hcount, hcreated⟩ := store_available_list s records.getLast? avail
    exact .stays hhead hnext hcreated rfl (congrArg (· + 0) hcount)
  | exchange avail =>
    simp only [release_step]
    split
    · exact .stays rfl rfl rfl rfl rfl
    · exact .stays rfl rfl rfl rfl rfl

/-- A thread finds the pointers that it goes on with, or has linked the record. -/
theorem acquire_refers (spurious : Bool) {pc : AcquirePc}
    (h : Refers (acquire_step N spurious s pc).1 ((acquire_step N spurious s pc).2.elim (.acquire N)
      fun
        | .records _ => .idle
        | .undefined => .undefined) rec) :
    Refers s (.acquire N pc) rec ∨ (DomainPc.acquire N pc).linking = some rec ∧
      ((acquire_step N spurious s pc).2.elim (.acquire N) fun
        | .records _ => .idle
        | .undefined => .undefined : DomainPc).linking = none := by
  cases pc with
  | load_avail =>
    simp only [acquire_step] at h
    split at h
    · exact .inl (h.same fun h => absurd h List.not_mem_nil)
    · exact .inl (h.same fun h => .avail_head (Option.mem_toList.mp h))
  | fetch_or avail_head =>
    simp only [acquire_step] at h
    split at h
    · exact .inl (h.kept rfl rfl rfl rfl fun h => absurd h List.not_mem_nil)
    · exact .inl (h.kept rfl rfl rfl rfl fun h => .thread h)
  | first stolen_head =>
    simp only [acquire_step] at h
    split at h
    · refine .inl (h.same fun h => ?_)
      obtain h | h := List.mem_append.mp h
      · exact .available (Option.mem_toList.mp h)
      · exact .thread h
    · exact .inl (h.kept rfl rfl rfl rfl fun h => absurd h List.not_mem_nil)
  | walk walked next =>
    cases next with
    | none =>
      exact .inl (h.back (fun h => .head h) (fun h => by cases h) (fun _ h => .available h) rfl
        fun h => .thread h)
    | some next =>
      have hnext : Refers s (.acquire N (.walk walked (some next))) next :=
        .thread List.mem_cons_self
      simp only [acquire_step] at h
      split at h
      · refine .inl (h.same fun h => ?_)
        obtain h | h := List.mem_append.mp h
        · exact .available (Option.mem_toList.mp h)
        · obtain h | h := List.mem_append.mp h
          · exact .thread (List.mem_cons_of_mem _ h)
          · exact List.mem_singleton.mp h ▸ hnext
      · exact .inl (h.back (fun h => .head h) (fun h => Option.some.inj h ▸ hnext)
          (fun _ h => .available h) rfl fun h => .thread (List.mem_cons_of_mem _ h))
  | null_tail walked =>
    refine .inl (Refers.stored h (fun h => by cases h) fun h => ?_)
    obtain h | h := List.mem_append.mp h
    · exact .thread (List.mem_of_mem_head? (Option.mem_toList.mp h))
    · exact absurd h List.not_mem_nil
  | collect head rest taken =>
    simp only [acquire_step] at h
    split at h
    · left
      cases h with
      | head h => exact .head h
      | avail_head h => exact .avail_head h
      | available h => exact .available h
      | held harray h =>
        obtain rfl | harray := List.mem_cons.mp harray
        · exact .thread (List.mem_append_right _ h)
        · exact .held harray h
      | thread h => exact absurd h List.not_mem_nil
    · cases head with
      | none => exact .inl (h.same fun h => .thread h)
      | some hzd_rec =>
        refine .inl (h.same fun h => ?_)
        obtain h | h := List.mem_append.mp h
        · exact .available (Option.mem_toList.mp h)
        · obtain h | h := List.mem_append.mp h
          · exact .thread (List.mem_cons_of_mem _ h)
          · exact .thread (List.mem_singleton.mp h ▸ List.mem_cons_self)
  | new_rec taken =>
    refine .inl (h.back (fun h => .head h) (fun h => .avail_head h) (fun _ h => ?_) rfl fun h => ?_)
    · exact Refers.of_update h fun hnone => by cases hnone
    · obtain h | h := List.mem_append.mp h
      · exact .head (Option.mem_toList.mp h)
      · exact .thread h
  | link new head taken =>
    simp only [acquire_step] at h
    split at h
    · rename_i hcas
      refine or_iff_not_imp_right.mpr fun hother => ?_
      have hlinked : rec = new → Refers s (.acquire N (.link new head taken)) rec := by
        rintro rfl
        refine absurd ⟨rfl, ?_⟩ hother
        simp only [acquire_step, hcas, and_self, if_true]
        rfl
      refine h.back (fun h => hlinked (Option.some.inj h).symm) (fun h => .avail_head h)
        (fun _ h => .available h) rfl fun h => ?_
      obtain h | h := List.mem_cons.mp h
      · exact hlinked h
      · exact .thread (List.mem_append_right _ h)
    · refine .inl (h.kept rfl rfl rfl rfl fun h => ?_)
      obtain h | h := List.mem_append.mp h
      · exact .head (Option.mem_toList.mp h)
      · exact .thread (List.mem_append_right _ h)
  | count new taken =>
    exact .inl (h.kept rfl rfl rfl rfl fun h => .thread h)
  | chain new taken =>
    have hnew : Refers s (.acquire N (.chain new taken)) new := .thread List.mem_cons_self
    refine .inl (Refers.stored h (fun h => Option.some.inj h ▸ hnew) fun h => ?_)
    obtain h | h := List.mem_append.mp h
    · exact absurd h List.not_mem_nil
    · obtain h | h := List.mem_append.mp h
      · exact .thread (List.mem_cons_of_mem _ h)
      · exact List.mem_singleton.mp h ▸ hnew

theorem release_refers {records : List RecId} {pc : ReleasePc}
    (h : Refers (release_step records s pc).1 ((release_step records s pc).2.elim
      (.release records) fun
        | .released => .idle
        | .panicked => .panicked records) rec) : Refers s (.release records pc) rec := by
  cases pc with
  | check =>
    simp only [release_step] at h
    split at h
    · split at h
      · exact h.same fun h => .thread h
      · exact h.same fun h => .thread h
    · exact h.same fun h => .thread h
  | load =>
    simp only [release_step] at h
    split at h
    · exact h.same fun h => .thread h
    · refine h.same fun h => ?_
      obtain h | h := List.mem_append.mp h
      · exact .avail_head (Option.mem_toList.mp h)
      · exact .thread h
  | link avail =>
    refine Refers.stored h (fun h => ?_) fun h => .thread h
    subst h
    exact .thread List.mem_cons_self
  | exchange avail =>
    simp only [release_step] at h
    split at h
    · refine h.back (fun h => .head h) (fun h => ?_) (fun _ h => .available h) rfl
        fun h => absurd h List.not_mem_nil
      exact .thread (List.mem_append_right _ (List.mem_of_mem_head? h))
    · exact h.same fun h => .thread (List.mem_append_right _ h)

theorem domain_list_move {a : DomainAct} {pc : DomainPc} {r : HazPtrRecs × DomainPc}
    (hstep : domain_step a s pc = some r) : ListMove s pc r.1 r.2 := by
  cases pc with
  | idle =>
    cases a with
    | acquire_many | release_many =>
      simp only [domain_step] at hstep
      split at hstep
      · cases hstep
        exact .stays rfl rfl rfl rfl rfl
      · cases hstep
    | step => cases hstep
  | acquire N pc =>
    cases a with
    | step spurious =>
      injection hstep with hr
      subst hr
      exact acquire_list_move spurious pc
    | acquire_many | release_many => cases hstep
  | release records pc =>
    cases a with
    | step =>
      injection hstep with hr
      subst hr
      exact release_list_move records pc
    | acquire_many | release_many => cases hstep
  | panicked | undefined => cases a <;> cases hstep

theorem domain_refers {a : DomainAct} {pc : DomainPc} {r : HazPtrRecs × DomainPc}
    (hstep : domain_step a s pc = some r) (h : Refers r.1 r.2 rec) :
    Refers s pc rec ∨ pc.linking = some rec ∧ r.2.linking = none := by
  cases pc with
  | idle =>
    left
    cases a with
    | acquire_many =>
      simp only [domain_step] at hstep
      split at hstep
      · cases hstep
        exact h.same fun h => absurd h List.not_mem_nil
      · cases hstep
    | release_many records =>
      simp only [domain_step] at hstep
      split at hstep
      · rename_i hheld
        cases hstep
        cases h with
        | head h => exact .head h
        | avail_head h => exact .avail_head h
        | available h => exact .available h
        | held harray h => exact .held (List.mem_of_mem_erase harray) h
        | thread h => exact .held hheld h
      · cases hstep
    | step => cases hstep
  | acquire N pc =>
    cases a with
    | step spurious =>
      injection hstep with hr
      subst hr
      exact acquire_refers spurious h
    | acquire_many | release_many => cases hstep
  | release records pc =>
    cases a with
    | step =>
      injection hstep with hr
      subst hr
      exact .inl (release_refers h)
    | acquire_many | release_many => cases hstep
  | panicked | undefined => cases a <;> cases hstep

variable {s' : HazPtrRecs} {pc pc' : DomainPc} {listed : List RecId}

/-- The list only grows at its head, and `count` and `created` go with it. -/
theorem ListMove.list (hmove : ListMove s pc s' pc') (hlisted : IsChain s.next s.head listed)
    (hcreated : ∀ rec ∈ listed, rec < s.created)
    (hlinking : ∀ rec, pc.linking = some rec → rec ∉ listed) :
    ∃ linked, IsChain s'.next s'.head (linked ++ listed) ∧
      (∀ rec, rec ∈ linked ↔ pc.linking = some rec ∧ pc'.linking = none) ∧
      s'.count + pc'.uncounted = s.count + pc.uncounted + linked.length ∧
      linked.length + pc'.unlinked + s.created = pc.unlinked + s'.created := by
  have hnone : ∀ {rec : RecId}, pc.linking = some rec → pc'.linking = some rec →
      ∀ other, other ∈ ([] : List RecId) ↔ pc.linking = some other ∧ pc'.linking = none := by
    intro rec _ hlinking' other
    simp [hlinking']
  cases hmove with
  | stays hhead hnext hsame hlinking' hcount =>
    refine ⟨[], ?_, fun rec => ?_, hcount, ?_⟩
    · rw [hhead, hnext]
      exact hlisted
    · rw [hlinking']
      refine ⟨fun h => absurd h List.not_mem_nil, fun h => ?_⟩
      rw [h.1] at h
      exact absurd h.2 (Option.some_ne_none rec)
    · simp only [DomainPc.unlinked, hlinking', hsame, List.length_nil]
      omega
  | creates hhead hnext hcreated' hnone hlinking' hcount =>
    refine ⟨[], ?_, fun rec => by simp [hnone], hcount, ?_⟩
    · rw [hhead, hnext]
      exact hlisted.frame fun rec hrec =>
        Function.update_of_ne (Nat.ne_of_lt (hcreated rec hrec)) ..
    · simp only [DomainPc.unlinked, hlinking', hnone, hcreated', Option.toList_some,
        Option.toList_none, List.length_nil, List.length_singleton]
      omega
  | @relinks rec head hmine hlinking' hhead hnext hsame hcount =>
    refine ⟨[], ?_, hnone hmine hlinking', hcount, ?_⟩
    · rw [hhead, hnext]
      refine hlisted.frame fun other hother => Function.update_of_ne ?_ ..
      rintro rfl
      exact hlinking other hmine hother
    · simp only [DomainPc.unlinked, hlinking', hmine, hsame, List.length_nil]
      omega
  | @links rec hmine hnone hhead hnext hsame hcount =>
    refine ⟨[rec], ⟨hhead, ?_⟩, fun other => ?_, hcount, ?_⟩
    · rw [hnext, Function.update_self]
      refine hlisted.frame fun other hother => Function.update_of_ne ?_ ..
      rintro rfl
      exact hlinking other hmine hother
    · simp only [hmine, hnone, List.mem_singleton, Option.some.injEq, and_true]
      exact eq_comm
    · simp only [DomainPc.unlinked, hnone, hmine, hsame, Option.toList_some, Option.toList_none,
        List.length_nil, List.length_singleton]

end steps

/-- What holds of the list of all records: it leads to every record that something
points to, and to all that were created but those that threads link. -/
structure RecordsListed {Tid : Type} (c : DomainConfig Tid) (listed : List RecId) : Prop where
  chain : IsChain c.shared.next c.shared.head listed
  created : ∀ rec ∈ listed, rec < c.shared.created
  held : ∀ array ∈ c.shared.held, ∀ rec ∈ array, rec ∈ listed
  refers : ∀ t rec, Refers c.shared (c.threads t) rec → rec ∈ listed
  complete : ∀ rec, rec < c.shared.created → rec ∈ listed ∨ ∃ t, (c.threads t).linking = some rec
  linking : ∀ t rec, (c.threads t).linking = some rec → rec < c.shared.created ∧ rec ∉ listed
  apart : ∀ t u rec, t ≠ u → (c.threads t).linking = some rec → (c.threads u).linking ≠ some rec

section runs

variable {Tid : Type} [DecidableEq Tid] {c : DomainConfig Tid} {listed : List RecId}

/-- A thread links the record that it linked before, or the one that it creates. -/
theorem ListMove.linking {s s' : HazPtrRecs} {pc pc' : DomainPc} {rec : RecId}
    (hmove : ListMove s pc s' pc') (hlinking : pc'.linking = some rec) :
    pc.linking = some rec ∨ rec = s.created ∧ s'.created = s.created + 1 := by
  cases hmove with
  | stays _ _ _ hsame => exact .inl (hsame.symm.trans hlinking)
  | creates _ _ hcreated _ hnew =>
    exact .inr ⟨Option.some.inj (hlinking.symm.trans hnew), hcreated⟩
  | relinks hmine hsame => exact .inl (hmine.trans (hsame.symm.trans hlinking))
  | links _ hnone =>
    rw [hnone] at hlinking
    cases hlinking

theorem ListMove.created_le {s s' : HazPtrRecs} {pc pc' : DomainPc}
    (hmove : ListMove s pc s' pc') : s.created ≤ s'.created := by
  cases hmove with
  | stays _ _ hcreated | relinks _ _ _ _ hcreated | links _ _ _ _ hcreated =>
    exact Nat.le_of_eq hcreated.symm
  | creates _ _ hcreated => exact hcreated ▸ Nat.le_succ _

/-- A record that exists after a step existed before, or the thread links it. -/
theorem ListMove.created_cases {s s' : HazPtrRecs} {pc pc' : DomainPc} {rec : RecId}
    (hmove : ListMove s pc s' pc') (hlt : rec < s'.created) :
    rec < s.created ∨ pc'.linking = some rec := by
  cases hmove with
  | stays _ _ hcreated | relinks _ _ _ _ hcreated | links _ _ _ _ hcreated =>
    exact .inl (hcreated ▸ hlt)
  | creates _ _ hcreated _ hlinking =>
    rw [hcreated] at hlt
    obtain hlt | rfl := Nat.lt_succ_iff_lt_or_eq.mp hlt
    · exact .inl hlt
    · exact .inr hlinking

/-- A record that a thread links it goes on to link, or it has linked it. -/
theorem ListMove.linking_or {s s' : HazPtrRecs} {pc pc' : DomainPc} {rec : RecId}
    (hmove : ListMove s pc s' pc') (hlinking : pc.linking = some rec) :
    pc'.linking = some rec ∨ pc'.linking = none := by
  cases hmove with
  | stays _ _ _ hsame => exact .inl (hsame.trans hlinking)
  | creates _ _ _ hnone =>
    rw [hnone] at hlinking
    cases hlinking
  | relinks hmine hsame => exact .inl (hsame.trans (hmine.symm.trans hlinking))
  | links _ hnone => exact .inr hnone

/-- What the other threads point to is still listed, and so is what was linked. -/
theorem RecordsListed.step {t : Tid} {a : DomainAct} {r : HazPtrRecs × DomainPc}
    (h : RecordsListed c listed) (hstep : domain_step a c.shared (c.threads t) = some r) :
    ∃ linked, RecordsListed (c.move t r) (linked ++ listed) ∧
      r.1.count + r.2.uncounted =
        c.shared.count + (c.threads t).uncounted + linked.length ∧
      linked.length + r.2.unlinked + c.shared.created =
        (c.threads t).unlinked + r.1.created := by
  have hmove := domain_list_move hstep
  have hgrows := hmove.created_le
  obtain ⟨linked, hchain, hlinked, hcount, hunlinked⟩ :=
    hmove.list h.chain h.created fun rec hrec => (h.linking t rec hrec).2
  have hmine : ∀ rec, Refers r.1 r.2 rec → rec ∈ linked ++ listed := by
    intro rec hrec
    obtain hrec | hrec := domain_refers hstep hrec
    · exact List.mem_append_right _ (h.refers t rec hrec)
    · exact List.mem_append_left _ ((hlinked rec).mpr hrec)
  have hnew : ∀ rec, r.2.linking = some rec → rec < r.1.created ∧ rec ∉ linked ++ listed := by
    intro rec hrec
    have hnot : rec ∉ linked := by
      intro hmem
      rw [((hlinked rec).mp hmem).2] at hrec
      cases hrec
    obtain hold | ⟨rfl, hcreated⟩ := hmove.linking hrec
    · obtain ⟨hlt, hlisted⟩ := h.linking t rec hold
      exact ⟨hlt.trans_le hgrows, List.mem_append.not.mpr (not_or.mpr ⟨hnot, hlisted⟩)⟩
    · refine ⟨hcreated ▸ Nat.lt_succ_self _, List.mem_append.not.mpr (not_or.mpr ⟨hnot, ?_⟩)⟩
      exact fun hmem => absurd (h.created _ hmem) (Nat.lt_irrefl _)
  have hothers : ∀ u rec, u ≠ t → r.2.linking = some rec → (c.threads u).linking ≠ some rec := by
    intro u rec hne hrec hu
    obtain hold | ⟨rfl, -⟩ := hmove.linking hrec
    · exact h.apart u t rec hne hu hold
    · exact absurd (h.linking u _ hu).1 (Nat.lt_irrefl _)
  refine ⟨linked, ⟨hchain, fun rec hrec => ?_,
    fun array harray rec hrec => hmine rec (.held harray hrec),
    fun u rec hrec => ?_, fun rec hrec => ?_, fun u rec hrec => ?_, fun u v rec hne hu => ?_⟩,
    hcount, hunlinked⟩
  · obtain hrec | hrec := List.mem_append.mp hrec
    · exact (h.linking t rec ((hlinked rec).mp hrec).1).1.trans_le hgrows
    · exact (h.created rec hrec).trans_le hgrows
  · by_cases hut : u = t
    · subst hut
      rw [Config.move_threads_self] at hrec
      exact hmine rec hrec
    · rw [c.move_threads_of_ne r hut] at hrec
      cases hrec with
      | head h => exact hmine rec (.head h)
      | avail_head h => exact hmine rec (.avail_head h)
      | available h => exact hmine rec (.available h)
      | held harray h => exact hmine rec (.held harray h)
      | thread hmem => exact List.mem_append_right _ (h.refers u rec (.thread hmem))
  · obtain hold | hcreated := hmove.created_cases hrec
    · obtain hlisted | ⟨u, hu⟩ := h.complete rec hold
      · exact .inl (List.mem_append_right _ hlisted)
      · by_cases hut : u = t
        · subst hut
          obtain hon | hnone := hmove.linking_or hu
          · exact .inr ⟨u, by rw [Config.move_threads_self]; exact hon⟩
          · exact .inl (List.mem_append_left _ ((hlinked rec).mpr ⟨hu, hnone⟩))
        · exact .inr ⟨u, by rw [c.move_threads_of_ne r hut]; exact hu⟩
    · exact .inr ⟨t, by rw [Config.move_threads_self]; exact hcreated⟩
  · by_cases hut : u = t
    · subst hut
      rw [Config.move_threads_self] at hrec
      exact hnew rec hrec
    · rw [c.move_threads_of_ne r hut] at hrec
      obtain ⟨hlt, hlisted⟩ := h.linking u rec hrec
      refine ⟨hlt.trans_le hgrows, List.mem_append.not.mpr (not_or.mpr ⟨fun hmem => ?_, hlisted⟩)⟩
      exact h.apart u t rec hut hrec ((hlinked rec).mp hmem).1
  · by_cases hut : u = t
    · subst hut
      rw [Config.move_threads_self] at hu
      rw [c.move_threads_of_ne r hne.symm]
      exact hothers v rec hne.symm hu
    · rw [c.move_threads_of_ne r hut] at hu
      by_cases hvt : v = t
      · subst hvt
        rw [Config.move_threads_self]
        exact fun hv => hothers u rec hut hv hu
      · rw [c.move_threads_of_ne r hvt]
        exact h.apart u v rec hne hu

theorem records_listed (hc : (domain_system Tid).Reachable c) :
    ∃ listed, RecordsListed c listed := by
  refine System.ReachableUnder.induction (P := fun c => ∃ listed, RecordsListed c listed) ?_ ?_ hc
  · refine ⟨[], rfl, fun rec hrec => ?_, fun array harray => ?_, fun t rec hrec => ?_,
      fun rec hrec => absurd hrec (Nat.not_lt_zero rec), fun t rec h => ?_, fun t u rec hne h => ?_⟩
    · exact absurd hrec List.not_mem_nil
    · exact absurd harray List.not_mem_nil
    · cases hrec with
      | head h | avail_head h | available h => cases h
      | held h | thread h => exact absurd h List.not_mem_nil
    · cases h
    · cases h
  · rintro c t a r - ⟨listed, hlisted⟩ - hstep
    obtain ⟨linked, hlinked, -⟩ := hlisted.step hstep
    exact ⟨_, hlinked⟩

/-- Whatever is listed once is listed ever after, behind what is linked later. -/
theorem records_list_grows {d : DomainConfig Tid} (hc : (domain_system Tid).Reachable c)
    (hsteps : (domain_system Tid).Steps c d) :
    ∀ listed, RecordsListed c listed → ∃ linked, RecordsListed d (linked ++ listed) := by
  refine hsteps.related (R := fun c d => ∀ listed, RecordsListed c listed →
    ∃ linked, RecordsListed d (linked ++ listed)) ?_ ?_ hc ?_
  · exact fun c listed hlisted => ⟨[], hlisted⟩
  · intro c d e hcd hde listed hlisted
    obtain ⟨linked, hlinked⟩ := hcd listed hlisted
    obtain ⟨later, hlater⟩ := hde _ hlinked
    exact ⟨later ++ linked, by rwa [List.append_assoc]⟩
  · intro c t a r _ _ hstep listed hlisted
    obtain ⟨linked, hlinked, -⟩ := hlisted.step hstep
    exact ⟨linked, hlinked⟩

/-- `count` counts the records of the list, up to those just linked, and all
records but those that threads link are on the list. -/
theorem records_counted [Fintype Tid] (hc : (domain_system Tid).Reachable c) :
    ∃ listed, RecordsListed c listed ∧
      c.shared.count + c.total DomainPc.uncounted = listed.length ∧
      listed.length + c.total DomainPc.unlinked = c.shared.created := by
  refine System.ReachableUnder.induction (P := fun c => ∃ listed, RecordsListed c listed ∧
    c.shared.count + c.total DomainPc.uncounted = listed.length ∧
    listed.length + c.total DomainPc.unlinked = c.shared.created) ?_ ?_ hc
  · obtain ⟨listed, hlisted⟩ := records_listed (c := (domain_system Tid).init) .init
    obtain rfl : listed = [] := hlisted.chain.unique rfl
    refine ⟨[], hlisted, ?_, ?_⟩
    · rw [System.total_init _ rfl]
      rfl
    · rw [System.total_init _ rfl]
      rfl
  · rintro c t a r - ⟨listed, hlisted, hcount, hcreated⟩ - hstep
    obtain ⟨linked, hlinked, hcounted, hunlinked⟩ := hlisted.step hstep
    have huncounted := c.total_move DomainPc.uncounted t r
    have hlinking := c.total_move DomainPc.unlinked t r
    refine ⟨_, hlinked, ?_, ?_⟩
    · rw [List.length_append, Config.move_shared]
      omega
    · rw [List.length_append, Config.move_shared]
      omega

/-- In every run, on any schedule, `head` leads to all records that were created but those
that threads are linking, each once: whatever the list of available records, an array or a
thread points to is met, and no later step takes a record off the list. -/
theorem records_stay_listed [Fintype Tid] {d : DomainConfig Tid}
    (hc : (domain_system Tid).Reachable c) (hsteps : (domain_system Tid).Steps c d) :
    ∃ listed linked,
      IsChain c.shared.next c.shared.head listed ∧
      IsChain d.shared.next d.shared.head (linked ++ listed) ∧
      (∀ t rec, Refers c.shared (c.threads t) rec → rec ∈ listed) ∧
      (linked ++ listed).Nodup ∧
      c.shared.count + c.total DomainPc.uncounted = listed.length ∧
      listed.length + c.total DomainPc.unlinked = c.shared.created ∧
      ∀ rec, rec ∈ listed ↔
        rec < c.shared.created ∧ ∀ t, (c.threads t).linking ≠ some rec := by
  obtain ⟨listed, hlisted, hcount, hcreated⟩ := records_counted hc
  obtain ⟨linked, hlinked⟩ := records_list_grows hc hsteps listed hlisted
  refine ⟨listed, linked, hlisted.chain, hlinked.chain, hlisted.refers, hlinked.chain.nodup,
    hcount, hcreated, fun rec => ⟨fun hrec => ?_, fun hall => ?_⟩⟩
  · exact ⟨hlisted.created rec hrec, fun t ht => (hlisted.linking t rec ht).2 hrec⟩
  · obtain hrec | ⟨t, ht⟩ := hlisted.complete rec hall.1
    · exact hrec
    · exact absurd ht (hall.2 t)

end runs

/-- One thread holds the second record while the other, whose exchange fails once,
links the first one. -/
theorem records_stay_listed_shared : ∃ c d : DomainConfig Bool,
    ((domain_system Bool).Reachable c ∧ (domain_system Bool).Steps c d) ∧
    (c.shared.held, d.shared.head) = ([[1]], some 0) ∧
    ∃ listed linked,
      IsChain c.shared.next c.shared.head listed ∧
      IsChain d.shared.next d.shared.head (linked ++ listed) ∧
      1 ∈ listed ∧ (linked ++ listed).Nodup := by
  obtain ⟨c, d, hc, hsteps, hseen⟩ := System.steps_showing (domain_system Bool) System.anyStep
    System.anyStep
    ((true, .acquire_many 1) :: (false, .acquire_many 1) :: List.replicate 3 (false, .step false) ++
      List.replicate 7 (true, .step false))
    (List.replicate 2 (false, .step false))
    (fun c d => (c.shared.held, d.shared.head)) ([[1]], some 0) (by decide +kernel)
  obtain ⟨listed, linked, hlisted, hlinked, hrefers, hnodup, -⟩ := records_stay_listed hc hsteps
  have hheld : c.shared.held = [[1]] := congrArg Prod.fst hseen
  refine ⟨c, d, ⟨hc, hsteps⟩, hseen, listed, linked, hlisted, hlinked, ?_, hnodup⟩
  exact hrefers true 1 (.held (hheld ▸ List.mem_singleton_self _) (List.mem_singleton_self _))

end ordinum.hazard
