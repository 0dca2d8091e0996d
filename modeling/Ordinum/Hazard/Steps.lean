import Ordinum.Hazard.Domain
import Ordinum.Linked.Segment

open interleaving

namespace ordinum.hazard

/-- Each `fetch_or` that takes the lock locks the pointer that was loaded before
it. -/
def locks_loaded {Tid : Type} : System.StepCondition Tid DomainAct HazPtrRecs DomainPc
  | _, .step _, s, .acquire _ (.fetch_or avail_head) =>
    s.avail_head.locked = false → s.avail_head = avail_head
  | _, _, _, _ => True

instance {Tid : Type} (t : Tid) (a : DomainAct) (s : HazPtrRecs) (pc : DomainPc) :
    Decidable (locks_loaded t a s pc) := by
  unfold locks_loaded
  split <;> infer_instance

/-- What a step that meets the condition can do. -/
inductive DomainMove (s : HazPtrRecs) : DomainPc → HazPtrRecs → DomainPc → Prop
  | acquire_many {N : Nat} (hN : 1 ≤ N) : DomainMove s .idle s (.acquire N .load_avail)
  | release_many {records : List RecId} (hheld : records ∈ s.held) :
      DomainMove s .idle { s with held := s.held.erase records } (.release records .check)
  | none_available {N : Nat} :
      DomainMove s (.acquire N .load_avail) s (.acquire N (.collect none [] []))
  | load_avail {N : Nat} (havail : s.avail_head ≠ .null) :
      DomainMove s (.acquire N .load_avail) s (.acquire N (.fetch_or s.avail_head))
  | spin {N : Nat} {avail_head : TaggedPtr} (hlocked : s.avail_head.locked = true) :
      DomainMove s (.acquire N (.fetch_or avail_head)) s (.acquire N .load_avail)
  | lock {N : Nat} {avail_head : TaggedPtr} (hfree : s.avail_head.locked = false)
      (hsame : s.avail_head = avail_head) :
      DomainMove s (.acquire N (.fetch_or avail_head))
        { s with avail_head := { s.avail_head with locked := true } }
        (.acquire N (.first avail_head))
  | first {N : Nat} {tail : RecId} :
      DomainMove s (.acquire N (.first ⟨some tail, false⟩)) s
        (.acquire N (.walk [tail] (s.available tail)))
  | tagged {N : Nat} {stolen_head : TaggedPtr}
      (htagged : ∀ tail, stolen_head ≠ ⟨some tail, false⟩) :
      DomainMove s (.acquire N (.first stolen_head))
        { s with tagged_derefs := s.tagged_derefs + 1 } .undefined
  | walk {N : Nat} {walked : List RecId} {next : RecId} (hlt : walked.length < N) :
      DomainMove s (.acquire N (.walk walked (some next))) s
        (.acquire N (.walk (walked ++ [next]) (s.available next)))
  | unlock {N : Nat} {walked : List RecId} {next : Option RecId} :
      DomainMove s (.acquire N (.walk walked next)) { s with avail_head := ⟨next, false⟩ }
        (.acquire N (.null_tail walked))
  | null_tail {N : Nat} {walked : List RecId} :
      DomainMove s (.acquire N (.null_tail walked)) (s.store_available walked.getLast? none)
        (.acquire N (.collect walked.head? walked []))
  | take_stolen {N : Nat} {hzd_rec : RecId} {rest taken : List RecId} (hlt : taken.length ≠ N) :
      DomainMove s (.acquire N (.collect (some hzd_rec) rest taken)) s
        (.acquire N (.collect (s.available hzd_rec) rest.tail (taken ++ [hzd_rec])))
  | all_met {N : Nat} {rest taken : List RecId} (hlt : taken.length ≠ N) :
      DomainMove s (.acquire N (.collect none rest taken)) s (.acquire N (.new_rec taken))
  | collected {N : Nat} {head : Option RecId} {rest taken : List RecId} (hN : taken.length = N) :
      DomainMove s (.acquire N (.collect head rest taken)) { s with held := taken :: s.held } .idle
  | new_rec {N : Nat} {taken : List RecId} :
      DomainMove s (.acquire N (.new_rec taken)) s.new_rec
        (.acquire N (.link s.created s.head taken))
  | link {N : Nat} {rec : RecId} {head : Option RecId} {taken : List RecId} :
      DomainMove s (.acquire N (.link rec head taken))
        { s with next := Function.update s.next rec head, head := some rec }
        (.acquire N (.count rec taken))
  | relink {N : Nat} {rec : RecId} {head : Option RecId} {taken : List RecId} :
      DomainMove s (.acquire N (.link rec head taken))
        { s with next := Function.update s.next rec head }
        (.acquire N (.link rec s.head taken))
  | count {N : Nat} {rec : RecId} {taken : List RecId} :
      DomainMove s (.acquire N (.count rec taken)) { s with count := s.count + 1 }
        (.acquire N (.chain rec taken))
  | chain {N : Nat} {rec : RecId} {taken : List RecId} :
      DomainMove s (.acquire N (.chain rec taken))
        (s.store_available taken.getLast? (some rec))
        (.acquire N (.collect none [] (taken ++ [rec])))
  | checked {records : List RecId} :
      DomainMove s (.release records .check) s (.release records .load)
  | panic {records : List RecId}
      (hlinked : ∀ tail, records.getLast? = some tail → s.available tail ≠ none) :
      DomainMove s (.release records .check) s (.panicked records)
  | wait {records : List RecId} : DomainMove s (.release records .load) s (.release records .load)
  | load {records : List RecId} :
      DomainMove s (.release records .load) s (.release records (.link s.avail_head.ptr))
  | link_tail {records : List RecId} {avail : Option RecId} :
      DomainMove s (.release records (.link avail)) (s.store_available records.getLast? avail)
        (.release records (.exchange avail))
  | exchange {records : List RecId} {avail : Option RecId}
      (hsame : s.avail_head = ⟨avail, false⟩) :
      DomainMove s (.release records (.exchange avail))
        { s with avail_head := ⟨records.head?, false⟩ } .idle
  | exchange_fail {records : List RecId} {avail : Option RecId} :
      DomainMove s (.release records (.exchange avail)) s (.release records .load)

section steps

variable {Tid : Type} {t : Tid} {a : DomainAct} {s : HazPtrRecs} {pc : DomainPc}
  {r : HazPtrRecs × DomainPc}

theorem acquire_step_move {N : Nat} {spurious : Bool} {pc : AcquirePc}
    (hG : locks_loaded t (.step spurious) s (.acquire N pc)) :
    DomainMove s (.acquire N pc) (acquire_step N spurious s pc).1
      ((acquire_step N spurious s pc).2.elim (.acquire N) fun
        | .records _ => .idle
        | .undefined => .undefined) := by
  cases pc with
  | load_avail =>
    simp only [acquire_step]
    split
    · exact .none_available
    · exact .load_avail ‹_›
  | fetch_or avail_head =>
    by_cases hlocked : s.avail_head.locked = true
    · have hsame : { s.avail_head with locked := true } = s.avail_head := by
        rw [← hlocked]
      simp only [acquire_step, hsame, hlocked, if_true]
      exact .spin hlocked
    · have hfree : s.avail_head.locked = false := Bool.eq_false_iff.mpr hlocked
      simp only [acquire_step, hfree]
      exact .lock hfree (hG hfree)
  | first stolen_head =>
    simp only [acquire_step]
    split
    · exact .first
    · rename_i hother
      exact .tagged hother
  | walk walked next =>
    cases next with
    | none => exact .unlock
    | some next =>
      simp only [acquire_step]
      split
      · exact .walk ‹_›
      · exact .unlock
  | null_tail => exact .null_tail
  | collect head rest taken =>
    simp only [acquire_step]
    split
    · exact .collected ‹_›
    · cases head with
      | some => exact .take_stolen ‹_›
      | none => exact .all_met ‹_›
  | new_rec => exact .new_rec
  | link rec head taken =>
    simp only [acquire_step]
    split
    · exact .link
    · exact .relink
  | count => exact .count
  | chain => exact .chain

theorem release_step_move {records : List RecId} {pc : ReleasePc} :
    DomainMove s (.release records pc) (release_step records s pc).1
      ((release_step records s pc).2.elim (.release records) fun
        | .released => .idle
        | .panicked => .panicked records) := by
  cases pc with
  | check =>
    simp only [release_step]
    split
    · rename_i tail htail
      split
      · exact .checked
      · rename_i hlinked
        refine .panic fun other hother => ?_
        obtain rfl : tail = other := Option.some.inj (htail.symm.trans hother)
        exact hlinked
    · rename_i hnone
      exact .panic fun tail htail => by rw [hnone] at htail; cases htail
  | load =>
    simp only [release_step]
    split
    · exact .wait
    · exact .load
  | link => exact .link_tail
  | exchange avail =>
    simp only [release_step]
    split
    · exact .exchange ‹_›
    · exact .exchange_fail

theorem domain_step_move (hG : locks_loaded t a s pc) (hstep : domain_step a s pc = some r) :
    DomainMove s pc r.1 r.2 := by
  cases pc with
  | idle =>
    cases a with
    | acquire_many N =>
      simp only [domain_step] at hstep
      split at hstep
      · cases hstep
        exact .acquire_many ‹_›
      · cases hstep
    | release_many records =>
      simp only [domain_step] at hstep
      split at hstep
      · cases hstep
        exact .release_many ‹_›
      · cases hstep
    | step => cases hstep
  | acquire N pc =>
    cases a with
    | step spurious =>
      injection hstep with hr
      subst hr
      exact acquire_step_move hG
    | acquire_many => cases hstep
    | release_many => cases hstep
  | release records pc =>
    cases a with
    | step spurious =>
      injection hstep with hr
      subst hr
      exact release_step_move
    | acquire_many => cases hstep
    | release_many => cases hstep
  | panicked => cases a <;> cases hstep
  | undefined => cases a <;> cases hstep

end steps

end ordinum.hazard
