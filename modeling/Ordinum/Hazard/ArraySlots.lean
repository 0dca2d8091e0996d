import Ordinum.Hazard.Arrays
import Ordinum.Hazard.Ownership
import Ordinum.Hazard.RecordList
import Ordinum.Hazard.Validation
import Ordinum.Interleaving.Simulation

open interleaving
open interleaving.System
open linked

namespace ordinum.hazard

variable {Tid Src Ptr : Type}

/-- What a thread does in the domain. -/
def ArrayPc.in_domain : ArrayPc Src Ptr → DomainPc
  | .domain pc => pc
  | .protect _ _ _ _ _ | .reset _ _ _ => .idle

/-- The array that a call has. -/
def ArrayPc.borrows : ArrayPc Src Ptr → Option (List RecId)
  | .domain _ => none
  | .protect array _ _ _ _ | .reset array _ _ => some array

/-- The slot that a thread is about to protect a pointer with. -/
def ArrayPc.current : ArrayPc Src Ptr → Option RecId
  | .protect _ hzdptr _ _ _ => some hzdptr
  | .domain _ | .reset _ _ _ => none

/-- Each lock of the available records is taken on the pointer that was loaded. -/
def array_locks_loaded :
    StepCondition Tid (ArrayAct Src Ptr) (ArrayMemory Src Ptr) (ArrayPc Src Ptr)
  | t, .step spurious, s, .domain pc => locks_loaded t (.step spurious) s.domain pc
  | _, _, _, _ => True

instance (t : Tid) : (a : ArrayAct Src Ptr) → (s : ArrayMemory Src Ptr) → (l : ArrayPc Src Ptr) →
    Decidable (array_locks_loaded t a s l)
  | .step spurious, s, .domain pc =>
    inferInstanceAs (Decidable (locks_loaded t (.step spurious) s.domain pc))
  | .step _, _, .protect .. | .step _, _, .reset .. | .many_in_domain _, _, _
  | .protect_all .., _, _ | .reset_protection _, _, _ | .drop _, _, _ | .store .., _, _ =>
    .isTrue trivial

/-- An array that no call had is borrowed. -/
def ArrayMemory.lend (s : ArrayMemory Src Ptr) (array : List RecId) : ArrayMemory Src Ptr :=
  { s with borrowed := array :: s.borrowed }

section steps

variable {s s' : ArrayMemory Src Ptr} {l l' : ArrayPc Src Ptr}

theorem borrow_eq_some {array : List RecId} (h : s.borrow array = some s') :
    array ∈ s.domain.held ∧ array ∉ s.borrowed ∧ s' = s.lend array := by
  unfold ArrayMemory.borrow at h
  split at h
  · rename_i hfree
    simp only [Bool.and_eq_true, List.contains_iff_mem, Bool.not_eq_true', ← Bool.not_eq_true]
      at hfree
    exact ⟨hfree.1, hfree.2, (Option.some.inj h).symm⟩
  · cases h

theorem protect_all_next_domain (s : ArrayMemory Src Ptr) (array : List RecId)
    (targets : List (RecId × Src)) :
    (protect_all_next s array targets).1.domain = s.domain ∧
      (protect_all_next s array targets).2.in_domain = .idle := by
  cases targets with
  | nil | cons => exact ⟨rfl, rfl⟩

variable [DecidableEq Ptr]

/-- `protect_ptr` returns what it has found twice. -/
theorem protect_step_done {hzdptr : RecId} {src : Src} {hazards hazards' : HazardMemory Src Ptr}
    {pc : ProtectPc Ptr} {result : Option Ptr}
    (h : protect_step hzdptr src hazards pc = (hazards', .done result)) :
    pc = .compare result result ∧ hazards' = hazards := by
  cases pc with
  | compare ptr re_check_src =>
    simp only [protect_step] at h
    split at h
    · rename_i hsame
      subst hsame
      cases h
      exact ⟨rfl, rfl⟩
    · cases h
  | load | protect | re_check | reset => cases h

variable [DecidableEq Src]

/-- What a step that meets the condition can do. -/
inductive ArrayMove (t : Tid) (s : ArrayMemory Src Ptr) :
    ArrayPc Src Ptr → ArrayMemory Src Ptr → ArrayPc Src Ptr → Prop
  | domain {a : DomainAct} {pc : DomainPc} {r : HazPtrRecs × DomainPc}
    (ha : ∀ records, a ≠ .release_many records) (hG : locks_loaded t a s.domain pc)
    (hstep : domain_step a s.domain pc = some r) :
    ArrayMove t s (.domain pc) { s with domain := r.1 } (.domain r.2)
  | protect_all {array : List RecId} {targets : List (RecId × Src)} (hheld : array ∈ s.domain.held)
    (hfree : array ∉ s.borrowed) (htargets : ∀ target ∈ targets, target.1 ∈ array) :
    ArrayMove t s (.domain .idle) (protect_all_next (s.lend array) array targets).1
      (protect_all_next (s.lend array) array targets).2
  | reset_protection {array : List RecId} {drops : Bool} (hheld : array ∈ s.domain.held)
    (hfree : array ∉ s.borrowed) :
    ArrayMove t s (.domain .idle) (s.lend array) (.reset array array drops)
  | store {src : Src} {value : Option Ptr} :
    ArrayMove t s (.domain .idle) { s with hazards := s.hazards.store src value } (.domain .idle)
  | protect {array : List RecId} {hzdptr : RecId} {src : Src} {rest : List (RecId × Src)}
    {pc pc' : ProtectPc Ptr} {hazards : HazardMemory Src Ptr}
    (hstep : protect_step hzdptr src s.hazards pc = (hazards, .next pc')) :
    ArrayMove t s (.protect array hzdptr src rest pc) { s with hazards }
      (.protect array hzdptr src rest pc')
  | confirmed {array : List RecId} {hzdptr : RecId} {src : Src} {rest : List (RecId × Src)}
    {result : Option Ptr} :
    ArrayMove t s (.protect array hzdptr src rest (.compare result result))
      (protect_all_next s array rest).1 (protect_all_next s array rest).2
  | reset {array : List RecId} {hzdptr : RecId} {rest : List RecId} {drops : Bool} :
    ArrayMove t s (.reset array (hzdptr :: rest) drops)
      { s with hazards := s.hazards.set hzdptr none } (.reset array rest drops)
  | give_back {array : List RecId} :
    ArrayMove t s (.reset array [] false) (s.give_back array) (.domain .idle)
  | release {array : List RecId} (hheld : array ∈ s.domain.held) :
    ArrayMove t s (.reset array [] true)
      { s.give_back array with domain := { s.domain with held := s.domain.held.erase array } }
      (.domain (.release array .check))

theorem array_step_move {t : Tid} {a : ArrayAct Src Ptr} {r : ArrayMemory Src Ptr × ArrayPc Src Ptr}
    (hG : array_locks_loaded t a s l) (hstep : array_step a s l = some r) :
    ArrayMove t s l r.1 r.2 := by
  have hdomain : ∀ {a pc}, (∀ records, a ≠ .release_many records) →
      locks_loaded t a s.domain pc → s.domain_step a pc = some r →
      ArrayMove t s (.domain pc) r.1 r.2 := by
    intro a pc ha hG hstep
    obtain ⟨r', hr', rfl⟩ := Option.map_eq_some_iff.mp hstep
    exact .domain ha hG hr'
  cases l with
  | domain pc =>
    cases a with
    | step spurious => exact hdomain (by intro _ h; cases h) hG hstep
    | many_in_domain N =>
      cases pc with
      | idle =>
        have hG : locks_loaded t (.acquire_many N) s.domain .idle := trivial
        exact hdomain (by intro _ h; cases h) hG hstep
      | _ => cases hstep
    | protect_all array sources =>
      cases pc with
      | idle =>
        simp only [array_step] at hstep
        split at hstep
        · obtain ⟨s', hs', rfl⟩ := Option.map_eq_some_iff.mp hstep
          obtain ⟨hheld, hfree, rfl⟩ := borrow_eq_some hs'
          exact .protect_all hheld hfree fun target htarget => (List.of_mem_zip htarget).1
        · cases hstep
      | _ => cases hstep
    | reset_protection array | drop array =>
      cases pc with
      | idle =>
        obtain ⟨s', hs', rfl⟩ := Option.map_eq_some_iff.mp hstep
        obtain ⟨hheld, hfree, rfl⟩ := borrow_eq_some hs'
        exact .reset_protection hheld hfree
      | _ => cases hstep
    | store src value =>
      cases pc with
      | idle =>
        cases hstep
        exact .store
      | _ => cases hstep
  | protect array hzdptr src rest pc =>
    cases a with
    | step spurious =>
      simp only [array_step] at hstep
      cases hprogress : protect_step hzdptr src s.hazards pc with
      | mk hazards progress =>
        rw [hprogress] at hstep
        cases progress with
        | next pc' =>
          cases hstep
          exact .protect hprogress
        | done result =>
          obtain ⟨rfl, rfl⟩ := protect_step_done hprogress
          cases hstep
          exact .confirmed
    | _ => cases hstep
  | reset array rest drops =>
    cases a with
    | step spurious =>
      cases rest with
      | cons hzdptr rest =>
        cases hstep
        exact .reset
      | nil =>
        cases drops with
        | false =>
          cases hstep
          exact .give_back
        | true =>
          obtain ⟨r', hr', rfl⟩ := Option.map_eq_some_iff.mp hstep
          simp only [domain_step] at hr'
          split at hr'
          · rename_i hheld
            cases hr'
            exact .release hheld
          · cases hr'
    | _ => cases hstep

/-- What a step does to the domain is a step of it, or nothing. -/
theorem ArrayMove.domain_part {t : Tid} (hmove : ArrayMove t s l s' l') :
    s'.domain = s.domain ∧ l'.in_domain = l.in_domain ∨
      ∃ a, locks_loaded t a s.domain l.in_domain ∧
        domain_step a s.domain l.in_domain = some (s'.domain, l'.in_domain) := by
  cases hmove with
  | domain _ hG hstep => exact .inr ⟨_, hG, hstep⟩
  | @protect_all array targets => exact .inl (protect_all_next_domain (s.lend array) array targets)
  | @confirmed array _ _ rest => exact .inl (protect_all_next_domain s array rest)
  | @release array hheld =>
    have hG : locks_loaded t (.release_many array) s.domain .idle := trivial
    refine .inr ⟨_, hG, ?_⟩
    simp only [ArrayPc.in_domain, domain_step, if_pos hheld]
  | reset_protection | store | protect | reset | give_back => exact .inl ⟨rfl, rfl⟩

/-- What the arrays do to the domain, threads of the domain do. -/
theorem arrays_contain_domain {sources : Src → Option Ptr} :
    (array_system Tid sources).Contains (domain_system Tid) array_locks_loaded locks_loaded
      ArrayMemory.domain ArrayPc.in_domain := by
  intro t a s l r hG hr
  exact (array_step_move hG hr).domain_part

/-- Without a release, the arrays that are held stay so. -/
theorem domain_step_held {t : Tid} {a : DomainAct} {s s' : HazPtrRecs} {pc pc' : DomainPc}
    (ha : ∀ records, a ≠ .release_many records) (hG : locks_loaded t a s pc)
    (hstep : domain_step a s pc = some (s', pc')) : ∀ array ∈ s.held, array ∈ s'.held := by
  have hmove : DomainMove s pc s' pc' := domain_step_move hG hstep
  intro array harray
  cases hmove with
  | release_many =>
    cases a with
    | release_many records => exact absurd rfl (ha records)
    | acquire_many N =>
      simp only [domain_step] at hstep
      split at hstep
      · have hpc := congrArg Prod.snd (Option.some.inj hstep)
        cases hpc
      · cases hstep
    | step => cases hstep
  | collected => exact List.mem_cons_of_mem _ harray
  | null_tail | chain | link_tail =>
    rw [(store_available_frame ..).held]
    exact harray
  | _ => exact harray

end steps

/-- What a call knows of the slot that it protects. -/
def ProtectKnown (s : HazardMemory Src Ptr × Moments Src Ptr) (hzdptr : RecId) (src : Src) :
    ProtectPc Ptr → Prop
  | .re_check ptr => s.1.ptr hzdptr = ptr
  | .compare ptr re_check_src =>
    s.1.ptr hzdptr = ptr ∧ ∃ moment ∈ s.2 hzdptr, moment src = re_check_src
  | .load | .protect _ | .reset _ => True

/-- The slots that a call has still to set. -/
def ArrayPc.pending : ArrayPc Src Ptr → List RecId
  | .domain _ => []
  | .protect _ hzdptr _ rest _ => hzdptr :: rest.map Prod.fst
  | .reset _ rest _ => rest

/-- The owner of the slot was told what it protects: the pointer that it holds, which the
source has held since the slot was set. -/
structure SlotTold (s : ArrayMemory Src Ptr × ArrayLog Src Ptr) (hzdptr : RecId) : Prop where
  published : s.1.hazards.ptr hzdptr = (s.2.told hzdptr).map Prod.snd
  confirmed : ∀ src ptr, s.2.told hzdptr = some (src, ptr) →
    ∃ moment ∈ s.2.since_set hzdptr, moment src = some ptr

/-- What a thread knows: its call has an array, whose slots it sets, and in a reset those
that it has set are told. -/
structure ArrayKnown (s : ArrayMemory Src Ptr × ArrayLog Src Ptr) (l : ArrayPc Src Ptr) : Prop where
  mine : ∀ array, l.borrows = some array →
    array ∈ s.1.domain.held ∧ array ∈ s.1.borrowed ∧ ∀ hzdptr ∈ l.pending, hzdptr ∈ array
  protect : ∀ array hzdptr src rest pc, l = .protect array hzdptr src rest pc →
    ProtectKnown (s.1.hazards, s.2.since_set) hzdptr src pc
  reset : ∀ array rest drops, l = .reset array rest drops →
    ∀ hzdptr ∈ array, hzdptr ∉ rest → s.2.told hzdptr = none

section slots

variable {t : Tid} {s s' : ArrayMemory Src Ptr} {l l' : ArrayPc Src Ptr} {log : ArrayLog Src Ptr}
  {hzdptr : RecId}

theorem SlotTold.kept {s s' : ArrayMemory Src Ptr × ArrayLog Src Ptr} (h : SlotTold s hzdptr)
    (hkept : SlotKept hzdptr (s.1.hazards, s.2.since_set) (s'.1.hazards, s'.2.since_set))
    (htold : s'.2.told hzdptr = s.2.told hzdptr) : SlotTold s' hzdptr := by
  refine ⟨hkept.ptr.trans (htold ▸ h.published), fun src ptr hptr => ?_⟩
  obtain ⟨moment, hmoment, hheld⟩ := h.confirmed src ptr (htold ▸ hptr)
  exact ⟨moment, hkept.since_set moment hmoment, hheld⟩

theorem protect_all_next_hazards (s : ArrayMemory Src Ptr) (array : List RecId)
    (targets : List (RecId × Src)) : (protect_all_next s array targets).1.hazards = s.hazards := by
  cases targets with
  | nil | cons => rfl

theorem protect_all_next_borrows {s : ArrayMemory Src Ptr} {mine array : List RecId}
    {targets : List (RecId × Src)} (h : (protect_all_next s mine targets).2.borrows = some array) :
    array = mine ∧ (protect_all_next s mine targets).1 = s := by
  cases targets with
  | nil => cases h
  | cons => exact ⟨(Option.some.inj h).symm, rfl⟩

theorem ProtectKnown.kept {s s' : HazardMemory Src Ptr × Moments Src Ptr} {src : Src}
    {pc : ProtectPc Ptr} (h : ProtectKnown s hzdptr src pc) (hkept : SlotKept hzdptr s s') :
    ProtectKnown s' hzdptr src pc := by
  cases pc with
  | load | protect | reset => trivial
  | re_check => exact hkept.ptr.trans h
  | compare =>
    obtain ⟨hptr, moment, hmoment, hheld⟩ := h
    exact ⟨hkept.ptr.trans hptr, moment, hkept.since_set moment hmoment, hheld⟩

/-- A step sets a slot that its call has still to set. -/
theorem sets_pending (h : l.sets = some hzdptr) : hzdptr ∈ l.pending := by
  unfold ArrayPc.sets at h
  split at h
  · cases h
    exact List.mem_cons_self
  · cases h
    exact List.mem_cons_self
  · cases h
    exact List.mem_cons_self
  · cases h

theorem current_pending (h : l.current = some hzdptr) : hzdptr ∈ l.pending := by
  cases l with
  | protect =>
    cases h
    exact List.mem_cons_self
  | domain | reset => cases h

/-- Between the calls on arrays there is nothing to know. -/
theorem known_in_domain (s : ArrayMemory Src Ptr × ArrayLog Src Ptr) (pc : DomainPc) :
    ArrayKnown s (.domain pc) := by
  refine ⟨fun _ h => ?_, fun _ _ _ _ _ h => ?_, fun _ _ _ h => ?_⟩
  · cases h
  · cases h
  · cases h

/-- A call that comes to the next element. -/
theorem known_protect_all_next {array : List RecId} {targets : List (RecId × Src)}
    (hheld : array ∈ s.domain.held) (hborrowed : array ∈ s.borrowed)
    (htargets : ∀ target ∈ targets, target.1 ∈ array) :
    ArrayKnown ((protect_all_next s array targets).1, log)
      (protect_all_next s array targets).2 := by
  cases targets with
  | nil => exact known_in_domain _ _
  | cons target rest =>
    refine ⟨fun other hother => ?_, fun _ _ _ _ _ hpc => ?_, fun _ _ _ hpc => ?_⟩
    · obtain rfl : array = other := Option.some.inj hother
      exact ⟨hheld, hborrowed, fun hzdptr hmem => by
        have hslot : hzdptr ∈ (target :: rest).map Prod.fst := hmem
        obtain ⟨p, hp, rfl⟩ := List.mem_map.mp hslot
        exact htargets p hp⟩
    · cases hpc
      trivial
    · cases hpc

variable [DecidableEq Ptr]

theorem tells_pending {hazards : HazardMemory Src Ptr} {value : Option (Src × Ptr)}
    (h : l.tells hazards = some (hzdptr, value)) : hzdptr ∈ l.pending := by
  unfold ArrayPc.tells at h
  split at h
  · split at h
    · cases h
      exact List.mem_cons_self
    · cases h
  · cases h
    exact List.mem_cons_self
  · cases h

/-- The present moment is one since each slot was set. -/
theorem now_since_set : s'.hazards.sources ∈ (log.step s l s').since_set hzdptr := by
  simp only [ArrayLog.step]
  split
  · exact List.mem_singleton_self _
  · exact List.mem_cons_self

theorem told_of_tells {value : Option (Src × Ptr)}
    (htells : l.tells s.hazards = some (hzdptr, value)) :
    (log.step s l s').told hzdptr = value := by
  simp only [ArrayLog.step, htells, Function.update_self]

/-- A reset tells its slot's owner that nothing is protected. -/
theorem told_reset (s s' : ArrayMemory Src Ptr) {array rest : List RecId} {drops : Bool} :
    (log.step s (.reset array (hzdptr :: rest) drops) s').told =
      Function.update log.told hzdptr none := rfl

theorem told_kept (hother : ∀ value, l.tells s.hazards ≠ some (hzdptr, value)) :
    (log.step s l s').told hzdptr = log.told hzdptr := by
  cases htells : l.tells s.hazards with
  | none => simp only [ArrayLog.step, htells]
  | some told =>
    obtain ⟨slot, value⟩ := told
    simp only [ArrayLog.step, htells]
    refine Function.update_of_ne ?_ ..
    rintro rfl
    exact hother value htells

variable [DecidableEq Src]

/-- A step sets at most one slot. -/
theorem ArrayMove.ptr (hmove : ArrayMove t s l s' l') (hother : l.sets ≠ some hzdptr) :
    s'.hazards.ptr hzdptr = s.hazards.ptr hzdptr := by
  cases hmove with
  | domain | reset_protection | store | give_back | release => rfl
  | @protect_all array targets =>
    exact congrArg (HazardMemory.ptr · hzdptr)
      (protect_all_next_hazards (s.lend array) array targets)
  | @confirmed array _ _ rest =>
    exact congrArg (HazardMemory.ptr · hzdptr) (protect_all_next_hazards s array rest)
  | @protect array slot src rest pc pc' hazards hstep =>
    cases pc with
    | load | re_check =>
      cases hstep
      rfl
    | compare =>
      simp only [protect_step] at hstep
      split at hstep
      · cases hstep
      · cases hstep
        rfl
    | protect | reset =>
      cases hstep
      exact Function.update_of_ne (fun h => hother (congrArg some h.symm)) ..
  | reset => exact Function.update_of_ne (fun h => hother (congrArg some h.symm)) ..

theorem ArrayMove.kept (hmove : ArrayMove t s l s' l') (hother : l.sets ≠ some hzdptr) :
    SlotKept hzdptr (s.hazards, log.since_set) (s'.hazards, (log.step s l s').since_set) := by
  refine ⟨hmove.ptr hother, fun moment hmoment => ?_⟩
  simp only [ArrayLog.step, if_neg hother]
  exact List.mem_cons_of_mem _ hmoment

/-- A slot that is not in hand is told after the step if it was before. -/
theorem ArrayMove.slot_told (hmove : ArrayMove t s l s' l') (hl : ArrayKnown (s, log) l)
    (hother : l'.current ≠ some hzdptr) (h : l.current ≠ some hzdptr → SlotTold (s, log) hzdptr) :
    SlotTold (s', log.step s l s') hzdptr := by
  have hslot : l.sets ≠ some hzdptr →
      SlotKept hzdptr (s.hazards, log.since_set) (s'.hazards, (log.step s l s').since_set) :=
    fun hsets => hmove.kept hsets
  have hkept : l.current ≠ some hzdptr → l.sets ≠ some hzdptr →
      (∀ value, l.tells s.hazards ≠ some (hzdptr, value)) →
      SlotTold (s', log.step s l s') hzdptr :=
    fun hcurrent hsets htells => (h hcurrent).kept (hslot hsets) (told_kept htells)
  have hnothing : l.current = none → l.sets = none → l.tells s.hazards = none →
      SlotTold (s', log.step s l s') hzdptr := by
    intro hcurrent hsets htells
    refine hkept ?_ ?_ fun value => ?_
    · rw [hcurrent]
      exact (Option.some_ne_none _).symm
    · rw [hsets]
      exact (Option.some_ne_none _).symm
    · rw [htells]
      exact (Option.some_ne_none _).symm
  cases hmove with
  | domain | reset_protection | store | give_back | release | protect_all =>
    exact hnothing rfl rfl rfl
  | @protect array slot src rest pc pc' hazards hstep =>
    refine hkept hother (fun hsets => hother ?_) fun value htells => ?_
    · cases pc with
      | protect | reset => exact hsets
      | load | re_check | compare => cases hsets
    · simp only [ArrayPc.tells, hstep] at htells
      cases htells
  | @confirmed array slot src rest result =>
    have htells : (ArrayPc.protect array slot src rest (.compare result result)).tells s.hazards =
        some (slot, result.map (Prod.mk src)) := by
      simp only [ArrayPc.tells, protect_step, if_true]
    have hsets : (ArrayPc.protect array slot src rest (.compare result result)).sets ≠
        some hzdptr := by
      intro hsets
      cases hsets
    by_cases hsame : slot = hzdptr
    · subst hsame
      obtain ⟨hptr, moment, hmoment, hheld⟩ := hl.protect _ _ _ _ _ rfl
      refine ⟨?_, fun src' ptr htold => ⟨moment, (hslot hsets).since_set moment hmoment, ?_⟩⟩
      · rw [told_of_tells htells, (hslot hsets).ptr, hptr, Option.map_map]
        exact Option.map_id'.symm
      · rw [told_of_tells htells] at htold
        obtain ⟨_, rfl, hpair⟩ := Option.map_eq_some_iff.mp htold
        obtain ⟨rfl, rfl⟩ := Prod.mk.inj hpair
        exact hheld
    · refine hkept (fun h => hsame (Option.some.inj h)) hsets fun value h => ?_
      rw [htells] at h
      exact hsame (Prod.mk.inj (Option.some.inj h)).1
  | @reset array slot rest drops =>
    by_cases hsame : slot = hzdptr
    · subst hsame
      have htold : (log.step s (.reset array (slot :: rest) drops)
          { s with hazards := s.hazards.set slot none }).told slot = none := told_of_tells rfl
      refine ⟨?_, fun src ptr hptr => ?_⟩
      · rw [htold]
        exact Function.update_self ..
      · rw [htold] at hptr
        cases hptr
    · refine hkept (Option.some_ne_none _).symm (fun h => hsame (Option.some.inj h))
        fun value h => ?_
      exact hsame (Prod.mk.inj (Option.some.inj h)).1

/-- The slots that something was told of are in arrays that are held. -/
theorem ArrayMove.owned (hmove : ArrayMove t s l s' l') (hl : ArrayKnown (s, log) l)
    (howned : log.told hzdptr ≠ none → hzdptr ∈ s.domain.held.flatten)
    (htold : (log.step s l s').told hzdptr ≠ none) : hzdptr ∈ s'.domain.held.flatten := by
  have hsame : (∀ value, l.tells s.hazards ≠ some (hzdptr, value)) →
      hzdptr ∈ s.domain.held.flatten := by
    intro htells
    rw [told_kept htells] at htold
    exact howned htold
  have hnothing : l.tells s.hazards = none → hzdptr ∈ s.domain.held.flatten := by
    intro htells
    refine hsame fun value => ?_
    rw [htells]
    exact (Option.some_ne_none _).symm
  cases hmove with
  | domain ha hG hstep =>
    obtain ⟨array, harray, hmem⟩ := List.mem_flatten.mp (hnothing rfl)
    exact List.mem_flatten.mpr ⟨array, domain_step_held ha hG hstep array harray, hmem⟩
  | reset_protection | store | give_back => exact hnothing rfl
  | @protect_all array targets =>
    rw [(protect_all_next_domain (s.lend array) array targets).1]
    exact hnothing rfl
  | protect hstep =>
    refine hnothing ?_
    simp only [ArrayPc.tells, hstep]
  | @confirmed array slot src rest result =>
    rw [(protect_all_next_domain s array rest).1]
    obtain ⟨harray, -, hslots⟩ := hl.mine array rfl
    by_cases hslot : slot = hzdptr
    · subst hslot
      exact List.mem_flatten.mpr ⟨array, harray, hslots slot List.mem_cons_self⟩
    · refine hsame fun value h => hslot ?_
      simp only [ArrayPc.tells, protect_step, if_true] at h
      exact (Prod.mk.inj (Option.some.inj h)).1
  | @reset array slot rest drops =>
    by_cases hslot : slot = hzdptr
    · subst hslot
      exact absurd (told_of_tells rfl) htold
    · exact hsame fun value h => hslot (Prod.mk.inj (Option.some.inj h)).1
  | @release array hheld =>
    obtain ⟨other, hother, hmem⟩ := List.mem_flatten.mp (hnothing rfl)
    have hne : other ≠ array := by
      rintro rfl
      exact htold (hl.reset _ _ _ rfl hzdptr hmem List.not_mem_nil)
    exact List.mem_flatten.mpr ⟨other, (List.mem_erase_of_ne hne).mpr hother, hmem⟩

/-- An array that another call has, or none, stays as it is. -/
theorem ArrayMove.keeps_array (hmove : ArrayMove t s l s' l') {array : List RecId}
    (hne : l.borrows ≠ some array) :
    (array ∈ s.domain.held → array ∈ s'.domain.held) ∧
      (array ∈ s.borrowed → array ∈ s'.borrowed) := by
  have hnext : ∀ {mine : List RecId} {s : ArrayMemory Src Ptr} {targets : List (RecId × Src)},
      array ≠ mine → array ∈ s.borrowed →
      array ∈ (protect_all_next s mine targets).1.borrowed := by
    intro mine s targets hother hborrowed
    cases targets with
    | nil => exact (List.mem_erase_of_ne hother).mpr hborrowed
    | cons => exact hborrowed
  cases hmove with
  | domain ha hG hstep => exact ⟨domain_step_held ha hG hstep array, id⟩
  | reset_protection => exact ⟨id, List.mem_cons_of_mem _⟩
  | store | protect | reset => exact ⟨id, id⟩
  | @protect_all mine targets hheld hfree =>
    rw [(protect_all_next_domain (s.lend mine) mine targets).1]
    refine ⟨id, fun hborrowed => hnext ?_ (List.mem_cons_of_mem _ hborrowed)⟩
    rintro rfl
    exact hfree hborrowed
  | @confirmed mine slot src rest result =>
    rw [(protect_all_next_domain s mine rest).1]
    exact ⟨id, hnext fun h => hne (congrArg some h.symm)⟩
  | @give_back mine =>
    have hother : array ≠ mine := fun h => hne (congrArg some h.symm)
    exact ⟨id, (List.mem_erase_of_ne hother).mpr⟩
  | @release mine =>
    have hother : array ≠ mine := fun h => hne (congrArg some h.symm)
    exact ⟨(List.mem_erase_of_ne hother).mpr, (List.mem_erase_of_ne hother).mpr⟩

/-- A call begins with an array that no other call has. -/
theorem ArrayMove.borrows (hmove : ArrayMove t s l s' l') {array : List RecId}
    (h : l'.borrows = some array) : l.borrows = some array ∨ array ∉ s.borrowed := by
  cases hmove with
  | protect_all hheld hfree =>
    obtain ⟨rfl, -⟩ := protect_all_next_borrows h
    exact .inr hfree
  | reset_protection hheld hfree => exact .inr (Option.some.inj h ▸ hfree)
  | confirmed =>
    obtain ⟨rfl, -⟩ := protect_all_next_borrows h
    exact .inl rfl
  | protect | reset => exact .inl h
  | domain | store | give_back | release => cases h

/-- A thread's own step. -/
theorem ArrayMove.own_known (hmove : ArrayMove t s l s' l') (hl : ArrayKnown (s, log) l) :
    ArrayKnown (s', log.step s l s') l' := by
  cases hmove with
  | domain | store | give_back | release => exact known_in_domain _ _
  | protect_all hheld hfree htargets =>
    exact known_protect_all_next hheld List.mem_cons_self htargets
  | @reset_protection array drops hheld hfree =>
    refine ⟨fun other hother => ?_, (by intro _ _ _ _ _ h; cases h), fun _ _ _ hpc => ?_⟩
    · obtain rfl : array = other := Option.some.inj hother
      exact ⟨hheld, List.mem_cons_self, fun _ h => h⟩
    · cases hpc
      exact fun hzdptr hmem hnot => absurd hmem hnot
  | @protect array slot src rest pc pc' hazards hstep =>
    refine ⟨hl.mine, fun _ _ _ _ _ hpc => ?_, by intro _ _ _ h; cases h⟩
    cases hpc
    have hknown := hl.protect _ _ _ _ _ rfl
    cases pc with
    | load | reset =>
      cases hstep
      trivial
    | protect ptr =>
      cases hstep
      exact Function.update_self ..
    | re_check ptr =>
      cases hstep
      have hnow : s.hazards.sources ∈
          (log.step s (.protect array slot src rest (.re_check ptr)) s).since_set slot :=
        now_since_set
      exact ⟨hknown, _, hnow, rfl⟩
    | compare ptr re_check_src =>
      simp only [protect_step] at hstep
      split at hstep
      · cases hstep
      · cases hstep
        trivial
  | @confirmed array slot src rest result =>
    obtain ⟨hheld, hborrowed, hslots⟩ := hl.mine array rfl
    exact known_protect_all_next hheld hborrowed fun target htarget =>
      hslots target.1 (List.mem_cons_of_mem _ (List.mem_map_of_mem htarget))
  | @reset array slot rest drops =>
    refine ⟨fun other hother => ?_, (by intro _ _ _ _ _ h; cases h), fun _ _ _ hpc => ?_⟩
    · obtain ⟨hheld, hborrowed, hslots⟩ := hl.mine other hother
      exact ⟨hheld, hborrowed, fun hzdptr hmem => hslots hzdptr (List.mem_cons_of_mem _ hmem)⟩
    · cases hpc
      intro hzdptr hmem hnot
      refine (congrFun (told_reset s _) hzdptr).trans ?_
      by_cases hslot : hzdptr = slot
      · subst hslot
        exact Function.update_self ..
      · rw [Function.update_of_ne hslot]
        refine hl.reset _ _ _ rfl hzdptr hmem fun h => ?_
        obtain h | h := List.mem_cons.mp h
        · exact hslot h
        · exact hnot h

end slots

section runs

variable [DecidableEq Tid] [DecidableEq Src] [DecidableEq Ptr] {sources : Src → Option Ptr}
  {c : Config Tid (ArrayMemory Src Ptr × ArrayLog Src Ptr) (ArrayPc Src Ptr × Unit)}

/-- What holds of the arrays and their slots in every run. -/
structure ArraysIntact
    (c : Config Tid (ArrayMemory Src Ptr × ArrayLog Src Ptr) (ArrayPc Src Ptr × Unit)) : Prop where
  told : ∀ hzdptr, (∀ t, (c.threads t).1.current ≠ some hzdptr) → SlotTold c.shared hzdptr
  owned : ∀ hzdptr, c.shared.2.told hzdptr ≠ none → hzdptr ∈ c.shared.1.domain.held.flatten
  known : ∀ t, ArrayKnown c.shared (c.threads t).1
  apart : ∀ t u array, (c.threads t).1.borrows = some array →
    (c.threads u).1.borrows = some array → t = u

omit [DecidableEq Tid] [DecidableEq Src] [DecidableEq Ptr] in
/-- A slot that a call has still to set is one of its array's. -/
theorem ArrayKnown.pending {s : ArrayMemory Src Ptr × ArrayLog Src Ptr} {l : ArrayPc Src Ptr}
    {hzdptr : RecId} (h : ArrayKnown s l) (hpending : hzdptr ∈ l.pending) :
    ∃ array, l.borrows = some array ∧ array ∈ s.1.domain.held ∧ hzdptr ∈ array := by
  cases l with
  | domain => exact absurd hpending List.not_mem_nil
  | protect array | reset array =>
    obtain ⟨hheld, -, hslots⟩ := h.mine array rfl
    exact ⟨array, rfl, hheld, hslots hzdptr hpending⟩

/-- No record is in two arrays that are held. -/
theorem held_apart {c : Config Tid (ArrayMemory Src Ptr) (ArrayPc Src Ptr)}
    (hc : (array_system Tid sources).ReachableUnder array_locks_loaded c) :
    c.shared.domain.held.flatten.Nodup := by
  have hdomain := domain_outline_holds (arrays_contain_domain.reachable rfl rfl hc)
  exact (Multiset.nodup_add.mp (hdomain.2.nodup none)).2.1

/-- A record in two arrays that are held is in one. -/
theorem same_array {held : List (List RecId)} (hnodup : held.flatten.Nodup)
    {array array' : List RecId}
    (harray : array ∈ held) (harray' : array' ∈ held) {hzdptr : RecId} (h : hzdptr ∈ array)
    (h' : hzdptr ∈ array') : array = array' := by
  have hsymm : Std.Symm (@List.Disjoint RecId) := ⟨fun _ _ hdisjoint => hdisjoint.symm⟩
  by_contra hne
  exact (List.nodup_flatten.mp hnodup).2.forall harray harray' hne h h'

omit [DecidableEq Tid] in
theorem arrays_intact_init : ArraysIntact (array_history Tid sources).init := by
  refine ⟨fun hzdptr _ => ⟨rfl, fun src ptr h => ?_⟩, fun hzdptr h => absurd rfl h,
    fun t => known_in_domain _ _, fun t u array h => ?_⟩
  · cases h
  · cases h

omit [DecidableEq Tid] in
/-- What the other threads do with their arrays leaves an array as it is. -/
theorem ArraysIntact.other {t u : Tid} {s' : ArrayMemory Src Ptr} {l' : ArrayPc Src Ptr}
    (hP : ArraysIntact c) (hnodup : c.shared.1.domain.held.flatten.Nodup) (hne : u ≠ t)
    (hmove : ArrayMove t c.shared.1 (c.threads t).1 s' l') :
    ArrayKnown (s', c.shared.2.step c.shared.1 (c.threads t).1 s') (c.threads u).1 := by
  have hu := hP.known u
  have hmine : ∀ array, (c.threads u).1.borrows = some array →
      ∀ hzdptr ∈ array, hzdptr ∉ (c.threads t).1.pending := by
    intro array harray hzdptr hmem hpending
    obtain ⟨other, hother, hheld, hmem'⟩ := (hP.known t).pending hpending
    obtain rfl := same_array hnodup (hu.mine array harray).1 hheld hmem hmem'
    exact hne (hP.apart u t array harray hother)
  have hkept : ∀ array, (c.threads u).1.borrows = some array → ∀ hzdptr ∈ array,
      SlotKept hzdptr (c.shared.1.hazards, c.shared.2.since_set)
        (s'.hazards, (c.shared.2.step c.shared.1 (c.threads t).1 s').since_set) :=
    fun array harray hzdptr hmem =>
      hmove.kept fun hsets => hmine array harray hzdptr hmem (sets_pending hsets)
  refine ⟨fun array harray => ?_, fun array hzdptr src rest pc hpc => ?_,
    fun array rest drops hpc hzdptr hmem hnot => ?_⟩
  · obtain ⟨hheld, hborrowed, hslots⟩ := hu.mine array harray
    obtain ⟨hheld', hborrowed'⟩ := hmove.keeps_array fun h => hne (hP.apart u t array harray h)
    exact ⟨hheld' hheld, hborrowed' hborrowed, hslots⟩
  · have hslot : hzdptr ∈ array :=
      (hu.mine array (hpc ▸ rfl)).2.2 hzdptr (hpc ▸ List.mem_cons_self)
    exact (hu.protect _ _ _ _ _ hpc).kept (hkept array (hpc ▸ rfl) hzdptr hslot)
  · refine (told_kept fun value htells => ?_).trans (hu.reset _ _ _ hpc hzdptr hmem hnot)
    exact hmine array (hpc ▸ rfl) hzdptr hmem (tells_pending htells)

theorem arrays_intact
    (hc : (array_history Tid sources).ReachableUnder (forgetful array_locks_loaded) c) :
    ArraysIntact c := by
  refine ReachableUnder.history_induction (P := ArraysIntact) arrays_intact_init ?_ hc
  intro c t a r hreach hP hG hstep
  have hmove := array_step_move hG hstep
  have hnodup := held_apart hreach
  have hthread : ∀ {u : Tid}, u ≠ t → ∀ r' : (ArrayMemory Src Ptr × ArrayLog Src Ptr) ×
      ArrayPc Src Ptr × Unit, (c.move t r').threads u = c.threads u :=
    fun hne r' => c.move_threads_of_ne r' hne
  refine ⟨fun hzdptr hcurrent => ?_, fun hzdptr htold => ?_, fun u => ?_, fun u v array hu hv => ?_⟩
  · refine hmove.slot_told (hP.known t) ?_ fun hmine => hP.told hzdptr fun u => ?_
    · have hother := hcurrent t
      rwa [Config.move_threads_self] at hother
    · by_cases hut : u = t
      · subst hut
        exact hmine
      · have hother := hcurrent u
        rwa [hthread hut] at hother
  · exact hmove.owned (hP.known t) (hP.owned hzdptr) htold
  · by_cases hut : u = t
    · subst hut
      rw [Config.move_threads_self]
      exact hmove.own_known (hP.known u)
    · rw [hthread hut]
      exact hP.other hnodup hut hmove
  · have hfirst : ∀ u, u ≠ t → r.2.borrows = some array → (c.threads u).1.borrows ≠ some array := by
      intro u hut hmine hother
      obtain hmine | hfree := hmove.borrows hmine
      · exact hut (hP.apart u t array hother hmine)
      · exact hfree ((hP.known u).mine array hother).2.1
    by_cases hut : u = t
    · subst hut
      by_cases hvu : v = u
      · exact hvu.symm
      · rw [Config.move_threads_self] at hu
        rw [hthread hvu] at hv
        exact absurd hv (hfirst v hvu hu)
    · rw [hthread hut] at hu
      by_cases hvt : v = t
      · subst hvt
        rw [Config.move_threads_self] at hv
        exact absurd hu (hfirst u hut hv)
      · rw [hthread hvt] at hv
        exact hP.apart u v array hu hv

/-- In every run in which each lock is taken on the pointer that was loaded before, no
slot is in two arrays. Each slot that is not in hand holds what its owner was told that it
protects, which the source has held since the slot was set; it holds null if its owner was
told nothing, and on a record of no array. All slots that hold a pointer are met from the
`head` of the domain. -/
theorem live_arrays_protect
    (hc : (array_history Tid sources).ReachableUnder (forgetful array_locks_loaded) c) :
    c.shared.1.domain.held.flatten.Nodup ∧
    (∀ hzdptr, (∀ t, (c.threads t).1.current ≠ some hzdptr) → SlotTold c.shared hzdptr) ∧
    ∃ listed, IsChain c.shared.1.domain.next c.shared.1.domain.head listed ∧
      ∀ hzdptr, c.shared.1.hazards.ptr hzdptr ≠ none →
        hzdptr ∈ c.shared.1.domain.held.flatten ∧ hzdptr ∈ listed := by
  have hP := arrays_intact hc
  obtain ⟨listed, hlisted⟩ :=
    records_listed (arrays_contain_domain.reachable rfl rfl hc.forget).reachable
  refine ⟨held_apart hc.forget, hP.told, listed, hlisted.chain, fun hzdptr hptr => ?_⟩
  have hheld : hzdptr ∈ c.shared.1.domain.held.flatten := by
    by_cases hcurrent : ∀ t, (c.threads t).1.current ≠ some hzdptr
    · refine hP.owned hzdptr fun htold => hptr ?_
      rw [(hP.told hzdptr hcurrent).published, htold]
      rfl
    · obtain ⟨t, ht⟩ := not_forall_not.mp hcurrent
      obtain ⟨array, -, harray, hmem⟩ := (hP.known t).pending (current_pending ht)
      exact List.mem_flatten.mpr ⟨array, harray, hmem⟩
  obtain ⟨array, harray, hmem⟩ := List.mem_flatten.mp hheld
  exact ⟨hheld, hlisted.held array harray hzdptr hmem⟩

end runs

/-- An array is dropped and its first record taken again by the other thread. While it
protects a source, the source changes, and later it is null. -/
theorem live_arrays_protect_reused :
    ∃ c : Config Bool (ArrayMemory Bool Nat × ArrayLog Bool Nat) (ArrayPc Bool Nat × Unit),
      (array_history Bool fun _ : Bool => some 7).ReachableUnder (forgetful array_locks_loaded) c ∧
      (c.shared.1.domain.held, c.shared.1.hazards.sources false) = ([[0]], none) ∧
      c.shared.1.hazards.ptr 0 = some 8 ∧
      (∃ moment ∈ c.shared.2.since_set 0, moment false = some 8) ∧
      ∃ listed, IsChain c.shared.1.domain.next c.shared.1.domain.head listed ∧ 0 ∈ listed := by
  obtain ⟨c, hc, hseen⟩ := reachable_showing (array_history Bool fun _ : Bool => some 7)
    (forgetful array_locks_loaded)
    ((true, .many_in_domain 2) :: List.replicate 12 (true, .step false) ++
      (true, .drop [0, 1]) :: List.replicate 7 (true, .step false) ++
      (false, .many_in_domain 1) :: List.replicate 7 (false, .step false) ++
      (false, .protect_all [0] [false]) :: List.replicate 2 (false, .step false) ++
      (true, .store false (some 8)) :: List.replicate 6 (false, .step false) ++
      [(true, .store false none)])
    (fun c => ((c.shared.1.domain.held, c.shared.1.hazards.sources false), c.shared.2.told 0,
      (c.threads true).1.current, (c.threads false).1.current))
    (([[0]], none), some (false, 8), none, none) (by decide +kernel)
  obtain ⟨hmemory, hlog⟩ := Prod.mk.inj hseen
  obtain ⟨htold, hcurrent⟩ := Prod.mk.inj hlog
  obtain ⟨htrue, hfalse⟩ := Prod.mk.inj hcurrent
  obtain ⟨-, hslots, listed, hlisted, hmet⟩ := live_arrays_protect hc
  have hslot : SlotTold c.shared 0 := by
    refine hslots 0 fun t => ?_
    cases t with
    | false => exact hfalse ▸ (Option.some_ne_none 0).symm
    | true => exact htrue ▸ (Option.some_ne_none 0).symm
  have hptr : c.shared.1.hazards.ptr 0 = some 8 := by
    rw [hslot.published, htold]
    rfl
  refine ⟨c, hc, hmemory, hptr, hslot.confirmed false 8 htold, listed, hlisted, ?_⟩
  exact (hmet 0 (hptr ▸ Option.some_ne_none 8)).2

end ordinum.hazard
