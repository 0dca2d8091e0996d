import Mathlib.Data.List.Nodup
import Ordinum.Hazard.Protect

open interleaving
open interleaving.System

namespace ordinum.hazard

variable {Tid Src Ptr : Type}

/-- The slots that a call has still to set. -/
def HazardPc.pending : HazardPc Src Ptr → List RecId
  | .idle => []
  | .protect _ hzdptr _ rest _ => hzdptr :: rest.map Prod.fst
  | .reset rest => rest

/-- The slots that a call protects or resets. -/
def HazardAct.targets (arrays : HzdPtrArrays Tid) (t : Tid) : HazardAct Src Ptr → List RecId
  | .protect hzdptr _ | .reset_protection hzdptr => [hzdptr]
  | .protect_all _ | .reset_all => arrays.hzd_ptr_array t
  | .store _ _ | .step => []

/-- The slot holds what was returned, and since it was last set the source has held
this at a moment. -/
structure Validated (s : HazardMemory Src Ptr × Moments Src Ptr) (p : Protected Src Ptr) :
    Prop where
  published : s.1.ptr p.hzdptr = p.result
  confirmed : ∃ moment ∈ s.2 p.hzdptr, moment p.src = p.result

/-- What a thread knows of its slots. From `re_check` on its slot holds the pointer that it
compares. -/
def SlotsKnown (array : List RecId) (s : HazardMemory Src Ptr × Moments Src Ptr) :
    HazardPc Src Ptr → Prop
  | .idle => True
  | .reset rest => ∀ hzdptr ∈ rest, hzdptr ∈ array
  | .protect output hzdptr src rest pc =>
    (output.map Protected.hzdptr ++ hzdptr :: rest.map Prod.fst).Nodup ∧
    (∀ slot ∈ output.map Protected.hzdptr ++ hzdptr :: rest.map Prod.fst, slot ∈ array) ∧
    (∀ p ∈ output, Validated s p) ∧
    match pc with
    | .re_check ptr => s.1.ptr hzdptr = ptr
    | .compare ptr re_check_src =>
      s.1.ptr hzdptr = ptr ∧ ∃ moment ∈ s.2 hzdptr, moment src = re_check_src
    | .load | .protect _ | .reset _ => True

/-- A step leaves a slot as it is, with the moments since it was set. -/
structure SlotKept (hzdptr : RecId) (s s' : HazardMemory Src Ptr × Moments Src Ptr) : Prop where
  ptr : s'.1.ptr hzdptr = s.1.ptr hzdptr
  since_set : ∀ moment ∈ s.2 hzdptr, moment ∈ s'.2 hzdptr

section slots

variable {l : HazardPc Src Ptr} {hzdptr : RecId} {array : List RecId}
  {s s' : HazardMemory Src Ptr × Moments Src Ptr}

theorem pending_of_sets (h : l.sets = some hzdptr) : hzdptr ∈ l.pending := by
  unfold HazardPc.sets at h
  split at h
  · cases h
    exact List.mem_cons_self
  · cases h
    exact List.mem_cons_self
  · cases h
    exact List.mem_cons_self
  · cases h

theorem pending_protect_next (output : List (Protected Src Ptr)) (rest : List (RecId × Src)) :
    (protect_next output rest).pending = rest.map Prod.fst := by
  cases rest <;> rfl

theorem Validated.kept {p : Protected Src Ptr} (h : Validated s p)
    (hkept : SlotKept p.hzdptr s s') : Validated s' p := by
  obtain ⟨moment, hmoment, hheld⟩ := h.confirmed
  exact ⟨hkept.ptr.trans h.published, moment, hkept.since_set moment hmoment, hheld⟩

/-- A thread sets slots of its own. -/
theorem SlotsKnown.owned (h : SlotsKnown array s l) : ∀ slot ∈ l.pending, slot ∈ array := by
  cases l with
  | idle => nofun
  | reset rest => exact h
  | protect output hzdptr src rest pc =>
    exact fun slot hslot => h.2.1 slot (List.mem_append_right _ hslot)

/-- What a thread knows of its slots stays true as long as they are kept. -/
theorem SlotsKnown.kept (h : SlotsKnown array s l)
    (hkept : ∀ hzdptr ∈ array, SlotKept hzdptr s s') : SlotsKnown array s' l := by
  cases l with
  | idle => trivial
  | reset rest => exact h
  | protect output hzdptr src rest pc =>
    obtain ⟨hnodup, harray, houtput, hpc⟩ := h
    have hcurrent := hkept hzdptr (harray hzdptr (by simp))
    refine ⟨hnodup, harray, fun p hp => (houtput p hp).kept (hkept _ (harray _ ?_)), ?_⟩
    · exact List.mem_append_left _ (List.mem_map_of_mem hp)
    · cases pc with
      | re_check ptr => exact hcurrent.ptr.trans hpc
      | compare ptr re_check_src =>
        obtain ⟨hptr, moment, hmoment, hheld⟩ := hpc
        exact ⟨hcurrent.ptr.trans hptr, moment, hcurrent.since_set moment hmoment, hheld⟩
      | load | protect | reset => trivial

/-- The elements of a call that comes to the next one. -/
theorem known_protect_next {output : List (Protected Src Ptr)} {rest : List (RecId × Src)}
    (hnodup : (output.map Protected.hzdptr ++ rest.map Prod.fst).Nodup)
    (harray : ∀ slot ∈ output.map Protected.hzdptr ++ rest.map Prod.fst, slot ∈ array)
    (houtput : ∀ p ∈ output, Validated s p) : SlotsKnown array s (protect_next output rest) := by
  cases rest with
  | nil => trivial
  | cons next rest => exact ⟨hnodup, harray, houtput, trivial⟩

end slots

section steps

variable [DecidableEq Src] [DecidableEq Ptr]

/-- What a step can do. -/
inductive HazardMove (arrays : HzdPtrArrays Tid) (t : Tid) :
    HazardAct Src Ptr → HazardMemory Src Ptr → HazardPc Src Ptr → HazardMemory Src Ptr →
      HazardPc Src Ptr → Prop
  | protect {s hzdptr src} (howned : hzdptr ∈ arrays.hzd_ptr_array t) :
      HazardMove arrays t (.protect hzdptr src) s .idle s (protect_next [] [(hzdptr, src)])
  | protect_all {s sources} (hlength : sources.length = (arrays.hzd_ptr_array t).length) :
      HazardMove arrays t (.protect_all sources) s .idle s
        (protect_next [] ((arrays.hzd_ptr_array t).zip sources))
  | reset_protection {s hzdptr} (howned : hzdptr ∈ arrays.hzd_ptr_array t) :
      HazardMove arrays t (.reset_protection hzdptr) s .idle s (.reset [hzdptr])
  | reset_all {s} :
      HazardMove arrays t .reset_all s .idle s (.reset (arrays.hzd_ptr_array t))
  | store {s src value} :
      HazardMove arrays t (.store src value) s .idle (s.store src value) .idle
  | access {s s' output hzdptr src rest pc progress}
      (haccess : protect_step hzdptr src s pc = (s', progress)) :
      HazardMove arrays t .step s (.protect output hzdptr src rest pc) s'
        (progress.elim (.protect output hzdptr src rest) fun result =>
          protect_next (output ++ [⟨hzdptr, src, result⟩]) rest)
  | reset {s hzdptr rest} :
      HazardMove arrays t .step s (.reset (hzdptr :: rest)) (s.set hzdptr none) (.reset rest)
  | reset_done {s} : HazardMove arrays t .step s (.reset []) s .idle

variable {arrays : HzdPtrArrays Tid} {t : Tid} {a : HazardAct Src Ptr}
  {s s' : HazardMemory Src Ptr} {l l' : HazardPc Src Ptr}
  {r : HazardMemory Src Ptr × HazardPc Src Ptr} {hzdptr : RecId} {since_set : Moments Src Ptr}

theorem hazard_step_move (hstep : hazard_step arrays t a s l = some r) :
    HazardMove arrays t a s l r.1 r.2 := by
  cases l with
  | idle =>
    cases a with
    | protect hzdptr src =>
      simp only [hazard_step] at hstep
      split at hstep
      · cases hstep
        exact .protect ‹_›
      · cases hstep
    | protect_all sources =>
      simp only [hazard_step] at hstep
      split at hstep
      · cases hstep
        exact .protect_all ‹_›
      · cases hstep
    | reset_protection hzdptr =>
      simp only [hazard_step] at hstep
      split at hstep
      · cases hstep
        exact .reset_protection ‹_›
      · cases hstep
    | reset_all =>
      cases hstep
      exact .reset_all
    | store src value =>
      cases hstep
      exact .store
    | step => cases hstep
  | protect output hzdptr src rest pc =>
    cases a with
    | step =>
      cases hstep
      exact .access rfl
    | _ => cases hstep
  | reset rest =>
    cases a with
    | step =>
      cases rest with
      | nil =>
        cases hstep
        exact .reset_done
      | cons hzdptr rest =>
        cases hstep
        exact .reset
    | _ => cases rest <;> cases hstep

/-- No step sets another slot. -/
theorem HazardMove.ptr (hmove : HazardMove arrays t a s l s' l')
    (hother : l.sets ≠ some hzdptr) : s'.ptr hzdptr = s.ptr hzdptr := by
  cases hmove with
  | access haccess =>
    unfold protect_step at haccess
    split at haccess
    · cases haccess
      rfl
    · cases haccess
      exact Function.update_of_ne (fun heq => hother (congrArg some heq.symm)) ..
    · cases haccess
      rfl
    · split at haccess <;> cases haccess <;> rfl
    · cases haccess
      exact Function.update_of_ne (fun heq => hother (congrArg some heq.symm)) ..
  | reset => exact Function.update_of_ne (fun heq => hother (congrArg some heq.symm)) ..
  | _ => rfl

/-- A call goes on with its slots. -/
theorem HazardMove.pending (hmove : HazardMove arrays t a s l s' l') :
    ∀ slot ∈ l'.pending, slot ∈ l.pending ∨ slot ∈ a.targets arrays t := by
  intro slot hslot
  cases hmove with
  | protect => exact .inr hslot
  | protect_all hlength =>
    rw [pending_protect_next] at hslot
    refine .inr ?_
    rw [List.map_fst_zip (Nat.le_of_eq hlength.symm)] at hslot
    exact hslot
  | reset_protection | reset_all => exact .inr hslot
  | store | reset_done => cases hslot
  | access =>
    rename_i progress _
    refine .inl ?_
    cases progress with
    | next => exact hslot
    | done =>
      rw [Progress.elim_done, pending_protect_next] at hslot
      exact List.mem_cons_of_mem _ hslot
  | reset => exact .inl (List.mem_cons_of_mem _ hslot)

/-- A step keeps the slots that it does not set. -/
theorem HazardMove.kept (hmove : HazardMove arrays t a s l s' l')
    (hother : l.sets ≠ some hzdptr) :
    SlotKept hzdptr (s, since_set) (s', (record_moment t a s l (s', l') since_set ()).1) := by
  refine ⟨hmove.ptr hother, fun moment hmoment => ?_⟩
  simp only [record_moment, if_neg hother]
  exact List.mem_cons_of_mem _ hmoment

omit [DecidableEq Src] in
/-- `protect_ptr` returns where the source has held what it published. -/
theorem returned_validated {array : List RecId} {s : HazardMemory Src Ptr × Moments Src Ptr}
    {s' : HazardMemory Src Ptr} {output : List (Protected Src Ptr)} {src : Src}
    {rest : List (RecId × Src)} {pc : ProtectPc Ptr} {result : Option Ptr}
    (hl : SlotsKnown array s (.protect output hzdptr src rest pc))
    (hreturn : protect_step hzdptr src s.1 pc = (s', .done result)) :
    (∀ p ∈ output ++ [⟨hzdptr, src, result⟩], Validated s p) ∧ s.1 = s' := by
  obtain ⟨-, -, houtput, hpc⟩ := hl
  cases pc with
  | compare ptr re_check_src =>
    obtain ⟨hptr, moment, hmoment, hheld⟩ := hpc
    simp only [protect_step] at hreturn
    split at hreturn
    · rename_i hsame
      cases hreturn
      refine ⟨fun p hp => ?_, rfl⟩
      obtain hp | hp := List.mem_append.mp hp
      · exact houtput p hp
      · obtain rfl := List.mem_singleton.mp hp
        exact ⟨hptr, moment, hmoment, hheld.trans hsame.symm⟩
    · cases hreturn
  | _ => cases hreturn

/-- The slots of the elements that were returned stand apart from the one in hand. -/
theorem output_kept {output : List (Protected Src Ptr)} {src : Src} {rest : List (RecId × Src)}
    {pc : ProtectPc Ptr}
    (hmove : HazardMove arrays t a s (.protect output hzdptr src rest pc) s' l')
    (hnodup : (output.map Protected.hzdptr ++ hzdptr :: rest.map Prod.fst).Nodup)
    (houtput : ∀ p ∈ output, Validated (s, since_set) p) :
    ∀ p ∈ output, Validated (s', (record_moment t a s (.protect output hzdptr src rest pc) (s', l')
      since_set ()).1) p := by
  intro p hp
  refine (houtput p hp).kept (hmove.kept fun hsets => ?_)
  have hother : p.hzdptr ≠ hzdptr :=
    (List.nodup_append.mp hnodup).2.2 _ (List.mem_map_of_mem hp) _ List.mem_cons_self
  unfold HazardPc.sets at hsets
  split at hsets
  · cases ‹HazardPc.protect _ _ _ _ _ = _›
    exact hother (Option.some.inj hsets).symm
  · cases ‹HazardPc.protect _ _ _ _ _ = _›
    exact hother (Option.some.inj hsets).symm
  · cases ‹HazardPc.protect _ _ _ _ _ = _›
  · cases hsets

/-- A call goes on with the next element, or returns. -/
theorem hazard_step_return (arrays : HzdPtrArrays Tid) (t : Tid) (output : List (Protected Src Ptr))
    {src : Src} (rest : List (RecId × Src)) {pc : ProtectPc Ptr} {result : Option Ptr}
    (hreturn : protect_step hzdptr src s pc = (s', .done result)) :
    hazard_step arrays t .step s (.protect output hzdptr src rest pc) =
      some (s', protect_next (output ++ [⟨hzdptr, src, result⟩]) rest) := by
  simp only [hazard_step, hreturn, Progress.elim_done]

/-- A thread's own step. What `re_check` loads, the source holds at this moment. -/
theorem HazardMove.own_known (hmove : HazardMove arrays t a s l s' l')
    (hnow : ∀ hzdptr, s.sources ∈ since_set hzdptr)
    (hl : SlotsKnown (arrays.hzd_ptr_array t) (s, since_set) l) :
    SlotsKnown (arrays.hzd_ptr_array t)
      (s', (record_moment t a s l (s', l') since_set ()).1) l' := by
  cases hmove with
  | protect howned =>
    refine known_protect_next (List.nodup_singleton _) ?_ nofun
    intro slot hslot
    obtain rfl := List.mem_singleton.mp hslot
    exact howned
  | protect_all hlength =>
    have hslots := List.map_fst_zip (Nat.le_of_eq hlength.symm)
    refine known_protect_next ?_ ?_ nofun
    · rw [List.map_nil, List.nil_append, hslots]
      exact arrays.nodup t
    · rw [List.map_nil, List.nil_append, hslots]
      exact fun _ => id
  | reset_protection howned =>
    intro slot hslot
    obtain rfl := List.mem_singleton.mp hslot
    exact howned
  | reset_all => exact fun _ => id
  | store | reset_done => trivial
  | reset => exact fun slot hslot => hl slot (List.mem_cons_of_mem _ hslot)
  | @access _ _ output hzdptr src rest pc progress haccess =>
    obtain ⟨hnodup, harray, houtput, hpc⟩ := hl
    have hmove : HazardMove arrays t .step s (.protect output hzdptr src rest pc) s' _ :=
      .access haccess
    have houtput' := output_kept hmove hnodup houtput
    cases pc with
    | load =>
      cases haccess
      exact ⟨hnodup, harray, houtput', trivial⟩
    | protect ptr =>
      cases haccess
      exact ⟨hnodup, harray, houtput', Function.update_self ..⟩
    | re_check ptr =>
      cases haccess
      have hkept : SlotKept hzdptr (s, since_set) (s, _) := hmove.kept nofun
      exact ⟨hnodup, harray, houtput', hpc, s.sources, hkept.since_set _ (hnow hzdptr), rfl⟩
    | compare ptr re_check_src =>
      obtain ⟨hptr, moment, hmoment, hheld⟩ := hpc
      simp only [protect_step] at haccess
      split at haccess
      · rename_i hsame
        cases haccess
        have hkept : SlotKept hzdptr (s, since_set) (s, _) := hmove.kept nofun
        refine known_protect_next ?_ ?_ fun p hp => ?_
        · simp only [List.map_append, List.map_singleton, List.append_assoc, List.singleton_append]
          exact hnodup
        · simp only [List.map_append, List.map_singleton, List.append_assoc, List.singleton_append]
          exact harray
        · obtain hp | hp := List.mem_append.mp hp
          · exact houtput' p hp
          · obtain rfl := List.mem_singleton.mp hp
            exact ⟨hkept.ptr.trans hptr, moment, hkept.since_set moment hmoment,
              hheld.trans hsame.symm⟩
      · cases haccess
        exact ⟨hnodup, harray, houtput', trivial⟩
    | reset re_check_src =>
      cases haccess
      exact ⟨hnodup, harray, houtput', trivial⟩

end steps

section runs

variable [DecidableEq Tid] [DecidableEq Src] [DecidableEq Ptr] {arrays : HzdPtrArrays Tid}
  {sources : Src → Option Ptr} {hzdptr : RecId}

/-- What holds of the slots in every run. -/
structure SlotsIntact (arrays : HzdPtrArrays Tid)
    (c : Config Tid (HazardMemory Src Ptr × Moments Src Ptr) (HazardPc Src Ptr × Unit)) : Prop where
  now : ∀ hzdptr, c.shared.1.sources ∈ c.shared.2 hzdptr
  known : ∀ t, SlotsKnown (arrays.hzd_ptr_array t) c.shared (c.threads t).1

omit [DecidableEq Tid] in
theorem slots_intact_init : SlotsIntact arrays (hazard_history arrays sources).init :=
  ⟨fun _ => List.mem_singleton_self sources, fun _ => trivial⟩

theorem slots_intact
    {c : Config Tid (HazardMemory Src Ptr × Moments Src Ptr) (HazardPc Src Ptr × Unit)}
    (hc : (hazard_history arrays sources).Reachable c) : SlotsIntact arrays c := by
  refine ReachableUnder.history_induction (G := anyStep) (P := SlotsIntact arrays)
    slots_intact_init ?_ hc
  intro c t a r _ hP _ hstep
  have hmove := hazard_step_move hstep
  refine ⟨fun slot => ?_, fun u => ?_⟩
  · simp only [record_moment, Config.move_shared]
    split
    · exact List.mem_singleton_self _
    · exact List.mem_cons_self
  · by_cases hu : u = t
    · subst hu
      rw [Config.move_threads_self]
      exact hmove.own_known hP.now (hP.known u)
    · rw [c.move_threads_of_ne _ hu]
      refine (hP.known u).kept fun slot hslot => hmove.kept fun hsets => ?_
      -- the stepping thread sets a slot of its own
      have howned := (hP.known t).owned slot (pending_of_sets hsets)
      exact hu (arrays.exclusive u t slot hslot howned)

/-- The steps in which no thread begins to protect or to reset a slot. -/
def leaves (arrays : HzdPtrArrays Tid) (hzdptr : RecId) :
    StepCondition Tid (HazardAct Src Ptr) (HazardMemory Src Ptr) (HazardPc Src Ptr) :=
  fun t a _ _ => hzdptr ∉ a.targets arrays t

/-- A slot that no call has still to set keeps its value until the next such call. -/
theorem slot_stable {c d : Config Tid (HazardMemory Src Ptr) (HazardPc Src Ptr)}
    (hsteps : (hazard_system arrays sources).StepsUnder (leaves arrays hzdptr) c d)
    (hfree : ∀ t, hzdptr ∉ (c.threads t).pending) :
    d.shared.ptr hzdptr = c.shared.ptr hzdptr ∧ ∀ t, hzdptr ∉ (d.threads t).pending := by
  induction hsteps with
  | refl => exact ⟨rfl, hfree⟩
  | @tail d _ _ hstep ih =>
    obtain ⟨t, a, r, hleaves, hr, rfl⟩ := hstep
    obtain ⟨hptr, hpending⟩ := ih
    have hmove := hazard_step_move hr
    refine ⟨(hmove.ptr fun hsets => hpending t (pending_of_sets hsets)).trans hptr, fun u => ?_⟩
    by_cases hu : u = t
    · subst hu
      rw [Config.move_threads_self]
      intro hslot
      obtain hslot | hslot := hmove.pending hzdptr hslot
      · exact hpending u hslot
      · exact hleaves hslot
    · rw [d.move_threads_of_ne r hu]
      exact hpending u

omit [DecidableEq Src] [DecidableEq Ptr] in
/-- A call has nothing more to set in the slots whose elements it has returned. -/
theorem done_not_pending
    {c : Config Tid (HazardMemory Src Ptr × Moments Src Ptr) (HazardPc Src Ptr × Unit)}
    (hc : SlotsIntact arrays c) {t u : Tid} {output : List (Protected Src Ptr)} {src : Src}
    {rest : List (RecId × Src)} {pc : ProtectPc Ptr} {result : Option Ptr} {p : Protected Src Ptr}
    (hpc : (c.threads t).1 = .protect output hzdptr src rest pc)
    (hp : p ∈ output ++ [⟨hzdptr, src, result⟩])
    (s : HazardMemory Src Ptr × Moments Src Ptr) :
    p.hzdptr ∉ ((c.move t (s, protect_next (output ++ [⟨hzdptr, src, result⟩]) rest,
      ())).threads u).1.pending := by
  have hknown := hc.known t
  rw [hpc] at hknown
  obtain ⟨hnodup, harray, -⟩ := hknown
  have hslots : p.hzdptr ∈ output.map Protected.hzdptr ++ [hzdptr] := by
    simpa using List.mem_map_of_mem (f := Protected.hzdptr) hp
  rw [← List.singleton_append, ← List.append_assoc] at hnodup harray
  by_cases hu : u = t
  · subst hu
    rw [Config.move_threads_self, pending_protect_next]
    exact fun hrest => (List.nodup_append.mp hnodup).2.2 _ hslots _ hrest rfl
  · rw [c.move_threads_of_ne _ hu]
    intro hother
    exact hu (arrays.exclusive u t p.hzdptr ((hc.known u).owned _ hother)
      (harray _ (List.mem_append_left _ hslots)))

/-- When `protect_ptr` returns, its slot holds the result, null for `None`, and the source
has held it at a moment after the slot was last set. The same goes for the elements of
`protect_all` before it. The slot keeps its value until its owner protects or resets it
again. -/
theorem protection_is_validated
    {c : Config Tid (HazardMemory Src Ptr × Moments Src Ptr) (HazardPc Src Ptr × Unit)}
    (hc : (hazard_history arrays sources).Reachable c) {t : Tid} {output : List (Protected Src Ptr)}
    {src : Src} {rest : List (RecId × Src)} {pc : ProtectPc Ptr} {result : Option Ptr}
    {s' : HazardMemory Src Ptr} (hpc : (c.threads t).1 = .protect output hzdptr src rest pc)
    (hreturn : protect_step hzdptr src c.shared.1 pc = (s', .done result))
    {r : (HazardMemory Src Ptr × Moments Src Ptr) × HazardPc Src Ptr × Unit}
    (hr : (hazard_history arrays sources).step t .step c.shared (c.threads t) = some r) :
    ∀ p ∈ output ++ [⟨hzdptr, src, result⟩], Validated c.shared p ∧
      ∀ d, (hazard_history arrays sources).StepsUnder (forgetful (leaves arrays p.hzdptr))
        (c.move t r) d → d.shared.1.ptr p.hzdptr = p.result := by
  have hintact := slots_intact hc
  have hknown := hintact.known t
  rw [hpc] at hknown
  obtain ⟨hvalidated, rfl⟩ := returned_validated hknown hreturn
  obtain ⟨r', hr', rfl⟩ := Option.map_eq_some_iff.mp hr
  have hmoved : r' = (c.shared.1, protect_next (output ++ [⟨hzdptr, src, result⟩]) rest) := by
    have hreturned := hazard_step_return arrays t output rest hreturn
    rw [← hpc] at hreturned
    exact Option.some.inj (hr'.symm.trans hreturned)
  subst hmoved
  intro p hp
  refine ⟨hvalidated p hp, fun d hsteps => ?_⟩
  have hstable := slot_stable hsteps.forget fun u => done_not_pending hintact hpc hp _
  exact hstable.1.trans (hvalidated p hp).published

/-- One thread owns two slots. -/
def two_slots : HzdPtrArrays Bool where
  hzd_ptr_array := fun t => if t then [0, 1] else []
  nodup := by decide
  exclusive := by
    intro t u hzdptr ht hu
    cases t with
    | false => cases ht
    | true =>
      cases u with
      | false => cases hu
      | true => rfl

/-- While the first slot is protected its source changes twice, and is null when the
second one is. -/
theorem protection_is_validated_two :
    ∃ c : Config Bool (HazardMemory Bool Nat × Moments Bool Nat) (HazardPc Bool Nat × Unit),
      (hazard_history two_slots fun _ => some 7).Reachable c ∧
        Validated c.shared ⟨0, false, some 8⟩ ∧ Validated c.shared ⟨1, true, some 7⟩ ∧
        c.shared.1.sources false = none := by
  obtain ⟨c, hc, hseen⟩ := reachable_showing
    (hazard_history two_slots fun _ : Bool => some 7) anyStep
    ((true, .protect_all [false, true]) :: (true, .step) :: (false, .store false (some 8)) ::
      List.replicate 5 (true, .step) ++ (true, .step) :: (false, .store false none) ::
      List.replicate 4 (true, .step))
    (fun c => ((c.threads true).1, c.shared.1.sources false))
    (.protect [⟨0, false, some 8⟩] 1 true [] (.compare (some 7) (some 7)), none) (by decide +kernel)
  obtain ⟨hpc, hnull⟩ := Prod.mk.inj hseen
  have hreturn : protect_step 1 true c.shared.1 (.compare (some 7) (some 7)) =
      (c.shared.1, .done (some 7)) := rfl
  have hstep := hazard_step_return two_slots true [⟨0, false, some 8⟩] [] hreturn
  rw [← hpc] at hstep
  have hvalidated := protection_is_validated hc hpc hreturn (Option.map_eq_some_iff.mpr
    ⟨_, hstep, rfl⟩)
  exact ⟨c, hc, (hvalidated ⟨0, false, some 8⟩ (by decide)).1,
    (hvalidated ⟨1, true, some 7⟩ (by decide)).1, hnull⟩

end runs

end ordinum.hazard
