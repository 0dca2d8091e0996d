import Ordinum.ThreadLocalStorage.ThreadLocal

open interleaving

namespace ordinum.thread_local_storage

variable {Tid : Type}

/-- A `ThreadLocalPtr` holds its id until its column is removed. -/
def TlsShared.Held (s : TlsShared Tid) (ptr : PtrId) : Prop :=
  ptr < s.created ∧ s.stage ptr ≠ .returned

/-- Every id below the counter is free or held, and no id is both or held twice. -/
structure IdsApart (s : TlsShared Tid) : Prop where
  free_nodup : s.tls_id_free_list.Nodup
  free_lt : ∀ i ∈ s.tls_id_free_list, i < s.next_tls_id
  held_lt : ∀ ptr, s.Held ptr → s.tls_id ptr < s.next_tls_id
  held_not_free : ∀ ptr, s.Held ptr → s.tls_id ptr ∉ s.tls_id_free_list
  held_inj : ∀ ptr other, s.Held ptr → s.Held other → s.tls_id ptr = s.tls_id other → ptr = other
  ahead : ∀ ptr, s.created ≤ ptr → s.stage ptr = .live

/-- A thread that removes a column has the removal to itself. -/
def RemovesAt (t : Tid) (s : TlsShared Tid) : TlsPc Tid → Prop
  | .remove ptr .lock => ptr < s.created ∧ s.stage ptr = .removing t
  | .remove ptr (.walk _ _) => ptr < s.created ∧ s.stage ptr = .unmapped t
  | _ => True

/-- `remove_column` runs at most once on each `ThreadLocalPtr`, counting the call
made by its drop. -/
def removed_once : System.StepCondition Tid TlsAct (TlsShared Tid) (TlsPc Tid) :=
  fun _ a s _ =>
    match a with
    | .remove_column ptr | .drop ptr => s.stage ptr = .live
    | _ => True

instance [DecidableEq Tid] (t : Tid) (a : TlsAct) (s : TlsShared Tid) (pc : TlsPc Tid) :
    Decidable (removed_once t a s pc) := by
  unfold removed_once
  split <;> infer_instance

def ids_outline : System.Outline Tid (TlsShared Tid) (TlsPc Tid) where
  shared := IdsApart
  thread := RemovesAt
  apart := fun _ _ => True

/-- The ids and the stages are left as they are. -/
structure SameIds (s s' : TlsShared Tid) : Prop where
  next_tls_id : s'.next_tls_id = s.next_tls_id
  tls_id_free_list : s'.tls_id_free_list = s.tls_id_free_list
  created : s'.created = s.created
  ptrs : s'.ptrs = s.ptrs
  stage : s'.stage = s.stage

section ids

variable {s s' : TlsShared Tid} {ptr : PtrId}

theorem SameIds.held (h : SameIds s s') : s'.Held ptr ↔ s.Held ptr := by
  rw [TlsShared.Held, h.created, h.stage, TlsShared.Held]

theorem SameIds.tls_id (h : SameIds s s') : s'.tls_id ptr = s.tls_id ptr := by
  rw [TlsShared.tls_id, h.ptrs, TlsShared.tls_id]

theorem RemovesAt.same {t : Tid} {pc : TlsPc Tid} (hpc : RemovesAt t s pc) (h : SameIds s s') :
    RemovesAt t s' pc := by
  unfold RemovesAt at *
  rwa [h.created, h.stage]

theorem IdsApart.same (hs : IdsApart s) (h : SameIds s s') : IdsApart s' where
  free_nodup := by
    rw [h.tls_id_free_list]
    exact hs.free_nodup
  free_lt := by
    rw [h.tls_id_free_list, h.next_tls_id]
    exact hs.free_lt
  held_lt := fun ptr hptr => by
    rw [h.tls_id, h.next_tls_id]
    exact hs.held_lt ptr (h.held.mp hptr)
  held_not_free := fun ptr hptr => by
    rw [h.tls_id, h.tls_id_free_list]
    exact hs.held_not_free ptr (h.held.mp hptr)
  held_inj := fun ptr other hptr hother heq => by
    rw [h.tls_id, h.tls_id] at heq
    exact hs.held_inj ptr other (h.held.mp hptr) (h.held.mp hother) heq
  ahead := fun ptr hptr => by
    rw [h.stage]
    exact hs.ahead ptr (h.created ▸ hptr)

/-- The id that a new `ThreadLocalPtr` gets is nobody's. -/
theorem IdsApart.take_id (hs : IdsApart s) {i next : Nat} {free : List Nat}
    (htake : s.take_id = (i, next, free)) :
    free.Nodup ∧ i ∉ free ∧ (∀ j ∈ free, j ∈ s.tls_id_free_list) ∧ i < next ∧
      s.next_tls_id ≤ next ∧ ∀ ptr, s.Held ptr → s.tls_id ptr ≠ i := by
  unfold TlsShared.take_id at htake
  have hnodup := hs.free_nodup
  have hlt := hs.free_lt
  have hnot := hs.held_not_free
  cases hfree : s.tls_id_free_list with
  | nil =>
    simp only [hfree] at htake
    cases htake
    refine ⟨List.nodup_nil, List.not_mem_nil, fun j hj => hj, Nat.lt_succ_self _, Nat.le_succ _, ?_⟩
    intro ptr hptr
    exact Nat.ne_of_lt (hs.held_lt ptr hptr)
  | cons head rest =>
    simp only [hfree] at htake hnodup hlt hnot
    cases htake
    obtain ⟨hhead, hrest⟩ := List.nodup_cons.mp hnodup
    refine ⟨hrest, hhead, fun j hj => List.mem_cons_of_mem _ hj, hlt _ List.mem_cons_self,
      Nat.le_refl _, ?_⟩
    rintro ptr hptr rfl
    exact hnot ptr hptr List.mem_cons_self

/-- The new `ThreadLocalPtr` after its creation, next to those that exist. -/
theorem new_with_handler_held {handler : Option UnrefHandler}
    (h : (s.new_with_handler handler).Held ptr) :
    (ptr = s.created ∧ (s.new_with_handler handler).tls_id ptr = s.take_id.1) ∨
      (ptr < s.created ∧ s.Held ptr ∧ (s.new_with_handler handler).tls_id ptr = s.tls_id ptr) := by
  obtain ⟨hlt, hstage⟩ := h
  by_cases hptr : ptr = s.created
  · refine .inl ⟨hptr, ?_⟩
    rw [hptr]
    exact congrArg ThreadLocalPtr.tls_id (Function.update_self s.created _ s.ptrs)
  · have hlt : ptr < s.created := Nat.lt_of_le_of_ne (Nat.le_of_lt_succ hlt) hptr
    exact .inr ⟨hlt, ⟨hlt, hstage⟩, congrArg ThreadLocalPtr.tls_id (Function.update_of_ne hptr ..)⟩

theorem IdsApart.new_with_handler (hs : IdsApart s) (handler : Option UnrefHandler) :
    IdsApart (s.new_with_handler handler) := by
  obtain ⟨i, next, free, htake⟩ : ∃ i next free, s.take_id = (i, next, free) := ⟨_, _, _, rfl⟩
  obtain ⟨hnodup, hnot, hsub, hlt, hle, hnobody⟩ := hs.take_id htake
  have hfree : (s.new_with_handler handler).tls_id_free_list = free :=
    congrArg (fun taken => taken.2.2) htake
  have hnext : (s.new_with_handler handler).next_tls_id = next :=
    congrArg (fun taken => taken.2.1) htake
  have hid : s.take_id.1 = i := congrArg Prod.fst htake
  refine ⟨hfree ▸ hnodup, ?_, ?_, ?_, ?_, fun ptr hptr => hs.ahead ptr (Nat.le_of_succ_le hptr)⟩
  · intro j hj
    rw [hfree] at hj
    rw [hnext]
    exact Nat.lt_of_lt_of_le (hs.free_lt j (hsub j hj)) hle
  · intro ptr hptr
    rw [hnext]
    obtain ⟨-, hsame⟩ | ⟨-, hheld, hsame⟩ := new_with_handler_held hptr
    · rw [hsame, hid]
      exact hlt
    · rw [hsame]
      exact Nat.lt_of_lt_of_le (hs.held_lt ptr hheld) hle
  · intro ptr hptr
    rw [hfree]
    obtain ⟨-, hsame⟩ | ⟨-, hheld, hsame⟩ := new_with_handler_held hptr
    · rw [hsame, hid]
      exact hnot
    · rw [hsame]
      exact fun hmem => hs.held_not_free ptr hheld (hsub _ hmem)
  · intro ptr other hptr hother heq
    obtain ⟨hnew, hsame⟩ | ⟨-, hheld, hsame⟩ := new_with_handler_held hptr <;>
      obtain ⟨hnew', hsame'⟩ | ⟨-, hheld', hsame'⟩ := new_with_handler_held hother <;>
      rw [hsame, hsame'] at heq
    · exact hnew.trans hnew'.symm
    · exact absurd (heq.symm.trans hid) (hnobody other hheld')
    · exact absurd (heq.trans hid) (hnobody ptr hheld)
    · exact hs.held_inj ptr other hheld hheld' heq

/-- The removal of a column comes a step further, and its id stays held. -/
theorem IdsApart.advance (hs : IdsApart s) (hptr : s.Held ptr) (stage : Stage Tid) :
    IdsApart { s with stage := Function.update s.stage ptr stage } := by
  have hheld : ∀ other,
      TlsShared.Held { s with stage := Function.update s.stage ptr stage } other → s.Held other := by
    rintro other ⟨hlt, hnot⟩
    by_cases hother : other = ptr
    · exact hother ▸ hptr
    · exact ⟨hlt, fun h => hnot ((Function.update_of_ne hother ..).trans h)⟩
  refine ⟨hs.free_nodup, hs.free_lt, fun other h => hs.held_lt other (hheld other h),
    fun other h => hs.held_not_free other (hheld other h),
    fun p q hp hq => hs.held_inj p q (hheld p hp) (hheld q hq), ?_⟩
  intro other hother
  have hne : other ≠ ptr := (Nat.ne_of_lt (Nat.lt_of_lt_of_le hptr.1 hother)).symm
  exact (Function.update_of_ne hne ..).trans (hs.ahead other hother)

theorem IdsApart.return_id (hs : IdsApart s) (hptr : s.Held ptr) :
    IdsApart { s with
      thread_mu := none
      tls_id_free_list := s.tls_id ptr :: s.tls_id_free_list
      stage := Function.update s.stage ptr .returned } := by
  have hheld : ∀ other, other < s.created →
      Function.update s.stage ptr .returned other ≠ .returned → other ≠ ptr ∧ s.Held other := by
    intro other hlt hnot
    have hne : other ≠ ptr := by
      rintro rfl
      exact hnot (Function.update_self ..)
    rw [Function.update_of_ne hne] at hnot
    exact ⟨hne, hlt, hnot⟩
  refine ⟨List.nodup_cons.mpr ⟨hs.held_not_free ptr hptr, hs.free_nodup⟩, ?_, ?_, ?_, ?_, ?_⟩
  · intro i hi
    obtain rfl | hi := List.mem_cons.mp hi
    · exact hs.held_lt ptr hptr
    · exact hs.free_lt i hi
  · rintro other ⟨hlt, hnot⟩
    exact hs.held_lt other (hheld other hlt hnot).2
  · rintro other ⟨hlt, hnot⟩ hmem
    obtain ⟨hne, hother⟩ := hheld other hlt hnot
    obtain heq | hmem := List.mem_cons.mp hmem
    · exact hne (hs.held_inj other ptr hother hptr heq)
    · exact hs.held_not_free other hother hmem
  · rintro p q ⟨hp, hnotp⟩ ⟨hq, hnotq⟩
    exact hs.held_inj p q (hheld p hp hnotp).2 (hheld q hq hnotq).2
  · intro other hother
    have hne : other ≠ ptr := (Nat.ne_of_lt (Nat.lt_of_lt_of_le hptr.1 hother)).symm
    exact (Function.update_of_ne hne ..).trans (hs.ahead other hother)

end ids

variable [DecidableEq Tid]

theorem reclaim_same_ids (s : TlsShared Tid) (u : Tid) (i : Nat) (handler : Option UnrefHandler) :
    SameIds s (s.reclaim u i handler) := by
  unfold TlsShared.reclaim
  split <;> exact ⟨rfl, rfl, rfl, rfl, rfl⟩

section moves

variable {t u : Tid} {a : TlsAct} {s s' : TlsShared Tid} {pc pc' : TlsPc Tid}

theorem TlsMove.own_ids (hmove : TlsMove t s a pc s' pc') (hG : removed_once t a s pc)
    (hs : IdsApart s) (hl : RemovesAt t s pc) : IdsApart s' ∧ RemovesAt t s' pc' := by
  cases hmove with
  | new handler => exact ⟨hs.new_with_handler handler, trivial⟩
  | remove_column ptr hptr | drop ptr hptr =>
    have hlive : s.stage ptr = .live := hG
    have hheld : s.Held ptr := ⟨hptr.1, by rw [hlive]; exact nofun⟩
    exact ⟨(hs.advance hheld (.removing t)).same ⟨rfl, rfl, rfl, rfl, rfl⟩, hptr.1,
      Function.update_self ..⟩
  | @lock_column _ ptr =>
    obtain ⟨hptr, hstage⟩ := hl
    have hheld : s.Held ptr := ⟨hptr, by rw [hstage]; exact nofun⟩
    exact ⟨(hs.advance hheld (.unmapped t)).same ⟨rfl, rfl, rfl, rfl, rfl⟩, hptr,
      Function.update_self ..⟩
  | @visit_row _ ptr handler u rest =>
    have hsame := reclaim_same_ids s u (s.tls_id ptr) handler
    exact ⟨hs.same hsame, RemovesAt.same hl hsame⟩
  | @return_id _ ptr =>
    obtain ⟨hptr, hstage⟩ := hl
    have hheld : s.Held ptr := ⟨hptr, by rw [hstage]; exact nofun⟩
    exact ⟨hs.return_id hheld, trivial⟩
  | exit hpc =>
    refine ⟨hs.same ⟨rfl, rfl, rfl, rfl, rfl⟩, ?_⟩
    obtain rfl | ⟨rfl, -⟩ := hpc <;> trivial
  | visit_entry => exact ⟨hs.same (reclaim_same_ids s _ _ _), trivial⟩
  | _ => exact ⟨hs.same ⟨rfl, rfl, rfl, rfl, rfl⟩, trivial⟩

/-- A step of another thread changes no stage of a column that is being removed. -/
theorem TlsMove.stage_other (hne : u ≠ t) (hmove : TlsMove t s a pc s' pc')
    (hG : removed_once t a s pc) (hl : RemovesAt t s pc) {ptr : PtrId}
    (hptr : s.stage ptr = .removing u ∨ s.stage ptr = .unmapped u) :
    s'.stage ptr = s.stage ptr := by
  have hkept : ∀ {changed stage}, (s.stage changed = .live ∨ s.stage changed = .removing t ∨
      s.stage changed = .unmapped t) → Function.update s.stage changed stage ptr = s.stage ptr := by
    intro changed stage hchanged
    refine Function.update_of_ne ?_ ..
    rintro rfl
    grind
  cases hmove with
  | remove_column | drop => exact hkept (.inl hG)
  | lock_column => exact hkept (.inr (.inl hl.2))
  | return_id => exact hkept (.inr (.inr hl.2))
  | visit_row | visit_entry => rw [(reclaim_same_ids s _ _ _).stage]
  | _ => rfl

theorem TlsMove.created_le (hmove : TlsMove t s a pc s' pc') : s.created ≤ s'.created := by
  cases hmove with
  | new => exact Nat.le_succ _
  | visit_row | visit_entry => exact Nat.le_of_eq (reclaim_same_ids s _ _ _).created.symm
  | _ => exact Nat.le_refl _

theorem TlsMove.other_ids (hne : u ≠ t) (hmove : TlsMove t s a pc s' pc')
    (hG : removed_once t a s pc) (hl : RemovesAt t s pc) {m : TlsPc Tid} (hm : RemovesAt u s m) :
    RemovesAt u s' m := by
  cases m with
  | remove ptr m =>
    cases m with
    | lock =>
      refine ⟨Nat.lt_of_lt_of_le hm.1 hmove.created_le, ?_⟩
      rw [hmove.stage_other hne hG hl (.inl hm.2), hm.2]
    | walk handler rest =>
      refine ⟨Nat.lt_of_lt_of_le hm.1 hmove.created_le, ?_⟩
      rw [hmove.stage_other hne hG hl (.inr hm.2), hm.2]
  | _ => trivial

end moves

theorem ids_outline_valid : System.Outline.trivial.ValidOver ids_outline (tls_system Tid)
    removed_once where
  init_shared :=
    { free_nodup := List.nodup_nil
      free_lt := nofun
      held_lt := fun _ h => absurd h.1 (Nat.not_lt_zero _)
      held_not_free := fun _ _ => List.not_mem_nil
      held_inj := fun _ _ h => absurd h.1 (Nat.not_lt_zero _)
      ahead := fun _ _ => rfl }
  init_thread := fun _ => trivial
  init_apart := trivial
  step_own := by
    intro t a s pc r _ _ hs hl hG hstep
    exact (tls_step_move hstep).own_ids hG hs hl
  step_other := by
    intro t u a s pc m r hne _ hpair hG hstep
    exact ⟨(tls_step_move hstep).other_ids hne.symm hG hpair.own hpair.other, trivial, trivial⟩

/-- In every run in which each column is removed once, the free list holds no id
twice, and columns that are not removed have different ids. -/
theorem tls_ids_unique {c : TlsConfig Tid}
    (hc : (tls_system Tid).ReachableUnder removed_once c) :
    c.shared.tls_id_free_list.Nodup ∧
      ∀ ptr other, ptr < c.shared.created → other < c.shared.created →
        c.shared.stage ptr ≠ .returned → c.shared.stage other ≠ .returned →
        c.shared.tls_id ptr = c.shared.tls_id other → ptr = other := by
  have hids := (ids_outline_valid.holds_of_trivial hc).shared
  exact ⟨hids.free_nodup, fun ptr other hptr hother hheld hheld' =>
    hids.held_inj ptr other ⟨hptr, hheld⟩ ⟨hother, hheld'⟩⟩

/-- Thread `false` creates a `ThreadLocalPtr` and removes its column. -/
def create_and_remove (ptr : PtrId) : List (Bool × TlsAct) :=
  [(false, .new_with_handler (some 7)), (false, .remove_column ptr), (false, .step 0),
    (false, .step 0)]

/-- A recycled id and a fresh one. -/
theorem tls_ids_unique_recycled : ∃ c : TlsConfig Bool,
    c.shared.tls_id 1 = 0 ∧ c.shared.tls_id 2 = 1 ∧ c.shared.tls_id_free_list.Nodup ∧
      ∀ ptr other, ptr < c.shared.created → other < c.shared.created →
        c.shared.stage ptr ≠ .returned → c.shared.stage other ≠ .returned →
        c.shared.tls_id ptr = c.shared.tls_id other → ptr = other := by
  obtain ⟨c, hc, hseen⟩ := System.reachable_showing (tls_system Bool) removed_once
    (create_and_remove 0 ++ [(true, .new_with_handler none), (false, .new_with_handler (some 7))])
    (fun c => (c.shared.tls_id 1, c.shared.tls_id 2)) (0, 1) (by decide +kernel)
  obtain ⟨hrecycled, hfresh⟩ := Prod.mk.inj hseen
  exact ⟨c, hrecycled, hfresh, tls_ids_unique hc⟩

/-- A `ThreadLocalPtr` whose column was removed is dropped: its id is on the free
list twice, and the next two that are created share it. -/
theorem removed_and_dropped_id_shared : ∃ c d : TlsConfig Bool,
    (tls_system Bool).Reachable c ∧ c.shared.tls_id_free_list = [0, 0] ∧
      (tls_system Bool).Steps c d ∧ 2 < d.shared.created ∧ d.shared.stage 1 = .live ∧
      d.shared.stage 2 = .live ∧ d.shared.tls_id 1 = d.shared.tls_id 2 := by
  obtain ⟨c, d, hc, hd, hseen⟩ := System.steps_showing (tls_system Bool) System.anyStep
    System.anyStep (create_and_remove 0 ++ [(false, .drop 0), (false, .step 0), (false, .step 0)])
    [(true, .new_with_handler (some 7)), (false, .new_with_handler (some 8))]
    (fun c d => (c.shared.tls_id_free_list, d.shared.created, d.shared.stage 1, d.shared.stage 2,
      d.shared.tls_id 1, d.shared.tls_id 2)) ([0, 0], 3, .live, .live, 0, 0) (by decide +kernel)
  simp only [Prod.mk.injEq] at hseen
  obtain ⟨hfree, hcreated, hstage, hstage', hid, hid'⟩ := hseen
  exact ⟨c, d, hc, hfree, hd, by omega, hstage, hstage', hid.trans hid'.symm⟩

end ordinum.thread_local_storage
