import Ordinum.ThreadLocalStorage.Cells

open interleaving

namespace ordinum.thread_local_storage

variable {Tid : Type} [DecidableEq Tid]

/-- A cell holds an entry of its own column and row, on which no handler was
called. An entry that left its cell was handed to the handler it is due, and not
before the removal of its column or the exit of its thread had begun. -/
structure EntriesIntact (s : TlsShared Tid) : Prop where
  placed : ∀ t i e, s.cell t i = some e → s.Held e.column ∧ e.row = t ∧ s.tls_id e.column = i
  fresh : ∀ t i e, s.cell t i = some e → e ∈ s.installs ∧ s.unrefs_of e = []
  gone : ∀ e ∈ s.installs, s.cell e.row (s.tls_id e.column) ≠ some e →
    s.unrefs_of e = s.due e ∧ (s.stage e.column ≠ .live ∨ s.departed e.row = true)
  unrefs_installed : ∀ r ∈ s.unrefs, r.entry ∈ s.installs
  installs_nodup : s.installs.Nodup
  installs_created : ∀ e ∈ s.installs, e.column < s.created

/-- The handler map and the list of rows, as far as `thread_mu` keeps them. -/
structure LockIntact (s : TlsShared Tid) : Prop where
  mapped : ∀ ptr, ptr < s.created → (s.stage ptr = .live ∨ ∃ u, s.stage ptr = .removing u) →
    s.unref_handler_map (s.tls_id ptr) = (s.ptrs ptr).handler
  unmapped : ∀ ptr u, s.stage ptr = .unmapped u → s.thread_mu = some u
  linked : ∀ t i e, s.cell t i = some e → t ∈ s.head ∨ s.thread_mu = some t

def TlsPc.accesses : TlsPc Tid → Option PtrId
  | .access ptr _ => some ptr
  | _ => none

/-- Program points at which the thread holds `thread_mu`. -/
def TlsPc.locks : TlsPc Tid → Bool
  | .remove _ (.walk _ _) | .exit (.walk _) => true
  | _ => false

def TlsPc.leaves : TlsPc Tid → Bool
  | .exit _ | .exited => true
  | _ => false

/-- What a thread knows at its point, whatever the others do. -/
def PointAt (t : Tid) (s : TlsShared Tid) : TlsPc Tid → Prop
  | .access ptr .ensure_registered => ptr < s.created ∧ s.stage ptr = .live
  | .access ptr .grow => (ptr < s.created ∧ s.stage ptr = .live) ∧ (s.rows t).registered = true
  | .access ptr .load => (ptr < s.created ∧ s.stage ptr = .live) ∧ (s.rows t).registered = true ∧
    s.tls_id ptr < (s.rows t).entries.length
  | .access ptr .init => (ptr < s.created ∧ s.stage ptr = .live) ∧ (s.rows t).registered = true ∧
    s.tls_id ptr < (s.rows t).entries.length ∧ s.cell t (s.tls_id ptr) = none
  | .remove ptr (.walk handler rest) => handler = (s.ptrs ptr).handler ∧
    (∀ other u, s.stage other = .unmapped u → other = ptr) ∧
    ∀ u ∈ s.head, u ∉ rest → s.cell u (s.tls_id ptr) = none
  | .exit (.walk idx) => (∀ ptr u, s.stage ptr ≠ .unmapped u) ∧ ∀ i, i < idx → s.cell t i = none
  | .exited => ∀ i, s.cell t i = none
  | .idle | .remove _ .lock | .exit .lock => True

structure TlsAt (t : Tid) (s : TlsShared Tid) (pc : TlsPc Tid) : Prop where
  accessing : s.accessing t = pc.accesses
  departed : s.departed t = pc.leaves
  locked : s.thread_mu = some t ↔ pc.locks = true
  used : pc.leaves = false → ∀ i e, s.cell t i = some e → (s.rows t).registered = true
  linked : pc.leaves = false → (s.rows t).registered = true → t ∈ s.head
  point : PointAt t s pc

section entries

variable {s s' : TlsShared Tid}

/-- A step that touches no entry keeps the entries intact. -/
theorem EntriesIntact.frame (hs : EntriesIntact s) (hcell : ∀ t i, s'.cell t i = s.cell t i)
    (hinstalls : s'.installs = s.installs) (hunrefs : s'.unrefs = s.unrefs)
    (hcreated : s.created ≤ s'.created) (hptrs : ∀ ptr, ptr < s.created → s'.ptrs ptr = s.ptrs ptr)
    (hheld : ∀ t i e, s.cell t i = some e → s.Held e.column → s'.Held e.column)
    (hgone : ∀ e ∈ s.installs, s.stage e.column ≠ .live ∨ s.departed e.row = true →
      s'.stage e.column ≠ .live ∨ s'.departed e.row = true) : EntriesIntact s' := by
  have hunrefs_of : ∀ e, s'.unrefs_of e = s.unrefs_of e := fun e => by
    rw [TlsShared.unrefs_of, hunrefs, TlsShared.unrefs_of]
  have htls_id : ∀ ptr, ptr < s.created → s'.tls_id ptr = s.tls_id ptr := fun ptr hptr => by
    rw [TlsShared.tls_id, hptrs ptr hptr, TlsShared.tls_id]
  refine ⟨?_, ?_, ?_, ?_, hinstalls ▸ hs.installs_nodup, ?_⟩
  · intro t i e he
    rw [hcell] at he
    obtain ⟨hcolumn, hrow, hid⟩ := hs.placed t i e he
    exact ⟨hheld t i e he hcolumn, hrow, (htls_id _ hcolumn.1).trans hid⟩
  · intro t i e he
    rw [hcell] at he
    rw [hinstalls, hunrefs_of]
    exact hs.fresh t i e he
  · intro e he hleft
    rw [hinstalls] at he
    have hlt := hs.installs_created e he
    rw [hcell, htls_id _ hlt] at hleft
    obtain ⟨hdue, hwhy⟩ := hs.gone e he hleft
    rw [hunrefs_of, TlsShared.due, hptrs _ hlt]
    exact ⟨hdue, hgone e he hwhy⟩
  · rw [hunrefs, hinstalls]
    exact hs.unrefs_installed
  · intro e he
    rw [hinstalls] at he
    exact Nat.lt_of_lt_of_le (hs.installs_created e he) hcreated

section reclaim

variable {u : Tid} {i : Nat} {handler : Option UnrefHandler} {e e' : Entry Tid}

theorem reclaim_installs : (s.reclaim u i handler).installs = s.installs := by
  rw [TlsShared.reclaim]
  split <;> rfl

theorem reclaim_unrefs (hcell : s.cell u i = some e) : (s.reclaim u i handler).unrefs =
    s.unrefs ++ (handler.map fun handler => ⟨handler, e⟩).toList := by
  rw [TlsShared.reclaim, hcell]

theorem unrefs_of_reclaim_of_ne (hcell : s.cell u i = some e) (hne : e' ≠ e) :
    (s.reclaim u i handler).unrefs_of e' = s.unrefs_of e' := by
  rw [TlsShared.unrefs_of, reclaim_unrefs hcell, List.filter_append, TlsShared.unrefs_of]
  cases handler with
  | none => exact List.append_nil _
  | some handler =>
    have hnot : ¬ e = e' := fun h => hne h.symm
    simp [hnot]

theorem unrefs_of_reclaim_self (hcell : s.cell u i = some e) (hnone : s.unrefs_of e = [])
    (hhandler : handler = (s.ptrs e.column).handler) :
    (s.reclaim u i handler).unrefs_of e = s.due e := by
  rw [TlsShared.unrefs_of] at hnone
  rw [TlsShared.unrefs_of, reclaim_unrefs hcell, List.filter_append, hnone, List.nil_append,
    hhandler, TlsShared.due]
  cases (s.ptrs e.column).handler with
  | none => rfl
  | some handler => simp

/-- What a cell still holds it held before, and is not what was taken out. -/
theorem cell_of_reclaim {v : Tid} {j : Nat} (he : (s.reclaim u i handler).cell v j = some e) :
    ¬ (v = u ∧ j = i) ∧ s.cell v j = some e := by
  rw [cell_reclaim] at he
  split at he
  · cases he
  · rename_i hne
    exact ⟨hne, he⟩

end reclaim

/-- An entry is taken out of its cell and handed to the handler of its column. -/
theorem EntriesIntact.reclaim (hs : EntriesIntact s) {u : Tid} {i : Nat}
    {handler : Option UnrefHandler}
    (hhandler : ∀ e, s.cell u i = some e → handler = (s.ptrs e.column).handler)
    (hwhy : ∀ e, s.cell u i = some e → s.stage e.column ≠ .live ∨ s.departed e.row = true) :
    EntriesIntact (s.reclaim u i handler) := by
  cases hcell : s.cell u i with
  | none =>
    rw [show s.reclaim u i handler = s by simp only [TlsShared.reclaim, hcell]]
    exact hs
  | some e =>
    obtain ⟨hheld, hrow, hid⟩ := hs.placed u i e hcell
    obtain ⟨hinstalled, hnone⟩ := hs.fresh u i e hcell
    have hsame := reclaim_same_ids s u i handler
    have hdeparted := (reclaim_frame s u i handler).departed
    refine ⟨?_, ?_, ?_, ?_, by rw [reclaim_installs]; exact hs.installs_nodup, ?_⟩
    · intro v j e' he'
      rw [hsame.held, hsame.tls_id]
      exact hs.placed v j e' (cell_of_reclaim he').2
    · intro v j e' he'
      obtain ⟨hne, hin⟩ := cell_of_reclaim he'
      rw [reclaim_installs, unrefs_of_reclaim_of_ne hcell]
      · exact hs.fresh v j e' hin
      · rintro rfl
        obtain ⟨-, hrow', hid'⟩ := hs.placed v j e' hin
        exact hne ⟨hrow'.symm.trans hrow, hid'.symm.trans hid⟩
    · intro e' he' hleft
      rw [reclaim_installs] at he'
      rw [hsame.tls_id, cell_reclaim] at hleft
      rw [hsame.stage, hdeparted]
      have hdue : (s.reclaim u i handler).due e' = s.due e' := by
        rw [TlsShared.due, hsame.ptrs, TlsShared.due]
      rw [hdue]
      by_cases heq : e' = e
      · rw [heq]
        exact ⟨unrefs_of_reclaim_self hcell hnone (hhandler e hcell), hwhy e hcell⟩
      · rw [unrefs_of_reclaim_of_ne hcell heq]
        apply hs.gone e' he'
        intro hstill
        rw [if_neg] at hleft
        · exact hleft hstill
        · rintro ⟨hu, hi⟩
          rw [hu, hi, hcell] at hstill
          exact heq (Option.some.inj hstill).symm
    · intro r hr
      rw [reclaim_installs]
      rw [reclaim_unrefs hcell] at hr
      obtain hr | hr := List.mem_append.mp hr
      · exact hs.unrefs_installed r hr
      · cases handler with
        | none => cases hr
        | some handler =>
          rw [List.mem_singleton.mp hr]
          exact hinstalled
    · intro e' he'
      rw [reclaim_installs] at he'
      rw [hsame.created]
      exact hs.installs_created e' he'

/-- A new entry is installed in an empty cell of the thread's own row. -/
theorem EntriesIntact.install (hs : EntriesIntact s) {t : Tid} {ptr : PtrId} {entry : EntryPtr}
    (hlen : s.tls_id ptr < (s.rows t).entries.length) (hnull : s.cell t (s.tls_id ptr) = none)
    (hptr : ptr < s.created) (hlive : s.stage ptr = .live) (hstays : s.departed t = false) :
    EntriesIntact (s.install t ptr entry) := by
  have hafter := fun v j => cell_install s t v j ptr entry hlen
  have hnew : (⟨entry, ptr, t⟩ : Entry Tid) ∉ s.installs := by
    intro hin
    have hwhy := (hs.gone _ hin (by rw [hnull]; exact nofun)).2
    obtain hdead | hleft := hwhy
    · exact hdead hlive
    · rw [hstays] at hleft
      cases hleft
  have hunrefs : (s.install t ptr entry).unrefs_of ⟨entry, ptr, t⟩ = [] := by
    apply List.filter_eq_nil_iff.mpr
    intro r hr hentry
    exact hnew (of_decide_eq_true hentry ▸ hs.unrefs_installed r hr)
  have hcases : ∀ v j e, (s.install t ptr entry).cell v j = some e →
      (v = t ∧ j = s.tls_id ptr ∧ e = ⟨entry, ptr, t⟩) ∨ s.cell v j = some e := by
    intro v j e he
    rw [hafter] at he
    split at he
    · rename_i hplace
      cases he
      exact .inl ⟨hplace.1, hplace.2, rfl⟩
    · exact .inr he
  refine ⟨?_, ?_, ?_, ?_, ?_, ?_⟩
  · intro v j e he
    obtain ⟨rfl, rfl, rfl⟩ | hold := hcases v j e he
    · exact ⟨⟨hptr, by rw [show (s.install v ptr entry).stage ptr = .live from hlive]; exact nofun⟩,
        rfl, rfl⟩
    · exact hs.placed v j e hold
  · intro v j e he
    obtain ⟨-, -, rfl⟩ | hold := hcases v j e he
    · exact ⟨List.mem_append_right _ List.mem_cons_self, hunrefs⟩
    · obtain ⟨hin, hnone⟩ := hs.fresh v j e hold
      exact ⟨List.mem_append_left _ hin, hnone⟩
  · intro e he hleft
    obtain he | he := List.mem_append.mp he
    · refine hs.gone e he fun hstill => hleft ?_
      have hne : ¬ (e.row = t ∧ s.tls_id e.column = s.tls_id ptr) := by
        rintro ⟨hrow, hid⟩
        rw [hrow, hid, hnull] at hstill
        cases hstill
      exact (hafter e.row (s.tls_id e.column)).trans ((if_neg hne).trans hstill)
    · obtain rfl := List.mem_singleton.mp he
      exact absurd ((hafter t (s.tls_id ptr)).trans (if_pos ⟨rfl, rfl⟩)) hleft
  · exact fun r hr => List.mem_append_left _ (hs.unrefs_installed r hr)
  · refine List.nodup_append.mpr ⟨hs.installs_nodup, List.nodup_singleton _, ?_⟩
    rintro e he _ hsingle rfl
    obtain rfl := List.mem_singleton.mp hsingle
    exact hnew he
  · intro e he
    obtain he | he := List.mem_append.mp he
    · exact hs.installs_created e he
    · obtain rfl := List.mem_singleton.mp he
      exact hptr

/-- The removal of a column comes a step further. -/
theorem EntriesIntact.advance (hs : EntriesIntact s) (ptr : PtrId) (stage : Stage Tid)
    (hlive : stage ≠ .live) (hreturned : stage ≠ .returned) :
    EntriesIntact { s with stage := Function.update s.stage ptr stage } := by
  refine hs.frame (fun _ _ => rfl) rfl rfl (Nat.le_refl _) (fun _ _ => rfl) ?_ ?_
  · rintro - - e - ⟨hlt, hnot⟩
    refine ⟨hlt, ?_⟩
    change Function.update s.stage ptr stage e.column ≠ .returned
    by_cases hptr : e.column = ptr
    · rwa [hptr, Function.update_self]
    · rwa [Function.update_of_ne hptr]
  · rintro e - hwhy
    change Function.update s.stage ptr stage e.column ≠ .live ∨ _
    by_cases hptr : e.column = ptr
    · rw [hptr, Function.update_self]
      exact .inl hlive
    · rwa [Function.update_of_ne hptr]

end entries

section own

variable {t : Tid} {a : TlsAct} {s s' : TlsShared Tid} {pc pc' : TlsPc Tid}

omit [DecidableEq Tid] in
/-- When its walk is over, a removed column holds nothing. -/
theorem column_empty {ptr : PtrId} {handler : Option UnrefHandler} (hlock : LockIntact s)
    (hl : TlsAt t s (.remove ptr (.walk handler []))) (u : Tid) :
    s.cell u (s.tls_id ptr) = none := by
  by_contra hsome
  obtain ⟨e, he⟩ := Option.ne_none_iff_exists'.mp hsome
  have hmem : u ∈ s.head := by
    obtain hmem | hheld := hlock.linked u _ e he
    · exact hmem
    · have hmine : s.thread_mu = some t := hl.locked.mpr rfl
      obtain rfl : t = u := Option.some.inj (hmine.symm.trans hheld)
      exact hl.linked rfl (hl.used rfl _ e he)
  exact hsome (hl.point.2.2 u hmem List.not_mem_nil)

theorem TlsMove.own_entries (hmove : TlsMove t s a pc s' pc') (hG : quiescent t a s pc)
    (hids : IdsApart s) (hrem : RemovesAt t s pc) (hs : EntriesIntact s) (hlock : LockIntact s)
    (hl : TlsAt t s pc) : EntriesIntact s' := by
  have hframe : ∀ {s₁ s₂ : TlsShared Tid}, EntriesIntact s₁ → s₂.rows = s₁.rows →
      s₂.installs = s₁.installs → s₂.unrefs = s₁.unrefs → s₂.created = s₁.created →
      s₂.ptrs = s₁.ptrs → s₂.stage = s₁.stage → s₂.departed = s₁.departed →
      EntriesIntact s₂ := by
    intro s₁ s₂ h hrows hinstalls hunrefs hcreated hptrs hstage hdeparted
    refine h.frame (fun u i => ?_) hinstalls hunrefs (Nat.le_of_eq hcreated.symm)
      (fun ptr _ => by rw [hptrs]) (fun _ _ e _ hheld => ?_) (fun e _ hwhy => ?_)
    · rw [TlsShared.cell, hrows, TlsShared.cell]
    · rwa [TlsShared.Held, hcreated, hstage]
    · rwa [hstage, hdeparted]
  cases hmove with
  | new handler =>
    refine hs.frame (fun _ _ => rfl) rfl rfl (Nat.le_succ _) (fun ptr hptr => ?_)
      (fun _ _ _ _ hheld => ⟨Nat.lt_succ_of_lt hheld.1, hheld.2⟩) (fun _ _ => id)
    exact Function.update_of_ne (Nat.ne_of_lt hptr) ..
  | remove_column => exact hG.elim
  | drop ptr =>
    have hbegun := hs.advance ptr (.removing t) (by intro h; cases h) (by intro h; cases h)
    exact hframe hbegun rfl rfl rfl rfl rfl rfl rfl
  | @lock_column _ ptr =>
    have htaken := hs.advance ptr (.unmapped t) (by intro h; cases h) (by intro h; cases h)
    exact hframe htaken rfl rfl rfl rfl rfl rfl rfl
  | exit =>
    refine hs.frame (fun _ _ => rfl) rfl rfl (Nat.le_refl _) (fun _ _ => rfl)
      (fun _ _ _ _ => id) (fun e _ hwhy => ?_)
    change _ ∨ Function.update s.departed t true e.row = true
    by_cases hrow : e.row = t
    · rw [hrow, Function.update_self]
      exact .inr rfl
    · rwa [Function.update_of_ne hrow]
  | register =>
    refine hs.frame (fun u i => ?_) rfl rfl (Nat.le_refl _) (fun _ _ => rfl) (fun _ _ _ _ => id)
      (fun _ _ => id)
    apply (cell_with_row s t u i _).trans
    split
    · rename_i hrow
      rw [hrow]
      rfl
    · rfl
  | resize =>
    exact hs.frame (fun u i => cell_resize s t u i _) rfl rfl (Nat.le_refl _) (fun _ _ => rfl)
      (fun _ _ _ _ => id) (fun _ _ => id)
  | init =>
    obtain ⟨⟨hptr, hlive⟩, -, hlen, hnull⟩ := hl.point
    exact hs.install hlen hnull hptr hlive hl.departed
  | @visit_row _ ptr handler u rest =>
    have hheld : s.Held ptr := ⟨hrem.1, by rw [hrem.2]; rintro ⟨⟩⟩
    have hcolumn : ∀ e, s.cell u (s.tls_id ptr) = some e → e.column = ptr := by
      intro e he
      obtain ⟨hcolumn, -, hid⟩ := hs.placed u _ e he
      exact hids.held_inj _ _ hcolumn hheld hid
    refine hs.reclaim (fun e he => ?_) (fun e he => ?_)
    · rw [hcolumn e he]
      exact hl.point.1
    · rw [hcolumn e he, hrem.2]
      exact .inl (by intro h; cases h)
  | @return_id _ ptr handler =>
    have hempty := column_empty hlock hl
    have hother : ∀ u i e, s.cell u i = some e → e.column ≠ ptr := by
      rintro u i e he rfl
      obtain ⟨-, -, rfl⟩ := hs.placed u i e he
      rw [hempty] at he
      cases he
    refine hs.frame (fun _ _ => rfl) rfl rfl (Nat.le_refl _) (fun _ _ => rfl) ?_ ?_
    · rintro u i e he ⟨hlt, hnot⟩
      exact ⟨hlt, fun h => hnot ((Function.update_of_ne (hother u i e he) ..).symm.trans h)⟩
    · intro e _ hwhy
      change Function.update s.stage ptr .returned e.column ≠ .live ∨ _
      by_cases hptr : e.column = ptr
      · rw [hptr, Function.update_self]
        exact .inl (by intro h; cases h)
      · rwa [Function.update_of_ne hptr]
  | @visit_entry _ idx =>
    have hdeparted : s.departed t = true := hl.departed
    refine hs.reclaim (fun e he => ?_) (fun e he => ?_)
    · obtain ⟨⟨hlt, hnot⟩, -, hid⟩ := hs.placed t idx e he
      rw [← hid]
      apply hlock.mapped e.column hlt
      cases hstage : s.stage e.column with
      | live => exact .inl rfl
      | removing u => exact .inr ⟨u, rfl⟩
      | unmapped u => exact absurd hstage (hl.point.1 _ u)
      | returned => exact absurd hstage hnot
    · rw [(hs.placed t idx e he).2.1]
      exact .inr hdeparted
  | _ => exact hframe hs rfl rfl rfl rfl rfl rfl rfl

omit [DecidableEq Tid] in
/-- When its walk is over, the row of a leaving thread holds nothing. -/
theorem row_empty {idx i : Nat} (hpoint : PointAt t s (.exit (.walk idx)))
    (hlen : (s.rows t).entries.length ≤ idx) : s.cell t i = none := by
  by_cases hi : i < idx
  · exact hpoint.2 i hi
  · exact cell_of_length_le s t i (by omega)

omit [DecidableEq Tid] in
/-- What is left of the map and the row list when the stages and `thread_mu` stay. -/
theorem LockIntact.frame (hs : LockIntact s) (hmu : s'.thread_mu = s.thread_mu)
    (hmap : s'.unref_handler_map = s.unref_handler_map) (hsame : SameIds s s')
    (hhead : ∀ u ∈ s.head, u ∈ s'.head)
    (hcell : ∀ u i e, s'.cell u i = some e → s.cell u i = some e) : LockIntact s' where
  mapped := fun ptr hptr hstage => by
    rw [hmap, hsame.tls_id, hsame.ptrs]
    exact hs.mapped ptr (hsame.created ▸ hptr) (hsame.stage ▸ hstage)
  unmapped := fun ptr u hstage => by
    rw [hmu]
    exact hs.unmapped ptr u (hsame.stage ▸ hstage)
  linked := fun u i e he => by
    rw [hmu]
    exact (hs.linked u i e (hcell u i e he)).imp_left (hhead u)

theorem LockIntact.reclaim (hs : LockIntact s) (u : Tid) (i : Nat)
    (handler : Option UnrefHandler) : LockIntact (s.reclaim u i handler) := by
  have hrest := reclaim_frame s u i handler
  refine hs.frame hrest.thread_mu hrest.unref_handler_map (reclaim_same_ids s u i handler)
    (fun v hv => hrest.head ▸ hv) fun v j e he => (cell_of_reclaim he).2

omit [DecidableEq Tid] in
theorem LockIntact.not_unmapped (hlock : LockIntact s) (hfree : s.thread_mu = none) (ptr : PtrId)
    (u : Tid) : s.stage ptr ≠ .unmapped u := by
  intro hstage
  rw [hlock.unmapped ptr u hstage] at hfree
  cases hfree

omit [DecidableEq Tid] in
/-- The map after the creation of a `ThreadLocalPtr`. -/
theorem LockIntact.new_with_handler (hs : LockIntact s) (hids : IdsApart s)
    (handler : Option UnrefHandler) : LockIntact (s.new_with_handler handler) := by
  obtain ⟨i, next, free, htake⟩ : ∃ i next free, s.take_id = (i, next, free) := ⟨_, _, _, rfl⟩
  obtain ⟨-, -, -, -, -, hnobody⟩ := hids.take_id htake
  have hid : s.take_id.1 = i := congrArg Prod.fst htake
  have hmap : (s.new_with_handler handler).unref_handler_map =
      Function.update s.unref_handler_map i handler := by
    rw [← hid]
    rfl
  refine ⟨fun ptr hptr hstage => ?_, hs.unmapped, hs.linked⟩
  have hheld : (s.new_with_handler handler).Held ptr := by
    refine ⟨hptr, fun hreturned => ?_⟩
    rw [hreturned] at hstage
    obtain h | ⟨u, h⟩ := hstage <;> cases h
  rw [hmap]
  obtain ⟨rfl, hsame⟩ | ⟨hlt, hheld, hsame⟩ := new_with_handler_held hheld
  · have hnew : (s.new_with_handler handler).ptrs s.created = ⟨s.take_id.1, handler⟩ :=
      Function.update_self s.created _ s.ptrs
    rw [hsame, hid, hnew, Function.update_self]
  · rw [hsame, Function.update_of_ne (hnobody ptr hheld)]
    apply (hs.mapped ptr hlt hstage).trans
    exact congrArg ThreadLocalPtr.handler (Function.update_of_ne (Nat.ne_of_lt hlt) ..).symm

omit [DecidableEq Tid] in
/-- The map after a removal has begun: nothing is taken out of it yet. -/
theorem LockIntact.begin (hs : LockIntact s) (ptr : PtrId) (hlive : s.stage ptr = .live) :
    LockIntact { s with stage := Function.update s.stage ptr (.removing t) } := by
  refine ⟨fun other hlt hstage => hs.mapped other hlt ?_, fun other u hstage => ?_, hs.linked⟩
  · by_cases hother : other = ptr
    · exact .inl (hother ▸ hlive)
    · have hsame : Function.update s.stage ptr (.removing t) other = s.stage other :=
        Function.update_of_ne hother ..
      exact hsame ▸ hstage
  · have hstage : Function.update s.stage ptr (.removing t) other = .unmapped u := hstage
    by_cases hother : other = ptr
    · rw [hother, Function.update_self] at hstage
      cases hstage
    · rw [Function.update_of_ne hother] at hstage
      exact hs.unmapped other u hstage

theorem TlsMove.own_lock (hmove : TlsMove t s a pc s' pc') (hG : quiescent t a s pc)
    (hids : IdsApart s) (hdrops : ∀ ptr, s.dropped ptr = false → s.stage ptr = .live)
    (hrem : RemovesAt t s pc) (hs : LockIntact s) (hl : TlsAt t s pc) : LockIntact s' := by
  have hmine : pc.locks = true → s.thread_mu = some t := hl.locked.mpr
  cases hmove with
  | new handler => exact hs.new_with_handler hids handler
  | remove_column => exact hG.elim
  | drop ptr hptr =>
    have hbegin := hs.begin (t := t) ptr (hdrops ptr hptr.2)
    exact ⟨hbegin.mapped, hbegin.unmapped, hbegin.linked⟩
  | register =>
    refine hs.frame rfl rfl ⟨rfl, rfl, rfl, rfl, rfl⟩ (fun u hu => List.mem_cons_of_mem _ hu) ?_
    intro u i e he
    have he := (cell_with_row s t u i _).symm.trans he
    split at he
    · rename_i hrow
      rwa [hrow]
    · exact he
  | resize =>
    refine hs.frame rfl rfl ⟨rfl, rfl, rfl, rfl, rfl⟩ (fun _ => id) fun u i e he => ?_
    rwa [cell_resize] at he
  | init =>
    obtain ⟨-, hrow, hlen, -⟩ := hl.point
    refine ⟨hs.mapped, hs.unmapped, fun u i e he => ?_⟩
    rw [cell_install s t u i _ _ hlen] at he
    split at he
    · rename_i hplace
      rw [hplace.1]
      exact .inl (hl.linked rfl hrow)
    · exact hs.linked u i e he
  | @lock_column _ ptr hfree =>
    refine ⟨fun other hlt hstage => ?_, fun other u hstage => ?_, fun u i e he => ?_⟩
    · have hstage : Function.update s.stage ptr (.unmapped t) other = .live ∨
          ∃ u, Function.update s.stage ptr (.unmapped t) other = .removing u := hstage
      have hother : other ≠ ptr := by
        rintro rfl
        rw [Function.update_self] at hstage
        obtain h | ⟨u, h⟩ := hstage <;> cases h
      rw [Function.update_of_ne hother] at hstage
      have hheld : s.Held ptr := ⟨hrem.1, by rw [hrem.2]; exact nofun⟩
      have hheld' : s.Held other := by
        refine ⟨hlt, fun hreturned => ?_⟩
        rw [hreturned] at hstage
        obtain h | ⟨u, h⟩ := hstage <;> cases h
      have hne : s.tls_id other ≠ s.tls_id ptr := fun h =>
        hother (hids.held_inj other ptr hheld' hheld h)
      exact (Function.update_of_ne hne ..).trans (hs.mapped other hlt hstage)
    · have hstage : Function.update s.stage ptr (.unmapped t) other = .unmapped u := hstage
      by_cases hother : other = ptr
      · rw [hother, Function.update_self] at hstage
        cases hstage
        rfl
      · rw [Function.update_of_ne hother] at hstage
        exact absurd hstage (hs.not_unmapped hfree other u)
    · refine .inl ((hs.linked u i e he).resolve_right fun h => ?_)
      rw [hfree] at h
      cases h
  | visit_row | visit_entry => exact hs.reclaim _ _ _
  | @return_id _ ptr handler =>
    have hmu := hmine rfl
    refine ⟨fun other hlt hstage => ?_, fun other u hstage => ?_, fun u i e he => ?_⟩
    · have hstage : Function.update s.stage ptr .returned other = .live ∨
          ∃ u, Function.update s.stage ptr .returned other = .removing u := hstage
      apply hs.mapped other hlt
      by_cases hother : other = ptr
      · rw [hother, Function.update_self] at hstage
        obtain h | ⟨u, h⟩ := hstage <;> cases h
      · rwa [Function.update_of_ne hother] at hstage
    · have hstage : Function.update s.stage ptr .returned other = .unmapped u := hstage
      by_cases hother : other = ptr
      · rw [hother, Function.update_self] at hstage
        cases hstage
      · rw [Function.update_of_ne hother] at hstage
        exact absurd (hl.point.2.1 other u hstage) hother
    · refine .inl ((hs.linked u i e he).elim id fun h => ?_)
      obtain rfl : t = u := Option.some.inj (hmu.symm.trans h)
      exact hl.linked rfl (hl.used rfl i e he)
  | lock_row hfree =>
    refine ⟨hs.mapped, fun ptr u hstage => ?_, fun u i e he => ?_⟩
    · exact absurd hstage (hs.not_unmapped hfree ptr u)
    · by_cases hu : u = t
      · exact .inr (hu ▸ rfl)
      · refine .inl ((List.mem_erase_of_ne hu).mpr ((hs.linked u i e he).resolve_right fun h => ?_))
        rw [hfree] at h
        cases h
  | @leave _ idx hlen =>
    have hmu := hmine rfl
    refine ⟨hs.mapped, fun ptr u hstage => absurd hstage (hl.point.1 ptr u), fun u i e he => ?_⟩
    refine .inl ((hs.linked u i e he).elim id fun h => ?_)
    obtain rfl : t = u := Option.some.inj (hmu.symm.trans h)
    have he : s.cell t i = some e := he
    rw [row_empty hl.point hlen] at he
    cases he
  | _ => exact ⟨hs.mapped, hs.unmapped, hs.linked⟩

theorem TlsMove.own_at (hmove : TlsMove t s a pc s' pc') (hG : quiescent t a s pc)
    (hdrops : ∀ ptr, s.dropped ptr = false → s.stage ptr = .live) (hrem : RemovesAt t s pc)
    (hlock : LockIntact s) (hl : TlsAt t s pc) : TlsAt t s' pc' := by
  -- A thread that has begun to leave owes its row nothing.
  have hleft : ∀ {promise : Prop}, true = false → promise := fun h =>
    absurd h.symm Bool.false_ne_true
  cases hmove with
  | new | drop => exact ⟨hl.accessing, hl.departed, hl.locked, hl.used, hl.linked, trivial⟩
  | found =>
    exact ⟨Function.update_self .., hl.departed, hl.locked, hl.used, hl.linked, trivial⟩
  | remove_column => exact hG.elim
  | get_or_init ptr hptr =>
    exact ⟨Function.update_self .., hl.departed, hl.locked, hl.used, hl.linked,
      hptr.1, hdrops ptr hptr.2⟩
  | exit hpc =>
    obtain rfl | ⟨rfl, hrow⟩ := hpc
    · exact ⟨hl.accessing, Function.update_self .., hl.locked, hleft, hleft, trivial⟩
    · refine ⟨hl.accessing, Function.update_self .., hl.locked, hleft, hleft, fun i => ?_⟩
      change s.cell t i = none
      by_contra hsome
      obtain ⟨e, he⟩ := Option.ne_none_iff_exists'.mp hsome
      rw [hl.used rfl i e he] at hrow
      cases hrow
  | registered hrow =>
    exact ⟨hl.accessing, hl.departed, hl.locked, hl.used, hl.linked, hl.point, hrow⟩
  | register =>
    have hrow : (Function.update s.rows t { s.rows t with registered := true } t).registered =
        true := by rw [Function.update_self]
    exact ⟨hl.accessing, hl.departed, hl.locked, fun _ _ _ _ => hrow,
      fun _ _ => List.mem_cons_self, hl.point, hrow⟩
  | long_enough hlen =>
    exact ⟨hl.accessing, hl.departed, hl.locked, hl.used, hl.linked, hl.point.1, hl.point.2, hlen⟩
  | @resize _ ptr hfree hlen =>
    have hrow : ((s.resize t (s.tls_id ptr)).rows t).registered = true := by
      rw [TlsShared.resize, with_row_self]
      exact hl.point.2
    refine ⟨hl.accessing, hl.departed, hl.locked, fun _ _ _ _ => hrow,
      fun _ _ => hl.linked rfl hl.point.2, hl.point.1, hrow, ?_⟩
    change s.tls_id ptr < ((s.resize t (s.tls_id ptr)).rows t).entries.length
    rw [TlsShared.resize, with_row_self, List.length_append, List.length_replicate]
    omega
  | null hcell =>
    exact ⟨hl.accessing, hl.departed, hl.locked, hl.used, hl.linked, hl.point.1, hl.point.2.1,
      hl.point.2.2, hcell⟩
  | @init entry ptr =>
    have hrow : ((s.install t ptr entry).rows t).registered = true := by
      change ((s.with_row t _).rows t).registered = true
      rw [with_row_self]
      exact hl.point.2.1
    exact ⟨Function.update_self .., hl.departed, hl.locked, fun _ _ _ _ => hrow,
      fun _ _ => hl.linked rfl hl.point.2.1, trivial⟩
  | @lock_column _ ptr hfree =>
    refine ⟨hl.accessing, hl.departed, ⟨fun _ => rfl, fun _ => rfl⟩, hl.used, hl.linked,
      hlock.mapped ptr hrem.1 (.inr ⟨t, hrem.2⟩), fun other u hstage => ?_,
      fun u hu hnot => absurd hu hnot⟩
    have hstage : Function.update s.stage ptr (.unmapped t) other = .unmapped u := hstage
    by_contra hother
    rw [Function.update_of_ne hother] at hstage
    exact hlock.not_unmapped hfree other u hstage
  | @visit_row _ ptr handler u rest =>
    have hframe := reclaim_frame s u (s.tls_id ptr) handler
    have hsame := reclaim_same_ids s u (s.tls_id ptr) handler
    refine ⟨?_, ?_, ?_, fun _ i e he => ?_, fun _ hrow => ?_, ?_, ?_, fun v hv hnot => ?_⟩
    · rw [hframe.accessing]
      exact hl.accessing
    · rw [hframe.departed]
      exact hl.departed
    · rw [hframe.thread_mu]
      exact hl.locked
    · rw [hframe.registered]
      exact hl.used rfl i e (cell_of_reclaim he).2
    · rw [hframe.head]
      rw [hframe.registered] at hrow
      exact hl.linked rfl hrow
    · rw [hsame.ptrs]
      exact hl.point.1
    · rw [hsame.stage]
      exact hl.point.2.1
    · rw [hframe.head] at hv
      rw [hsame.tls_id, cell_reclaim]
      split
      · rfl
      · rename_i hne
        apply hl.point.2.2 v hv
        intro hmem
        obtain rfl | hmem := List.mem_cons.mp hmem
        · exact hne ⟨rfl, rfl⟩
        · exact hnot hmem
  | return_id =>
    exact ⟨hl.accessing, hl.departed, ⟨(by intro h; cases h), by intro h; cases h⟩, hl.used,
      hl.linked, trivial⟩
  | lock_row hfree =>
    refine ⟨hl.accessing, hl.departed, ⟨fun _ => rfl, fun _ => rfl⟩, hleft, hleft, ?_,
      by intro i hi; cases hi⟩
    exact hlock.not_unmapped hfree
  | @visit_entry _ idx =>
    have hframe := reclaim_frame s t idx (s.unref_handler_map idx)
    have hsame := reclaim_same_ids s t idx (s.unref_handler_map idx)
    refine ⟨?_, ?_, ?_, hleft, hleft, ?_, fun i hi => ?_⟩
    · rw [hframe.accessing]
      exact hl.accessing
    · rw [hframe.departed]
      exact hl.departed
    · rw [hframe.thread_mu]
      exact hl.locked
    · rw [hsame.stage]
      exact hl.point.1
    · rw [cell_reclaim]
      split
      · rfl
      · rename_i hne
        have hi : i ≠ idx := fun h => hne ⟨rfl, h⟩
        exact hl.point.2 i (by omega)
  | leave hlen =>
    exact ⟨hl.accessing, hl.departed, ⟨(by intro h; cases h), by intro h; cases h⟩, hleft, hleft,
      fun i => row_empty hl.point hlen⟩

end own

end ordinum.thread_local_storage
