import Ordinum.ThreadLocalStorage.Entries

open interleaving

namespace ordinum.thread_local_storage

variable {Tid : Type} [DecidableEq Tid]

section frame

variable {t u : Tid} {a : TlsAct} {s s' : TlsShared Tid} {pc pc' : TlsPc Tid}

/-- What a step of another thread leaves to thread `u`. -/
structure TlsFrame (u : Tid) (s s' : TlsShared Tid) : Prop where
  created : s.created ≤ s'.created
  ptrs : ∀ ptr, ptr < s.created → s'.ptrs ptr = s.ptrs ptr
  accessing : s'.accessing u = s.accessing u
  departed : s'.departed u = s.departed u
  locked : s'.thread_mu = some u ↔ s.thread_mu = some u
  cells : ∀ i e, s'.cell u i = some e → s.cell u i = some e
  registered : (s'.rows u).registered = (s.rows u).registered
  length : (s'.rows u).entries.length = (s.rows u).entries.length
  linked : u ∈ s.head → u ∈ s'.head
  live : ∀ ptr, s.accessing u = some ptr → s.stage ptr = .live → s'.stage ptr = .live

/-- What it leaves to thread `u` while that holds `thread_mu`. -/
structure LockFrame (s s' : TlsShared Tid) : Prop where
  unmapped : ∀ ptr v, s'.stage ptr = .unmapped v → s.stage ptr = .unmapped v
  head : s'.head = s.head
  column : ∀ ptr, s.Held ptr → s.stage ptr ≠ .live → ∀ v, s.cell v (s.tls_id ptr) = none →
    s'.cell v (s.tls_id ptr) = none

omit [DecidableEq Tid] in
/-- A step of another thread that touches only what is that thread's own. -/
theorem TlsFrame.of_same (hrows : s'.rows = s.rows) (hhead : s'.head = s.head)
    (hmu : s'.thread_mu = s.thread_mu) (hcreated : s'.created = s.created)
    (hptrs : s'.ptrs = s.ptrs) (hstage : s'.stage = s.stage)
    (haccessing : s'.accessing u = s.accessing u) (hdeparted : s'.departed u = s.departed u) :
    TlsFrame u s s' where
  created := Nat.le_of_eq hcreated.symm
  ptrs := fun ptr _ => by rw [hptrs]
  accessing := haccessing
  departed := hdeparted
  locked := by rw [hmu]
  cells := fun i e he => by rwa [TlsShared.cell, hrows] at he
  registered := by rw [hrows]
  length := by rw [hrows]
  linked := fun hu => hhead ▸ hu
  live := fun ptr _ hlive => hstage ▸ hlive

theorem TlsFrame.reclaim (v : Tid) (i : Nat) (handler : Option UnrefHandler) :
    TlsFrame u s (s.reclaim v i handler) where
  created := Nat.le_of_eq (reclaim_same_ids s v i handler).created.symm
  ptrs := fun _ _ => by rw [(reclaim_same_ids s v i handler).ptrs]
  accessing := by rw [(reclaim_frame s v i handler).accessing]
  departed := by rw [(reclaim_frame s v i handler).departed]
  locked := by rw [(reclaim_frame s v i handler).thread_mu]
  cells := fun j e he => (cell_of_reclaim he).2
  registered := (reclaim_frame s v i handler).registered u
  length := length_reclaim s v u i handler
  linked := fun hu => (reclaim_frame s v i handler).head ▸ hu
  live := fun _ _ hlive => (reclaim_same_ids s v i handler).stage ▸ hlive

/-- A change of another thread's own row. -/
theorem TlsFrame.with_row (hne : u ≠ t) (row : ThreadData Tid) (hrows : s'.rows =
    (s.with_row t row).rows) (hhead : ∀ v ∈ s.head, v ∈ s'.head)
    (hmu : s'.thread_mu = s.thread_mu) (hcreated : s'.created = s.created)
    (hptrs : s'.ptrs = s.ptrs) (hstage : s'.stage = s.stage)
    (haccessing : s'.accessing u = s.accessing u) (hdeparted : s'.departed = s.departed) :
    TlsFrame u s s' where
  created := Nat.le_of_eq hcreated.symm
  ptrs := fun ptr _ => by rw [hptrs]
  accessing := haccessing
  departed := by rw [hdeparted]
  locked := by rw [hmu]
  cells := fun i e he => by rwa [TlsShared.cell, hrows, with_row_of_ne s t u row hne] at he
  registered := by rw [hrows, with_row_of_ne s t u row hne]
  length := by rw [hrows, with_row_of_ne s t u row hne]
  linked := hhead u
  live := fun ptr _ hlive => hstage ▸ hlive

omit [DecidableEq Tid] in
/-- A removal that goes on does not reach a column in use. -/
theorem TlsFrame.advance (hne : u ≠ t) {ptr : PtrId} (hptr : s.accessing u = some ptr →
    s.stage ptr ≠ .live) (stage : Stage Tid) (hrows : s'.rows = s.rows)
    (hhead : ∀ v ∈ s.head, v ≠ t → v ∈ s'.head)
    (hmu : s'.thread_mu = some u ↔ s.thread_mu = some u) (hcreated : s'.created = s.created)
    (hptrs : s'.ptrs = s.ptrs) (hstage : s'.stage = Function.update s.stage ptr stage)
    (haccessing : s'.accessing = s.accessing) (hdeparted : s'.departed = s.departed) :
    TlsFrame u s s' where
  created := Nat.le_of_eq hcreated.symm
  ptrs := fun ptr _ => by rw [hptrs]
  accessing := by rw [haccessing]
  departed := by rw [hdeparted]
  locked := hmu
  cells := fun i e he => by rwa [TlsShared.cell, hrows] at he
  registered := by rw [hrows]
  length := by rw [hrows]
  linked := fun hu => hhead u hu hne
  live := fun other hother hlive => by
    have hdiff : other ≠ ptr := by
      rintro rfl
      exact hptr hother hlive
    rw [hstage, Function.update_of_ne hdiff]
    exact hlive

theorem TlsMove.frame (hne : u ≠ t) (hmove : TlsMove t s a pc s' pc') (hG : quiescent t a s pc)
    (hrem : RemovesAt t s pc) (hl : TlsAt t s pc) : TlsFrame u s s' := by
  have hmine : pc.locks = true → s.thread_mu = some t := hl.locked.mpr
  have hnotyours : ∀ {mu : Option Tid}, mu = none ∨ mu = some t → ¬ mu = some u := by
    rintro mu (rfl | rfl) h
    · cases h
    · exact hne (Option.some.inj h).symm
  cases hmove with
  | new handler =>
    refine ⟨Nat.le_succ _, fun ptr hptr => ?_, rfl, rfl, Iff.rfl, fun _ _ => id, rfl, rfl, id,
      fun _ _ => id⟩
    exact Function.update_of_ne (Nat.ne_of_lt hptr) ..
  | get_or_init | found =>
    exact .of_same rfl rfl rfl rfl rfl rfl (Function.update_of_ne hne ..) rfl
  | exit => exact .of_same rfl rfl rfl rfl rfl rfl rfl (Function.update_of_ne hne ..)
  | registered | long_enough | null => exact .of_same rfl rfl rfl rfl rfl rfl rfl rfl
  | remove_column => exact hG.elim
  | drop ptr =>
    exact .advance hne (fun h => absurd h (hG u)) _ rfl (fun _ hv _ => hv) Iff.rfl rfl rfl rfl rfl rfl
  | register hfree =>
    exact .with_row hne _ rfl (fun v hv => List.mem_cons_of_mem _ hv) rfl rfl rfl rfl rfl rfl
  | resize hfree => exact .with_row hne _ rfl (fun _ => id) rfl rfl rfl rfl rfl rfl
  | init =>
    exact .with_row hne _ rfl (fun _ => id) rfl rfl rfl rfl (Function.update_of_ne hne ..) rfl
  | lock_column hfree =>
    refine .advance hne (fun _ => by rw [hrem.2]; exact nofun) _ rfl (fun _ hv _ => hv) ?_ rfl rfl
      rfl rfl rfl
    exact ⟨fun h => absurd h (hnotyours (.inr rfl)), fun h => absurd h (hnotyours (.inl hfree))⟩
  | return_id =>
    refine .advance hne (fun _ => by rw [hrem.2]; exact nofun) _ rfl (fun _ hv _ => hv) ?_ rfl rfl
      rfl rfl rfl
    exact ⟨nofun, fun h => absurd h (hnotyours (.inr (hmine rfl)))⟩
  | lock_row hfree =>
    refine ⟨Nat.le_refl _, fun _ _ => rfl, rfl, rfl, ?_, fun _ _ => id, rfl, rfl,
      (List.mem_erase_of_ne hne).mpr, fun _ _ => id⟩
    exact ⟨fun h => absurd h (hnotyours (.inr rfl)), fun h => absurd h (hnotyours (.inl hfree))⟩
  | leave =>
    refine ⟨Nat.le_refl _, fun _ _ => rfl, rfl, rfl, ?_, fun _ _ => id, rfl, rfl, id, fun _ _ => id⟩
    exact ⟨nofun, fun h => absurd h (hnotyours (.inr (hmine rfl)))⟩
  | visit_row | visit_entry => exact .reclaim _ _ _

/-- While another thread walks over the cells, only cells of columns in use are
filled. -/
theorem TlsMove.lock_frame (hne : u ≠ t) (hmove : TlsMove t s a pc s' pc')
    (hG : quiescent t a s pc) (hids : IdsApart s) (hl : TlsAt t s pc)
    (hmu : s.thread_mu = some u) : LockFrame s s' := by
  have hbusy : ¬ s.thread_mu = none := by
    rw [hmu]
    exact nofun
  have hwalks : ¬ pc.locks = true := fun h => hne (Option.some.inj (hmu.symm.trans (hl.locked.mpr h)))
  cases hmove with
  | new _ hfree | register hfree | lock_column hfree | lock_row hfree | resize hfree =>
    exact absurd hfree hbusy
  | visit_row | return_id | visit_entry | leave => exact absurd rfl hwalks
  | remove_column => exact hG.elim
  | get_or_init | exit | registered | long_enough | found | null =>
    exact ⟨fun _ _ => id, rfl, fun _ _ _ _ => id⟩
  | drop dropped =>
    refine ⟨fun ptr v hstage => ?_, rfl, fun _ _ _ _ => id⟩
    have hstage : Function.update s.stage dropped (.removing t) ptr = .unmapped v := hstage
    by_cases hptr : ptr = dropped
    · rw [hptr, Function.update_self] at hstage
      cases hstage
    · rwa [Function.update_of_ne hptr] at hstage
  | @init entry used =>
    obtain ⟨⟨hused, hlive⟩, -, hlen, -⟩ := hl.point
    have hheld : s.Held used := ⟨hused, by rw [hlive]; exact nofun⟩
    refine ⟨fun _ _ => id, rfl, fun ptr hptr hstage v hnull => ?_⟩
    rw [cell_install s t v _ used entry hlen, if_neg]
    · exact hnull
    · rintro ⟨-, hid⟩
      rw [hids.held_inj ptr used hptr hheld hid] at hstage
      exact hstage hlive

omit [DecidableEq Tid] in
/-- What a thread knows survives the steps of the others. -/
theorem TlsAt.frame {m : TlsPc Tid} (hm : TlsAt u s m) (hrem : RemovesAt u s m)
    (hf : TlsFrame u s s') (hlock : s.thread_mu = some u → LockFrame s s') : TlsAt u s' m := by
  have htls_id : ∀ {ptr}, ptr < s.created → s'.tls_id ptr = s.tls_id ptr := fun hptr => by
    rw [TlsShared.tls_id, hf.ptrs _ hptr, TlsShared.tls_id]
  have hnull : ∀ {i}, s.cell u i = none → s'.cell u i = none := by
    intro i hi
    by_contra hsome
    obtain ⟨e, he⟩ := Option.ne_none_iff_exists'.mp hsome
    rw [hf.cells i e he] at hi
    cases hi
  have huse : ∀ {ptr}, m.accesses = some ptr → ptr < s.created ∧ s.stage ptr = .live →
      ptr < s'.created ∧ s'.stage ptr = .live := fun hptr h =>
    ⟨Nat.lt_of_lt_of_le h.1 hf.created, hf.live _ (hm.accessing.trans hptr) h.2⟩
  refine ⟨hf.accessing.trans hm.accessing, hf.departed.trans hm.departed,
    hf.locked.trans hm.locked, fun hstays i e he => ?_, fun hstays hrow => ?_, ?_⟩
  · rw [hf.registered]
    exact hm.used hstays i e (hf.cells i e he)
  · exact hf.linked (hm.linked hstays (hf.registered.symm.trans hrow))
  have hpoint := hm.point
  cases m with
  | idle => trivial
  | exited => exact fun i => hnull (hpoint i)
  | access ptr m =>
    cases m with
    | ensure_registered => exact huse rfl hpoint
    | grow => exact ⟨huse rfl hpoint.1, hf.registered.trans hpoint.2⟩
    | load =>
      refine ⟨huse rfl hpoint.1, hf.registered.trans hpoint.2.1, ?_⟩
      rw [htls_id hpoint.1.1, hf.length]
      exact hpoint.2.2
    | init =>
      refine ⟨huse rfl hpoint.1, hf.registered.trans hpoint.2.1, ?_, ?_⟩
      · rw [htls_id hpoint.1.1, hf.length]
        exact hpoint.2.2.1
      · rw [htls_id hpoint.1.1]
        exact hnull hpoint.2.2.2
  | remove ptr m =>
    cases m with
    | lock => trivial
    | walk handler rest =>
      obtain ⟨hptr, hstage⟩ := hrem
      have hlock := hlock (hm.locked.mpr rfl)
      refine ⟨?_, fun other v hother => hpoint.2.1 other v (hlock.unmapped other v hother),
        fun v hv hnot => ?_⟩
      · rw [hf.ptrs ptr hptr]
        exact hpoint.1
      · rw [hlock.head] at hv
        rw [htls_id hptr]
        refine hlock.column ptr ⟨hptr, ?_⟩ ?_ v (hpoint.2.2 v hv hnot) <;>
        · rw [hstage]
          rintro ⟨⟩
  | exit m =>
    cases m with
    | lock => trivial
    | walk idx =>
      have hlock := hlock (hm.locked.mpr rfl)
      exact ⟨fun ptr v h => hpoint.1 ptr v (hlock.unmapped ptr v h), fun i hi => hnull (hpoint.2 i hi)⟩

end frame

def entries_outline : System.Outline Tid (TlsShared Tid) (TlsPc Tid) where
  shared := fun s => EntriesIntact s ∧ LockIntact s
  thread := TlsAt
  apart := fun _ _ => True

theorem entries_outline_valid : (ids_outline.and drops_outline).ValidOver entries_outline
    (tls_system Tid) quiescent where
  init_shared :=
    ⟨⟨nofun, nofun, nofun, nofun, List.nodup_nil, nofun⟩,
      ⟨fun _ h => absurd h (Nat.not_lt_zero _), nofun, nofun⟩⟩
  init_thread := fun _ => ⟨rfl, rfl, ⟨nofun, nofun⟩, fun _ => nofun, fun _ => nofun, trivial⟩
  init_apart := trivial
  step_own := by
    rintro t a s pc r ⟨hids, hdrops⟩ ⟨hrem, -⟩ ⟨hs, hlock⟩ hl hG hstep
    have hmove := tls_step_move hstep
    exact ⟨⟨hmove.own_entries hG hids hrem hs hlock hl, hmove.own_lock hG hids hdrops hrem hlock hl⟩,
      hmove.own_at hG hdrops hrem hlock hl⟩
  step_other := by
    intro t u a s pc m r hne hbase hpair hG hstep
    have hmove := tls_step_move hstep
    refine ⟨?_, trivial, trivial⟩
    exact hpair.other.frame hbase.other.1 (hmove.frame hne.symm hG hbase.own.1 hpair.own)
      (hmove.lock_frame hne.symm hG hbase.shared.1 hpair.own)

theorem entries_outline_holds {c : TlsConfig Tid}
    (hc : (tls_system Tid).ReachableUnder quiescent c) : entries_outline.Holds c := by
  refine entries_outline_valid.holds (fun d hd => ?_) hc
  exact (ids_outline_valid.holds_of_trivial (quiescent_removed_once hd)).and
    (drops_outline_valid.holds_of_trivial hd)

/-- In every quiescent run the handler of a column is called on each entry that
was installed in it, and on nothing else: not before the entry's thread has begun
to leave or the column's `ThreadLocalPtr` to be dropped, and once when either is
over. And a cell in the column of a `ThreadLocalPtr` that exists is null until
its thread installs an entry through it. -/
theorem entries_reclaimed_once {c : TlsConfig Tid}
    (hc : (tls_system Tid).ReachableUnder quiescent c) :
    c.shared.installs.Nodup ∧
    (∀ r ∈ c.shared.unrefs, r.entry ∈ c.shared.installs) ∧
    (∀ e ∈ c.shared.installs,
      (c.shared.unrefs_of e = [] ∨ c.shared.unrefs_of e = c.shared.due e) ∧
      (c.shared.dropped e.column = false → c.shared.departed e.row = false →
        c.shared.unrefs_of e = []) ∧
      (c.shared.stage e.column = .returned ∨ c.threads e.row = .exited →
        c.shared.unrefs_of e = c.shared.due e)) ∧
    ∀ ptr, c.shared.exists_ptr ptr → ∀ t e, c.shared.cell t (c.shared.tls_id ptr) = some e →
      e ∈ c.shared.installs ∧ e.column = ptr ∧ e.row = t := by
  have hholds := entries_outline_holds hc
  obtain ⟨hs, -⟩ := hholds.shared
  have hids := (ids_outline_valid.holds_of_trivial (quiescent_removed_once hc)).shared
  have hdrops := (drops_outline_valid.holds_of_trivial hc).shared
  refine ⟨hs.installs_nodup, hs.unrefs_installed, fun e he => ⟨?_, ?_, ?_⟩, ?_⟩
  · by_cases hin : c.shared.cell e.row (c.shared.tls_id e.column) = some e
    · exact .inl (hs.fresh _ _ e hin).2
    · exact .inr (hs.gone e he hin).1
  · intro hexists hstays
    by_cases hin : c.shared.cell e.row (c.shared.tls_id e.column) = some e
    · exact (hs.fresh _ _ e hin).2
    · obtain hdead | hleft := (hs.gone e he hin).2
      · exact absurd (hdrops e.column hexists) hdead
      · rw [hstays] at hleft
        cases hleft
  · intro hover
    refine (hs.gone e he fun hin => ?_).1
    obtain hreturned | hexited := hover
    · exact (hs.placed _ _ e hin).1.2 hreturned
    · have hpoint := (hholds.thread e.row).point
      rw [hexited] at hpoint
      rw [hpoint] at hin
      cases hin
  · rintro ptr ⟨hlt, hexists⟩ t e he
    obtain ⟨hcolumn, hrow, hid⟩ := hs.placed t _ e he
    have hheld : c.shared.Held ptr := ⟨hlt, by rw [hdrops ptr hexists]; exact nofun⟩
    exact ⟨(hs.fresh t _ e he).1, hids.held_inj _ _ hcolumn hheld hid, hrow⟩

/-- A thread installs entry `entry` through `ptr` in a row that it uses for the
first time, or in one that is long enough. -/
def install_first (t : Bool) (ptr : PtrId) (entry : EntryPtr) : List (Bool × TlsAct) :=
  (t, .get_or_init ptr) :: List.replicate 4 (t, .step entry)

/-- Two threads use a column. One exits, then the column's owner is dropped, and
the next owner gets the same id and a new entry of the thread that is left. -/
theorem entries_reclaimed_once_recycled : ∃ c : TlsConfig Bool,
    c.shared.unrefs.map (fun r => (r.handler, r.entry.ptr)) = [(7, 21), (7, 20)] ∧
    c.shared.tls_id 0 = c.shared.tls_id 1 ∧
    c.shared.installs.Nodup ∧
    (∀ r ∈ c.shared.unrefs, r.entry ∈ c.shared.installs) ∧
    (∀ e ∈ c.shared.installs,
      (c.shared.unrefs_of e = [] ∨ c.shared.unrefs_of e = c.shared.due e) ∧
      (c.shared.dropped e.column = false → c.shared.departed e.row = false →
        c.shared.unrefs_of e = []) ∧
      (c.shared.stage e.column = .returned ∨ c.threads e.row = .exited →
        c.shared.unrefs_of e = c.shared.due e)) ∧
    ∀ ptr, c.shared.exists_ptr ptr → ∀ t e, c.shared.cell t (c.shared.tls_id ptr) = some e →
      e ∈ c.shared.installs ∧ e.column = ptr ∧ e.row = t := by
  obtain ⟨c, hc, hseen⟩ := System.reachable_showing (tls_system Bool) quiescent
    ((false, .new_with_handler (some 7)) :: install_first false 0 20 ++ install_first true 0 21 ++
      (true, .exit) :: List.replicate 3 (true, .step 0) ++
      (false, .drop 0) :: List.replicate 3 (false, .step 0) ++
      (false, .new_with_handler (some 8)) :: install_first false 1 22)
    (fun c => (c.shared.unrefs.map (fun r => (r.handler, r.entry.ptr)), c.shared.tls_id 0,
      c.shared.tls_id 1)) ([(7, 21), (7, 20)], 0, 0) (by decide +kernel)
  simp only [Prod.mk.injEq] at hseen
  obtain ⟨hunrefs, hid, hid'⟩ := hseen
  exact ⟨c, hunrefs, hid.trans hid'.symm, entries_reclaimed_once hc⟩

end ordinum.thread_local_storage
