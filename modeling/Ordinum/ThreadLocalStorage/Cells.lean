import Mathlib.Data.Fintype.Basic
import Ordinum.ThreadLocalStorage.ColumnIds

open interleaving

namespace ordinum.thread_local_storage

variable {Tid : Type} [DecidableEq Tid]

namespace TlsShared

/-- The calls of handlers on one entry. -/
def unrefs_of (s : TlsShared Tid) (e : Entry Tid) : List (Unref Tid) :=
  s.unrefs.filter fun unref => unref.entry = e

/-- The one call that an entry is due: that of its own column's handler. -/
def due (s : TlsShared Tid) (e : Entry Tid) : List (Unref Tid) :=
  ((s.ptrs e.column).handler.map fun handler => { handler, entry := e }).toList

end TlsShared

/-- A `ThreadLocalPtr` is dropped when no thread is inside an access to it, and
its column is removed by nothing but the drop. -/
def quiescent : System.StepCondition Tid TlsAct (TlsShared Tid) (TlsPc Tid) :=
  fun _ a s _ =>
    match a with
    | .remove_column _ => False
    | .drop ptr => ∀ u, s.accessing u ≠ some ptr
    | _ => True

instance [Fintype Tid] (t : Tid) (a : TlsAct) (s : TlsShared Tid) (pc : TlsPc Tid) :
    Decidable (quiescent t a s pc) :=
  match a with
  | .remove_column _ => .isFalse not_false
  | .drop _ => inferInstanceAs (Decidable (∀ _, _))
  | .new_with_handler _ | .get_or_init _ | .exit | .step _ => .isTrue trivial

/-! The drop of a `ThreadLocalPtr` is what removes its column. -/

/-- Only the column of a dropped `ThreadLocalPtr` is removed. -/
def DropsAt (s : TlsShared Tid) : TlsPc Tid → Prop
  | .remove ptr _ => s.dropped ptr = true
  | _ => True

def drops_outline : System.Outline Tid (TlsShared Tid) (TlsPc Tid) where
  shared := fun s => ∀ ptr, s.dropped ptr = false → s.stage ptr = .live
  thread := fun _ => DropsAt
  apart := fun _ _ => True

section cells

variable (s : TlsShared Tid) (t u : Tid) (i j : Nat)

theorem with_row_self (row : ThreadData Tid) : (s.with_row t row).rows t = row :=
  Function.update_self ..

theorem with_row_of_ne (row : ThreadData Tid) (hne : u ≠ t) :
    (s.with_row t row).rows u = s.rows u :=
  Function.update_of_ne hne ..

/-- A cell after a change of one row. -/
theorem cell_with_row (row : ThreadData Tid) :
    (s.with_row t row).cell u j = if u = t then row.entries.getD j none else s.cell u j := by
  unfold TlsShared.cell TlsShared.with_row
  by_cases hrow : u = t
  · rw [if_pos hrow, hrow]
    change (Function.update s.rows t row t).entries.getD j none = _
    rw [Function.update_self]
  · rw [if_neg hrow]
    change (Function.update s.rows t row u).entries.getD j none = _
    rw [Function.update_of_ne hrow]

theorem cell_resize (tls_id : Nat) : (s.resize t tls_id).cell u j = s.cell u j := by
  rw [TlsShared.resize, cell_with_row]
  split
  · rename_i hrow
    subst hrow
    unfold TlsShared.cell
    simp only [List.getD_eq_getElem?_getD, List.getElem?_append, List.getElem?_replicate]
    grind
  · rfl

theorem cell_reclaim (handler : Option UnrefHandler) :
    (s.reclaim t i handler).cell u j = if u = t ∧ j = i then none else s.cell u j := by
  unfold TlsShared.reclaim
  split
  · rename_i hcell
    split
    · rename_i hsame
      rw [hsame.1, hsame.2, hcell]
    · rfl
  · change (s.with_row t _).cell u j = _
    rw [cell_with_row]
    unfold TlsShared.cell
    simp only [List.getD_eq_getElem?_getD, List.getElem?_set]
    grind

theorem cell_install (ptr : PtrId) (entry : EntryPtr)
    (hlen : s.tls_id ptr < (s.rows t).entries.length) :
    (s.install t ptr entry).cell u j =
      if u = t ∧ j = s.tls_id ptr then some ⟨entry, ptr, t⟩ else s.cell u j := by
  change (s.with_row t _).cell u j = _
  rw [cell_with_row]
  unfold TlsShared.cell
  simp only [List.getD_eq_getElem?_getD, List.getElem?_set]
  grind

omit [DecidableEq Tid] in
theorem cell_of_length_le (hlen : (s.rows t).entries.length ≤ i) : s.cell t i = none := by
  rw [TlsShared.cell, List.getD_eq_getElem?_getD, List.getElem?_eq_none hlen]
  rfl

/-- Beside the cell and the calls, nothing changes. -/
structure ReclaimFrame (s s' : TlsShared Tid) : Prop where
  thread_mu : s'.thread_mu = s.thread_mu
  head : s'.head = s.head
  unref_handler_map : s'.unref_handler_map = s.unref_handler_map
  departed : s'.departed = s.departed
  accessing : s'.accessing = s.accessing
  registered : ∀ u, (s'.rows u).registered = (s.rows u).registered

theorem reclaim_frame (handler : Option UnrefHandler) :
    ReclaimFrame s (s.reclaim t i handler) := by
  unfold TlsShared.reclaim
  split
  · exact ⟨rfl, rfl, rfl, rfl, rfl, fun _ => rfl⟩
  · refine ⟨rfl, rfl, rfl, rfl, rfl, fun u => ?_⟩
    change (Function.update s.rows t _ u).registered = _
    by_cases hrow : u = t
    · rw [hrow, Function.update_self]
    · rw [Function.update_of_ne hrow]

theorem length_reclaim (handler : Option UnrefHandler) :
    ((s.reclaim t i handler).rows u).entries.length = (s.rows u).entries.length := by
  unfold TlsShared.reclaim
  split
  · rfl
  · change (Function.update s.rows t _ u).entries.length = _
    by_cases hrow : u = t
    · rw [hrow, Function.update_self, List.length_set]
    · rw [Function.update_of_ne hrow]

end cells

section drops

variable {t u : Tid} {a : TlsAct} {s s' : TlsShared Tid} {pc pc' : TlsPc Tid}

theorem TlsMove.dropped_kept (hmove : TlsMove t s a pc s' pc') {ptr : PtrId}
    (hptr : s.dropped ptr = true) : s'.dropped ptr = true := by
  cases hmove with
  | drop dropped _ =>
    by_cases hsame : ptr = dropped
    · rw [hsame]
      exact Function.update_self ..
    · exact (Function.update_of_ne hsame ..).trans hptr
  | visit_row | visit_entry =>
    unfold TlsShared.reclaim
    split <;> exact hptr
  | _ => exact hptr

theorem TlsMove.own_drops (hmove : TlsMove t s a pc s' pc') (hG : quiescent t a s pc)
    (hs : ∀ ptr, s.dropped ptr = false → s.stage ptr = .live) (hl : DropsAt s pc) :
    (∀ ptr, s'.dropped ptr = false → s'.stage ptr = .live) ∧ DropsAt s' pc' := by
  -- a stage changes only after the drop has begun
  have hchange : ∀ {changed stage}, s.dropped changed = true → ∀ ptr, s.dropped ptr = false →
      Function.update s.stage changed stage ptr = .live := by
    intro changed stage hchanged ptr hptr
    have hne : ptr ≠ changed := by
      rintro rfl
      rw [hchanged] at hptr
      cases hptr
    exact (Function.update_of_ne hne ..).trans (hs ptr hptr)
  cases hmove with
  | remove_column => exact hG.elim
  | drop dropped hptr =>
    refine ⟨fun ptr hnot => ?_, Function.update_self ..⟩
    have hnot : Function.update s.dropped dropped true ptr = false := hnot
    have hne : ptr ≠ dropped := by
      rintro rfl
      rw [Function.update_self] at hnot
      cases hnot
    rw [Function.update_of_ne hne] at hnot
    exact (Function.update_of_ne hne ..).trans (hs ptr hnot)
  | lock_column => exact ⟨hchange hl, hl⟩
  | return_id => exact ⟨hchange hl, trivial⟩
  | visit_row | visit_entry =>
    unfold TlsShared.reclaim
    split <;> exact ⟨hs, hl⟩
  | exit hpc =>
    refine ⟨hs, ?_⟩
    obtain rfl | ⟨rfl, -⟩ := hpc <;> trivial
  | _ => exact ⟨hs, trivial⟩

theorem drops_outline_valid : System.Outline.trivial.ValidOver drops_outline (tls_system Tid)
    quiescent where
  init_shared := fun _ _ => rfl
  init_thread := fun _ => trivial
  init_apart := trivial
  step_own := by
    intro t a s pc r _ _ hs hl hG hstep
    exact (tls_step_move hstep).own_drops hG hs hl
  step_other := by
    intro t u a s pc m r hne _ hpair hG hstep
    refine ⟨?_, trivial, trivial⟩
    have hm := hpair.other
    cases m with
    | remove ptr m => exact (tls_step_move hstep).dropped_kept hm
    | _ => trivial

/-- In a quiescent run each column is removed once. -/
theorem quiescent_removed_once {c : TlsConfig Tid}
    (hc : (tls_system Tid).ReachableUnder quiescent c) :
    (tls_system Tid).ReachableUnder removed_once c := by
  refine System.ReachableUnder.induction
    (P := fun c => (tls_system Tid).ReachableUnder removed_once c) .init ?_ hc
  intro c t a r hreach ih hG hstep
  refine ih.tail ⟨t, a, r, ?_, hstep, rfl⟩
  have hdrops := (drops_outline_valid.holds_of_trivial hreach).shared
  generalize c.threads t = pc at hG hstep
  have hmove := tls_step_move hstep
  generalize r.2 = pc' at hmove
  generalize r.1 = s' at hmove
  cases hmove with
  | remove_column => exact hG.elim
  | drop ptr hptr => exact hdrops ptr hptr.2
  | _ => trivial

end drops

end ordinum.thread_local_storage
