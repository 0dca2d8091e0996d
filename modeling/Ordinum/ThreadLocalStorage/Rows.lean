import Ordinum.Linked.Ring
import Ordinum.ThreadLocalStorage.ThreadLocal

open interleaving
open interleaving.System
open linked

namespace ordinum.thread_local_storage

/-- A node of the row list: the sentinel of `ThreadMetaGlobal`, or a row. -/
inductive RowNode (Row : Type) where
  | head
  | row (r : Row)
  deriving DecidableEq, Repr

/-- The rows with their links, where `none` is null. The last three fields are history:
the rows that exist, those that were accessed and not dropped since, and whether a null
link was dereferenced. -/
structure RowTable (Row : Type) where
  next : RowNode Row → Option (RowNode Row)
  prev : RowNode Row → Option (RowNode Row)
  registered : Row → Bool
  entries : Row → List (Option EntryPtr)
  unref_handler_map : Nat → Option UnrefHandler
  unrefs : List (UnrefHandler × EntryPtr)
  exists_row : Row → Bool
  in_use : Row → Bool
  null_deref : Bool

/-- What happens to a row. `f` is what the closure of `with_tlp_ptr` leaves in the cell. -/
inductive RowOp where
  | new
  | ensure_registered
  | with_tlp_ptr (tls_id : Nat) (f : Option EntryPtr → Option EntryPtr)
  | drop_row
  | drop

/-- The calls of handlers for the entries of a row, in the order of the columns. -/
def unref_calls (handlers : Nat → Option UnrefHandler) (entries : List (Option EntryPtr)) :
    List (UnrefHandler × EntryPtr) :=
  entries.zipIdx.filterMap fun (entry, idx) =>
    entry.bind fun ptr => (handlers idx).map fun handler => (handler, ptr)

namespace RowTable

variable {Row : Type}

def cell (s : RowTable Row) (r : Row) (tls_id : Nat) : Option EntryPtr :=
  (s.entries r).getD tls_id none

variable [DecidableEq Row]

/-- `ThreadData::new`, on memory that no row occupies. -/
def new_row (s : RowTable Row) (r : Row) : RowTable Row :=
  { s with
    next := Function.update s.next (.row r) none
    prev := Function.update s.prev (.row r) none
    registered := Function.update s.registered r false
    entries := Function.update s.entries r []
    exists_row := Function.update s.exists_row r true }

/-- `ensure_registered`: link the row in behind the sentinel, once. -/
def ensure_registered (s : RowTable Row) (r : Row) : RowTable Row :=
  let s := { s with in_use := Function.update s.in_use r true }
  if s.registered r then s
  else
    match s.next .head with
    | none => { s with null_deref := true }
    | some first =>
      { s with
        next := Function.update (Function.update s.next (.row r) (some first)) .head (some (.row r))
        prev := Function.update (Function.update s.prev (.row r) (some .head)) first (some (.row r))
        registered := Function.update s.registered r true }

/-- `with_tlp_ptr`: the row is registered and long enough before the closure gets its
cell. -/
def with_tlp_ptr (s : RowTable Row) (r : Row) (tls_id : Nat)
    (f : Option EntryPtr → Option EntryPtr) : RowTable Row :=
  let s := s.ensure_registered r
  if s.null_deref then s
  else
    let entries := s.entries r ++ List.replicate (tls_id + 1 - (s.entries r).length) none
    { s with
      entries := Function.update s.entries r (entries.set tls_id (f (entries.getD tls_id none))) }

/-- `drop_row`: unlink the row, null its links and its entries, and call the handlers. -/
def drop_row (s : RowTable Row) (r : Row) : RowTable Row :=
  match s.prev (.row r), s.next (.row r) with
  | some prev, some next =>
    { s with
      next := Function.update (Function.update s.next prev (some next)) (.row r) none
      prev := Function.update (Function.update s.prev next (some prev)) (.row r) none
      entries := Function.update s.entries r ((s.entries r).map fun _ => none)
      unrefs := s.unrefs ++ unref_calls s.unref_handler_map (s.entries r)
      in_use := Function.update s.in_use r false }
  | _, _ => { s with null_deref := true }

/-- `Drop for ThreadData`, and the memory of the row is given back. -/
def drop (s : RowTable Row) (r : Row) : RowTable Row :=
  let s := s.drop_row r
  { s with exists_row := Function.update s.exists_row r false }

/-- `remove_column` at one row: the cell is swapped to null, and the handler called on
what it held. -/
def reclaim_cell (s : RowTable Row) (r : Row) (tls_id : Nat) (handler : Option UnrefHandler) :
    RowTable Row :=
  match s.cell r tls_id with
  | none => s
  | some ptr =>
    { s with
      entries := Function.update s.entries r ((s.entries r).set tls_id none)
      unrefs := s.unrefs ++ (handler.map fun handler => (handler, ptr)).toList }

/-- The walk of `remove_column` from a node on; `none` when a null link is
dereferenced or the fuel runs out. -/
def reclaim_rows (tls_id : Nat) (handler : Option UnrefHandler) :
    Nat → RowTable Row → RowNode Row → Option (RowTable Row)
  | _, s, .head => some s
  | 0, _, .row _ => none
  | fuel + 1, s, .row r =>
    (s.next (.row r)).bind fun next =>
      reclaim_rows tls_id handler fuel (s.reclaim_cell r tls_id handler) next

def remove_column (fuel : Nat) (s : RowTable Row) (tls_id : Nat) : Option (RowTable Row) :=
  let handler := s.unref_handler_map tls_id
  let s := { s with unref_handler_map := Function.update s.unref_handler_map tls_id none }
  (s.next .head).bind fun next => reclaim_rows tls_id handler fuel s next

end RowTable

variable {Row : Type} [DecidableEq Row]

/-- One call on a row, under `thread_mu`. After a null link was dereferenced nothing is
known any more. -/
def row_step (r : Row) (op : RowOp) (s : RowTable Row) : Option (RowTable Row) :=
  if s.null_deref then none
  else
    match op with
    | .new => if s.exists_row r then none else some (s.new_row r)
    | .ensure_registered => if s.exists_row r then some (s.ensure_registered r) else none
    | .with_tlp_ptr tls_id f => if s.exists_row r then some (s.with_tlp_ptr r tls_id f) else none
    | .drop_row => if s.exists_row r then some (s.drop_row r) else none
    | .drop => if s.exists_row r then some (s.drop r) else none

variable (Row) in
/-- Any number of rows and any order of calls on them. -/
def row_system (handlers : Nat → Option UnrefHandler) :
    System Row RowOp (RowTable Row) Unit where
  shared₀ :=
    { next := fun node => if node = .head then some .head else none
      prev := fun node => if node = .head then some .head else none
      registered := fun _ => false
      entries := fun _ => []
      unref_handler_map := handlers
      unrefs := []
      exists_row := fun _ => false
      in_use := fun _ => false
      null_deref := false }
  local₀ := ()
  step r op s _ := (row_step r op s).map fun s => (s, ())

/-- The list is as it should be: no null link was dereferenced, it holds the rows in use,
each once and linked in both directions, and the removal of a column empties their
cells. -/
structure RowsLinked (s : RowTable Row) : Prop where
  no_null_deref : s.null_deref = false
  ring : ∃ rows : List Row, IsRing s.next s.prev .head (rows.map .row) ∧
    ∀ r, r ∈ rows ↔ s.in_use r = true
  reclaimed : ∀ tls_id, ∃ enough s', (∀ fuel, enough ≤ fuel →
    s.remove_column fuel tls_id = some s') ∧ ∀ r, s.in_use r = true → s'.cell r tls_id = none

/-- A row is dropped when it is in use, and accessed when it is in use or was never
registered. -/
def rows_kept : StepCondition Row RowOp (RowTable Row) Unit := fun r op s _ =>
  match op with
  | .new => True
  | .ensure_registered | .with_tlp_ptr .. => s.registered r = true → s.in_use r = true
  | .drop_row | .drop => s.in_use r = true

instance (r : Row) (op : RowOp) (s : RowTable Row) (l : Unit) : Decidable (rows_kept r op s l) := by
  unfold rows_kept
  split <;> infer_instance

/-- What is known of the list and of the rows outside it. -/
structure RowsKept (s : RowTable Row) (rows : List Row) : Prop where
  no_null_deref : s.null_deref = false
  ring : IsRing s.next s.prev .head (rows.map .row)
  in_use : ∀ r, r ∈ rows ↔ s.in_use r = true
  registered : ∀ r, s.in_use r = true → s.registered r = true ∧ s.exists_row r = true
  unlinked : ∀ r, s.in_use r = false → s.next (.row r) = none ∧ s.prev (.row r) = none

section rows

variable {s : RowTable Row} {rows : List Row} {r : Row}

omit [DecidableEq Row] in
theorem row_mem_ring : RowNode.row r ∈ RowNode.head :: rows.map .row ↔ r ∈ rows := by
  simp

omit [DecidableEq Row] in
/-- The first row behind the sentinel, or the sentinel itself. -/
theorem RowsKept.first (h : RowsKept s rows) : ∃ first, s.next .head = some first :=
  ⟨_, h.ring.path.next_eq⟩

omit [DecidableEq Row] in
theorem RowsKept.not_in_use (h : RowsKept s rows) (hrow : s.in_use r = false) : r ∉ rows := by
  intro hmem
  rw [(h.in_use r).mp hmem] at hrow
  cases hrow

omit [DecidableEq Row] in
/-- The cells do not matter. -/
theorem RowsKept.with_entries (h : RowsKept s rows) (entries : Row → List (Option EntryPtr)) :
    RowsKept { s with entries } rows :=
  ⟨h.no_null_deref, h.ring, h.in_use, h.registered, h.unlinked⟩

omit [DecidableEq Row] in
theorem RowsKept.unused (h : RowsKept s rows)
    (hrow : s.registered r = false ∨ s.exists_row r = false) : s.in_use r = false := by
  by_contra hused
  obtain ⟨hregistered, hexists⟩ := h.registered r (by simpa using hused)
  obtain hrow | hrow := hrow
  · rw [hregistered] at hrow
    cases hrow
  · rw [hexists] at hrow
    cases hrow

theorem RowsKept.new_row (h : RowsKept s rows) (hrow : s.exists_row r = false) :
    RowsKept (s.new_row r) rows := by
  have hunused := h.unused (.inr hrow)
  have hne : ∀ node ∈ RowNode.head :: rows.map .row, node ≠ .row r := by
    rintro node hmem rfl
    exact h.not_in_use hunused (row_mem_ring.mp hmem)
  refine ⟨h.no_null_deref, h.ring.frame (fun a ha => Function.update_of_ne (hne a ha) ..)
    (fun a ha => Function.update_of_ne (hne a ha) ..), h.in_use, ?_, ?_⟩
  · intro u hu
    have hur : u ≠ r := by
      rintro rfl
      rw [show s.in_use u = true from hu] at hunused
      cases hunused
    simp only [RowTable.new_row, Function.update_of_ne hur]
    exact h.registered u hu
  · intro u hu
    by_cases hur : u = r
    · subst hur
      exact ⟨Function.update_self .., Function.update_self ..⟩
    · have hnode : RowNode.row u ≠ .row r := by
        rintro ⟨⟩
        exact hur rfl
      simp only [RowTable.new_row, Function.update_of_ne hnode]
      exact h.unlinked u hu

theorem RowsKept.ensure_registered (h : RowsKept s rows) (hrow : s.exists_row r = true)
    (hkept : s.registered r = true → s.in_use r = true) :
    ∃ rows', RowsKept (s.ensure_registered r) rows' := by
  cases hregistered : s.registered r with
  | true =>
    have hused := hkept hregistered
    have hsame : Function.update s.in_use r true = s.in_use := by
      rw [← hused]
      exact Function.update_eq_self ..
    refine ⟨rows, ?_⟩
    simp only [RowTable.ensure_registered, hregistered, if_true, hsame]
    exact h
  | false =>
    have hunused := h.unused (.inl hregistered)
    obtain ⟨first, hfirst⟩ := h.first
    have hnew : RowNode.row r ∉ RowNode.head :: rows.map .row := fun hmem =>
      h.not_in_use hunused (row_mem_ring.mp hmem)
    have hring := h.ring.insert hnew hfirst
    have hstep : s.ensure_registered r = { s with
        next := Function.update (Function.update s.next (.row r) (some first)) .head (some (.row r))
        prev := Function.update (Function.update s.prev (.row r) (some .head)) first (some (.row r))
        registered := Function.update s.registered r true
        in_use := Function.update s.in_use r true } := by
      simp [RowTable.ensure_registered, hregistered, hfirst]
    refine ⟨r :: rows, ?_⟩
    rw [hstep]
    refine ⟨h.no_null_deref, hring, ?_, ?_, ?_⟩
    · intro u
      by_cases hur : u = r
      · subst hur
        simp
      · simp only [List.mem_cons, hur, false_or, Function.update_of_ne hur]
        exact h.in_use u
    · intro u hu
      by_cases hur : u = r
      · subst hur
        exact ⟨Function.update_self .., hrow⟩
      · simp only [Function.update_of_ne hur] at hu ⊢
        exact h.registered u hu
    · intro u hu
      have hur : u ≠ r := by
        rintro rfl
        simp at hu
      have hnode : RowNode.row u ≠ .row r := by
        rintro ⟨⟩
        exact hur rfl
      simp only [Function.update_of_ne hur] at hu
      have hufirst : RowNode.row u ≠ first := by
        rintro rfl
        obtain ⟨⟨b, hb, hnext, -⟩, -⟩ := h.ring.inverse List.mem_cons_self
        rw [hfirst] at hnext
        cases hnext
        exact h.not_in_use hu (row_mem_ring.mp hb)
      have hhead : RowNode.row u ≠ .head := nofun
      simp only [Function.update_of_ne hnode, Function.update_of_ne hufirst,
        Function.update_of_ne hhead]
      exact h.unlinked u hu

omit [DecidableEq Row] in
/-- The nodes of the ring are the sentinel and the rows in use. -/
theorem RowsKept.node_ne (h : RowsKept s rows) (hunused : s.in_use r = false)
    {node : RowNode Row} (hmem : node ∈ RowNode.head :: rows.map .row) : RowNode.row r ≠ node := by
  rintro rfl
  exact h.not_in_use hunused (row_mem_ring.mp hmem)

theorem RowsKept.drop_row (h : RowsKept s rows) (hused : s.in_use r = true) :
    RowsKept (s.drop_row r) (rows.erase r) := by
  have hmem : r ∈ rows := (h.in_use r).mpr hused
  have hinjective : Function.Injective (@RowNode.row Row) := fun _ _ heq => by
    cases heq
    rfl
  have hnodup : rows.Nodup := List.Nodup.of_map _ h.ring.nodup_tail
  obtain ⟨prev, next, hprev, hnext, hring⟩ :=
    h.ring.erase (List.mem_map_of_mem hmem) none none
  have hstep : s.drop_row r = { s with
      next := Function.update (Function.update s.next prev (some next)) (.row r) none
      prev := Function.update (Function.update s.prev next (some prev)) (.row r) none
      entries := Function.update s.entries r ((s.entries r).map fun _ => none)
      unrefs := s.unrefs ++ unref_calls s.unref_handler_map (s.entries r)
      in_use := Function.update s.in_use r false } := by
    simp only [RowTable.drop_row, hprev, hnext]
  rw [hstep]
  refine ⟨h.no_null_deref, ?_, ?_, ?_, ?_⟩
  · rw [List.map_erase hinjective]
    exact hring
  · intro u
    by_cases hur : u = r
    · subst hur
      simp [hnodup.not_mem_erase]
    · simp only [Function.update_of_ne hur, List.mem_erase_of_ne hur]
      exact h.in_use u
  · intro u hu
    have hur : u ≠ r := by
      rintro rfl
      simp at hu
    simp only [Function.update_of_ne hur] at hu
    exact h.registered u hu
  · intro u hu
    by_cases hur : u = r
    · subst hur
      exact ⟨Function.update_self .., Function.update_self ..⟩
    · simp only [Function.update_of_ne hur] at hu
      have hnode : RowNode.row u ≠ .row r := fun heq => hur (hinjective heq)
      obtain ⟨⟨b, hb, hnextb, -⟩, a, ha, hpreva, -⟩ :=
        h.ring.inverse (List.mem_cons_of_mem _ (List.mem_map_of_mem hmem))
      rw [hnext] at hnextb
      rw [hprev] at hpreva
      cases hnextb
      cases hpreva
      simp only [Function.update_of_ne hnode, Function.update_of_ne (h.node_ne hu ha),
        Function.update_of_ne (h.node_ne hu hb)]
      exact h.unlinked u hu

/-- A row that is not in use has null links. -/
theorem RowsKept.drop_row_unused (h : RowsKept s rows) (hunused : s.in_use r = false) :
    (s.drop_row r).null_deref = true := by
  obtain ⟨hnext, hprev⟩ := h.unlinked r hunused
  simp only [RowTable.drop_row, hnext, hprev]

/-- The row's memory is given back after it was dropped. -/
theorem RowsKept.drop (h : RowsKept s rows) (hused : s.in_use r = true) :
    RowsKept (s.drop r) (rows.erase r) := by
  have hdropped := h.drop_row hused
  have hunused : (s.drop_row r).in_use r = false := by
    by_contra hstill
    have hmem := (hdropped.in_use r).mpr (by simpa using hstill)
    exact (List.Nodup.of_map _ h.ring.nodup_tail).not_mem_erase hmem
  refine ⟨hdropped.no_null_deref, hdropped.ring, hdropped.in_use, ?_, hdropped.unlinked⟩
  intro u hu
  have hur : u ≠ r := by
    rintro rfl
    rw [show (s.drop_row u).in_use u = true from hu] at hunused
    cases hunused
  change (s.drop_row r).registered u = true ∧
    Function.update (s.drop_row r).exists_row r false u = true
  rw [Function.update_of_ne hur]
  exact hdropped.registered u hu

theorem RowsKept.with_tlp_ptr (h : RowsKept s rows) (hrow : s.exists_row r = true)
    (hkept : s.registered r = true → s.in_use r = true) (tls_id : Nat)
    (f : Option EntryPtr → Option EntryPtr) :
    ∃ rows', RowsKept (s.with_tlp_ptr r tls_id f) rows' := by
  obtain ⟨rows', hregistered⟩ := h.ensure_registered hrow hkept
  refine ⟨rows', ?_⟩
  have hsafe : ¬ (s.ensure_registered r).null_deref = true := by
    rw [hregistered.no_null_deref]
    nofun
  change RowsKept (if (s.ensure_registered r).null_deref = true then _ else _) rows'
  rw [if_neg hsafe]
  exact hregistered.with_entries _

/-- The closure of `with_tlp_ptr` changes no link. -/
theorem with_tlp_ptr_links (s : RowTable Row) (r : Row) (tls_id : Nat)
    (f : Option EntryPtr → Option EntryPtr) :
    (s.with_tlp_ptr r tls_id f).next = (s.ensure_registered r).next ∧
      (s.with_tlp_ptr r tls_id f).in_use = (s.ensure_registered r).in_use := by
  simp only [RowTable.with_tlp_ptr]
  split <;> exact ⟨rfl, rfl⟩

/-- Once registered, a row is not linked in again. -/
theorem ensure_registered_again (hregistered : s.registered r = true) :
    s.ensure_registered r = { s with in_use := Function.update s.in_use r true } := by
  simp [RowTable.ensure_registered, hregistered]

theorem not_linked (hnext : s.next (.row r) = none) (hused : s.in_use r = true) :
    ¬ RowsLinked s := by
  intro h
  obtain ⟨rows, hring, hin_use⟩ := h.ring
  obtain ⟨⟨b, -, hb, -⟩, -⟩ :=
    hring.inverse (List.mem_cons_of_mem _ (List.mem_map_of_mem ((hin_use r).mpr hused)))
  rw [hnext] at hb
  cases hb

end rows

section reclaim

variable (s : RowTable Row) (r u : Row) (tls_id : Nat) (handler : Option UnrefHandler)

@[simp] theorem reclaim_cell_next : (s.reclaim_cell r tls_id handler).next = s.next := by
  unfold RowTable.reclaim_cell
  split <;> rfl

@[simp] theorem reclaim_cell_prev : (s.reclaim_cell r tls_id handler).prev = s.prev := by
  unfold RowTable.reclaim_cell
  split <;> rfl

theorem cell_reclaim_cell :
    (s.reclaim_cell r tls_id handler).cell u tls_id = if u = r then none else s.cell u tls_id := by
  unfold RowTable.reclaim_cell
  split
  · rename_i hnone
    split
    · rename_i hur
      rw [hur, hnone]
    · rfl
  · unfold RowTable.cell
    by_cases hur : u = r
    · subst hur
      simp only [Function.update_self, List.getD_eq_getElem?_getD, List.getElem?_set, if_true]
      split <;> rfl
    · simp [hur]

theorem reclaim_rows_head (fuel : Nat) :
    RowTable.reclaim_rows tls_id handler fuel s .head = some s := by
  cases fuel <;> rfl

/-- The walk along the rows up to the sentinel empties their cells, and fills none. -/
theorem reclaim_rows_spec {rows : List Row} :
    ∀ {s : RowTable Row} {node : RowNode Row}, IsPath s.next s.prev node (rows.map .row) .head →
      ∃ s', (∀ fuel, rows.length ≤ fuel →
        (s.next node).bind (fun next => RowTable.reclaim_rows tls_id handler fuel s next) = some s') ∧
      (∀ r ∈ rows, s'.cell r tls_id = none) ∧
      ∀ r, s.cell r tls_id = none → s'.cell r tls_id = none := by
  induction rows with
  | nil =>
    intro s node hpath
    refine ⟨s, fun fuel _ => ?_, fun r hr => absurd hr List.not_mem_nil, fun r hr => hr⟩
    rw [hpath.1]
    exact reclaim_rows_head s tls_id handler fuel
  | cons r rows ih =>
    intro s node hpath
    obtain ⟨hnext, -, hrest⟩ := hpath
    obtain ⟨s', hwalk, hempty, hkept⟩ := ih (s := s.reclaim_cell r tls_id handler)
      (by rw [reclaim_cell_next, reclaim_cell_prev]; exact hrest)
    refine ⟨s', ?_, ?_, ?_⟩
    · intro fuel hfuel
      obtain ⟨fuel, rfl⟩ : ∃ n, fuel = n + 1 := ⟨fuel - 1, by simp at hfuel; omega⟩
      have hlater := hwalk fuel (by simpa using hfuel)
      rw [reclaim_cell_next] at hlater
      rw [hnext]
      exact hlater
    · intro u hu
      obtain rfl | hu := List.mem_cons.mp hu
      · apply hkept
        rw [cell_reclaim_cell, if_pos rfl]
      · exact hempty u hu
    · intro u hu
      apply hkept
      rw [cell_reclaim_cell, hu, ite_self]

end reclaim

/-- As long as the rows are kept, the list is as it should be. -/
theorem RowsKept.linked {s : RowTable Row} {rows : List Row} (h : RowsKept s rows) :
    RowsLinked s := by
  refine ⟨h.no_null_deref, ⟨rows, h.ring, h.in_use⟩, fun tls_id => ?_⟩
  obtain ⟨s', hwalk, hempty, -⟩ := reclaim_rows_spec tls_id (s.unref_handler_map tls_id)
    (s := { s with unref_handler_map := Function.update s.unref_handler_map tls_id none })
    h.ring.path
  exact ⟨rows.length, s', hwalk, fun r hr => hempty r ((h.in_use r).mpr hr)⟩

section step

variable {s s' : RowTable Row} {rows : List Row} {r : Row} {op : RowOp} {l : Unit}

/-- A call that keeps the rows keeps the list as it should be. -/
theorem RowsKept.step (h : RowsKept s rows) (hstep : row_step r op s = some s')
    (hkept : rows_kept r op s l) : ∃ rows', RowsKept s' rows' := by
  simp only [row_step, h.no_null_deref, Bool.false_eq_true, if_false] at hstep
  cases op with
  | new =>
    simp only [Option.ite_none_left_eq_some, Option.some.injEq] at hstep
    obtain ⟨hrow, rfl⟩ := hstep
    exact ⟨rows, h.new_row (by simpa using hrow)⟩
  | ensure_registered =>
    simp only [Option.ite_none_right_eq_some, Option.some.injEq] at hstep
    obtain ⟨hrow, rfl⟩ := hstep
    exact h.ensure_registered hrow hkept
  | with_tlp_ptr tls_id f =>
    simp only [Option.ite_none_right_eq_some, Option.some.injEq] at hstep
    obtain ⟨hrow, rfl⟩ := hstep
    exact h.with_tlp_ptr hrow hkept tls_id f
  | drop_row =>
    simp only [Option.ite_none_right_eq_some, Option.some.injEq] at hstep
    obtain ⟨-, rfl⟩ := hstep
    exact ⟨_, h.drop_row hkept⟩
  | drop =>
    simp only [Option.ite_none_right_eq_some, Option.some.injEq] at hstep
    obtain ⟨-, rfl⟩ := hstep
    exact ⟨_, h.drop hkept⟩

/-- A row that was registered once and dropped stays out of the list. -/
theorem RowsKept.not_linked_again (h : RowsKept s rows)
    (hbad : ¬ (s.registered r = true → s.in_use r = true)) :
    (s.ensure_registered r).next (.row r) = none ∧ (s.ensure_registered r).in_use r = true := by
  obtain ⟨hregistered, hunused⟩ := Classical.not_imp.mp hbad
  rw [ensure_registered_again hregistered]
  exact ⟨(h.unlinked r (by simpa using hunused)).1, Function.update_self ..⟩

/-- A call that does not keep the rows dereferences a null link or leaves a row out of the
list. -/
theorem RowsKept.bad_step (h : RowsKept s rows) (hstep : row_step r op s = some s')
    (hbad : ¬ rows_kept r op s l) : ¬ RowsLinked s' := by
  simp only [row_step, h.no_null_deref, Bool.false_eq_true, if_false] at hstep
  cases op with
  | new => exact absurd trivial hbad
  | ensure_registered =>
    simp only [Option.ite_none_right_eq_some, Option.some.injEq] at hstep
    obtain ⟨-, rfl⟩ := hstep
    obtain ⟨hnext, hused⟩ := h.not_linked_again hbad
    exact not_linked hnext hused
  | with_tlp_ptr tls_id f =>
    simp only [Option.ite_none_right_eq_some, Option.some.injEq] at hstep
    obtain ⟨-, rfl⟩ := hstep
    obtain ⟨hnext, hused⟩ := h.not_linked_again hbad
    obtain ⟨hlinks, hin_use⟩ := with_tlp_ptr_links s r tls_id f
    rw [← hlinks] at hnext
    rw [← hin_use] at hused
    exact not_linked hnext hused
  | drop_row =>
    simp only [Option.ite_none_right_eq_some, Option.some.injEq] at hstep
    obtain ⟨-, rfl⟩ := hstep
    intro hlinked
    have hnull := h.drop_row_unused (r := r) (by simpa [rows_kept] using hbad)
    rw [hlinked.no_null_deref] at hnull
    cases hnull
  | drop =>
    simp only [Option.ite_none_right_eq_some, Option.some.injEq] at hstep
    obtain ⟨-, rfl⟩ := hstep
    intro hlinked
    have hnull := h.drop_row_unused (r := r) (by simpa [rows_kept] using hbad)
    rw [show (s.drop_row r).null_deref = false from hlinked.no_null_deref] at hnull
    cases hnull

end step

variable {handlers : Nat → Option UnrefHandler} {c : Config Row (RowTable Row) Unit}

theorem rows_kept_run (hc : (row_system Row handlers).ReachableUnder rows_kept c) :
    ∃ rows, RowsKept c.shared rows := by
  refine ReachableUnder.induction (P := fun c => ∃ rows, RowsKept c.shared rows) ?_ ?_ hc
  · refine ⟨[], rfl, .empty rfl rfl, fun r => ?_, nofun, fun r _ => ⟨rfl, rfl⟩⟩
    exact ⟨fun h => absurd h List.not_mem_nil, nofun⟩
  · rintro c r op q - ⟨rows, h⟩ hG hr
    obtain ⟨s', hstep, rfl⟩ := Option.map_eq_some_iff.mp hr
    exact h.step hstep hG

/-- As long as every row is dropped only while it is in use and not accessed after it was
dropped, the list is as it should be; the first call that does otherwise breaks it. -/
theorem rows_linked_while_kept (hc : (row_system Row handlers).ReachableUnder rows_kept c) :
    RowsLinked c.shared ∧ ∀ r op q, (row_system Row handlers).step r op c.shared () = some q →
      (RowsLinked q.1 ↔ rows_kept r op c.shared ()) := by
  obtain ⟨rows, h⟩ := rows_kept_run hc
  refine ⟨h.linked, fun r op q hr => ?_⟩
  obtain ⟨s', hstep, rfl⟩ := Option.map_eq_some_iff.mp hr
  constructor
  · intro hlinked
    by_contra hbad
    exact h.bad_step hstep hbad hlinked
  · intro hkept
    obtain ⟨rows', h'⟩ := h.step hstep hkept
    exact h'.linked

/-- Two rows are accessed and one of them is dropped. -/
theorem rows_linked_while_kept_two_rows :
    ∃ c : Config Bool (RowTable Bool) Unit, c.shared.in_use true = true ∧
      c.shared.unrefs = [(5, 7)] ∧ RowsLinked c.shared := by
  obtain ⟨c, hc, hseen⟩ := reachable_showing (row_system Bool fun _ => some 5) rows_kept
    [(true, .new), (false, .new), (true, .ensure_registered),
      (false, .with_tlp_ptr 1 fun _ => some 7), (false, .drop)]
    (fun c => (c.shared.in_use true, c.shared.unrefs)) (true, [(5, 7)]) (by decide +kernel)
  simp only [Prod.mk.injEq] at hseen
  exact ⟨c, hseen.1, hseen.2, (rows_linked_while_kept hc).1⟩

/-- A row that was never accessed, and one that was dropped by `drop_row` before, dereference
null links when they are dropped; a row that is accessed after `drop_row` is not linked in,
and the removal of its column does not reach its entry. -/
theorem dropped_rows_not_linked :
    (∃ c, (row_system Bool fun _ => some 5).Reachable c ∧ c.shared.registered true = false ∧
      c.shared.null_deref = true) ∧
    (∃ c, (row_system Bool fun _ => some 5).Reachable c ∧ c.shared.registered true = true ∧
      c.shared.null_deref = true) ∧
    ∃ c, (row_system Bool fun _ => some 5).Reachable c ∧ c.shared.null_deref = false ∧
      c.shared.in_use true = true ∧ c.shared.next .head = some .head ∧
      ((c.shared.remove_column 1 0).bind fun s => s.cell true 0) = some 8 ∧
      ¬ RowsLinked c.shared := by
  refine ⟨?_, ?_, ?_⟩
  · obtain ⟨c, hc, hseen⟩ := reachable_showing (row_system Bool fun _ => some 5) anyStep
      [(true, .new), (true, .drop)] (fun c => (c.shared.registered true, c.shared.null_deref))
      (false, true) (by decide +kernel)
    simp only [Prod.mk.injEq] at hseen
    exact ⟨c, hc, hseen⟩
  · obtain ⟨c, hc, hseen⟩ := reachable_showing (row_system Bool fun _ => some 5) anyStep
      [(true, .new), (true, .with_tlp_ptr 0 fun _ => some 7), (true, .drop_row), (true, .drop)]
      (fun c => (c.shared.registered true, c.shared.null_deref)) (true, true) (by decide +kernel)
    simp only [Prod.mk.injEq] at hseen
    exact ⟨c, hc, hseen⟩
  · obtain ⟨c, hc, hseen⟩ := reachable_showing (row_system Bool fun _ => some 5) anyStep
      [(true, .new), (true, .with_tlp_ptr 0 fun _ => some 7), (true, .drop_row),
        (true, .with_tlp_ptr 0 fun _ => some 8)]
      (fun c => ((c.shared.null_deref, c.shared.in_use true), c.shared.next .head,
        c.shared.next (.row true), (c.shared.remove_column 1 0).bind fun s => s.cell true 0))
      ((false, true), some .head, none, some 8) (by decide +kernel)
    simp only [Prod.mk.injEq] at hseen
    obtain ⟨⟨hsafe, hused⟩, hhead, hnext, hcell⟩ := hseen
    exact ⟨c, hc, hsafe, hused, hhead, hcell, not_linked hnext hused⟩

end ordinum.thread_local_storage
