import Ordinum.ThreadLocalStorage.ThreadLocal

namespace ordinum.thread_local_storage

/-- How far a vector grows that needs more room than it has. -/
structure Growth where
  grow : Nat → Nat → Nat
  enough : ∀ capacity needed, needed ≤ grow capacity needed

/-- The `entries` of one row as a growable vector. `buffer` counts how often it was
reallocated. The last two fields are history: what the `init` closures returned, and
whether a cell was used after its buffer was reallocated. -/
structure RowVec where
  buffer : Nat
  capacity : Nat
  entries : List (Option EntryPtr)
  installed : List (Nat × EntryPtr)
  stale_use : Bool
  len_le : entries.length ≤ capacity

namespace RowVec

def new : RowVec :=
  { buffer := 0, capacity := 0, entries := [], installed := [], stale_use := false
    len_le := Nat.le_refl 0 }

def cell (row : RowVec) (tls_id : Nat) : Option EntryPtr := row.entries.getD tls_id none

/-- `entries.resize_with(tls_id + 1, null)`, for a row that is too short. -/
def resize (G : Growth) (row : RowVec) (tls_id : Nat) : RowVec :=
  let entries := row.entries ++ List.replicate (tls_id + 1 - row.entries.length) none
  if hroom : entries.length ≤ row.capacity then { row with entries, len_le := hroom }
  else
    { row with
      buffer := row.buffer + 1
      capacity := G.grow row.capacity entries.length
      entries
      len_le := G.enough row.capacity entries.length }

/-- The store through a cell of the buffer `buffer`, after `init` returned. A store into
a buffer that was reallocated does not reach the row. -/
def install (row : RowVec) (buffer tls_id : Nat) (entry : EntryPtr) : RowVec :=
  let row := { row with installed := (tls_id, entry) :: row.installed }
  if buffer = row.buffer then
    { row with entries := row.entries.set tls_id (some entry), len_le := by simpa using row.len_le }
  else { row with stale_use := true }

/-- A null cell gets the entry that `init` returned; `after_init` is the row then. The
cell was taken before. -/
def init_cell (row : RowVec) (tls_id : Nat) (entry : EntryPtr) (after_init : RowVec) : RowVec :=
  match row.cell tls_id with
  | some _ => row
  | none => after_init.install row.buffer tls_id entry

/-- `ThreadLocalPtr::get`. -/
def get (G : Growth) (row : RowVec) (tls_id : Nat) : Option EntryPtr :=
  (row.resize G tls_id).cell tls_id

end RowVec

/-- The calls that a piece of code makes, one after the other: the column, the calls that
`init` makes before it returns `entry`, and the calls that `f` makes. -/
inductive Calls where
  | done
  | access (tls_id : Nat) (init : Calls) (entry : EntryPtr) (f rest : Calls)
  deriving Repr

namespace Calls

def get_or_init (tls_id : Nat) (init : Calls) (entry : EntryPtr) : Calls :=
  access tls_id init entry done done

def get_or_init_mut (tls_id : Nat) (init : Calls) (entry : EntryPtr) (f : Calls) : Calls :=
  access tls_id init entry f done

/-- The calls run on a row. -/
def run (G : Growth) : Calls → RowVec → RowVec
  | done, row => row
  | access tls_id init entry f rest, row =>
    let row := row.resize G tls_id
    let row := row.init_cell tls_id entry (init.run G row)
    rest.run G (f.run G row)

/-- The documented restriction: while a call is running, no call is made on its column. -/
def NotReentrant (running : List Nat) : Calls → Prop
  | done => True
  | access tls_id init _ f rest =>
    tls_id ∉ running ∧ init.NotReentrant (tls_id :: running) ∧
      f.NotReentrant (tls_id :: running) ∧ rest.NotReentrant running

/-- No call that is made while an `init` is running has a `tls_id` past the capacity of
the row. -/
def InitsFit (G : Growth) (in_init : Bool) : Calls → RowVec → Prop
  | done, _ => True
  | access tls_id init entry f rest, row =>
    (in_init = true → tls_id < row.capacity) ∧
    let row := row.resize G tls_id
    (row.cell tls_id = none → init.InitsFit G true row) ∧
    let row := row.init_cell tls_id entry (init.run G row)
    f.InitsFit G in_init row ∧ rest.InitsFit G in_init (f.run G row)

end Calls

section row

variable (G : Growth) (row : RowVec) (buffer tls_id other : Nat) (entry : EntryPtr)

theorem resize_entries : (row.resize G tls_id).entries =
    row.entries ++ List.replicate (tls_id + 1 - row.entries.length) none := by
  unfold RowVec.resize
  dsimp only
  split <;> rfl

@[simp] theorem resize_installed : (row.resize G tls_id).installed = row.installed := by
  unfold RowVec.resize
  dsimp only
  split <;> rfl

@[simp] theorem resize_stale_use : (row.resize G tls_id).stale_use = row.stale_use := by
  unfold RowVec.resize
  dsimp only
  split <;> rfl

/-- New cells are null, as are those past the end. -/
@[simp] theorem row_cell_resize : (row.resize G tls_id).cell other = row.cell other := by
  unfold RowVec.cell
  rw [resize_entries]
  simp only [List.getD_eq_getElem?_getD, List.getElem?_append, List.getElem?_replicate]
  grind

theorem lt_length_resize : tls_id < (row.resize G tls_id).entries.length := by
  rw [resize_entries, List.length_append, List.length_replicate]
  omega

/-- A row is reallocated when the cell is past its capacity. -/
theorem buffer_resize : (row.resize G tls_id).buffer =
    if tls_id < row.capacity then row.buffer else row.buffer + 1 := by
  have hlen := row.len_le
  unfold RowVec.resize
  dsimp only
  simp only [List.length_append, List.length_replicate]
  split
  · rw [if_pos (by omega)]
  · rw [if_neg (by omega)]

theorem resize_buffer_le : row.buffer ≤ (row.resize G tls_id).buffer := by
  rw [buffer_resize]
  split <;> omega

@[simp] theorem install_installed :
    (row.install buffer tls_id entry).installed = (tls_id, entry) :: row.installed := by
  unfold RowVec.install
  dsimp only
  split <;> rfl

@[simp] theorem install_buffer : (row.install buffer tls_id entry).buffer = row.buffer := by
  unfold RowVec.install
  dsimp only
  split <;> rfl

theorem install_stale_use : (row.install buffer tls_id entry).stale_use =
    if buffer = row.buffer then row.stale_use else true := by
  unfold RowVec.install
  dsimp only
  split <;> rfl

theorem length_install :
    (row.install buffer tls_id entry).entries.length = row.entries.length := by
  unfold RowVec.install
  dsimp only
  split
  · exact List.length_set
  · rfl

theorem cell_install_of_ne (hne : other ≠ tls_id) :
    (row.install buffer tls_id entry).cell other = row.cell other := by
  unfold RowVec.install RowVec.cell
  dsimp only
  split
  · simp only [List.getD_eq_getElem?_getD, List.getElem?_set_ne (Ne.symm hne)]
  · rfl

theorem cell_install_self (hbuffer : buffer = row.buffer) (hlen : tls_id < row.entries.length) :
    (row.install buffer tls_id entry).cell tls_id = some entry := by
  unfold RowVec.install RowVec.cell
  dsimp only
  rw [if_pos hbuffer]
  simp [List.getD_eq_getElem?_getD, List.getElem?_set_self hlen]

theorem init_cell_of_some {old : EntryPtr} (hcell : row.cell tls_id = some old)
    (after_init : RowVec) : row.init_cell tls_id entry after_init = row := by
  rw [RowVec.init_cell, hcell]

theorem init_cell_of_none (hcell : row.cell tls_id = none) (after_init : RowVec) :
    row.init_cell tls_id entry after_init = after_init.install row.buffer tls_id entry := by
  rw [RowVec.init_cell, hcell]

end row

section run

variable {G : Growth} {row after_init : RowVec} {tls_id : Nat} {entry : EntryPtr}

theorem buffer_init_cell : (row.init_cell tls_id entry after_init).buffer =
    if row.cell tls_id = none then after_init.buffer else row.buffer := by
  cases hcell : row.cell tls_id with
  | some old => simp [init_cell_of_some _ _ _ hcell]
  | none => simp [init_cell_of_none _ _ _ hcell]

theorem stale_use_init_cell : (row.init_cell tls_id entry after_init).stale_use = false ↔
    if row.cell tls_id = none then
      row.buffer = after_init.buffer ∧ after_init.stale_use = false
    else row.stale_use = false := by
  cases hcell : row.cell tls_id with
  | some old => simp [init_cell_of_some _ _ _ hcell]
  | none =>
    rw [init_cell_of_none _ _ _ hcell, install_stale_use, if_pos rfl]
    by_cases hbuffer : row.buffer = after_init.buffer
    · simp [hbuffer]
    · simp [hbuffer]

/-- The buffer is only replaced by later ones. -/
theorem buffer_le_run (calls : Calls) : ∀ row : RowVec, row.buffer ≤ (calls.run G row).buffer := by
  induction calls with
  | done => exact fun row => Nat.le_refl _
  | access tls_id init entry f rest ih_init ih_f ih_rest =>
    intro row
    have hresize := resize_buffer_le G row tls_id
    have hinit : (row.resize G tls_id).buffer ≤ ((row.resize G tls_id).init_cell tls_id entry
        (init.run G (row.resize G tls_id))).buffer := by
      rw [buffer_init_cell]
      split
      · exact ih_init _
      · exact Nat.le_refl _
    exact Nat.le_trans (Nat.le_trans (Nat.le_trans hresize hinit) (ih_f _)) (ih_rest _)

/-- Calls under an `init` fit exactly if they do not reallocate the row. -/
theorem initsFit_iff_buffer (calls : Calls) : ∀ row : RowVec,
    calls.InitsFit G true row ↔ (calls.run G row).buffer = row.buffer := by
  induction calls with
  | done => exact fun row => ⟨fun _ => rfl, fun _ => trivial⟩
  | access tls_id init entry f rest ih_init ih_f ih_rest =>
    intro row
    simp only [Calls.InitsFit, Calls.run, ih_init, ih_f, ih_rest]
    have hresize := resize_buffer_le G row tls_id
    have hroom := buffer_resize G row tls_id
    generalize row.resize G tls_id = sized at hresize hroom ⊢
    have hinit := buffer_le_run (G := G) init sized
    have hcell : (sized.init_cell tls_id entry (init.run G sized)).buffer = _ := buffer_init_cell
    generalize sized.init_cell tls_id entry (init.run G sized) = filled at hcell ⊢
    have hf := buffer_le_run (G := G) f filled
    have hrest := buffer_le_run (G := G) rest (f.run G filled)
    split at hcell
    · rename_i hnone
      simp only [hnone, forall_const]
      split at hroom
      · omega
      · omega
    · rename_i hsome
      simp only [hsome, false_implies, forall_const, true_and]
      split at hroom
      · omega
      · omega

/-- Calls that do not reallocate the row use no stale cell. -/
theorem stale_use_of_buffer (calls : Calls) : ∀ row : RowVec,
    (calls.run G row).buffer = row.buffer →
      ((calls.run G row).stale_use = false ↔ row.stale_use = false) := by
  induction calls with
  | done => exact fun _ _ => Iff.rfl
  | access tls_id init entry f rest ih_init ih_f ih_rest =>
    intro row hsame
    simp only [Calls.run] at hsame ⊢
    have hresize := resize_buffer_le G row tls_id
    have hstale := resize_stale_use G row tls_id
    generalize row.resize G tls_id = sized at hsame hresize hstale ⊢
    have hinit := buffer_le_run (G := G) init sized
    have hcell : (sized.init_cell tls_id entry (init.run G sized)).buffer = _ := buffer_init_cell
    have hinit_stale : (sized.init_cell tls_id entry (init.run G sized)).stale_use = false ↔ _ :=
      stale_use_init_cell
    generalize sized.init_cell tls_id entry (init.run G sized) = filled
      at hsame hcell hinit_stale ⊢
    have hf := buffer_le_run (G := G) f filled
    have hrest := buffer_le_run (G := G) rest (f.run G filled)
    have hfilled : sized.buffer ≤ filled.buffer := by
      rw [hcell]
      split <;> omega
    rw [ih_rest _ (by omega), ih_f _ (by omega), hinit_stale, ← hstale]
    split
    · rename_i hnone
      rw [if_pos hnone] at hcell
      rw [ih_init _ (by omega)]
      exact and_iff_right (by omega)
    · exact Iff.rfl

/-- No stale cell is used exactly if the calls under every `init` fit. -/
theorem stale_use_iff (calls : Calls) : ∀ row : RowVec,
    (calls.run G row).stale_use = false ↔
      row.stale_use = false ∧ calls.InitsFit G false row := by
  induction calls with
  | done => exact fun row => ⟨fun h => ⟨h, trivial⟩, fun h => h.1⟩
  | access tls_id init entry f rest ih_init ih_f ih_rest =>
    intro row
    simp only [Calls.run, Calls.InitsFit, Bool.false_eq_true, false_implies, true_and]
    have hstale := resize_stale_use G row tls_id
    generalize row.resize G tls_id = sized at hstale ⊢
    have hinit : (sized.init_cell tls_id entry (init.run G sized)).stale_use = false ↔
        sized.stale_use = false ∧ (sized.cell tls_id = none → init.InitsFit G true sized) := by
      rw [stale_use_init_cell, initsFit_iff_buffer]
      split
      · rename_i hnone
        simp only [hnone, forall_const]
        constructor
        · rintro ⟨hbuffer, hunused⟩
          exact ⟨(stale_use_of_buffer init sized hbuffer.symm).mp hunused, hbuffer.symm⟩
        · rintro ⟨hunused, hbuffer⟩
          exact ⟨hbuffer.symm, (stale_use_of_buffer init sized hbuffer).mpr hunused⟩
      · rename_i hsome
        simp [hsome]
    rw [ih_rest, ih_f, hinit, hstale]
    simp only [and_assoc]

/-- The columns on which calls are running are left alone. -/
theorem cell_run_of_running (calls : Calls) : ∀ {row : RowVec} {running : List Nat},
    calls.NotReentrant running → ∀ i ∈ running, (calls.run G row).cell i = row.cell i := by
  induction calls with
  | done => exact fun _ _ _ => rfl
  | access tls_id init entry f rest ih_init ih_f ih_rest =>
    intro row running hnested i hi
    obtain ⟨hother, hinit, hf, hrest⟩ := hnested
    have hne : i ≠ tls_id := by
      rintro rfl
      exact hother hi
    have hmem : i ∈ tls_id :: running := List.mem_cons_of_mem _ hi
    simp only [Calls.run]
    rw [ih_rest hrest i hi, ih_f hf i hmem, ← row_cell_resize G row tls_id i]
    generalize row.resize G tls_id = sized
    cases hcell : sized.cell tls_id with
    | some old => rw [init_cell_of_some _ _ _ hcell]
    | none =>
      rw [init_cell_of_none _ _ _ hcell, cell_install_of_ne _ _ _ _ _ hne]
      exact ih_init hinit i hmem

/-- Every entry that an `init` returned is in its cell. -/
def Installed (row : RowVec) : Prop :=
  ∀ p ∈ row.installed, row.cell p.1 = some p.2

/-- A row never gets shorter. -/
theorem length_le_run (calls : Calls) : ∀ row : RowVec,
    row.entries.length ≤ (calls.run G row).entries.length := by
  induction calls with
  | done => exact fun row => Nat.le_refl _
  | access tls_id init entry f rest ih_init ih_f ih_rest =>
    intro row
    have hresize : row.entries.length ≤ (row.resize G tls_id).entries.length := by
      rw [resize_entries]
      exact Nat.le_trans (Nat.le_add_right ..) (Nat.le_of_eq List.length_append.symm)
    have hinit : (row.resize G tls_id).entries.length ≤ ((row.resize G tls_id).init_cell tls_id
        entry (init.run G (row.resize G tls_id))).entries.length := by
      cases hcell : (row.resize G tls_id).cell tls_id with
      | some old =>
        apply Nat.le_of_eq
        rw [init_cell_of_some _ _ _ hcell]
      | none =>
        rw [init_cell_of_none _ _ _ hcell, length_install]
        exact ih_init _
    exact Nat.le_trans (Nat.le_trans (Nat.le_trans hresize hinit) (ih_f _)) (ih_rest _)

/-- What `init` returned gets into its cell, and what was installed stays. -/
theorem Installed.init_cell {running : List Nat} {init : Calls}
    (hall : Installed (init.run G row)) (hrow : Installed row)
    (hinit : init.NotReentrant (tls_id :: running)) (hlen : tls_id < row.entries.length)
    (hbuffer : row.cell tls_id = none → row.buffer = (init.run G row).buffer) :
    Installed (row.init_cell tls_id entry (init.run G row)) := by
  cases hcell : row.cell tls_id with
  | some old =>
    rw [init_cell_of_some _ _ _ hcell]
    exact hrow
  | none =>
    have hlater := Nat.lt_of_lt_of_le hlen (length_le_run (G := G) init row)
    have hnull : (init.run G row).cell tls_id = row.cell tls_id :=
      cell_run_of_running init hinit tls_id List.mem_cons_self
    rw [init_cell_of_none _ _ _ hcell]
    intro p hp
    rw [install_installed] at hp
    obtain rfl | hp := List.mem_cons.mp hp
    · exact cell_install_self _ _ _ _ (hbuffer hcell) hlater
    · have hne : p.1 ≠ tls_id := by
        intro heq
        have hold := hall p hp
        rw [heq, hnull, hcell] at hold
        cases hold
      rw [cell_install_of_ne _ _ _ _ _ hne]
      exact hall p hp

/-- If no stale cell is used, every entry arrives in its cell and stays there. -/
theorem installed_run (calls : Calls) : ∀ {row : RowVec} {running : List Nat},
    calls.NotReentrant running → (calls.run G row).stale_use = false → Installed row →
      Installed (calls.run G row) := by
  induction calls with
  | done => exact fun _ _ h => h
  | access tls_id init entry f rest ih_init ih_f ih_rest =>
    intro row running hnested hunused hrow
    obtain ⟨-, hinit, hf, hrest⟩ := hnested
    simp only [Calls.run] at hunused ⊢
    have hf_unused := ((stale_use_iff rest _).mp hunused).1
    have hfilled_unused := ((stale_use_iff f _).mp hf_unused).1
    apply ih_rest hrest hunused
    apply ih_f hf hf_unused
    have hsized : Installed (row.resize G tls_id) := by
      intro p hp
      rw [resize_installed] at hp
      rw [row_cell_resize]
      exact hrow p hp
    have hlen := lt_length_resize G row tls_id
    generalize row.resize G tls_id = sized at hfilled_unused hsized hlen ⊢
    rw [stale_use_init_cell] at hfilled_unused
    cases hcell : sized.cell tls_id with
    | some old =>
      rw [init_cell_of_some _ _ _ hcell]
      exact hsized
    | none =>
      rw [if_pos hcell] at hfilled_unused
      exact (ih_init hinit hfilled_unused.2 hsized).init_cell hsized hinit hlen
        fun _ => hfilled_unused.1

end run

/-- Nested accesses are safe: no cell is used after the row was reallocated, and every
column's `get` returns what its own `init` returned. -/
structure NestedSafe (G : Growth) (row : RowVec) : Prop where
  no_stale_use : row.stale_use = false
  get : ∀ p ∈ row.installed, row.get G p.1 = some p.2

/-- Calls on a row, each on another column than those it is nested in, are safe exactly if
the calls made under an `init` fit into the capacity of the row. -/
theorem nested_safe_iff (G : Growth) {calls : Calls} (hnested : calls.NotReentrant [])
    (row : RowVec) :
    NestedSafe G (calls.run G { row with installed := [], stale_use := false }) ↔
      calls.InitsFit G false { row with installed := [], stale_use := false } := by
  constructor
  · exact fun hsafe => ((stale_use_iff calls _).mp hsafe.no_stale_use).2
  · intro hfit
    have hunused := (stale_use_iff (G := G) calls
      { row with installed := [], stale_use := false }).mpr ⟨rfl, hfit⟩
    refine ⟨hunused, fun p hp => ?_⟩
    rw [RowVec.get, row_cell_resize]
    exact installed_run calls hnested hunused (fun p hp => absurd hp List.not_mem_nil) p hp

/-- The growth of a vector of pointers: twice the capacity at least, and never below four. -/
def doubling : Growth :=
  { grow := fun capacity needed => max 4 (max (2 * capacity) needed)
    enough := fun capacity needed => by omega }

/-- Three columns nested within the first capacity. -/
theorem nested_safe_iff_small :
    NestedSafe doubling ((Calls.get_or_init_mut 0 (.get_or_init 3 .done 30) 10
      (.get_or_init 7 .done 70)).run doubling { RowVec.new with installed := [], stale_use := false }) ∧
    ((Calls.get_or_init_mut 0 (.get_or_init 3 .done 30) 10 (.get_or_init 7 .done 70)).run doubling
      .new).buffer = 2 := by
  refine ⟨(nested_safe_iff doubling ?_ .new).mpr ?_, by decide⟩
  · simp [Calls.get_or_init_mut, Calls.get_or_init, Calls.NotReentrant]
  · simp [Calls.get_or_init_mut, Calls.get_or_init, Calls.InitsFit]
    decide

/-- The `init` of column 0 accesses column 4, which reallocates the row: the entry that it
returns is stored into the old buffer and lost. -/
theorem nested_init_uses_stale_cell :
    (Calls.get_or_init 0 (.get_or_init 4 .done 40) 10).NotReentrant [] ∧
    ((Calls.get_or_init 0 (.get_or_init 4 .done 40) 10).run doubling .new).stale_use = true ∧
    ((Calls.get_or_init 0 (.get_or_init 4 .done 40) 10).run doubling .new).get doubling 0 = none ∧
    ¬ NestedSafe doubling ((Calls.get_or_init 0 (.get_or_init 4 .done 40) 10).run doubling .new) := by
  have hstale : ((Calls.get_or_init 0 (.get_or_init 4 .done 40) 10).run doubling .new).stale_use =
      true := by decide
  refine ⟨by simp [Calls.get_or_init, Calls.NotReentrant], hstale, by decide, fun hsafe => ?_⟩
  have hunused := hsafe.no_stale_use
  rw [hstale] at hunused
  cases hunused

end ordinum.thread_local_storage
