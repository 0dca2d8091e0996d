import Ordinum.Interleaving.System

open interleaving

namespace ordinum.thread_local_storage

/-- A handler, told from the others by its address. -/
abbrev UnrefHandler := Nat

/-- The address of an installed object, never null. -/
abbrev EntryPtr := Nat

/-- The place of a `ThreadLocalPtr` in the order of their creation (history). -/
abbrev PtrId := Nat

/-- `handler` is the one it was created with (history). -/
structure ThreadLocalPtr where
  tls_id : Nat
  handler : Option UnrefHandler
  deriving DecidableEq, Repr

/-- What a cell holds when it is not null. The column and the row it was
installed in are history. -/
structure Entry (Tid : Type) where
  ptr : EntryPtr
  column : PtrId
  row : Tid
  deriving DecidableEq, Repr

/-- A call of a handler on an entry. -/
structure Unref (Tid : Type) where
  handler : UnrefHandler
  entry : Entry Tid
  deriving DecidableEq, Repr

/-- How far the removal of a column has come, and which thread removes it. -/
inductive Stage (Tid : Type) where
  | live
  | removing (remover : Tid)
  | unmapped (remover : Tid)
  | returned
  deriving DecidableEq, Repr

structure ThreadData (Tid : Type) where
  entries : List (Option (Entry Tid))
  registered : Bool
  deriving DecidableEq, Repr

def ThreadData.new (Tid : Type) : ThreadData Tid := { entries := [], registered := false }

/-- `ThreadMetaGlobal` and the rows of the threads. `head` lists the registered
rows behind the sentinel; the end of `tls_id_free_list` that is pushed to comes
first. The fields after `rows` are history, but for the existence of the
`ThreadLocalPtr`s: those created and those whose drop has begun. -/
structure TlsShared (Tid : Type) where
  thread_mu : Option Tid
  head : List Tid
  unref_handler_map : Nat → Option UnrefHandler
  next_tls_id : Nat
  tls_id_free_list : List Nat
  rows : Tid → ThreadData Tid
  created : Nat
  ptrs : PtrId → ThreadLocalPtr
  dropped : PtrId → Bool
  stage : PtrId → Stage Tid
  departed : Tid → Bool
  accessing : Tid → Option PtrId
  installs : List (Entry Tid)
  unrefs : List (Unref Tid)

/-- Program points of `get_or_init` and `get_or_init_mut`. -/
inductive AccessPc where
  | ensure_registered
  | grow
  | load
  | init
  deriving DecidableEq, Repr

/-- Program points of `remove_column`: `rest` are the rows not yet visited. -/
inductive RemovePc (Tid : Type) where
  | lock
  | walk (handler : Option UnrefHandler) (rest : List Tid)
  deriving DecidableEq, Repr

/-- Program points of `drop_row`. -/
inductive ExitPc where
  | lock
  | walk (idx : Nat)
  deriving DecidableEq, Repr

inductive TlsPc (Tid : Type) where
  | idle
  | access (ptr : PtrId) (pc : AccessPc)
  | remove (ptr : PtrId) (pc : RemovePc Tid)
  | exit (pc : ExitPc)
  | exited
  deriving DecidableEq, Repr

/-- `entry` is the object that `init` returns when the step calls it. -/
inductive TlsAct where
  | new_with_handler (handler : Option UnrefHandler)
  | get_or_init (ptr : PtrId)
  | remove_column (ptr : PtrId)
  | drop (ptr : PtrId)
  | exit
  | step (entry : EntryPtr)
  deriving DecidableEq, Repr

variable {Tid : Type}

namespace TlsShared

/-- What `entries[i]` of a row holds; a row that is too short holds nothing. -/
def cell (s : TlsShared Tid) (t : Tid) (i : Nat) : Option (Entry Tid) :=
  (s.rows t).entries.getD i none

def tls_id (s : TlsShared Tid) (ptr : PtrId) : Nat := (s.ptrs ptr).tls_id

/-- The value exists: it was created and its drop has not begun. -/
def exists_ptr (s : TlsShared Tid) (ptr : PtrId) : Prop :=
  ptr < s.created ∧ s.dropped ptr = false

instance (s : TlsShared Tid) (ptr : PtrId) : Decidable (s.exists_ptr ptr) :=
  inferInstanceAs (Decidable (_ ∧ _))

/-- The id that `new_with_handler` takes, and the counter and the free list after. -/
def take_id (s : TlsShared Tid) : Nat × Nat × List Nat :=
  match s.tls_id_free_list with
  | [] => (s.next_tls_id, s.next_tls_id + 1, [])
  | tls_id :: free => (tls_id, s.next_tls_id, free)

/-- `new_with_handler` under `thread_mu`: the handler is inserted, or a stale
one removed. -/
def new_with_handler (s : TlsShared Tid) (handler : Option UnrefHandler) : TlsShared Tid :=
  let (tls_id, next_tls_id, tls_id_free_list) := s.take_id
  { s with
    unref_handler_map := Function.update s.unref_handler_map tls_id handler
    next_tls_id
    tls_id_free_list
    created := s.created + 1
    ptrs := Function.update s.ptrs s.created { tls_id, handler } }

variable [DecidableEq Tid]

def with_row (s : TlsShared Tid) (t : Tid) (row : ThreadData Tid) : TlsShared Tid :=
  { s with rows := Function.update s.rows t row }

/-- Swap a cell to null and call the handler, if there is one, on what it held. -/
def reclaim (s : TlsShared Tid) (t : Tid) (i : Nat) (handler : Option UnrefHandler) :
    TlsShared Tid :=
  match s.cell t i with
  | none => s
  | some entry =>
    { s.with_row t { s.rows t with entries := (s.rows t).entries.set i none } with
      unrefs := s.unrefs ++ (handler.map fun handler => { handler, entry }).toList }

/-- `entries.resize_with(tls_id + 1, null)` of the thread's own row. -/
def resize (s : TlsShared Tid) (t : Tid) (tls_id : Nat) : TlsShared Tid :=
  s.with_row t { s.rows t with
    entries := (s.rows t).entries ++
      List.replicate (tls_id + 1 - (s.rows t).entries.length) none }

/-- The store of a new entry into the thread's own cell. -/
def install (s : TlsShared Tid) (t : Tid) (ptr : PtrId) (entry : EntryPtr) : TlsShared Tid :=
  { s.with_row t { s.rows t with
      entries := (s.rows t).entries.set (s.tls_id ptr) (some ⟨entry, ptr, t⟩) } with
    installs := s.installs ++ [⟨entry, ptr, t⟩]
    accessing := Function.update s.accessing t none }

end TlsShared

variable [DecidableEq Tid]

/-- One atomic step of a thread. What is done under `thread_mu` and touches only
what `thread_mu` guards is one step, taken when the mutex is free; the walks
over the cells hold it from step to step. -/
def tls_step (t : Tid) :
    TlsAct → TlsShared Tid → TlsPc Tid → Option (TlsShared Tid × TlsPc Tid)
  | .new_with_handler handler, s, .idle =>
    if s.thread_mu = none then some (s.new_with_handler handler, .idle) else none
  | .get_or_init ptr, s, .idle =>
    if s.exists_ptr ptr then
      some ({ s with accessing := Function.update s.accessing t (some ptr) },
        .access ptr .ensure_registered)
    else none
  | .remove_column ptr, s, .idle =>
    if s.exists_ptr ptr then
      some ({ s with stage := Function.update s.stage ptr (.removing t) }, .remove ptr .lock)
    else none
  | .drop ptr, s, .idle =>
    if s.exists_ptr ptr then
      some ({ s with
        dropped := Function.update s.dropped ptr true
        stage := Function.update s.stage ptr (.removing t) }, .remove ptr .lock)
    else none
  -- the row of a thread that never used it was not created
  | .exit, s, .idle =>
    some ({ s with departed := Function.update s.departed t true },
      if (s.rows t).registered then .exit .lock else .exited)
  | .step _, s, .access ptr .ensure_registered =>
    if (s.rows t).registered then some (s, .access ptr .grow)
    else if s.thread_mu = none then
      some ({ s.with_row t { s.rows t with registered := true } with head := t :: s.head },
        .access ptr .grow)
    else none
  | .step _, s, .access ptr .grow =>
    if s.tls_id ptr < (s.rows t).entries.length then some (s, .access ptr .load)
    else if s.thread_mu = none then some (s.resize t (s.tls_id ptr), .access ptr .load)
    else none
  | .step _, s, .access ptr .load =>
    match s.cell t (s.tls_id ptr) with
    | some _ => some ({ s with accessing := Function.update s.accessing t none }, .idle)
    | none => some (s, .access ptr .init)
  | .step entry, s, .access ptr .init => some (s.install t ptr entry, .idle)
  | .step _, s, .remove ptr .lock =>
    if s.thread_mu = none then
      some ({ s with
        thread_mu := some t
        unref_handler_map := Function.update s.unref_handler_map (s.tls_id ptr) none
        stage := Function.update s.stage ptr (.unmapped t) },
        .remove ptr (.walk (s.unref_handler_map (s.tls_id ptr)) s.head))
    else none
  | .step _, s, .remove ptr (.walk handler (u :: rest)) =>
    some (s.reclaim u (s.tls_id ptr) handler, .remove ptr (.walk handler rest))
  | .step _, s, .remove ptr (.walk _ []) =>
    some ({ s with
      thread_mu := none
      tls_id_free_list := s.tls_id ptr :: s.tls_id_free_list
      stage := Function.update s.stage ptr .returned }, .idle)
  | .step _, s, .exit .lock =>
    if s.thread_mu = none then
      some ({ s with thread_mu := some t, head := s.head.erase t }, .exit (.walk 0))
    else none
  | .step _, s, .exit (.walk idx) =>
    if idx < (s.rows t).entries.length then
      some (s.reclaim t idx (s.unref_handler_map idx), .exit (.walk (idx + 1)))
    else some ({ s with thread_mu := none }, .exited)
  | _, _, _ => none

/-- Any number of threads on one `ThreadMetaGlobal`. -/
def tls_system (Tid : Type) [DecidableEq Tid] :
    System Tid TlsAct (TlsShared Tid) (TlsPc Tid) where
  shared₀ :=
    { thread_mu := none
      head := []
      unref_handler_map := fun _ => none
      next_tls_id := 0
      tls_id_free_list := []
      rows := fun _ => .new Tid
      created := 0
      ptrs := fun _ => { tls_id := 0, handler := none }
      dropped := fun _ => false
      stage := fun _ => .live
      departed := fun _ => false
      accessing := fun _ => none
      installs := []
      unrefs := [] }
  local₀ := .idle
  step := tls_step

abbrev TlsConfig (Tid : Type) := Config Tid (TlsShared Tid) (TlsPc Tid)

/-- Everything a step can do. -/
inductive TlsMove (t : Tid) (s : TlsShared Tid) :
    TlsAct → TlsPc Tid → TlsShared Tid → TlsPc Tid → Prop
  | new (handler : Option UnrefHandler) (hfree : s.thread_mu = none) :
    TlsMove t s (.new_with_handler handler) .idle (s.new_with_handler handler) .idle
  | get_or_init (ptr : PtrId) (hptr : s.exists_ptr ptr) :
    TlsMove t s (.get_or_init ptr) .idle
      { s with accessing := Function.update s.accessing t (some ptr) }
      (.access ptr .ensure_registered)
  | remove_column (ptr : PtrId) (hptr : s.exists_ptr ptr) :
    TlsMove t s (.remove_column ptr) .idle
      { s with stage := Function.update s.stage ptr (.removing t) } (.remove ptr .lock)
  | drop (ptr : PtrId) (hptr : s.exists_ptr ptr) :
    TlsMove t s (.drop ptr) .idle
      { s with
        dropped := Function.update s.dropped ptr true
        stage := Function.update s.stage ptr (.removing t) } (.remove ptr .lock)
  | exit {pc : TlsPc Tid} (hpc : pc = .exit .lock ∨
    (pc = .exited ∧ (s.rows t).registered = false)) : TlsMove t s .exit .idle
      { s with departed := Function.update s.departed t true } pc
  | registered {entry : EntryPtr} {ptr : PtrId} (hrow : (s.rows t).registered = true) :
    TlsMove t s (.step entry) (.access ptr .ensure_registered) s (.access ptr .grow)
  | register {entry : EntryPtr} {ptr : PtrId} (hfree : s.thread_mu = none) :
    TlsMove t s (.step entry) (.access ptr .ensure_registered)
      { s.with_row t { s.rows t with registered := true } with head := t :: s.head }
      (.access ptr .grow)
  | long_enough {entry : EntryPtr} {ptr : PtrId}
    (hlen : s.tls_id ptr < (s.rows t).entries.length) :
    TlsMove t s (.step entry) (.access ptr .grow) s (.access ptr .load)
  | resize {entry : EntryPtr} {ptr : PtrId} (hfree : s.thread_mu = none)
    (hlen : (s.rows t).entries.length ≤ s.tls_id ptr) :
    TlsMove t s (.step entry) (.access ptr .grow) (s.resize t (s.tls_id ptr)) (.access ptr .load)
  | found {entry : EntryPtr} {ptr : PtrId} : TlsMove t s (.step entry) (.access ptr .load)
      { s with accessing := Function.update s.accessing t none } .idle
  | null {entry : EntryPtr} {ptr : PtrId} (hcell : s.cell t (s.tls_id ptr) = none) :
    TlsMove t s (.step entry) (.access ptr .load) s (.access ptr .init)
  | init {entry : EntryPtr} {ptr : PtrId} :
    TlsMove t s (.step entry) (.access ptr .init) (s.install t ptr entry) .idle
  | lock_column {entry : EntryPtr} {ptr : PtrId} (hfree : s.thread_mu = none) :
    TlsMove t s (.step entry) (.remove ptr .lock)
      { s with
        thread_mu := some t
        unref_handler_map := Function.update s.unref_handler_map (s.tls_id ptr) none
        stage := Function.update s.stage ptr (.unmapped t) }
      (.remove ptr (.walk (s.unref_handler_map (s.tls_id ptr)) s.head))
  | visit_row {entry : EntryPtr} {ptr : PtrId} {handler : Option UnrefHandler} {u : Tid}
    {rest : List Tid} : TlsMove t s (.step entry) (.remove ptr (.walk handler (u :: rest)))
      (s.reclaim u (s.tls_id ptr) handler) (.remove ptr (.walk handler rest))
  | return_id {entry : EntryPtr} {ptr : PtrId} {handler : Option UnrefHandler} :
    TlsMove t s (.step entry) (.remove ptr (.walk handler []))
      { s with
        thread_mu := none
        tls_id_free_list := s.tls_id ptr :: s.tls_id_free_list
        stage := Function.update s.stage ptr .returned } .idle
  | lock_row {entry : EntryPtr} (hfree : s.thread_mu = none) :
    TlsMove t s (.step entry) (.exit .lock)
      { s with thread_mu := some t, head := s.head.erase t } (.exit (.walk 0))
  | visit_entry {entry : EntryPtr} {idx : Nat} :
    TlsMove t s (.step entry) (.exit (.walk idx)) (s.reclaim t idx (s.unref_handler_map idx))
      (.exit (.walk (idx + 1)))
  | leave {entry : EntryPtr} {idx : Nat} (hlen : (s.rows t).entries.length ≤ idx) :
    TlsMove t s (.step entry) (.exit (.walk idx)) { s with thread_mu := none } .exited

section moves

variable {t : Tid} {s : TlsShared Tid} {a : TlsAct} {r : TlsShared Tid × TlsPc Tid}

theorem access_move {entry : EntryPtr} {ptr : PtrId} {pc : AccessPc}
    (hstep : tls_step t (.step entry) s (.access ptr pc) = some r) :
    TlsMove t s (.step entry) (.access ptr pc) r.1 r.2 := by
  cases pc with
  | ensure_registered =>
    simp only [tls_step] at hstep
    split at hstep
    · rename_i hrow
      cases hstep
      exact .registered hrow
    · split at hstep
      · rename_i hfree
        cases hstep
        exact .register hfree
      · cases hstep
  | grow =>
    simp only [tls_step] at hstep
    split at hstep
    · rename_i hlen
      cases hstep
      exact .long_enough hlen
    · rename_i hlen
      split at hstep
      · rename_i hfree
        cases hstep
        exact .resize hfree (Nat.le_of_not_lt hlen)
      · cases hstep
  | load =>
    simp only [tls_step] at hstep
    split at hstep
    · cases hstep
      exact .found
    · rename_i hcell
      cases hstep
      exact .null hcell
  | init =>
    cases hstep
    exact .init

theorem remove_move {entry : EntryPtr} {ptr : PtrId} {pc : RemovePc Tid}
    (hstep : tls_step t (.step entry) s (.remove ptr pc) = some r) :
    TlsMove t s (.step entry) (.remove ptr pc) r.1 r.2 := by
  cases pc with
  | lock =>
    simp only [tls_step] at hstep
    split at hstep
    · rename_i hfree
      cases hstep
      exact .lock_column hfree
    · cases hstep
  | walk handler rest =>
    cases rest with
    | nil =>
      cases hstep
      exact .return_id
    | cons u rest =>
      cases hstep
      exact .visit_row

theorem exit_move {entry : EntryPtr} {pc : ExitPc}
    (hstep : tls_step t (.step entry) s (.exit pc) = some r) :
    TlsMove t s (.step entry) (.exit pc) r.1 r.2 := by
  cases pc with
  | lock =>
    simp only [tls_step] at hstep
    split at hstep
    · rename_i hfree
      cases hstep
      exact .lock_row hfree
    · cases hstep
  | walk idx =>
    simp only [tls_step] at hstep
    split at hstep
    · cases hstep
      exact .visit_entry
    · rename_i hlen
      cases hstep
      exact .leave (Nat.le_of_not_lt hlen)

theorem call_move (hstep : tls_step t a s .idle = some r) : TlsMove t s a .idle r.1 r.2 := by
  cases a with
  | exit =>
    cases hstep
    refine .exit ?_
    cases (s.rows t).registered
    · exact .inr ⟨rfl, rfl⟩
    · exact .inl rfl
  | step entry => cases hstep
  | new_with_handler handler =>
    simp only [tls_step] at hstep
    split at hstep
    · rename_i hfree
      cases hstep
      exact .new handler hfree
    · cases hstep
  | get_or_init ptr =>
    simp only [tls_step] at hstep
    split at hstep
    · rename_i hptr
      cases hstep
      exact .get_or_init ptr hptr
    · cases hstep
  | remove_column ptr =>
    simp only [tls_step] at hstep
    split at hstep
    · rename_i hptr
      cases hstep
      exact .remove_column ptr hptr
    · cases hstep
  | drop ptr =>
    simp only [tls_step] at hstep
    split at hstep
    · rename_i hptr
      cases hstep
      exact .drop ptr hptr
    · cases hstep

theorem tls_step_move {pc : TlsPc Tid} (hstep : tls_step t a s pc = some r) :
    TlsMove t s a pc r.1 r.2 := by
  cases pc with
  | idle => exact call_move hstep
  | exited => cases a <;> cases hstep
  | access ptr pc =>
    cases a with
    | step entry => exact access_move hstep
    | _ => cases hstep
  | remove ptr pc =>
    cases a with
    | step entry => exact remove_move hstep
    | _ => cases hstep
  | exit pc =>
    cases a with
    | step entry => exact exit_move hstep
    | _ => cases hstep

end moves

end ordinum.thread_local_storage
