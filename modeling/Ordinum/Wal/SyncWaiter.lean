import Ordinum.Interleaving.Sync
import Ordinum.Interleaving.System

open interleaving

namespace ordinum.wal

inductive WalSyncResultState where
  | Init
  | Primed
  | SyncDone
  | IoError
  | WalError
  deriving DecidableEq, Repr

namespace WalSyncResultState

def is_terminal : WalSyncResultState → Bool
  | SyncDone | IoError | WalError => true
  | _ => false

/-- What `wait` answers in a state: `none` is the success of the sync, `some`
the error. -/
def to_result : WalSyncResultState → Option (Option WalSyncResultState)
  | SyncDone => some none
  | IoError => some (some IoError)
  | WalError => some (some WalError)
  | _ => none

end WalSyncResultState

/-- How a call of `wait` ends. -/
inductive WaitEnd where
  | returned (result : Option WalSyncResultState)
  | panicked
  deriving DecidableEq, Repr

/-- `SyncLogWaiter`. The last two fields are history: the first terminal result
that a `signal` stored, and the finished calls of `wait` with the first result
as it was when they started. -/
structure SyncLogWaiter (Tid : Type) where
  state : WalSyncResultState
  mu : Mutex Tid
  cv : Condvar Tid
  first_result : Option WalSyncResultState
  waits : List (Option WalSyncResultState × WaitEnd)

def SyncLogWaiter.default (Tid : Type) : SyncLogWaiter Tid :=
  { state := .Init, mu := .free, cv := ⟨[]⟩, first_result := none, waits := [] }

inductive PrimePc where
  | load
  | lock
  | store
  | unlock
  deriving DecidableEq, Repr

inductive SignalPc where
  | lock
  | store
  | notify
  | unlock
  deriving DecidableEq, Repr

/-- Program points of `wait`: the spinning phase with the rounds that are left
after the present one, then the phase under the mutex. -/
inductive WaitPc where
  | spin (left : Nat)
  | lock
  | check
  | wait
  | sleep
  | relock
  | read
  | unlock (result : Option WalSyncResultState)
  deriving DecidableEq, Repr

/-- Where a thread stands; a running `wait` remembers the first result as it was
at its start (history). -/
inductive WaiterPc where
  | idle
  | prime (pc : PrimePc)
  | signal (state : WalSyncResultState) (pc : SignalPc)
  | wait (started : Option WalSyncResultState) (pc : WaitPc)
  deriving DecidableEq, Repr

/-- `state` is the load of `SyncLogWaiter::state`; `spurious` lets the condition
variable wake the thread early. -/
inductive WaiterAct where
  | prime
  | signal (state : WalSyncResultState)
  | wait
  | state
  | step (spurious : Bool)
  deriving DecidableEq, Repr

variable {Tid : Type} [DecidableEq Tid]

/-- Take the mutex: `none` while another thread holds it. -/
def SyncLogWaiter.locked_by (w : SyncLogWaiter Tid) (t : Tid) (next panicked : WaiterPc) :
    Option (SyncLogWaiter Tid × WaiterPc) :=
  match w.mu with
  | .free => some ({ w with mu := .held t }, next)
  | .held _ => none
  | .poisoned => some (w, panicked)

/-- `signal`'s store. -/
def SyncLogWaiter.store (w : SyncLogWaiter Tid) (state : WalSyncResultState) : SyncLogWaiter Tid :=
  { w with
    state
    first_result := w.first_result.or (if state.is_terminal then some state else none) }

def SyncLogWaiter.finish_wait (w : SyncLogWaiter Tid) (started : Option WalSyncResultState)
    (result : WaitEnd) : SyncLogWaiter Tid :=
  { w with waits := w.waits ++ [(started, result)] }

/-- One atomic step of `prime`. -/
def prime_step (debug_assertions : Bool) (t : Tid) (w : SyncLogWaiter Tid) :
    PrimePc → Option (SyncLogWaiter Tid × WaiterPc)
  | .load =>
    if w.state = .Primed then some (w, .idle)
    else if debug_assertions ∧ w.state ≠ .Init then some (w, .idle)
    else some (w, .prime .lock)
  | .lock => w.locked_by t (.prime .store) .idle
  | .store => some ({ w with state := .Primed }, .prime .unlock)
  | .unlock => some ({ w with mu := .free }, .idle)

/-- One atomic step of `signal(state)`. -/
def signal_step (t : Tid) (w : SyncLogWaiter Tid) (state : WalSyncResultState) :
    SignalPc → Option (SyncLogWaiter Tid × WaiterPc)
  | .lock => w.locked_by t (.signal state .store) .idle
  | .store => some (w.store state, .signal state .notify)
  | .notify => some ({ w with cv := w.cv.notify_all }, .signal state .unlock)
  | .unlock => some ({ w with mu := .free }, .idle)

/-- One atomic step of `wait`. -/
def wait_step (t : Tid) (spurious : Bool) (w : SyncLogWaiter Tid)
    (started : Option WalSyncResultState) : WaitPc → Option (SyncLogWaiter Tid × WaiterPc)
  | .spin left =>
    if w.state = .Primed then
      match left with
      | left + 1 => some (w, .wait started (.spin left))
      | 0 => some (w, .wait started .lock)
    else
      match w.state.to_result with
      | some result => some (w.finish_wait started (.returned result), .idle)
      | none => some (w.finish_wait started .panicked, .idle)
  | .lock => (w.locked_by t (.wait started .check) .idle)
  | .check => some (w, .wait started (if w.state = .Primed then .wait else .read))
  | .wait => some ({ w with mu := .free, cv := ⟨t :: w.cv.waiting⟩ }, .wait started .sleep)
  | .sleep =>
    if t ∉ w.cv.waiting then some (w, .wait started .relock)
    else if spurious then
      some ({ w with cv := ⟨w.cv.waiting.erase t⟩ }, .wait started .relock)
    else none
  | .relock => w.locked_by t (.wait started .check) .idle
  | .read =>
    some (w, .wait started (.unlock ((w.state.to_result).getD (some .WalError))))
  | .unlock result =>
    some ({ w with mu := .free }.finish_wait started (.returned result), .idle)

/-- One atomic step of a thread. `signal` first asserts that it is not given
`Primed`. -/
def waiter_step (debug_assertions : Bool) (t : Tid) :
    WaiterAct → SyncLogWaiter Tid → WaiterPc → Option (SyncLogWaiter Tid × WaiterPc)
  | .prime, w, .idle => some (w, .prime .load)
  | .signal state, w, .idle =>
    some (w, if state = .Primed then .idle else .signal state .lock)
  | .wait, w, .idle => some (w, .wait w.first_result (.spin 199))
  | .state, w, .idle => some (w, .idle)
  | .step _, w, .prime pc => prime_step debug_assertions t w pc
  | .step _, w, .signal state pc => signal_step t w state pc
  | .step spurious, w, .wait started pc => wait_step t spurious w started pc
  | _, _, _ => none

/-- Any number of threads on one `SyncLogWaiter`. -/
def waiter_system (Tid : Type) [DecidableEq Tid] (debug_assertions : Bool) :
    System Tid WaiterAct (SyncLogWaiter Tid) WaiterPc where
  shared₀ := .default Tid
  local₀ := .idle
  step := waiter_step debug_assertions

abbrev WaiterConfig (Tid : Type) := Config Tid (SyncLogWaiter Tid) WaiterPc

end ordinum.wal
