import Mathlib.Data.List.Defs

namespace ordinum.batch

/-- The address of a heap-allocated `BatchInner`. -/
abbrev BatchPtr := Nat

inductive BatchRuntimeState where
  | Idle
  | Acquired
  | InQueue
  | WaitingSync
  | Applied
  deriving DecidableEq, Repr

namespace BatchRuntimeState

def RESET_SAFE_STATES : List BatchRuntimeState := [.Acquired, .Applied]

def is_reset_safe (self : BatchRuntimeState) : Bool :=
  RESET_SAFE_STATES.contains self

end BatchRuntimeState

end ordinum.batch
