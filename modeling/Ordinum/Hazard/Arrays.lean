import Ordinum.Hazard.Protect
import Ordinum.Hazard.Steps

open interleaving
open interleaving.System

namespace ordinum.hazard

variable {Tid Src Ptr : Type} [DecidableEq Src] [DecidableEq Ptr]

/-- The records of a domain, the `ptr` of each and the sources. The arrays of hazard
pointers are those that are `held`; `borrowed` (history) are the ones that a call has. -/
structure ArrayMemory (Src Ptr : Type) where
  domain : HazPtrRecs
  hazards : HazardMemory Src Ptr
  borrowed : List (List RecId)

/-- `&mut` of an array that no call has. -/
def ArrayMemory.borrow (s : ArrayMemory Src Ptr) (array : List RecId) :
    Option (ArrayMemory Src Ptr) :=
  if s.domain.held.contains array && !s.borrowed.contains array then
    some { s with borrowed := array :: s.borrowed }
  else none

def ArrayMemory.give_back (s : ArrayMemory Src Ptr) (array : List RecId) : ArrayMemory Src Ptr :=
  { s with borrowed := s.borrowed.erase array }

/-- Program points of a thread: in the domain, in `protect_all` of an array, or in
`reset_protection`, which `drop` calls as well. -/
inductive ArrayPc (Src Ptr : Type) where
  | domain (pc : DomainPc)
  | protect (array : List RecId) (hzdptr : RecId) (src : Src) (rest : List (RecId × Src))
      (pc : ProtectPc Ptr)
  | reset (array rest : List RecId) (drops : Bool)
  deriving DecidableEq, Repr

inductive ArrayAct (Src Ptr : Type) where
  | many_in_domain (N : Nat)
  | protect_all (array : List RecId) (sources : List Src)
  | reset_protection (array : List RecId)
  | drop (array : List RecId)
  | store (src : Src) (value : Option Ptr)
  | step (spurious : Bool)
  deriving DecidableEq, Repr

/-- The next element of `protect_all`, or its return. -/
def protect_all_next (s : ArrayMemory Src Ptr) (array : List RecId) :
    List (RecId × Src) → ArrayMemory Src Ptr × ArrayPc Src Ptr
  | [] => (s.give_back array, .domain .idle)
  | (hzdptr, src) :: rest => (s, .protect array hzdptr src rest .load)

/-- A step of the domain. -/
def ArrayMemory.domain_step (a : DomainAct) (s : ArrayMemory Src Ptr) (pc : DomainPc) :
    Option (ArrayMemory Src Ptr × ArrayPc Src Ptr) :=
  (hazard.domain_step a s.domain pc).map fun r => ({ s with domain := r.1 }, .domain r.2)

/-- One atomic step of a thread. Arrays may go from one thread to another between calls.
`HzdPtr` by itself is left out, as its `drop` is not written yet. -/
def array_step : ArrayAct Src Ptr → ArrayMemory Src Ptr → ArrayPc Src Ptr →
    Option (ArrayMemory Src Ptr × ArrayPc Src Ptr)
  | .many_in_domain N, s, .domain .idle => s.domain_step (.acquire_many N) .idle
  | .protect_all array sources, s, .domain .idle =>
    if sources.length = array.length then
      (s.borrow array).map fun s => protect_all_next s array (array.zip sources)
    else none
  | .reset_protection array, s, .domain .idle =>
    (s.borrow array).map fun s => (s, .reset array array false)
  | .drop array, s, .domain .idle => (s.borrow array).map fun s => (s, .reset array array true)
  | .store src value, s, .domain .idle =>
    some ({ s with hazards := s.hazards.store src value }, .domain .idle)
  | .step spurious, s, .domain pc => s.domain_step (.step spurious) pc
  | .step _, s, .protect array hzdptr src rest pc =>
    let (hazards, progress) := protect_step hzdptr src s.hazards pc
    let s := { s with hazards }
    match progress with
    | .next pc => some (s, .protect array hzdptr src rest pc)
    | .done _ => some (protect_all_next s array rest)
  | .step _, s, .reset array (hzdptr :: rest) drops =>
    some ({ s with hazards := s.hazards.set hzdptr none }, .reset array rest drops)
  | .step _, s, .reset array [] false => some (s.give_back array, .domain .idle)
  | .step _, s, .reset array [] true =>
    (s.give_back array).domain_step (.release_many array) .idle
  | _, _, _ => none

/-- Any number of threads that make arrays of hazard pointers in one domain, protect what
the sources hold with them, drop them, and store to the sources. -/
def array_system (Tid : Type) (sources : Src → Option Ptr) :
    System Tid (ArrayAct Src Ptr) (ArrayMemory Src Ptr) (ArrayPc Src Ptr) where
  shared₀ := { domain := .new, hazards := { ptr := fun _ => none, sources }, borrowed := [] }
  local₀ := .domain .idle
  step := fun _ => array_step

/-- The slot that a thread sets in its next step. -/
def ArrayPc.sets : ArrayPc Src Ptr → Option RecId
  | .protect _ hzdptr _ _ (.protect _) | .protect _ hzdptr _ _ (.reset _) => some hzdptr
  | .reset _ (hzdptr :: _) _ => some hzdptr
  | _ => none

/-- What the next step tells the owner of a slot that it protects: a pointer, with the
source that it was found in, or nothing. -/
def ArrayPc.tells (s : HazardMemory Src Ptr) :
    ArrayPc Src Ptr → Option (RecId × Option (Src × Ptr))
  | .protect _ hzdptr src _ pc =>
    match (protect_step hzdptr src s pc).2 with
    | .done result => some (hzdptr, result.map (Prod.mk src))
    | .next _ => none
  | .reset _ (hzdptr :: _) _ => some (hzdptr, none)
  | _ => none

/-- The moments since each slot was last set, and what its owner was told last. -/
structure ArrayLog (Src Ptr : Type) where
  since_set : Moments Src Ptr
  told : RecId → Option (Src × Ptr)

/-- The log after a step from `s` to `s'`. -/
def ArrayLog.step (log : ArrayLog Src Ptr) (s : ArrayMemory Src Ptr) (l : ArrayPc Src Ptr)
    (s' : ArrayMemory Src Ptr) : ArrayLog Src Ptr where
  since_set := fun hzdptr =>
    if l.sets = some hzdptr then [s'.hazards.sources]
    else s'.hazards.sources :: log.since_set hzdptr
  told :=
    match l.tells s.hazards with
    | some (hzdptr, value) => Function.update log.told hzdptr value
    | none => log.told

def record_array :
    Record Tid (ArrayAct Src Ptr) (ArrayMemory Src Ptr) (ArrayPc Src Ptr) (ArrayLog Src Ptr) Unit :=
  fun _ _ s l r log _ => (log.step s l r.1, ())

def array_history (Tid : Type) (sources : Src → Option Ptr) :
    System Tid (ArrayAct Src Ptr) (ArrayMemory Src Ptr × ArrayLog Src Ptr)
      (ArrayPc Src Ptr × Unit) :=
  (array_system Tid sources).with_history
    { since_set := fun _ => [sources], told := fun _ => none } () record_array

end ordinum.hazard
