import Ordinum.Hazard.Domain
import Ordinum.Interleaving.History

open interleaving
open interleaving.System

namespace ordinum.hazard

variable {Tid Src Ptr : Type} [DecidableEq Tid] [DecidableEq Src] [DecidableEq Ptr]

/-- Who owns which hazard slots: each array of them has one owner. -/
structure HzdPtrArrays (Tid : Type) where
  hzd_ptr_array : Tid → List RecId
  nodup : ∀ t, (hzd_ptr_array t).Nodup
  exclusive : ∀ t u hzdptr, hzdptr ∈ hzd_ptr_array t → hzdptr ∈ hzd_ptr_array u → t = u

/-- The `ptr` of every record, and the source pointers; `none` is null. -/
structure HazardMemory (Src Ptr : Type) where
  ptr : RecId → Option Ptr
  sources : Src → Option Ptr

/-- `HzdPtrRec::protect`, and `HzdPtrRec::reset` with null. -/
def HazardMemory.set (s : HazardMemory Src Ptr) (hzdptr : RecId) (ptr : Option Ptr) :
    HazardMemory Src Ptr :=
  { s with ptr := Function.update s.ptr hzdptr ptr }

/-- `AtomicPtr::store` to a source. -/
def HazardMemory.store (s : HazardMemory Src Ptr) (src : Src) (value : Option Ptr) :
    HazardMemory Src Ptr :=
  { s with sources := Function.update s.sources src value }

/-- Program points of `protect_ptr`, each before its next access; all but `load` are in
`try_protect_ptr`. -/
inductive ProtectPc (Ptr : Type) where
  | load
  | protect (ptr : Option Ptr)
  | re_check (ptr : Option Ptr)
  | compare (ptr re_check_src : Option Ptr)
  | reset (re_check_src : Option Ptr)
  deriving DecidableEq, Repr

/-- One step of `protect_ptr(src)` on a slot. -/
def protect_step (hzdptr : RecId) (src : Src) (s : HazardMemory Src Ptr) :
    ProtectPc Ptr → HazardMemory Src Ptr × Progress (ProtectPc Ptr) (Option Ptr)
  | .load => (s, .next (.protect (s.sources src)))
  | .protect ptr => (s.set hzdptr ptr, .next (.re_check ptr))
  | .re_check ptr => (s, .next (.compare ptr (s.sources src)))
  | .compare ptr re_check_src =>
    if ptr = re_check_src then (s, .done ptr) else (s, .next (.reset re_check_src))
  | .reset re_check_src => (s.set hzdptr none, .next (.protect re_check_src))

/-- An element of the output, with the slot and the source that it is for. -/
structure Protected (Src Ptr : Type) where
  hzdptr : RecId
  src : Src
  result : Option Ptr
  deriving DecidableEq, Repr

/-- `protect_ptr` is in a call of `protect_all` with the elements that remain, or in one
of `protect` with none. -/
inductive HazardPc (Src Ptr : Type) where
  | idle
  | protect (output : List (Protected Src Ptr)) (hzdptr : RecId) (src : Src)
      (rest : List (RecId × Src)) (pc : ProtectPc Ptr)
  | reset (rest : List RecId)
  deriving DecidableEq, Repr

inductive HazardAct (Src Ptr : Type) where
  | protect (hzdptr : RecId) (src : Src)
  | protect_all (sources : List Src)
  | reset_protection (hzdptr : RecId)
  | reset_all
  | store (src : Src) (value : Option Ptr)
  | step
  deriving DecidableEq, Repr

/-- The next element of `protect_all`. -/
def protect_next (output : List (Protected Src Ptr)) : List (RecId × Src) → HazardPc Src Ptr
  | [] => .idle
  | (hzdptr, src) :: rest => .protect output hzdptr src rest .load

/-- One step of a thread on the slots that it owns. Between its calls it may store to
any source. -/
def hazard_step (arrays : HzdPtrArrays Tid) (t : Tid) : HazardAct Src Ptr →
    HazardMemory Src Ptr → HazardPc Src Ptr → Option (HazardMemory Src Ptr × HazardPc Src Ptr)
  | .protect hzdptr src, s, .idle =>
    if hzdptr ∈ arrays.hzd_ptr_array t then some (s, protect_next [] [(hzdptr, src)]) else none
  | .protect_all sources, s, .idle =>
    if sources.length = (arrays.hzd_ptr_array t).length then
      some (s, protect_next [] ((arrays.hzd_ptr_array t).zip sources))
    else none
  | .reset_protection hzdptr, s, .idle =>
    if hzdptr ∈ arrays.hzd_ptr_array t then some (s, .reset [hzdptr]) else none
  | .reset_all, s, .idle => some (s, .reset (arrays.hzd_ptr_array t))
  | .store src value, s, .idle => some (s.store src value, .idle)
  | .step, s, .protect output hzdptr src rest pc =>
    let (s, progress) := protect_step hzdptr src s pc
    some (s, progress.elim (.protect output hzdptr src rest) fun result =>
      protect_next (output ++ [⟨hzdptr, src, result⟩]) rest)
  | .step, s, .reset (hzdptr :: rest) => some (s.set hzdptr none, .reset rest)
  | .step, s, .reset [] => some (s, .idle)
  | _, _, _ => none

/-- Any number of threads that protect pointers, reset their slots and store to the
sources. -/
def hazard_system (arrays : HzdPtrArrays Tid) (sources : Src → Option Ptr) :
    System Tid (HazardAct Src Ptr) (HazardMemory Src Ptr) (HazardPc Src Ptr) where
  shared₀ := { ptr := fun _ => none, sources }
  local₀ := .idle
  step := hazard_step arrays

/-- The slot that a thread sets in its next step. -/
def HazardPc.sets : HazardPc Src Ptr → Option RecId
  | .protect _ hzdptr _ _ (.protect _) | .protect _ hzdptr _ _ (.reset _) => some hzdptr
  | .reset (hzdptr :: _) => some hzdptr
  | _ => none

/-- The moments since a slot was last set, the latest first, each with what the sources
held. -/
abbrev Moments (Src Ptr : Type) := RecId → List (Src → Option Ptr)

def record_moment :
    Record Tid (HazardAct Src Ptr) (HazardMemory Src Ptr) (HazardPc Src Ptr) (Moments Src Ptr)
      Unit :=
  fun _ _ _ l r since_set _ =>
    (fun hzdptr => if l.sets = some hzdptr then [r.1.sources] else r.1.sources :: since_set hzdptr,
      ())

/-- The system with the moments since each slot was last set. -/
def hazard_history (arrays : HzdPtrArrays Tid) (sources : Src → Option Ptr) :
    System Tid (HazardAct Src Ptr) (HazardMemory Src Ptr × Moments Src Ptr)
      (HazardPc Src Ptr × Unit) :=
  (hazard_system arrays sources).with_history (fun _ => [sources]) () record_moment

end ordinum.hazard
