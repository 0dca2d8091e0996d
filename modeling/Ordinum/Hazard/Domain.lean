import Ordinum.Interleaving.Sync
import Ordinum.Interleaving.System

open interleaving

namespace ordinum.hazard

/-- A record is told by its place in the order of creation; records are not
freed. -/
abbrev RecId := Nat

/-- A `*mut HzdPtrRec` whose lowest bit is `LOCK_BIT`. -/
structure TaggedPtr where
  ptr : Option RecId
  locked : Bool
  deriving DecidableEq, Repr

def TaggedPtr.null : TaggedPtr := ⟨none, false⟩

/-- `HazPtrRecs` and the fields of its records. The remaining fields are history:
the number of records created, the arrays that `acquire_many` returned and
nobody has given back, and how often a tagged pointer was dereferenced. -/
structure HazPtrRecs where
  head : Option RecId
  avail_head : TaggedPtr
  count : Nat
  next : RecId → Option RecId
  available : RecId → Option RecId
  created : Nat
  held : List (List RecId)
  tagged_derefs : Nat

def HazPtrRecs.new : HazPtrRecs :=
  { head := none
    avail_head := .null
    count := 0
    next := fun _ => none
    available := fun _ => none
    created := 0
    held := []
    tagged_derefs := 0 }

namespace HazPtrRecs

/-- `available.store(value)` on the record that `tail` points to, if any. -/
def store_available (s : HazPtrRecs) (tail value : Option RecId) : HazPtrRecs :=
  match tail with
  | some tail => { s with available := Function.update s.available tail value }
  | none => s

/-- `Box::into_raw(Box::new(HzdPtrRec { .. }))`. -/
def new_rec (s : HazPtrRecs) : HazPtrRecs :=
  { s with
    created := s.created + 1
    next := Function.update s.next s.created none
    available := Function.update s.available s.created none }

end HazPtrRecs

/-- Program points of `acquire_many`, each before its next access. `first` and
`walk` are in `try_acquire_available_locked`: `walked` are the `n` records from
`stolen_head` up to `tail`. `taken` is the array so far, whose last record is the
caller's `tail`; `rest` (history) are the stolen records that it has not met.
From `new_rec` to `count` it is in `acquire_new_rec`. -/
inductive AcquirePc where
  | load_avail
  | fetch_or (avail_head : TaggedPtr)
  | first (stolen_head : TaggedPtr)
  | walk (walked : List RecId) (next : Option RecId)
  | null_tail (walked : List RecId)
  | collect (head : Option RecId) (rest taken : List RecId)
  | new_rec (taken : List RecId)
  | link (rec : RecId) (head : Option RecId) (taken : List RecId)
  | count (rec : RecId) (taken : List RecId)
  | chain (rec : RecId) (taken : List RecId)
  deriving DecidableEq, Repr

/-- After a dereference of a tagged pointer nothing is known of the thread. -/
inductive AcquireResult where
  | records (records : List RecId)
  | undefined
  deriving DecidableEq, Repr

/-- One atomic step of `acquire_many::<N>`. -/
def acquire_step (N : Nat) (spurious : Bool) (s : HazPtrRecs) :
    AcquirePc → HazPtrRecs × Progress AcquirePc AcquireResult
  | .load_avail =>
    if s.avail_head = .null then (s, .next (.collect none [] []))
    else (s, .next (.fetch_or s.avail_head))
  | .fetch_or avail_head =>
    -- what is passed on is the pointer loaded before, not the one that was locked
    ({ s with avail_head := { s.avail_head with locked := true } },
      .next (if s.avail_head.locked then .load_avail else .first avail_head))
  | .first stolen_head =>
    match stolen_head with
    | ⟨some tail, false⟩ => (s, .next (.walk [tail] (s.available tail)))
    | _ => ({ s with tagged_derefs := s.tagged_derefs + 1 }, .done .undefined)
  | .walk walked (some next) =>
    if walked.length < N then (s, .next (.walk (walked ++ [next]) (s.available next)))
    else ({ s with avail_head := ⟨some next, false⟩ }, .next (.null_tail walked))
  | .walk walked none => ({ s with avail_head := .null }, .next (.null_tail walked))
  | .null_tail walked =>
    (s.store_available walked.getLast? none, .next (.collect walked.head? walked []))
  | .collect head rest taken =>
    if taken.length = N then ({ s with held := taken :: s.held }, .done (.records taken))
    else
      match head with
      | some hzd_rec => (s, .next (.collect (s.available hzd_rec) rest.tail (taken ++ [hzd_rec])))
      | none => (s, .next (.new_rec taken))
  | .new_rec taken => (s.new_rec, .next (.link s.created s.head taken))
  | .link rec head taken =>
    let s := { s with next := Function.update s.next rec head }
    if s.head = head ∧ spurious = false then
      ({ s with head := some rec }, .next (.count rec taken))
    else (s, .next (.link rec s.head taken))
  | .count rec taken => ({ s with count := s.count + 1 }, .next (.chain rec taken))
  | .chain rec taken =>
    (s.store_available taken.getLast? (some rec), .next (.collect none [] (taken ++ [rec])))

/-- Program points of `release_many`; from `load` on it is in `push_available`. -/
inductive ReleasePc where
  | check
  | load
  | link (avail : Option RecId)
  | exchange (avail : Option RecId)
  deriving DecidableEq, Repr

inductive ReleaseResult where
  | released
  | panicked
  deriving DecidableEq, Repr

/-- One atomic step of `release_many(records)`, whose `head` and `tail` are the
first and the last of the records. The exchange does not fail without reason. -/
def release_step (records : List RecId) (s : HazPtrRecs) :
    ReleasePc → HazPtrRecs × Progress ReleasePc ReleaseResult
  | .check =>
    match records.getLast? with
    | some tail => (s, if s.available tail = none then .next .load else .done .panicked)
    | none => (s, .done .panicked)
  | .load => (s, .next (if s.avail_head.locked then .load else .link s.avail_head.ptr))
  | .link avail => (s.store_available records.getLast? avail, .next (.exchange avail))
  | .exchange avail =>
    if s.avail_head = ⟨avail, false⟩ then
      ({ s with avail_head := ⟨records.head?, false⟩ }, .done .released)
    else (s, .next .load)

inductive DomainPc where
  | idle
  | acquire (N : Nat) (pc : AcquirePc)
  | release (records : List RecId) (pc : ReleasePc)
  | panicked (records : List RecId)
  | undefined
  deriving DecidableEq, Repr

inductive DomainAct where
  | acquire_many (N : Nat)
  | release_many (records : List RecId)
  | step (spurious : Bool)
  deriving DecidableEq, Repr

/-- One atomic step of a thread. `release_many` is called when a `HzdPtrArray` is
dropped, by any thread, with the array that `acquire_many` returned. -/
def domain_step : DomainAct → HazPtrRecs → DomainPc → Option (HazPtrRecs × DomainPc)
  | .acquire_many N, s, .idle => if 1 ≤ N then some (s, .acquire N .load_avail) else none
  | .release_many records, s, .idle =>
    if records ∈ s.held then
      some ({ s with held := s.held.erase records }, .release records .check)
    else none
  | .step spurious, s, .acquire N pc =>
    let (s, progress) := acquire_step N spurious s pc
    some (s, progress.elim (.acquire N) fun
      | .records _ => .idle
      | .undefined => .undefined)
  | .step _, s, .release records pc =>
    let (s, progress) := release_step records s pc
    some (s, progress.elim (.release records) fun
      | .released => .idle
      | .panicked => .panicked records)
  | _, _, _ => none

/-- Any number of threads that acquire records from one domain and release them. -/
def domain_system (Tid : Type) : System Tid DomainAct HazPtrRecs DomainPc where
  shared₀ := .new
  local₀ := .idle
  step := fun _ => domain_step

abbrev DomainConfig (Tid : Type) := Config Tid HazPtrRecs DomainPc

end ordinum.hazard
