import Mathlib.Tactic.Abel
import Ordinum.Db.BatchPool.Pool

open ordinum.batch

namespace ordinum.batch_pool

/-- What is known of a batch that a running call carries: nothing before its
reset, that it was reset, or that the factory has just made it. -/
inductive Carry where
  | used
  | reset
  | fresh
  deriving DecidableEq, Repr

def Carry.Describes : Carry → BatchInner → Prop
  | used, _ => True
  | reset, inner => inner.data = []
  | fresh, inner => inner = .new

/-- What a batch that leaves a call through this source was carried as. -/
def Source.carry : Source → Carry
  | .factory => .fresh
  | _ => .reset

/-- A caller gets a new batch from the factory, an empty one from elsewhere, and
always an acquired one. -/
def HandOut.Described (h : HandOut) : Prop :=
  h.source.carry.Describes h.inner ∧ h.inner.runtime_commit_state = .Acquired

/-- The pool as a ledger: which batches are stored, carried by the running call
of one thread, in the callers' hands and dropped. The capacities, the shards and
the order in the caches do not appear. -/
@[ext] structure Ledger where
  heap : BatchPtr → BatchInner
  allocated : Nat
  stored : Multiset BatchPtr
  carried : Multiset (BatchPtr × Carry)
  handles : Multiset BatchHandle
  dropped : Multiset BatchPtr
  committed : List BatchPtr
  handed_out : List HandOut

namespace Ledger

/-- Every batch in the ledger, as often as it is entered. -/
def entries (k : Ledger) : Multiset BatchPtr :=
  k.stored + k.carried.map Prod.fst + k.handles.map BatchHandle.batch + k.dropped

def set_inner (k : Ledger) (batch : BatchPtr) (inner : BatchInner) : Ledger :=
  { k with heap := Function.update k.heap batch inner }

@[simp] theorem set_inner_heap_self (k : Ledger) (batch : BatchPtr) (inner : BatchInner) :
    (k.set_inner batch inner).heap batch = inner := by
  simp [set_inner]

theorem set_inner_heap_of_ne (k : Ledger) {batch other : BatchPtr} (inner : BatchInner)
    (hne : other ≠ batch) : (k.set_inner batch inner).heap other = k.heap other := by
  simp [set_inner, hne]

def set_runtime_state (k : Ledger) (batch : BatchPtr) (state : BatchRuntimeState) : Ledger :=
  k.set_inner batch ((k.heap batch).set_runtime_state state)

/-- A caller gets the batch. -/
def acquire (k : Ledger) (batch : BatchPtr) (source : Source) : Ledger :=
  let inner := (k.heap batch).set_runtime_state .Acquired
  { k.set_inner batch inner with
    handles := { batch, is_sealed := false } ::ₘ k.handles
    handed_out := k.handed_out ++ [{ batch, source, inner }] }

/-- The transfers that the pool and its callers make. `callers_use` allows the
callers to change the batches they hold. -/
inductive Step (callers_use : Prop) : Ledger → Ledger → Prop where
  | skip (k : Ledger) : Step callers_use k k
  | fetch (k : Ledger) (batch : BatchPtr) :
    Step callers_use { k with stored := batch ::ₘ k.stored }
      { k with carried := (batch, .reset) ::ₘ k.carried }
  | make (k : Ledger) :
    Step callers_use k { k.set_inner k.allocated .new with
      allocated := k.allocated + 1, carried := (k.allocated, .fresh) ::ₘ k.carried }
  | store (k : Ledger) (batch : BatchPtr) :
    Step callers_use { k with carried := (batch, .reset) ::ₘ k.carried }
      { k.set_runtime_state batch .Idle with stored := batch ::ₘ k.stored }
  | discard (k : Ledger) (batch : BatchPtr) (carry : Carry) :
    Step callers_use { k with carried := (batch, carry) ::ₘ k.carried }
      { k with dropped := batch ::ₘ k.dropped }
  | retire (k : Ledger) (batches : Multiset BatchPtr) :
    Step callers_use { k with stored := batches + k.stored }
      { k with dropped := batches + k.dropped }
  | reset (k : Ledger) (batch : BatchPtr) (inner : BatchInner)
      (hreset : (k.heap batch).reset_batch = some inner) :
    Step callers_use { k with carried := (batch, .used) ::ₘ k.carried }
      { k.set_inner batch inner with carried := (batch, .reset) ::ₘ k.carried }
  | hand_out (k : Ledger) (batch : BatchPtr) (source : Source) :
    Step callers_use { k with carried := (batch, source.carry) ::ₘ k.carried }
      (k.acquire batch source)
  | hand_out_stored (k : Ledger) (batch : BatchPtr) :
    Step callers_use { k with stored := batch ::ₘ k.stored } (k.acquire batch .cache)
  | give_back (k : Ledger) (handle : BatchHandle) :
    Step callers_use { k with handles := handle ::ₘ k.handles }
      { k with carried := (handle.batch, .used) ::ₘ k.carried }
  | use (k : Ledger) (handle : BatchHandle) (is_sealed : Bool) (inner : BatchInner)
      (committed : List BatchPtr) (hallowed : callers_use) (hcommitted : k.committed ⊆ committed)
      (hwaiter : inner.sync_waiter = (k.heap handle.batch).sync_waiter ∨
        handle.batch ∈ committed) :
    Step callers_use { k with handles := handle ::ₘ k.handles }
      { k.set_inner handle.batch inner with
        handles := { handle with is_sealed } ::ₘ k.handles, committed }
  | reuse (k : Ledger) (handle : BatchHandle) (inner : BatchInner)
      (hreset : (k.heap handle.batch).reset_batch = some inner) :
    Step callers_use { k with handles := handle ::ₘ k.handles }
      ((k.set_inner handle.batch inner).acquire handle.batch .reset)
  | abandon (k : Ledger) (handle : BatchHandle) :
    Step callers_use { k with handles := handle ::ₘ k.handles }
      { k with dropped := handle.batch ::ₘ k.dropped }

/-- A transfer between two ledgers that are known only up to equality. -/
theorem Step.of_eq {callers_use : Prop} {k k' m m' : Ledger} (h : Step callers_use m m')
    (hk : k = m) (hk' : k' = m') : Step callers_use k k' := by
  rw [hk, hk']
  exact h

variable {callers_use : Prop} {k k' : Ledger}

theorem Step.mono {callers_use' : Prop} (himp : callers_use → callers_use')
    (h : Step callers_use k k') : Step callers_use' k k' := by
  cases h with
  | use _ _ _ _ _ hallowed hcommitted hwaiter =>
    exact .use _ _ _ _ _ (himp hallowed) hcommitted hwaiter
  | skip => exact .skip _
  | fetch => exact .fetch _ _
  | make => exact .make _
  | store => exact .store _ _
  | discard => exact .discard _ _ _
  | retire => exact .retire _ _
  | reset _ _ _ hreset => exact .reset _ _ _ hreset
  | hand_out => exact .hand_out _ _ _
  | hand_out_stored => exact .hand_out_stored _ _
  | give_back => exact .give_back _ _
  | reuse _ _ _ hreset => exact .reuse _ _ _ hreset
  | abandon => exact .abandon _ _

/-- Transfers keep the entries, but for the one the factory makes. -/
theorem Step.entries (h : Step callers_use k k') :
    k'.entries = k.entries ∧ k'.allocated = k.allocated ∨
    k'.entries = k.allocated ::ₘ k.entries ∧ k'.allocated = k.allocated + 1 := by
  cases h with
  | make =>
    right
    refine ⟨?_, rfl⟩
    simp only [Ledger.entries, set_inner, ← Multiset.singleton_add, Multiset.map_add, Multiset.map_singleton]
    abel
  | skip => exact .inl ⟨rfl, rfl⟩
  | _ =>
    left
    refine ⟨?_, rfl⟩
    simp only [Ledger.entries, set_inner, set_runtime_state, acquire, Multiset.map_add,
      Multiset.map_singleton, ← Multiset.singleton_add]
    try abel

/-- A transfer changes no batch outside the ledger. -/
theorem Step.frame (h : Step callers_use k k') {batch : BatchPtr} (hout : batch ∉ k'.entries) :
    k'.heap batch = k.heap batch := by
  have hne : ∀ touched, touched ∈ k'.entries → batch ≠ touched := by
    rintro touched hmem rfl
    exact hout hmem
  cases h with
  | make | store | reset | hand_out | hand_out_stored | use | reuse =>
    simp only [set_inner, set_runtime_state, acquire]
    repeat rw [Function.update_of_ne (hne _ (by simp [Ledger.entries, set_inner, acquire]))]
  | _ => rfl

/-- Stored batches are idle and empty, and the tags of the carried ones are
right. -/
structure Clean (k : Ledger) : Prop where
  stored : ∀ batch ∈ k.stored, (k.heap batch).runtime_commit_state = .Idle ∧
    (k.heap batch).data = []
  carried : ∀ batch carry, (batch, carry) ∈ k.carried → carry.Describes (k.heap batch)

/-- In a ledger with every batch entered once, no batch is in two columns, or
twice in one. -/
structure Apart (k : Ledger) : Prop where
  stored_carried : ∀ batch ∈ k.stored, ∀ carry, (batch, carry) ∉ k.carried
  stored_handles : ∀ batch ∈ k.stored, ∀ h ∈ k.handles, h.batch ≠ batch
  carried_handles : ∀ batch carry, (batch, carry) ∈ k.carried → ∀ h ∈ k.handles, h.batch ≠ batch
  carried : (k.carried.map Prod.fst).Nodup
  handles : (k.handles.map BatchHandle.batch).Nodup

theorem apart_of_nodup (hnodup : k.entries.Nodup) : k.Apart := by
  simp only [Ledger.entries, Multiset.nodup_add, Multiset.disjoint_left, Multiset.mem_add,
    Multiset.mem_map] at hnodup
  obtain ⟨⟨⟨-, hcarried, hstored⟩, hhandles, hheld⟩, -⟩ := hnodup
  refine ⟨fun batch hmem carry hc => hstored hmem ⟨_, hc, rfl⟩, ?_, ?_, hcarried, hhandles⟩
  · rintro batch hmem h hh rfl
    exact hheld (.inl hmem) ⟨h, hh, rfl⟩
  · rintro batch carry hc h hh rfl
    exact hheld (.inr ⟨_, hc, rfl⟩) ⟨h, hh, rfl⟩

/-- Only `batch` changes: what is known of the others stays true. -/
theorem Clean.set_inner (hk : k.Clean) {batch : BatchPtr} {inner : BatchInner}
    (hstored : batch ∈ k.stored → inner.runtime_commit_state = .Idle ∧ inner.data = [])
    (hcarried : ∀ carry, (batch, carry) ∈ k.carried → carry.Describes inner) :
    (k.set_inner batch inner).Clean := by
  constructor
  · intro other hother
    by_cases hb : other = batch
    · subst hb
      rw [set_inner_heap_self]
      exact hstored hother
    · rw [set_inner_heap_of_ne k inner hb]
      exact hk.stored other hother
  · intro other carry hother
    by_cases hb : other = batch
    · subst hb
      rw [set_inner_heap_self]
      exact hcarried carry hother
    · rw [set_inner_heap_of_ne k inner hb]
      exact hk.carried other carry hother

/-- Fewer entries over the same batches. -/
theorem Clean.subset {m : Ledger} (hm : m.Clean) (hheap : k.heap = m.heap)
    (hstored : k.stored ⊆ m.stored) (hcarried : k.carried ⊆ m.carried) : k.Clean := by
  constructor
  · intro batch hmem
    rw [hheap]
    exact hm.stored batch (hstored hmem)
  · intro batch carry hmem
    rw [hheap]
    exact hm.carried batch carry (hcarried hmem)

theorem Clean.carry (hk : k.Clean) (x : BatchPtr × Carry) (h : x.2.Describes (k.heap x.1)) :
    Clean { k with carried := x ::ₘ k.carried } := by
  refine ⟨hk.stored, ?_⟩
  intro b c hb
  obtain heq | hb := Multiset.mem_cons.mp hb
  · cases heq
    exact h
  · exact hk.carried b c hb

/-- A batch that a caller holds may change at will. -/
theorem Clean.set_held (hk : k.Clean) {batch : BatchPtr} (inner : BatchInner)
    (hheld : ∃ h ∈ k'.handles, h.batch = batch) (hapart : k'.Apart)
    (hstored : k'.stored = k.stored) (hcarried : k'.carried = k.carried) :
    (k.set_inner batch inner).Clean := by
  obtain ⟨h, hh, rfl⟩ := hheld
  apply hk.set_inner
  · exact fun hmem => absurd rfl (hapart.stored_handles h.batch (hstored ▸ hmem) h hh)
  · exact fun carry hmem => absurd rfl
      (hapart.carried_handles h.batch carry (hcarried ▸ hmem) h hh)

theorem Clean.step (hk : k.Clean) (h : Step callers_use k k') (hnodup : k'.entries.Nodup) :
    k'.Clean := by
  have hapart := apart_of_nodup hnodup
  cases h with
  | skip => exact hk
  | fetch k batch =>
    have hrest : k.Clean := hk.subset rfl (Multiset.subset_cons _ _) (Multiset.Subset.refl _)
    exact hrest.carry (batch, .reset) (hk.stored batch (Multiset.mem_cons_self _ _)).2
  | make k =>
    have hout : k.allocated ∉ k.carried.map Prod.fst := by
      have hnot := hapart.carried
      rw [Multiset.map_cons, Multiset.nodup_cons] at hnot
      exact hnot.1
    have hrest : (k.set_inner k.allocated .new).Clean := by
      apply hk.set_inner
      · exact fun hmem => absurd (Multiset.mem_cons_self _ _) (hapart.stored_carried _ hmem .fresh)
      · exact fun carry hmem => absurd (Multiset.mem_map_of_mem Prod.fst hmem) hout
    have hcarry := hrest.carry (k.allocated, .fresh) (set_inner_heap_self ..)
    exact ⟨hcarry.stored, hcarry.carried⟩
  | store k batch =>
    have hempty : (k.heap batch).data = [] := hk.carried batch .reset (Multiset.mem_cons_self _ _)
    have hrest : k.Clean := hk.subset rfl (Multiset.Subset.refl _) (Multiset.subset_cons _ _)
    have hidle : (k.set_runtime_state batch .Idle).Clean := by
      apply hrest.set_inner
      · exact fun _ => ⟨rfl, hempty⟩
      · exact fun carry hmem =>
          absurd hmem (hapart.stored_carried batch (Multiset.mem_cons_self _ _) carry)
    refine ⟨?_, hidle.carried⟩
    intro b hb
    obtain rfl | hb := Multiset.mem_cons.mp hb
    · simp [set_runtime_state, Ledger.set_inner, hempty, BatchInner.set_runtime_state]
    · exact hidle.stored b hb
  | discard k batch carry =>
    exact hk.subset rfl (Multiset.Subset.refl _) (Multiset.subset_cons _ _)
  | retire k batches =>
    exact hk.subset rfl (Multiset.subset_of_le (Multiset.le_add_left _ _)) (Multiset.Subset.refl _)
  | reset k batch inner hreset =>
    have hout : batch ∉ k.carried.map Prod.fst := by
      have hnot := hapart.carried
      rw [Multiset.map_cons, Multiset.nodup_cons] at hnot
      exact hnot.1
    have hrest : k.Clean := hk.subset rfl (Multiset.Subset.refl _) (Multiset.subset_cons _ _)
    have hclean : (k.set_inner batch inner).Clean := by
      apply hrest.set_inner
      · exact fun hmem => absurd (Multiset.mem_cons_self _ _) (hapart.stored_carried _ hmem .reset)
      · exact fun carry hmem => absurd (Multiset.mem_map_of_mem Prod.fst hmem) hout
    exact hclean.carry (batch, .reset) (by
      simp [Ledger.set_inner, Carry.Describes, BatchInner.reset_batch_spec hreset])
  | hand_out k batch source =>
    have hrest : k.Clean := hk.subset rfl (Multiset.Subset.refl _) (Multiset.subset_cons _ _)
    exact (hrest.set_held _ ⟨_, Multiset.mem_cons_self _ _, rfl⟩ hapart rfl rfl).subset rfl
      (Multiset.Subset.refl _) (Multiset.Subset.refl _)
  | hand_out_stored k batch =>
    have hrest : k.Clean := hk.subset rfl (Multiset.subset_cons _ _) (Multiset.Subset.refl _)
    exact (hrest.set_held _ ⟨_, Multiset.mem_cons_self _ _, rfl⟩ hapart rfl rfl).subset rfl
      (Multiset.Subset.refl _) (Multiset.Subset.refl _)
  | give_back k handle =>
    have hrest : k.Clean := hk.subset rfl (Multiset.Subset.refl _) (Multiset.Subset.refl _)
    exact (hrest.carry (handle.batch, .used) trivial).subset rfl (Multiset.Subset.refl _)
      (Multiset.Subset.refl _)
  | use k handle is_sealed inner committed =>
    have hrest : k.Clean := hk.subset rfl (Multiset.Subset.refl _) (Multiset.Subset.refl _)
    exact (hrest.set_held inner ⟨{ handle with is_sealed }, Multiset.mem_cons_self _ _, rfl⟩ hapart
      rfl rfl).subset rfl (Multiset.Subset.refl _) (Multiset.Subset.refl _)
  | reuse k handle inner hreset =>
    have hrest : k.Clean := hk.subset rfl (Multiset.Subset.refl _) (Multiset.Subset.refl _)
    have hmem : ∃ h ∈ { batch := handle.batch, is_sealed := false } ::ₘ k.handles,
        h.batch = handle.batch := ⟨_, Multiset.mem_cons_self _ _, rfl⟩
    have hheld := hrest.set_held inner hmem hapart rfl rfl
    exact (hheld.set_held _ hmem hapart rfl rfl).subset rfl (Multiset.Subset.refl _)
      (Multiset.Subset.refl _)
  | abandon k handle =>
    exact hk.subset rfl (Multiset.Subset.refl _) (Multiset.Subset.refl _)

/-- Every hand-out is as its source says. -/
theorem Step.handed_out (h : Step callers_use k k') (hk : k.Clean)
    (hall : ∀ h ∈ k.handed_out, h.Described) : ∀ h ∈ k'.handed_out, h.Described := by
  have hone : ∀ (m : Ledger) (batch : BatchPtr) (source : Source),
      m.handed_out = k.handed_out → source.carry.Describes
        ((m.heap batch).set_runtime_state .Acquired) →
      ∀ h ∈ (m.acquire batch source).handed_out, h.Described := by
    intro m batch source hsame hdescribes h hmem
    obtain hmem | hmem := List.mem_append.mp hmem
    · exact hall h (hsame ▸ hmem)
    · rw [List.mem_singleton.mp hmem]
      exact ⟨hdescribes, rfl⟩
  cases h with
  | hand_out k batch source =>
    apply hone k batch source rfl
    have hcarried := hk.carried batch source.carry (Multiset.mem_cons_self _ _)
    cases hsource : source.carry with
    | used => trivial
    | reset => rwa [hsource] at hcarried
    | fresh =>
      rw [hsource] at hcarried
      change (k.heap batch).set_runtime_state .Acquired = .new
      rw [show k.heap batch = .new from hcarried]
      rfl
  | hand_out_stored k batch =>
    exact hone k batch .cache rfl (hk.stored batch (Multiset.mem_cons_self _ _)).2
  | reuse k handle inner hreset =>
    apply hone (k.set_inner handle.batch inner) handle.batch .reset rfl
    simp [Ledger.set_inner, Source.carry, Carry.Describes, BatchInner.set_runtime_state,
      BatchInner.reset_batch_spec hreset]
  | _ => exact hall

/-- `Q` holds of every batch in a caller's hands. -/
def Held (k : Ledger) (Q : BatchPtr → BatchInner → Prop) : Prop :=
  ∀ h ∈ k.handles, Q h.batch (k.heap h.batch)

section held

variable {Q : BatchPtr → BatchInner → Prop}

/-- Changing a batch that is not in hand. -/
theorem Held.set_inner (hall : k.Held Q) {batch : BatchPtr}
    (hne : ∀ h ∈ k.handles, h.batch ≠ batch) (inner : BatchInner) :
    (k.set_inner batch inner).Held Q := by
  intro h hh
  rw [set_inner_heap_of_ne k inner (hne h hh)]
  exact hall h hh

/-- Handing out another batch. -/
theorem Held.acquire (hall : k.Held Q) {batch : BatchPtr} {source : Source}
    (hapart : (k.acquire batch source).Apart)
    (hQ : Q batch ((k.heap batch).set_runtime_state .Acquired)) :
    (k.acquire batch source).Held Q := by
  have hne := hapart.handles
  rw [Ledger.acquire, Multiset.map_cons, Multiset.nodup_cons, Multiset.mem_map] at hne
  intro h hh
  obtain rfl | hh := Multiset.mem_cons.mp hh
  · change Q batch ((k.set_inner batch _).heap batch)
    rw [set_inner_heap_self]
    exact hQ
  · exact hall.set_inner (fun h hh heq => hne.1 ⟨h, hh, heq⟩) _ h hh

theorem Held.tail {m : Ledger} {handle : BatchHandle} (hall : m.Held Q) (hheap : k.heap = m.heap)
    (hhandles : m.handles = handle ::ₘ k.handles) : k.Held Q := by
  intro h hh
  rw [hheap]
  exact hall h (by rw [hhandles]; exact Multiset.mem_cons_of_mem hh)

/-- What holds of the batches in hand still does after a transfer, if it holds of
the batch that is handed out and of the one that is used. -/
theorem Step.held (h : Step callers_use k k') (hnodup : k'.entries.Nodup) (hall : k.Held Q)
    (hget : ∀ o, k'.handed_out = k.handed_out ++ [o] → Q o.batch o.inner)
    (huse : callers_use → ∀ batch inner, Q batch (k.heap batch) →
      inner.sync_waiter = (k.heap batch).sync_waiter ∨ batch ∈ k'.committed → Q batch inner) :
    k'.Held Q := by
  have hapart := apart_of_nodup hnodup
  cases h with
  | make k =>
    have hne := hapart.carried_handles _ .fresh (Multiset.mem_cons_self _ _)
    exact Held.set_inner (k := k) hall hne _
  | store k batch =>
    have hne := hapart.stored_handles batch (Multiset.mem_cons_self _ _)
    exact Held.set_inner (k := k) hall hne _
  | reset k batch inner =>
    have hne := hapart.carried_handles batch .reset (Multiset.mem_cons_self _ _)
    exact Held.set_inner (k := k) hall hne inner
  | hand_out k batch source => exact Held.acquire (k := k) hall hapart (hget _ rfl)
  | hand_out_stored k batch => exact Held.acquire (k := k) hall hapart (hget _ rfl)
  | give_back k handle => exact hall.tail rfl rfl
  | use k handle is_sealed inner committed hallowed _ hwaiter =>
    have hne := hapart.handles
    rw [Multiset.map_cons, Multiset.nodup_cons, Multiset.mem_map] at hne
    have hrest : (k.set_inner handle.batch inner).Held Q :=
      Held.set_inner (k := k) (hall.tail rfl rfl) (fun h hh heq => hne.1 ⟨h, hh, heq⟩) inner
    intro h hh
    obtain rfl | hh := Multiset.mem_cons.mp hh
    · change Q handle.batch ((k.set_inner handle.batch inner).heap handle.batch)
      rw [set_inner_heap_self]
      exact huse hallowed _ _ (hall handle (Multiset.mem_cons_self _ _)) hwaiter
    · exact hrest h hh
  | reuse k handle inner =>
    have hne := hapart.handles
    rw [acquire, Multiset.map_cons, Multiset.nodup_cons, Multiset.mem_map] at hne
    have hrest : (k.set_inner handle.batch inner).Held Q :=
      Held.set_inner (k := k) (hall.tail rfl rfl) (fun h hh heq => hne.1 ⟨h, hh, heq⟩) inner
    exact hrest.acquire hapart (hget _ rfl)
  | abandon k handle => exact hall.tail rfl rfl
  | _ => exact hall

end held

/-- Hand-outs are not forgotten. -/
theorem Step.handed_out_subset (h : Step callers_use k k') : k.handed_out ⊆ k'.handed_out := by
  cases h with
  | hand_out | hand_out_stored | reuse => exact List.subset_append_left _ _
  | _ => exact List.Subset.refl _

theorem Step.committed (h : Step callers_use k k') : k.committed ⊆ k'.committed := by
  cases h with
  | use _ _ _ _ _ _ hcommitted => exact hcommitted
  | _ => exact List.Subset.refl _

/-- While the callers leave their batches as they are, these stay acquired. -/
theorem Step.acquired (h : Step False k k') (hnodup : k'.entries.Nodup)
    (hdescribed : ∀ o ∈ k'.handed_out, o.Described)
    (hall : k.Held fun _ inner => inner.runtime_commit_state = .Acquired) :
    k'.Held fun _ inner => inner.runtime_commit_state = .Acquired := by
  refine h.held hnodup hall ?_ False.elim
  intro o ho
  exact (hdescribed o (by rw [ho]; simp)).2

/-- A batch in hand whose waiter is not in its first state was committed. -/
def Unsignalled (k : Ledger) : Prop :=
  k.Held fun batch inner => inner.sync_waiter ≠ .Init → batch ∈ k.committed

/-- As long as all batches come from the factory, a waiter is signalled by a
commit only. -/
theorem Step.unsignalled (h : Step callers_use k k') (hnodup : k'.entries.Nodup)
    (hdescribed : ∀ o ∈ k'.handed_out, o.Described)
    (hfactory : ∀ o ∈ k'.handed_out, o.source = .factory) (hall : k.Unsignalled) :
    k'.Unsignalled := by
  have hmono : k.Held fun batch inner => inner.sync_waiter ≠ .Init → batch ∈ k'.committed :=
    fun o ho hne => h.committed (hall o ho hne)
  refine h.held hnodup hmono ?_ ?_
  · intro o ho hne
    have hmem : o ∈ k'.handed_out := by
      rw [ho]
      simp
    have hnew := (hdescribed o hmem).1
    rw [hfactory o hmem] at hnew
    exact absurd (by rw [show o.inner = .new from hnew]; rfl) hne
  · rintro - batch inner hQ (hsame | hcommit) hne
    · exact hQ (hsame ▸ hne)
    · exact hcommit

end Ledger

end ordinum.batch_pool
