import Mathlib.Data.List.Nodup
import Ordinum.Db.WritePipeline.QueueInvariant

open interleaving
open ordinum.batch

namespace ordinum.write_pipeline

variable {Tid : Type} {N : Nat}

/-- The claim of a `try_dequeue` that has yet to clear its slot. -/
def QueuePc.pending : QueuePc → Option (Nat × BatchPtr)
  | .dequeue (.clear position _ batch) => some (position, batch)
  | _ => none

/-- A step makes a claim at the end of the claims, completes one, or leaves the
claims alone. -/
theorem QueueMove.pending_cases {t : Tid} {a : QueueAct Tid} {s s' : QueueShared Tid}
    {pc pc' : QueuePc} (hmove : QueueMove N t s a pc s' pc') :
    (s'.queue.returned = s.queue.returned ∧ s'.queue.claimed = s.queue.claimed ∧
      pc'.pending = none) ∨
    (∃ batch applied, s'.queue.returned = s.queue.returned ∧
      s'.queue.claimed = s.queue.claimed ++ [(batch, applied)] ∧
      pc'.pending = some (s.queue.claimed.length, batch)) ∨
    (∃ claim, pc.pending = some claim ∧ pc'.pending = none ∧
      s'.queue.returned = s.queue.returned ++ [claim] ∧ s'.queue.claimed = s.queue.claimed) := by
  cases hmove with
  | claim => exact .inr (.inl ⟨_, _, rfl, rfl, rfl⟩)
  | clear => exact .inr (.inr ⟨_, rfl, rfl, rfl, rfl⟩)
  | semaphore _ _ hpc' =>
    refine .inl ⟨rfl, rfl, ?_⟩
    rename QueuePc => pc'
    cases pc' <;> trivial
  | _ => exact .inl ⟨rfl, rfl, rfl⟩

/-- The batch claimed at a queue position. -/
def BatchQueue.claimed_at (q : BatchQueue) (position : Nat) : Option BatchPtr :=
  q.claimed[position]?.map Prod.fst

theorem BatchQueue.claimed_at_lt {q : BatchQueue} {position : Nat} {batch : BatchPtr}
    (hat : q.claimed_at position = some batch) : position < q.claimed.length := by
  obtain ⟨e, he, -⟩ := Option.map_eq_some_iff.mp hat
  exact (List.getElem?_eq_some_iff.mp he).1

theorem BatchQueue.claimed_at_append {q q' : BatchQueue} {position : Nat} {batch : BatchPtr}
    {tail : List (BatchPtr × Bool)} (hclaimed : q'.claimed = q.claimed ++ tail)
    (hat : q.claimed_at position = some batch) : q'.claimed_at position = some batch := by
  have hlt := BatchQueue.claimed_at_lt hat
  rw [claimed_at, hclaimed, List.getElem?_append_left hlt]
  exact hat

/-- Every return is of a claim, and no claim is returned twice. -/
structure ReturnsMatch (q : BatchQueue) : Prop where
  positions : (q.returned.map Prod.fst).Nodup
  claimed : ∀ e ∈ q.returned, q.claimed_at e.1 = some e.2

/-- A pending claim is one of the claims and was not returned yet. -/
def PendingAt (q : BatchQueue) (pc : QueuePc) : Prop :=
  ∀ claim, pc.pending = some claim →
    q.claimed_at claim.1 = some claim.2 ∧ claim.1 ∉ q.returned.map Prod.fst

def claims_outline : System.Outline Tid (QueueShared Tid) QueueThread where
  shared := fun s => ReturnsMatch s.queue
  thread := fun _ s l => PendingAt s.queue l.pc
  apart := fun l m => ∀ claim claim', l.pc.pending = some claim → m.pc.pending = some claim' →
    claim.1 ≠ claim'.1

theorem PendingAt.of_none {q : BatchQueue} {pc : QueuePc} (hnone : pc.pending = none) :
    PendingAt q pc := by
  intro claim hclaim
  rw [hnone] at hclaim
  cases hclaim

/-- A step keeps the returns matched and knows its own claim. -/
theorem QueueMove.own_claims {t : Tid} {a : QueueAct Tid} {s s' : QueueShared Tid}
    {pc pc' : QueuePc} (hmove : QueueMove N t s a pc s' pc') (hs : ReturnsMatch s.queue)
    (hpc : PendingAt s.queue pc) : ReturnsMatch s'.queue ∧ PendingAt s'.queue pc' := by
  rcases hmove.pending_cases with ⟨hreturned, hclaimed, hnone⟩ |
    ⟨batch, applied, hreturned, hclaimed, hnew⟩ | ⟨claim, hold, hnone, hreturned, hclaimed⟩
  · refine ⟨⟨hreturned ▸ hs.positions, ?_⟩, .of_none hnone⟩
    intro e he
    rw [hreturned] at he
    rw [BatchQueue.claimed_at, hclaimed]
    exact hs.claimed e he
  · refine ⟨⟨hreturned ▸ hs.positions, ?_⟩, ?_⟩
    · intro e he
      rw [hreturned] at he
      exact BatchQueue.claimed_at_append hclaimed (hs.claimed e he)
    · intro claim hclaim
      obtain rfl := Option.some.inj (hnew.symm.trans hclaim)
      refine ⟨?_, ?_⟩
      · simp [BatchQueue.claimed_at, hclaimed]
      · rw [hreturned]
        intro hmem
        obtain ⟨e, he, heq⟩ := List.mem_map.mp hmem
        have hlt := BatchQueue.claimed_at_lt (hs.claimed e he)
        omega
  · obtain ⟨hat, hnew⟩ := hpc claim hold
    refine ⟨⟨?_, ?_⟩, .of_none hnone⟩
    · rw [hreturned, List.map_append, List.map_singleton]
      exact hs.positions.append (List.nodup_singleton _) (by simpa using hnew)
    · intro e he
      rw [hreturned, List.mem_append, List.mem_singleton] at he
      rw [BatchQueue.claimed_at, hclaimed]
      obtain he | rfl := he
      · exact hs.claimed e he
      · exact hat

/-- A step leaves the claim of another thread alone. -/
theorem QueueMove.other_claims {t : Tid} {a : QueueAct Tid} {s s' : QueueShared Tid}
    {pc pc' pcu : QueuePc} (hmove : QueueMove N t s a pc s' pc') (hu : PendingAt s.queue pcu)
    (hapart : ∀ claim claim', pc.pending = some claim → pcu.pending = some claim' →
      claim.1 ≠ claim'.1) :
    PendingAt s'.queue pcu ∧ ∀ claim claim', pc'.pending = some claim →
      pcu.pending = some claim' → claim.1 ≠ claim'.1 := by
  rcases hmove.pending_cases with ⟨hreturned, hclaimed, hnone⟩ |
    ⟨batch, applied, hreturned, hclaimed, hnew⟩ | ⟨claim, hold, hnone, hreturned, hclaimed⟩
  · refine ⟨?_, fun claim claim' h => by rw [hnone] at h; cases h⟩
    intro claim hclaim
    rw [BatchQueue.claimed_at, hclaimed, hreturned]
    exact hu claim hclaim
  · refine ⟨?_, ?_⟩
    · intro claim hclaim
      obtain ⟨hat, hnot⟩ := hu claim hclaim
      rw [hreturned]
      exact ⟨BatchQueue.claimed_at_append hclaimed hat, hnot⟩
    · intro claim claim' h h'
      obtain rfl := Option.some.inj (hnew.symm.trans h)
      exact (BatchQueue.claimed_at_lt (hu claim' h').1).ne'
  · refine ⟨?_, fun claim claim' h => by rw [hnone] at h; cases h⟩
    intro claim' hclaim'
    obtain ⟨hat, hnot⟩ := hu claim' hclaim'
    have hne := hapart claim claim' hold hclaim'
    rw [BatchQueue.claimed_at, hclaimed, hreturned, List.map_append, List.mem_append]
    refine ⟨hat, ?_⟩
    rintro (hmem | hmem)
    · exact hnot hmem
    · exact hne (List.mem_singleton.mp hmem).symm

theorem claims_outline_valid [DecidableEq Tid] {G : QueueCondition Tid} :
    System.Outline.trivial.ValidOver claims_outline (queue_system Tid N) G where
  init_shared := ⟨List.nodup_nil, fun e he => by cases he⟩
  init_thread := fun _ => .of_none rfl
  init_apart := fun _ _ h => by cases h
  step_own := by
    intro t a s l r _ _ hs hl _ hstep
    exact (queue_step_move hstep).own_claims hs hl
  step_other := by
    intro t u a s l m r _ _ hpair _ hstep
    obtain ⟨hother, hapart⟩ := (queue_step_move hstep).other_claims hpair.other hpair.apart
    exact ⟨hother, hapart, fun claim claim' h h' => (hapart claim' claim h' h).symm⟩

/-- In every run the returns match the claims. -/
theorem claims_outline_holds [DecidableEq Tid] {G : QueueCondition Tid}
    {c : QueueConfig Tid}
    (hc : (queue_system Tid N).ReachableUnder G c) : claims_outline.Holds c :=
  claims_outline_valid.holds_of_trivial hc

/-- Each slot of the ring between the tail and the newest store holds the batch
stored at that position, or was emptied by a consumer that came late. -/
def SlotsHold (N : Nat) (q : BatchQueue) : Prop :=
  ∀ position, q.claimed.length ≤ position → position < q.stored.length →
    q.slots (position % N) = none ∨ q.slots (position % N) = q.stored[position]?

/-- Claims so far are the oldest batches, each applied when it was claimed. -/
def ClaimsInOrder (q : BatchQueue) : Prop :=
  q.claimed = (q.enqueued.take q.claimed.length).map fun batch => (batch, true)

/-- The word `ht` was read when `head` batches had entered and `tail` had left. -/
structure Snapshot (q : BatchQueue) (ht : BitVec 64) (head tail : Nat) : Prop where
  word : ht = HeadTail.counters head tail
  head_le : head ≤ q.enqueued.length
  tail_le_head : tail ≤ head
  tail_le : tail ≤ q.claimed.length

/-- What a consumer knows of the batch it read, as long as nobody has claimed
the position it read. -/
def ConsumerAt (s : QueueShared Tid) : DequeuePc → Prop
  | .load | .clear _ _ _ => True
  | .load_slot ht => ∃ head tail, Snapshot s.queue ht head tail
  | .is_applied ht batch => ∃ head tail, Snapshot s.queue ht head tail ∧ tail < head ∧
      (tail = s.queue.claimed.length → s.queue.enqueued[tail]? = some batch)
  | .cas ht batch => ∃ head tail, Snapshot s.queue ht head tail ∧ tail < head ∧
      (tail = s.queue.claimed.length →
        s.queue.enqueued[tail]? = some batch ∧ s.is_applied batch = true)

def QueuePc.consumer (s : QueueShared Tid) : QueuePc → Prop
  | .dequeue pc => ConsumerAt s pc
  | _ => True

def order_outline (N : Nat) : System.Outline Tid (QueueShared Tid) QueueThread where
  shared := fun s => SlotsHold N s.queue ∧ ClaimsInOrder s.queue
  thread := fun _ s l => l.pc.consumer s
  apart := fun _ _ => True

theorem QueueCounters.snapshot {s : QueueShared Tid} (hs : QueueCounters N s) :
    Snapshot s.queue s.queue.head_tail s.queue.enqueued.length s.queue.claimed.length :=
  ⟨hs.head_tail, Nat.le_refl _, hs.claimed_le, Nat.le_refl _⟩

theorem Snapshot.unpack {q : BatchQueue} {ht : BitVec 64} {head tail : Nat}
    (hsnap : Snapshot q ht head tail) : HeadTail.unpack_unchecked ht =
      (BitVec.ofNat 32 head, BitVec.ofNat 32 tail) := by
  rw [hsnap.word, HeadTail.counters, HeadTail.unpack_unchecked_pack]

/-- A snapshot that still equals the word is current, since no counter has
wrapped. -/
theorem Snapshot.current {s : QueueShared Tid} {head tail : Nat}
    (hsnap : Snapshot s.queue s.queue.head_tail head tail) (hs : QueueCounters N s)
    (hbound : s.queue.enqueued.length < 2 ^ 32) : tail = s.queue.claimed.length := by
  have hword := hsnap.word
  rw [hs.head_tail, HeadTail.counters_eq_iff] at hword
  have hclaimed := hs.claimed_le
  have htail := hsnap.tail_le
  omega

theorem Snapshot.grow {s s' : QueueShared Tid} {ht : BitVec 64} {head tail : Nat}
    (hsnap : Snapshot s.queue ht head tail) (hgrows : QueueGrows s s') :
    Snapshot s'.queue ht head tail :=
  ⟨hsnap.word, hsnap.head_le.trans hgrows.enqueued.length_le, hsnap.tail_le_head,
    hsnap.tail_le.trans hgrows.claimed.length_le⟩

theorem getElem?_of_longer {α : Type*} {xs ys : List α} {i : Nat} {x : α} (hpre : xs <+: ys)
    (hget : xs[i]? = some x) : ys[i]? = some x := by
  obtain ⟨hlt, rfl⟩ := List.getElem?_eq_some_iff.mp hget
  exact List.prefix_iff_getElem?.mp hpre i hlt

/-- The step leaves the applied flags of the queued batches set. -/
def FlagsKept (s s' : QueueShared Tid) : Prop :=
  ∀ batch, batch ∈ s.queue.queued → s.is_applied batch = true → s'.is_applied batch = true

theorem QueueMove.flags_kept {t : Tid} {a : QueueAct Tid} {s s' : QueueShared Tid}
    {pc pc' : QueuePc} {permit : Permit} (hmove : QueueMove N t s a pc s' pc')
    (hkept : applied_flags_kept t a s { pc, permit }) : FlagsKept s s' := by
  cases hmove with
  | set_state batch state =>
    intro b hb happlied
    by_cases heq : b = batch
    · subst heq
      have hwas : s.runtime_commit_state b = .Applied := by
        simpa [QueueShared.is_applied] using happlied
      by_cases hstate : state = .Applied
      · simp [QueueShared.is_applied, hstate]
      · exact absurd hb (hkept hwas hstate)
    · simpa [QueueShared.is_applied, Function.update_of_ne heq] using happlied
  | _ => exact fun _ _ h => h

theorem mem_queued {q : BatchQueue} {position : Nat} {batch : BatchPtr}
    (hle : q.claimed.length ≤ position) (hget : q.enqueued[position]? = some batch) :
    batch ∈ q.queued := by
  apply List.mem_of_getElem? (i := position - q.claimed.length)
  rw [BatchQueue.queued, List.getElem?_drop, Nat.add_sub_cancel' hle]
  exact hget

/-- A position that nobody has claimed by now was not claimed before. -/
theorem Snapshot.still_current {s s' : QueueShared Tid} {ht : BitVec 64} {head tail : Nat}
    (hsnap : Snapshot s.queue ht head tail) (hgrows : QueueGrows s s')
    (htail : tail = s'.queue.claimed.length) : tail = s.queue.claimed.length := by
  have hlen := hgrows.claimed.length_le
  have hle := hsnap.tail_le
  omega

/-- What a consumer knows survives the steps of the others. -/
theorem ConsumerAt.grow {s s' : QueueShared Tid} {pc : DequeuePc} (hpc : ConsumerAt s pc)
    (hgrows : QueueGrows s s') (hflags : FlagsKept s s') : ConsumerAt s' pc := by
  cases pc with
  | load | clear position tail batch => trivial
  | load_slot ht =>
    obtain ⟨head, tail, hsnap⟩ := hpc
    exact ⟨head, tail, hsnap.grow hgrows⟩
  | is_applied ht batch =>
    obtain ⟨head, tail, hsnap, hlt, hbatch⟩ := hpc
    refine ⟨head, tail, hsnap.grow hgrows, hlt, ?_⟩
    intro htail
    have hstill := hsnap.still_current hgrows htail
    exact getElem?_of_longer hgrows.enqueued (hbatch hstill)
  | cas ht batch =>
    obtain ⟨head, tail, hsnap, hlt, hbatch⟩ := hpc
    refine ⟨head, tail, hsnap.grow hgrows, hlt, ?_⟩
    intro htail
    have hstill := hsnap.still_current hgrows htail
    obtain ⟨hget, happlied⟩ := hbatch hstill
    exact ⟨getElem?_of_longer hgrows.enqueued hget,
      hflags batch (mem_queued hstill.ge hget) happlied⟩

/-- Slots of positions less than a lap apart are different. -/
theorem mod_ne_of_within_lap {p q : Nat} (hlt : p < q) (hlap : q < p + N) : p % N ≠ q % N := by
  intro heq
  have hdvd : N ∣ q - p := Nat.dvd_of_mod_eq_zero (Nat.sub_mod_eq_zero_of_mod_eq heq.symm)
  have hle := Nat.le_of_dvd (by omega) hdvd
  omega

/-- A store within a lap of a position leaves its slot, or is the one into it. -/
theorem slots_after_store (slots : Nat → Option BatchPtr) {stored : List BatchPtr}
    (batch : BatchPtr) {position : Nat} (hlt : position < stored.length + 1)
    (hlap : stored.length < position + N) :
    (position < stored.length ∧
      Function.update slots (stored.length % N) (some batch) (position % N) =
        slots (position % N) ∧
      (stored ++ [batch])[position]? = stored[position]?) ∨
    Function.update slots (stored.length % N) (some batch) (position % N) =
      (stored ++ [batch])[position]? := by
  obtain hold | rfl := Nat.lt_or_eq_of_le (Nat.le_of_lt_succ hlt)
  · have hslot := mod_ne_of_within_lap hold hlap
    exact .inl ⟨hold, Function.update_of_ne hslot .., List.getElem?_append_left hold⟩
  · exact .inr (by simp)

/-- Every step keeps the slots: the producer stores within a lap of the tail. -/
theorem QueueMove.slots_hold (hN : Capacity N) {t : Tid} {a : QueueAct Tid}
    {s s' : QueueShared Tid} {pc pc' : QueuePc} (hmove : QueueMove N t s a pc s' pc')
    (hat : QueueAt N t s pc) (hs : SlotsHold N s.queue) : SlotsHold N s'.queue := by
  cases hmove with
  | @store choice batch head =>
    obtain ⟨_, hstored, hhead, hroom⟩ := hat
    intro position hle hlt
    rw [List.length_append, List.length_singleton] at hlt
    change Function.update s.queue.slots (slot_index N head) (some batch) (position % N) = none ∨
      Function.update s.queue.slots (slot_index N head) (some batch) (position % N) =
        (s.queue.stored ++ [batch])[position]?
    rw [hhead, hN.slot_index, ← hstored]
    obtain ⟨hold, hsame, hget⟩ | hnew := slots_after_store s.queue.slots batch hlt
      (hroom.trans_le (Nat.add_le_add_right hle N))
    · rw [hsame, hget]
      exact hs position hle hold
    · exact .inr hnew
  | claim =>
    intro position hle hlt
    rw [List.length_append, List.length_singleton] at hle
    exact hs position (by omega) hlt
  | @clear choice position tail batch =>
    intro p hle hlt
    change Function.update s.queue.slots (slot_index N tail) none (p % N) = none ∨
      Function.update s.queue.slots (slot_index N tail) none (p % N) = s.queue.stored[p]?
    by_cases hp : p % N = slot_index N tail
    · exact .inl (by rw [hp, Function.update_self])
    · rw [Function.update_of_ne hp]
      exact hs p hle hlt
  | _ => exact hs

/-- Every step keeps the claims in order: a successful exchange claims the batch
that was read at the tail. -/
theorem QueueMove.claims_in_order {t : Tid} {a : QueueAct Tid} {s s' : QueueShared Tid}
    {pc pc' : QueuePc} (hmove : QueueMove N t s a pc s' pc') (hcounters : QueueCounters N s)
    (hbound : s.queue.enqueued.length < 2 ^ 32) (hpc : pc.consumer s)
    (hs : ClaimsInOrder s.queue) : ClaimsInOrder s'.queue := by
  cases hmove with
  | publish =>
    have hle := hcounters.claimed_le
    simp only [ClaimsInOrder, BatchQueue.published_claimed, BatchQueue.published_enqueued,
      List.take_append_of_le_length hle]
    exact hs
  | @claim choice head tail batch hunpack =>
    obtain ⟨head', tail', hsnap, _, hbatch⟩ := hpc
    have htail := hsnap.current hcounters hbound
    obtain ⟨hget, happlied⟩ := hbatch htail
    rw [htail] at hget
    simp only [ClaimsInOrder, List.length_append, List.length_singleton, happlied,
      List.take_add_one, hget, Option.toList_some, List.map_append, List.map_singleton]
    exact congrArg (· ++ [(batch, true)]) hs
  | _ => exact hs

/-- Every step of a consumer leaves it knowing what it read. -/
theorem QueueMove.own_consumer (hN : Capacity N) {t : Tid} {a : QueueAct Tid}
    {s s' : QueueShared Tid} {pc pc' : QueuePc} (hmove : QueueMove N t s a pc s' pc')
    (hcounters : QueueCounters N s) (hs : SlotsHold N s.queue) (hpc : pc.consumer s) :
    pc'.consumer s' := by
  cases hmove with
  | load | retry => exact ⟨_, _, hcounters.snapshot⟩
  | @read_slot choice ht h t batch hunpack hne hslot =>
    obtain ⟨head, tail, hsnap⟩ := hpc
    obtain ⟨rfl, rfl⟩ := Prod.mk.inj (hsnap.unpack.symm.trans hunpack)
    have hlt : tail < head := by
      apply Nat.lt_of_le_of_ne hsnap.tail_le_head
      rintro rfl
      exact hne rfl
    refine ⟨head, tail, hsnap, hlt, ?_⟩
    intro htail
    have henqueued := hlt.trans_le hsnap.head_le
    have hstored := henqueued.trans_le hcounters.stored_prefix.length_le
    rw [hN.slot_index] at hslot
    have hread : s.queue.stored[tail]? = some batch := by
      obtain hnone | hsome := hs tail htail.ge hstored
      · rw [hslot] at hnone
        cases hnone
      · rw [← hsome, hslot]
    rw [List.getElem?_eq_getElem henqueued, ← hread]
    exact (getElem?_of_longer hcounters.stored_prefix (List.getElem?_eq_getElem henqueued)).symm
  | saw_applied happlied =>
    obtain ⟨head, tail, hsnap, hlt, hbatch⟩ := hpc
    exact ⟨head, tail, hsnap, hlt, fun htail => ⟨hbatch htail, happlied⟩⟩
  | semaphore _ _ hpc' =>
    rename QueuePc => pc'
    cases pc' <;> trivial
  | _ => trivial

/-- The order of the claims is kept by every interleaving in which the counters
do not wrap. -/
theorem order_outline_valid [DecidableEq Tid] (hN : Capacity N) {G : QueueCondition Tid}
    (hG : ∀ t a s l, G t a s l → applied_flags_kept t a s l ∧ counters_unwrapped t a s l) :
    (counters_outline N).ValidOver (order_outline N) (queue_system Tid N) G where
  init_shared := ⟨fun position _ hlt => absurd hlt (Nat.not_lt_zero position), rfl⟩
  init_thread := fun _ => trivial
  init_apart := trivial
  step_own := by
    intro t a s l r hcounters hat hs hl hGs hstep
    have hmove := queue_step_move hstep
    obtain ⟨_, hbound⟩ := hG _ _ _ _ hGs
    exact ⟨⟨hmove.slots_hold hN hat hs.1, hmove.claims_in_order hcounters hbound hl hs.2⟩,
      hmove.own_consumer hN hcounters hs.1 hl⟩
  step_other := by
    intro t u a s l m r _ _ hpair hGs hstep
    have hmove := queue_step_move hstep
    obtain ⟨hkept, _⟩ := hG _ _ _ _ hGs
    refine ⟨?_, trivial, trivial⟩
    obtain ⟨pc, permit⟩ := m
    have hother := hpair.other
    cases pc with
    | dequeue pc => exact ConsumerAt.grow hother hmove.grows (hmove.flags_kept hkept)
    | _ => trivial

/-- Whatever the interleaving, batches are claimed in the order in which they
were enqueued, each one applied at that moment, and every `try_dequeue` returns
the batch of a claim of its own. -/
theorem dequeued_in_order [DecidableEq Tid] (hN : Capacity N)
    {c : QueueConfig Tid}
    (hc : (queue_system Tid N).ReachableUnder
      (System.both one_producer (System.both applied_flags_kept counters_unwrapped)) c) :
    c.shared.queue.claimed.map Prod.fst <+: c.shared.queue.enqueued ∧
      (∀ claim ∈ c.shared.queue.claimed, claim.2 = true) ∧
      (c.shared.queue.returned.map Prod.fst).Nodup ∧
      ∀ e ∈ c.shared.queue.returned, c.shared.queue.claimed[e.1]? = some (e.2, true) := by
  have horder : (order_outline N).Holds c := by
    refine (order_outline_valid hN fun _ _ _ _ h => h.2).holds (fun d hd => ?_) hc
    exact counters_outline_holds (fun _ _ _ _ h => h.1) hd
  have hreturns := (claims_outline_holds hc).shared
  have hclaims : ClaimsInOrder c.shared.queue := horder.shared.2
  refine ⟨?_, ?_, hreturns.positions, ?_⟩
  · rw [hclaims, List.map_map]
    simpa [Function.comp_def] using List.take_prefix _ _
  · intro claim hclaim
    rw [hclaims] at hclaim
    obtain ⟨batch, _, rfl⟩ := List.mem_map.mp hclaim
    rfl
  · intro e he
    obtain ⟨claim, hget, hfst⟩ := Option.map_eq_some_iff.mp (hreturns.claimed e he)
    rw [hget, ← hfst]
    rw [hclaims] at hget
    obtain ⟨batch, _, rfl⟩ := List.mem_map.mp (List.mem_of_getElem? hget)
    rfl

/-- The steps that `t` takes inside a call, none of them a semaphore wake-up. -/
def steps_of {Tid : Type} (t : Tid) (n : Nat) : List (Tid × QueueAct Tid) :=
  List.replicate n (t, .step {})

/-- Two batches are enqueued, the later one is applied first, and two consumers
race for the older one. -/
def racing_consumers {Tid : Type} (t u : Tid) : List (Tid × QueueAct Tid) :=
  (t, .enqueue 10) :: steps_of t 4 ++ (t, .enqueue 11) :: steps_of t 4 ++
    [(t, .set_runtime_state 11 .Applied), (t, .set_runtime_state 10 .Applied)] ++
    (t, .try_dequeue) :: steps_of t 3 ++ (u, .try_dequeue) :: steps_of u 4 ++ steps_of t 5 ++
    steps_of u 1

theorem dequeued_in_order_racing : ∃ c : QueueConfig (Fin 2),
    c.shared.queue.returned = [(1, 11), (0, 10)] ∧
      c.shared.queue.claimed.map Prod.fst <+: c.shared.queue.enqueued ∧
      ∀ claim ∈ c.shared.queue.claimed, claim.2 = true := by
  obtain ⟨c, hc, hreturned⟩ := System.reachable_showing (queue_system (Fin 2) 2)
    (System.both one_producer (System.both applied_flags_kept counters_unwrapped))
    (racing_consumers 0 1) (fun c => c.shared.queue.returned) [(1, 11), (0, 10)] (by decide)
  have horder := dequeued_in_order Capacity.two hc
  exact ⟨c, hreturned, horder.1, horder.2.1⟩

end ordinum.write_pipeline
