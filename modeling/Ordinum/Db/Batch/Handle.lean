import Ordinum.Db.Batch.PutWith

open exec
open ordinum.utils

namespace ordinum.batch

/-- What the inner `put` returns is bound and dropped. -/
def BatchObject.put_cf (cf_id : BitVec 64) (key value : List Byte) : BatchM Unit :=
  tryCatch (BatchInner.put cf_id key value) fun _ => pure ()

def BatchObject.put (key value : List Byte) : BatchM Unit :=
  put_cf DEFAULT_CF_ID key value

def Batch.put (key value : List Byte) : BatchM Unit :=
  BatchObject.put key value

/-- A call through the handle. -/
inductive HandleCall where
  | put (key value : List Byte)
  | put_cf (cf_id : BitVec 64) (key value : List Byte)
  deriving DecidableEq, Repr

namespace HandleCall

def run : HandleCall → BatchM Unit
  | .put key value => Batch.put key value
  | .put_cf cf_id key value => BatchObject.put_cf cf_id key value

/-- The inner call that it makes. -/
def args : HandleCall → PutCall
  | .put key value => { cf_id := DEFAULT_CF_ID, key, value }
  | .put_cf cf_id key value => { cf_id, key, value }

theorem run_eq (call : HandleCall) :
    call.run = BatchObject.put_cf call.args.cf_id call.args.key call.args.value := by
  cases call <;> rfl

end HandleCall

def put_each : List HandleCall → BatchM Unit
  | [] => pure ()
  | call :: calls => do
    call.run
    put_each calls

/-- A batch that a handle is given: a new one, or one that was reset. -/
def Handed (b : BatchInner) : Prop :=
  Fresh b ∨ ∃ old : BatchInner, old.max_batch_size = MAX_BATCH_SIZE ∧ old.reset_batch = some b

/-- What one call needs: lengths within their limits. -/
def PutCall.Fits (call : PutCall) : Prop :=
  call.key.length ≤ MAX_USER_KEY_BYTES ∧ call.value.length ≤ 2 ^ 32 - 1

instance (call : PutCall) : Decidable call.Fits :=
  inferInstanceAs (Decidable (_ ∧ _))

/-- The size that the records of the calls take. -/
def total_size (calls : List PutCall) : Nat :=
  (calls.map fun call => record_size call.key.length call.value.length).sum

section handle

variable {b : BatchInner} {records : List Record}

theorem Handed.recorded (hb : Handed b) :
    Recorded [] b ∧ b.buffer.length = BatchInner.HEADER_SIZE := by
  obtain hfresh | ⟨old, hmax, hreset⟩ := hb
  · obtain rfl := hfresh.eq_new
    exact ⟨fresh_recorded (.inl rfl), rfl⟩
  · obtain rfl := BatchInner.reset_batch_spec hreset
    refine ⟨⟨⟨hmax, .inl rfl, ?_, rfl⟩, ⟨List.replicate 8 0#8, rfl, zero_header⟩, nofun⟩, rfl⟩
    exact Nat.le_of_eq rfl

/-- A call on a batch in use returns; it appends its record, or it is rejected and
nothing happens. -/
theorem HandleCall.run_returns (hb : Recorded records b) (call : HandleCall) : ∃ b' kept,
    Returns call.run b () b' ∧ Recorded (records ++ kept) b' ∧
      (b.rejection call.args.key.length call.args.value.length = none →
        kept = [call.args.record] ∧ b'.buffer.length = b.buffer.length +
          record_size call.args.key.length call.args.value.length) ∧
      (b.rejection call.args.key.length call.args.value.length ≠ none → kept = [] ∧ b' = b) := by
  rw [call.run_eq]
  unfold BatchObject.put_cf
  simp only [returns_tryCatch, returns_pure]
  cases hrejection : b.rejection call.args.key.length call.args.value.length with
  | none =>
    have hrecorded : Recorded (records ++ [call.args.record])
        (b.with_put call.args.cf_id call.args.key call.args.value) := hb.put hrejection
    have hlength := (hb.sized.with_put call.args.cf_id hrejection).2
    exact ⟨_, [call.args.record], .inl (BatchInner.put_exact hb.sized _ hrejection), hrecorded,
      fun _ => ⟨rfl, by rw [buffer_with_put hb.sized hrejection, hlength]⟩, fun h => absurd rfl h⟩
  | some e =>
    refine ⟨b, [], .inr ⟨e, b, BatchInner.put_rejected hb.sized _ hrejection, trivial, rfl⟩, ?_,
      (by intro h; cases h), fun _ => ⟨rfl, rfl⟩⟩
    rwa [List.append_nil]

/-- A sequence of calls returns, and keeps the records of all of them when they fit
the batch. -/
theorem put_each_returns (calls : List HandleCall) : ∀ {records : List Record} {b : BatchInner},
    Recorded records b → ∃ b' kept, Returns (put_each calls) b () b' ∧
      Recorded (records ++ kept) b' ∧
      kept.Sublist (calls.map fun call => call.args.record) ∧
      (kept.length = calls.length ↔ (∀ call ∈ calls, call.args.Fits) ∧
        b.buffer.length + total_size (calls.map HandleCall.args) ≤ MAX_BATCH_SIZE) := by
  induction calls with
  | nil =>
    intro records b hb
    refine ⟨b, [], returns_pure.mpr ⟨rfl, rfl⟩, by rwa [List.append_nil], .refl _, ?_⟩
    have hlength := hb.sized.buffer_length.2
    simpa [total_size] using hlength
  | cons call calls ih =>
    intro records b hb
    obtain ⟨b1, kept, hcall, hb1, haccepted, hrejected⟩ := call.run_returns hb
    obtain ⟨b', rest, hrest, hb', hsublist, hiff⟩ := ih hb1
    refine ⟨b', kept ++ rest, returns_bind.mpr ⟨(), b1, hcall, hrest⟩,
      by rwa [← List.append_assoc], ?_, ?_⟩
    · rw [List.map_cons]
      by_cases hrejection : b.rejection call.args.key.length call.args.value.length = none
      · rw [(haccepted hrejection).1]
        exact hsublist.cons_cons _
      · rw [(hrejected hrejection).1]
        exact hsublist.cons _
    · have htotal : total_size ((call :: calls).map HandleCall.args) =
          record_size call.args.key.length call.args.value.length +
            total_size (calls.map HandleCall.args) := rfl
      rw [htotal, List.length_append, List.length_cons, List.forall_mem_cons]
      by_cases hrejection : b.rejection call.args.key.length call.args.value.length = none
      · obtain ⟨rfl, hlength⟩ := haccepted hrejection
        obtain ⟨hkey, hvalue, -, -⟩ := BatchInner.rejection_none_iff.mp hrejection
        rw [List.length_singleton, Nat.add_comm 1, Nat.add_right_cancel_iff, hiff, hlength,
          Nat.add_assoc]
        exact ⟨fun h => ⟨⟨⟨hkey, hvalue⟩, h.1⟩, h.2⟩, fun h => ⟨h.1.2, h.2⟩⟩
      · obtain ⟨rfl, rfl⟩ := hrejected hrejection
        have hle := hsublist.length_le
        rw [List.length_map] at hle
        constructor
        · intro h
          rw [List.length_nil] at h
          omega
        · rintro ⟨⟨⟨hkey, hvalue⟩, -⟩, hroom⟩
          refine absurd (BatchInner.rejection_none_iff.mpr ⟨hkey, hvalue, ?_, ?_⟩) hrejection
          · have hheader := hb.sized.buffer_length.1
            rw [hb.sized.max_batch_size]
            omega
          · rw [hb.sized.max_batch_size]
            omega

theorem buffer_operations (b : BatchInner) :
    b.buffer.drop BatchInner.HEADER_SIZE = b.data.drop BatchInner.HEADER_SIZE := by
  unfold BatchInner.buffer
  split
  · rename_i hempty
    rw [List.isEmpty_iff.mp hempty]
    rfl
  · rfl

/-- Every call through the handle tells its caller nothing, so the sealed batch has
the record of every call exactly when all of them fit the batch. -/
theorem handle_keeps_every_put_iff_fits {start : BatchInner} (hstart : Handed start)
    (calls : List HandleCall) : ∃ sealed_batch records,
    Returns (put_each calls) start () sealed_batch ∧
      wire.read_to_end read_record (sealed_batch.data.drop BatchInner.HEADER_SIZE) =
        some records ∧
      (records.map (fun r => (r.key, r.value)) =
          calls.map (fun call => (call.args.key, call.args.value)) ↔
        (∀ call ∈ calls, call.args.Fits) ∧
          BatchInner.HEADER_SIZE + total_size (calls.map HandleCall.args) ≤ MAX_BATCH_SIZE) := by
  obtain ⟨hrecorded, hlength⟩ := hstart.recorded
  obtain ⟨b', kept, hreturns, hb', hsublist, hiff⟩ := put_each_returns calls hrecorded
  refine ⟨b', kept, hreturns, ?_, ?_⟩
  · rw [← buffer_operations]
    exact hb'.parses
  · rw [← hlength, ← hiff]
    constructor
    · intro hsame
      simpa using congrArg List.length hsame
    · intro hlen
      rw [hsublist.eq_of_length (by rw [hlen, List.length_map]), List.map_map]
      rfl

theorem handle_keeps_every_put_iff_fits_new : ∃ sealed_batch records,
    Returns (put_each [.put [1#8] [2#8]]) BatchInner.new () sealed_batch ∧
      wire.read_to_end read_record (sealed_batch.data.drop BatchInner.HEADER_SIZE) =
        some records ∧ records.map (fun r => (r.key, r.value)) = [([1#8], [2#8])] := by
  obtain ⟨sealed_batch, records, hreturns, hparses, hiff⟩ :=
    handle_keeps_every_put_iff_fits (.inl (.inl rfl)) [.put [1#8] [2#8]]
  exact ⟨sealed_batch, records, hreturns, hparses, hiff.mpr (by decide +kernel)⟩

/-- A key that is one byte too long. -/
def long_key : List Byte := List.replicate (MAX_USER_KEY_BYTES + 1) 7#8

/-- The put of a key that is too long returns like any other, and is lost. -/
theorem handle_drops_long_key : ∃ sealed_batch,
    Returns (put_each [.put long_key []]) BatchInner.new () sealed_batch ∧
      wire.read_to_end read_record (sealed_batch.data.drop BatchInner.HEADER_SIZE) = some [] := by
  have hrejected : BatchInner.new.rejection long_key.length 0 =
      some (.KeyTooLarge long_key.length MAX_USER_KEY_BYTES) := by
    rw [BatchInner.rejection, if_pos (by rw [long_key, List.length_replicate]; omega)]
  refine ⟨BatchInner.new, ?_, by decide +kernel⟩
  have hsized := (fresh_recorded (.inl rfl) : Recorded [] BatchInner.new).sized
  have hthrows : Throws (BatchInner.put DEFAULT_CF_ID long_key []) BatchInner.new _
      BatchInner.new := BatchInner.put_rejected hsized DEFAULT_CF_ID hrejected
  apply returns_bind.mpr
  refine ⟨(), BatchInner.new, ?_, returns_pure.mpr ⟨rfl, rfl⟩⟩
  exact returns_tryCatch.mpr (.inr ⟨_, _, hthrows, returns_pure.mpr ⟨rfl, rfl⟩⟩)

end handle

end ordinum.batch
