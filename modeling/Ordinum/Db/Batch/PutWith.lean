import Ordinum.Db.Batch.Deferred

open exec
open ordinum.utils

namespace ordinum.batch

/-- A record whose key and value are still to be written. -/
def Record.blank (kind : RecordKind) (cf_id : BitVec 64) (key_len value_len : Nat) : Record :=
  { kind, cf_id, key := List.replicate key_len 0#8, value := List.replicate value_len 0#8 }

theorem Record.length_blank (kind : RecordKind) (cf_id : BitVec 64) (key_len value_len : Nat) :
    (blank kind cf_id key_len value_len).key.length = key_len ∧
      (blank kind cf_id key_len value_len).value.length = value_len :=
  ⟨List.length_replicate, List.length_replicate⟩

namespace BatchInner

variable {b : BatchInner} {key_len value_len : Nat} {kind : RecordKind} {cf_id : BitVec 64}

/-- Bytes that are skipped are still zero. -/
theorem filled_skip (b : BatchInner) (done : List Byte) (skipped free : Nat) :
    b.filled done (skipped + free) = b.filled (done ++ List.replicate skipped 0#8) free := by
  rw [filled, filled, List.append_assoc, List.replicate_append_replicate]

theorem copy_into_skip (b : BatchInner) (done src : List Byte) (skipped free : Nat)
    {index len : Nat} (hindex : index = done.length + skipped) (hlen : len = src.length) :
    Returns (copy_into index len src) (b.filled done (skipped + (src.length + free))) ()
      (b.filled (done ++ List.replicate skipped 0#8 ++ src) free) := by
  rw [filled_skip]
  apply copy_into_free b _ src free _ hlen
  rw [hindex, List.length_append, List.length_replicate]

/-- The assertion on the runtime state, the layout and the reservation come first,
and a rejection is theirs. -/
theorem prepare_rejected (hb : Sized b) {e : Error}
    (hrejected : b.rejection key_len value_len = some e) :
    Throws (prepare_with_key_value_impl cf_id key_len value_len kind) b e b := by
  have hstate : b.runtime_commit_state ≠ .InQueue := by
    rw [hb.state]
    nofun
  have hassert : Returns (assert (b.runtime_commit_state ≠ .InQueue) : BatchM Unit) b () b :=
    returns_assert.mpr ⟨hstate, rfl⟩
  unfold prepare_with_key_value_impl
  simp only [throws_bind]
  refine .inr ⟨b, b, returns_get.mpr ⟨rfl, rfl⟩, .inr ⟨(), b, hassert, ?_⟩⟩
  obtain hlayout | ⟨key_varint, value_varint, hlayout, hreserve⟩ := rejected_cases hb hrejected
  · exact .inl hlayout
  · exact .inr ⟨_, b, hlayout, .inl hreserve⟩

/-- The reserved bytes become a record that lacks its key and value. -/
theorem prepare_exact (hb : Sized b) (cf_id : BitVec 64) (kind : RecordKind)
    (haccepted : b.rejection key_len value_len = none) :
    Returns (prepare_with_key_value_impl cf_id key_len value_len kind) b
      (deferred_op b.buffer.length key_len value_len)
      (b.with_data (b.buffer ++ (Record.blank kind cf_id key_len value_len).encode)) := by
  obtain ⟨hkey, hvalue, hsize, hroom⟩ := rejection_none_iff.mp haccepted
  obtain ⟨key_varint, value_varint, hlayout, hkv, hvv⟩ := layout_returns b hkey hvalue
  obtain ⟨hkslice, hksize⟩ := VarInt.new_eq hkv
  obtain ⟨hvslice, hvsize⟩ := VarInt.new_eq hvv
  have hstate : b.runtime_commit_state ≠ .InQueue := by
    rw [hb.state]
    nofun
  have hkind : [kind.to_byte].length = 1 := rfl
  have hcf : (wire.to_le_bytes 8 cf_id).length = 8 := wire.length_to_le_bytes 8 cf_id
  have hkey_bytes : key_varint.as_slice.length = key_varint.size := by rw [hkslice, hksize]
  have hvalue_bytes : value_varint.as_slice.length = value_varint.size := by rw [hvslice, hvsize]
  have hfree : record_size key_len value_len =
      [kind.to_byte].length + ((wire.to_le_bytes 8 cf_id).length +
        (key_varint.as_slice.length + (key_len + (value_varint.as_slice.length +
          (value_len + 0))))) := by
    simp only [record_size, varint_len, hkind, hcf, hkslice, hvslice]
    omega
  have hreserve : Returns (reserve_operation (record_size key_len value_len)) b
      (b.buffer.length, b.buffer.length + record_size key_len value_len)
      (b.filled b.buffer ([kind.to_byte].length + ((wire.to_le_bytes 8 cf_id).length +
        (key_varint.as_slice.length + (key_len + (value_varint.as_slice.length +
          (value_len + 0))))))) := by
    rw [← hfree]
    exact reserve_exact hb hsize hroom
  have hend : b.with_data (b.buffer ++ (Record.blank kind cf_id key_len value_len).encode) =
      b.filled (b.buffer ++ [kind.to_byte] ++ wire.to_le_bytes 8 cf_id ++ key_varint.as_slice ++
        List.replicate key_len 0#8 ++ value_varint.as_slice) (value_len + 0) := by
    simp [filled, Record.encode, Record.blank, hkslice, hvslice, length_bytes]
  rw [hend]
  simp only [prepare_with_key_value_impl, DeferredOp.new, returns_bind, returns_get,
    returns_assert, returns_pure]
  refine ⟨b, b, ⟨rfl, rfl⟩, (), b, ⟨hstate, rfl⟩, _, b, hlayout, _, _, hreserve,
    (), _, copy_into_free b _ _ _ rfl rfl, (), _, copy_into_free b _ _ _ ?_ hcf.symm,
    (), _, copy_into_free b _ key_varint.as_slice _ ?_ hkey_bytes.symm,
    (), _, copy_into_skip b _ value_varint.as_slice _ _ ?_ hvalue_bytes.symm,
    (), _, ⟨?_, rfl⟩, (), _, ⟨Nat.le_add_right _ _, rfl⟩, ?_, rfl⟩
  · simp only [List.length_append, hkind]
  · simp only [List.length_append, hkind, hcf]
  · simp only [List.length_append, hkind, hcf, hkey_bytes]
  · simp only [record_size, varint_len, hksize, hvsize]
    omega
  · simp only [deferred_op, varint_len, ← hksize, ← hvsize, DeferredOp.mk.injEq, true_and, and_true]
    omega

theorem put_with_rejected (hb : Sized b) {e : Error} (f : DeferredFn)
    (hrejected : b.rejection key_len value_len = some e) :
    Throws (put_with cf_id key_len value_len kind f) b e b := by
  unfold put_with
  simp only [throws_bind]
  exact .inl (prepare_rejected hb hrejected)

/-- Dropping an unfinished operation cuts its record off. -/
theorem drop_returns (b : BatchInner) (before after : List Byte) {op : DeferredOp}
    (hstart : op.reservation_start = before.length) :
    Returns op.drop (b.with_data (before ++ after)) ()
      (b.with_data (if op.batch then before else before ++ after)) := by
  unfold DeferredOp.drop
  by_cases hbatch : op.batch
  · have hcut : resize (before ++ after) op.reservation_start = before := by
      rw [resize, hstart, List.take_left, List.length_append, Nat.sub_eq_zero_of_le (by omega),
        List.replicate_zero, List.append_nil]
    rw [if_pos hbatch, if_pos hbatch]
    simp only [DeferredOp.rollback, returns_bind, returns_assert, returns_modify_unwrap,
      returns_get, returns_pure]
    refine ⟨_, b.with_data before, ⟨(), _, ⟨hbatch, rfl⟩, (), _, ?_, _, _, ⟨rfl, rfl⟩, (), _,
      ⟨hstart.symm, rfl⟩, rfl, rfl⟩, trivial, rfl⟩
    rw [with_data_data, hcut]
    rfl
  · rw [if_neg hbatch, if_neg hbatch, returns_pure]
    exact ⟨rfl, rfl⟩

/-- An accepted `put_with` runs its closure on the record laid out for it, and
takes the record back when the closure panics before it finishes it. -/
theorem put_with_exact (hb : Sized b) (cf_id : BitVec 64) (kind : RecordKind) (f : DeferredFn)
    (haccepted : b.rejection key_len value_len = none) : ∃ r op ended,
      f.run (deferred_op b.buffer.length key_len value_len)
          (b.buffer ++ (Record.blank kind cf_id key_len value_len).encode) =
        (op, b.buffer ++ r.encode, ended) ∧
      (Record.blank kind cf_id key_len value_len).Rewrites r ∧
      (f.OnlySlices → op.batch = true) ∧
      Returns (put_with cf_id key_len value_len kind f) b ended
        (b.with_data
          (if ended = .panicked ∧ op.batch = true then b.buffer else b.buffer ++ r.encode)) := by
  obtain ⟨hkey, hvalue⟩ := Record.length_blank kind cf_id key_len value_len
  have hop : Operates b.buffer (Record.blank kind cf_id key_len value_len)
      (deferred_op b.buffer.length key_len value_len) := by
    left
    rw [hkey, hvalue]
  obtain ⟨r, op, ended, hrun, hr, hop, honly⟩ := f.run_record _ _ hop
  have hstart : op.reservation_start = b.buffer.length := by
    obtain rfl | rfl := hop <;> rfl
  refine ⟨r, op, ended, hrun, hr, fun h => by rw [honly h]; rfl, ?_⟩
  unfold put_with
  simp only [returns_bind, returns_get, returns_modify_unwrap, returns_pure]
  refine ⟨_, _, prepare_exact hb cf_id kind haccepted, _, _, ⟨rfl, rfl⟩, ?_⟩
  rw [with_data_data, hrun]
  refine ⟨(), b.with_data (b.buffer ++ r.encode), rfl, (), _, ?_, rfl, rfl⟩
  cases ended with
  | returned =>
    rw [if_pos rfl, if_neg (by rintro ⟨hpanicked, -⟩; cases hpanicked)]
    have hfinished : op.finish.reservation_start = b.buffer.length := hstart
    exact drop_returns b b.buffer r.encode hfinished
  | panicked =>
    rw [if_neg (by intro h; cases h)]
    simp only [true_and]
    exact drop_returns b b.buffer r.encode hstart

end BatchInner

/-- What holds of every batch in use: its limits, and a buffer that shows the
sequence bytes, the count field and the records. -/
structure Recorded (records : List Record) (b : BatchInner) : Prop where
  sized : b.Sized
  buffer : ∃ seq : List Byte, seq.length = BatchInner.BATCH_COUNT_OFFSET ∧
    b.buffer = seq ++ wire.to_le_bytes 4 b.count ++ records.flatMap Record.encode
  fits : ∀ r ∈ records, r.Fits

section recorded

variable {records : List Record} {b : BatchInner}

theorem buffer_with_data {data : List Byte} (hdata : data ≠ []) :
    (b.with_data data).buffer = data := by
  rw [BatchInner.buffer, BatchInner.with_data_data, if_neg]
  rwa [List.isEmpty_iff]

theorem BatchInner.Sized.buffer_ne_nil (hb : b.Sized) : b.buffer ≠ [] := by
  intro hnil
  have hlength := hb.buffer_length.1
  rw [hnil] at hlength
  cases hlength

theorem zero_header : List.replicate BatchInner.HEADER_SIZE 0#8 =
    List.replicate 8 0#8 ++ wire.to_le_bytes 4 0#32 ++ ([] : List Record).flatMap Record.encode := by
  decide

theorem fresh_recorded (hfresh : Fresh b) : Recorded [] b := by
  obtain rfl := hfresh.eq_new
  refine ⟨⟨rfl, .inr ⟨?_, ?_⟩, ?_, rfl⟩, ⟨List.replicate 8 0#8, rfl, zero_header⟩, nofun⟩
  all_goals decide +kernel

/-- A cleared batch has no records, and no header either. -/
theorem Recorded.clear (hb : Recorded records b) {b' : BatchInner} (hclear : b.clear = some b') :
    Recorded [] b' ∧ b'.data = [] ∧ b'.count = 0 := by
  unfold BatchInner.clear at hclear
  split at hclear
  · obtain rfl := Option.some.inj hclear
    refine ⟨⟨⟨hb.sized.max_batch_size, .inl rfl, ?_, hb.sized.state⟩,
      ⟨List.replicate 8 0#8, rfl, zero_header⟩, nofun⟩, rfl, rfl⟩
    change 11 * 0 + BatchInner.HEADER_SIZE ≤ BatchInner.HEADER_SIZE
    omega
  · cases hclear

/-- A batch whose buffer was cut back to where it stood. -/
theorem Recorded.rolled_back (hb : Recorded records b) :
    Recorded records (b.with_data b.buffer) := by
  have hbuffer := buffer_with_data (b := b) hb.sized.buffer_ne_nil
  refine ⟨⟨hb.sized.max_batch_size, .inr hb.sized.buffer_length, ?_, hb.sized.state⟩, ?_, hb.fits⟩
  · rw [hbuffer]
    exact hb.sized.count
  · rw [hbuffer]
    exact hb.buffer

/-- A record appended without being counted. -/
theorem Recorded.append (hb : Recorded records b) {r : Record} (hr : r.Fits)
    (hroom : b.buffer.length + record_size r.key.length r.value.length ≤ MAX_BATCH_SIZE) :
    Recorded (records ++ [r]) (b.with_data (b.buffer ++ r.encode)) := by
  obtain ⟨seq, hseq, hdata⟩ := hb.buffer
  have hne : b.buffer ++ r.encode ≠ [] := List.append_ne_nil_of_left_ne_nil
    hb.sized.buffer_ne_nil _
  have hlength : (b.buffer ++ r.encode).length =
      b.buffer.length + record_size r.key.length r.value.length := by
    rw [List.length_append, length_encode]
  have hheader := hb.sized.buffer_length.1
  have hcount := hb.sized.count
  refine ⟨⟨hb.sized.max_batch_size, .inr ⟨?_, ?_⟩, ?_, hb.sized.state⟩, ⟨seq, hseq, ?_⟩, ?_⟩
  · rw [BatchInner.with_data_data, hlength]
    omega
  · rw [BatchInner.with_data_data, hlength]
    exact hroom
  · rw [buffer_with_data hne, hlength, BatchInner.with_data_count]
    omega
  · rw [buffer_with_data hne, hdata, BatchInner.with_data_count, List.flatMap_append,
      List.flatMap_singleton, List.append_assoc]
  · intro r' hr'
    obtain hold | hnew := List.mem_append.mp hr'
    · exact hb.fits r' hold
    · rwa [List.mem_singleton.mp hnew]

theorem buffer_with_put (hb : b.Sized) {cf_id : BitVec 64} {key value : List Byte}
    (haccepted : b.rejection key.length value.length = none) :
    (b.with_put cf_id key value).buffer = (b.with_put cf_id key value).data := by
  obtain ⟨-, hlength⟩ := hb.with_put cf_id haccepted
  rw [BatchInner.buffer, if_neg]
  intro hempty
  have hheader := hb.buffer_length.1
  rw [List.isEmpty_iff.mp hempty, List.length_nil] at hlength
  change 12 ≤ _ at hheader
  omega

/-- A record appended by `put`, which counts it. -/
theorem Recorded.put (hb : Recorded records b) {cf_id : BitVec 64} {key value : List Byte}
    (haccepted : b.rejection key.length value.length = none) :
    Recorded (records ++ [{ kind := .Put, cf_id, key, value }]) (b.with_put cf_id key value) := by
  obtain ⟨hkey, hvalue, -, -⟩ := BatchInner.rejection_none_iff.mp haccepted
  have hfits : Record.Fits { kind := .Put, cf_id, key, value } := by
    change key.length ≤ 65535 at hkey
    exact ⟨by simp only; omega, by simp only; omega⟩
  obtain ⟨hsized, -⟩ := hb.sized.with_put cf_id haccepted
  obtain ⟨seq, hseq, hdata⟩ := hb.buffer
  refine ⟨hsized, ⟨seq, hseq, ?_⟩, ?_⟩
  · rw [buffer_with_put hb.sized haccepted, List.flatMap_append, List.flatMap_singleton]
    change BatchInner.counted (b.buffer ++ _) (b.count + 1#32) = _
    rw [hdata, List.append_assoc, BatchInner.counted_format hseq]
    rfl
  · intro r' hr'
    obtain hold | hnew := List.mem_append.mp hr'
    · exact hb.fits r' hold
    · rwa [List.mem_singleton.mp hnew]

/-- The operation bytes of the batch parse as its records. -/
theorem Recorded.parses (hb : Recorded records b) :
    wire.read_to_end read_record (b.buffer.drop BatchInner.HEADER_SIZE) = some records := by
  obtain ⟨seq, hseq, hdata⟩ := hb.buffer
  have hheader : (seq ++ wire.to_le_bytes 4 b.count).length = BatchInner.HEADER_SIZE := by
    rw [List.length_append, wire.length_to_le_bytes, hseq]
    rfl
  rw [hdata, ← hheader, List.drop_left]
  exact wire.read_to_end_flatMap fun r hr => ⟨read_record_recovers (hb.fits r hr), r.encode_ne_nil⟩

theorem Recorded.append_accepted (hb : Recorded records b) {kind : RecordKind} {cf_id : BitVec 64}
    {key value : List Byte} (haccepted : b.rejection key.length value.length = none) :
    Recorded (records ++ [⟨kind, cf_id, key, value⟩])
      (b.with_data (b.buffer ++ Record.encode ⟨kind, cf_id, key, value⟩)) := by
  obtain ⟨hkey, hvalue, -, hroom⟩ := BatchInner.rejection_none_iff.mp haccepted
  rw [hb.sized.max_batch_size] at hroom
  change key.length ≤ 65535 at hkey
  have hfits : Record.Fits ⟨kind, cf_id, key, value⟩ := by
    constructor
    · simp only
      omega
    · simp only
      omega
  exact hb.append hfits hroom

/-- An accepted `put_with` appends a record of the asked lengths; only a closure
that panics can have it taken back. -/
theorem Recorded.put_with (hb : Recorded records b) (cf_id : BitVec 64) {key_len value_len : Nat}
    (kind : RecordKind) (f : DeferredFn) (haccepted : b.rejection key_len value_len = none) :
    ∃ key value op ended b', key.length = key_len ∧ value.length = value_len ∧
      f.run (deferred_op b.buffer.length key_len value_len)
          (b.buffer ++ (Record.blank kind cf_id key_len value_len).encode) =
        (op, b.buffer ++ Record.encode ⟨kind, cf_id, key, value⟩, ended) ∧
      Returns (BatchInner.put_with cf_id key_len value_len kind f) b ended b' ∧
      (b' = b.with_data (b.buffer ++ Record.encode ⟨kind, cf_id, key, value⟩) ∧
          Recorded (records ++ [⟨kind, cf_id, key, value⟩]) b' ∧
          (ended = .panicked → ¬ f.OnlySlices) ∨
        b' = b.with_data b.buffer ∧ Recorded records b' ∧ ended = .panicked) := by
  obtain ⟨r, op, ended, hrun, ⟨key, value, hkey, hvalue, rfl⟩, hbatch, hreturns⟩ :=
    BatchInner.put_with_exact hb.sized cf_id kind f haccepted
  obtain ⟨hkey_blank, hvalue_blank⟩ := Record.length_blank kind cf_id key_len value_len
  replace hkey := hkey.trans hkey_blank
  replace hvalue := hvalue.trans hvalue_blank
  refine ⟨key, value, op, ended, _, hkey, hvalue, hrun, hreturns, ?_⟩
  split
  · rename_i hrolled_back
    exact .inr ⟨rfl, hb.rolled_back, hrolled_back.1⟩
  · rename_i hkept
    subst hkey hvalue
    exact .inl ⟨rfl, hb.append_accepted haccepted,
      fun hpanicked honly => hkept ⟨hpanicked, hbatch honly⟩⟩

end recorded

/-- A batch in use is recorded, however its calls ended. -/
theorem BatchInner.Reached.recorded {b : BatchInner} (hb : Reached b) :
    ∃ records, Recorded records b := by
  induction hb with
  | fresh hfresh => exact ⟨[], fresh_recorded hfresh⟩
  | @put b cf_id key value r b' _ hrun ih =>
    obtain ⟨records, hrecorded⟩ := ih
    cases hrejection : b.rejection key.length value.length with
    | none =>
      have hreturns := put_exact hrecorded.sized cf_id hrejection
      cases hrun.symm.trans hreturns
      exact ⟨_, hrecorded.put hrejection⟩
    | some e =>
      have hthrows : Throws (BatchInner.put cf_id key value) b e b :=
        put_rejected hrecorded.sized cf_id hrejection
      cases hrun.symm.trans hthrows
      exact ⟨records, hrecorded⟩
  | @put_with b cf_id key_len value_len kind f r b' _ hrun ih =>
    obtain ⟨records, hrecorded⟩ := ih
    cases hrejection : b.rejection key_len value_len with
    | none =>
      obtain ⟨_, _, _, ended, _, -, -, -, hreturns, hend⟩ :=
        hrecorded.put_with cf_id kind f hrejection
      cases hrun.symm.trans hreturns
      obtain ⟨-, hkept, -⟩ | ⟨-, hrolled_back, -⟩ := hend
      · exact ⟨_, hkept⟩
      · exact ⟨_, hrolled_back⟩
    | some e =>
      have hthrows : Throws (BatchInner.put_with cf_id key_len value_len kind f) b e b :=
        put_with_rejected hrecorded.sized f hrejection
      cases hrun.symm.trans hthrows
      exact ⟨records, hrecorded⟩
  | clear _ hclear ih =>
    obtain ⟨records, hrecorded⟩ := ih
    exact ⟨[], (hrecorded.clear hclear).1⟩

section acceptance

variable {b : BatchInner} {key_len value_len : Nat}

end acceptance

section frame

variable {b : BatchInner} {key_len value_len : Nat}

end frame

end ordinum.batch
