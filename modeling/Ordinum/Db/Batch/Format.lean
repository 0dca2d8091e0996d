import Ordinum.Db.Batch.Inner

open exec
open ordinum.utils

namespace ordinum.batch

/-- One operation of a batch. -/
structure Record where
  kind : RecordKind
  cf_id : BitVec 64
  key : List Byte
  value : List Byte
  deriving DecidableEq, Repr

/-- The bytes of a length prefix. -/
def length_bytes (bytes : List Byte) : List Byte :=
  VarInt.groups (BitVec.ofNat 32 bytes.length)

namespace Record

/-- `kind | cf_id (u64 LE) | varint(|key|) | key | varint(|value|) | value`. -/
def encode (r : Record) : List Byte :=
  [r.kind.to_byte] ++ (wire.to_le_bytes 8 r.cf_id ++
    (length_bytes r.key ++ (r.key ++ (length_bytes r.value ++ r.value))))

/-- The lengths of a record fit their prefixes. -/
structure Fits (r : Record) : Prop where
  key : r.key.length < 2 ^ 32
  value : r.value.length < 2 ^ 32

theorem encode_ne_nil (r : Record) : r.encode ≠ [] :=
  List.cons_ne_nil _ _

end Record

def read_kind : wire.Reader Byte RecordKind := do
  let byte ← wire.next
  match byte.toNat with
  | 1 => pure .Put
  | 2 => pure .Delete
  | 3 => pure .Merge
  | 4 => pure .RangeDel
  | 5 => pure .LogData
  | _ => failure

def read_var_int : wire.Reader Byte (BitVec 32) := fun input =>
  (VarInt.decode input).map fun (value, bytes_read) => (value, input.drop bytes_read)

/-- Read one record, left to right, with `VarInt::decode` for the lengths. -/
def read_record : wire.Reader Byte Record := do
  let kind ← read_kind
  let cf_id ← wire.take 8
  let key_len ← read_var_int
  let key ← wire.take key_len.toNat
  let value_len ← read_var_int
  let value ← wire.take value_len.toNat
  pure { kind, cf_id := wire.from_le_bytes 64 cf_id, key, value }

theorem read_kind_recovers (kind : RecordKind) : read_kind.Recovers kind [kind.to_byte] := by
  intro rest
  cases kind <;> rfl

theorem read_var_int_recovers (v : BitVec 32) : read_var_int.Recovers v (VarInt.groups v) := by
  intro rest
  change (VarInt.decode (VarInt.groups v ++ rest)).map _ = _
  rw [VarInt.decode_groups]
  exact congrArg some (Prod.ext rfl List.drop_left)

/-- A record is read back from its bytes, whatever follows them. -/
theorem read_record_recovers {r : Record} (hr : r.Fits) : read_record.Recovers r r.encode := by
  have hbytes : ∀ {bytes : List Byte}, bytes.length < 2 ^ 32 →
      bytes.length = (BitVec.ofNat 32 bytes.length).toNat := by
    intro bytes hlen
    rw [BitVec.toNat_ofNat, Nat.mod_eq_of_lt hlen]
  have hcf : wire.from_le_bytes 64 (wire.to_le_bytes 8 r.cf_id) = r.cf_id :=
    wire.from_le_bytes_to_le_bytes 8 r.cf_id.isLt
  rw [Record.encode, ← List.append_nil r.value]
  apply (read_kind_recovers r.kind).bind
  apply (wire.take_recovers (wire.length_to_le_bytes 8 r.cf_id)).bind
  rw [List.append_nil, length_bytes]
  apply (read_var_int_recovers _).bind
  apply (wire.take_recovers (hbytes hr.key)).bind
  rw [length_bytes]
  apply (read_var_int_recovers _).bind
  rw [← List.append_nil r.value]
  apply (wire.take_recovers (by simpa using hbytes hr.value)).bind
  rw [hcf]
  exact wire.Reader.Recovers.pure _

theorem checked_add_eq {a b n : Nat} (h : checked_add a b = some n) : n = a + b := by
  unfold checked_add at h
  split at h <;> cases h
  rfl

theorem u32_try_from_eq {n : Nat} {v : BitVec 32} (h : u32_try_from n = some v) :
    v = BitVec.ofNat 32 n ∧ n < 2 ^ 32 := by
  unfold u32_try_from at h
  split at h <;> cases h
  exact ⟨rfl, by assumption⟩

theorem VarInt.new_eq {v : BitVec 32} {varint : VarInt} (h : VarInt.new v = some varint) :
    varint.as_slice = VarInt.groups v ∧ varint.size = (VarInt.groups v).length := by
  obtain ⟨varint', hnew, hslice, hsize⟩ := VarInt.new_spec v
  rw [hnew] at h
  cases h
  exact ⟨hslice, hsize⟩

/-- Writing into the free part of a buffer turns its beginning into the bytes
written. -/
theorem copy_from_slice_free (done src : List Byte) (free : Nat) :
    copy_from_slice (done ++ List.replicate (src.length + free) 0#8) done.length
        (done.length + src.length) src =
      some ((done ++ src) ++ List.replicate free 0#8) := by
  have hle : done.length + src.length ≤
      (done ++ List.replicate (src.length + free) 0#8).length := by
    simp only [List.length_append, List.length_replicate]
    omega
  rw [copy_from_slice, if_pos ⟨hle, rfl⟩, List.take_left, List.drop_append,
    List.drop_replicate, List.drop_of_length_le (by omega)]
  simp

namespace BatchInner

/-- The buffer that the next record is appended to: the header is written when
there is none. -/
def buffer (self : BatchInner) : List Byte :=
  if self.data.isEmpty then List.replicate HEADER_SIZE 0#8 else self.data

def with_data (self : BatchInner) (data : List Byte) : BatchInner :=
  { self with data }

@[simp] theorem with_data_data (self : BatchInner) (data : List Byte) :
    (self.with_data data).data = data := rfl

@[simp] theorem with_data_count (self : BatchInner) (data : List Byte) :
    (self.with_data data).count = self.count := rfl

theorem key_value_record_layout_returns {s s' : BatchInner} {key_len value_len size : Nat}
    {key_varint value_varint : VarInt}
    (h : Returns (key_value_record_layout key_len value_len) s (key_varint, value_varint, size)
      s') :
    s' = s ∧ (key_len < 2 ^ 32 ∧ value_len < 2 ^ 32) ∧
      VarInt.new (BitVec.ofNat 32 key_len) = some key_varint ∧
      VarInt.new (BitVec.ofNat 32 value_len) = some value_varint ∧
      size = 1 + 8 + key_varint.size + key_len + value_varint.size + value_len := by
  simp only [key_value_record_layout, returns_bind, returns_get, returns_ensure, returns_ok_or,
    returns_unwrap, returns_pure] at h
  obtain ⟨_, _, ⟨rfl, rfl⟩, _, _, ⟨_, rfl⟩, encoded_key, _, ⟨hkey, rfl⟩, _, _, ⟨hkvarint, rfl⟩,
    encoded_value, _, ⟨hvalue, rfl⟩, _, _, ⟨hvvarint, rfl⟩, _, _, ⟨hsize, rfl⟩, heq, rfl⟩ := h
  obtain ⟨rfl, hheq⟩ := Prod.mk.inj heq
  obtain ⟨rfl, rfl⟩ := Prod.mk.inj hheq
  obtain ⟨rfl, hkey_lt⟩ := u32_try_from_eq hkey
  obtain ⟨rfl, hvalue_lt⟩ := u32_try_from_eq hvalue
  simp only [Option.bind_eq_some_iff] at hsize
  obtain ⟨_, h1, _, h2, _, h3, _, h4, h5⟩ := hsize
  have h1 := checked_add_eq h1
  have h2 := checked_add_eq h2
  have h3 := checked_add_eq h3
  have h4 := checked_add_eq h4
  have h5 := checked_add_eq h5
  subst h1 h2 h3 h4 h5
  exact ⟨rfl, ⟨hkey_lt, hvalue_lt⟩, hkvarint, hvvarint, rfl⟩

theorem resize_append (data : List Byte) (n : Nat) :
    resize data (data.length + n) = data ++ List.replicate n 0#8 := by
  rw [resize, List.take_of_length_le (by omega), Nat.add_sub_cancel_left]

theorem current_size_returns {s s' : BatchInner} {record_size size : Nat}
    (h : Returns (current_size record_size) s size s') :
    s' = s.with_data s.buffer ∧ size = s.buffer.length := by
  simp only [current_size, init_buffer, returns_bind, returns_get, returns_ite, returns_assert,
    returns_modify_unwrap, returns_pure] at h
  obtain ⟨_, _, ⟨rfl, rfl⟩, hbuffer⟩ := h
  rcases hbuffer with ⟨hempty, _, _, ⟨_, _, ⟨rfl, rfl⟩, _, _, ⟨_, rfl⟩, _, _, ⟨_, rfl⟩, hinit⟩,
    rfl, rfl⟩ | ⟨hfull, rfl, rfl⟩
  · have hnil := List.isEmpty_iff.mp hempty
    obtain rfl := Option.some.inj hinit
    simp [with_data, buffer, resize, hnil]
  · simp [with_data, buffer, hfull]

theorem reserve_operation_returns {s s' : BatchInner} {record_size start stop : Nat}
    (h : Returns (reserve_operation record_size) s (start, stop) s') :
    s' = s.with_data (s.buffer ++ List.replicate record_size 0#8) ∧
      start = s.buffer.length ∧ stop = s.buffer.length + record_size := by
  simp only [reserve_operation, returns_bind, returns_get, returns_ensure, returns_ok_or,
    returns_modify_unwrap, returns_pure] at h
  obtain ⟨_, _, ⟨rfl, rfl⟩, _, _, ⟨_, rfl⟩, _, _, ⟨_, rfl⟩, size, t, hsize, stop', _,
    ⟨hstop, rfl⟩, _, _, ⟨_, rfl⟩, _, _, ⟨rfl, rfl⟩, _, t', hresize, heq, rfl⟩ := h
  obtain ⟨rfl, rfl⟩ := Prod.mk.inj heq
  obtain ⟨rfl, rfl⟩ := current_size_returns hsize
  obtain rfl := checked_add_eq hstop
  obtain rfl := Option.some.inj hresize
  refine ⟨?_, rfl, rfl⟩
  rw [← resize_append]
  rfl

theorem copy_into_returns {b s' : BatchInner} {done src : List Byte} {free index len : Nat}
    {u : Unit} (h : Returns (copy_into index len src)
      (b.with_data (done ++ List.replicate (src.length + free) 0#8)) u s')
    (hindex : index = done.length) (hlen : len = src.length) :
    s' = b.with_data ((done ++ src) ++ List.replicate free 0#8) := by
  subst hindex hlen
  rw [copy_into, returns_modify_unwrap, with_data_data, copy_from_slice_free] at h
  exact (Option.some.inj h).symm

/-- A buffer whose header shows the count. -/
def counted (data : List Byte) (count : BitVec 32) : List Byte :=
  data.take BATCH_COUNT_OFFSET ++ wire.to_le_bytes 4 count ++ data.drop HEADER_SIZE

theorem adjust_count_in_header_returns {s s' : BatchInner} {count old : BitVec 32}
    (h : Returns (adjust_count_in_header count) s old s') :
    s' = s.with_data (counted s.data count) := by
  simp only [adjust_count_in_header, returns_bind, returns_get, returns_assert,
    returns_modify_unwrap, returns_pure] at h
  obtain ⟨_, _, ⟨rfl, rfl⟩, _, _, ⟨hheader, rfl⟩, _, t, hcopy, _, rfl⟩ := h
  have hcount : BATCH_COUNT_OFFSET + (wire.to_le_bytes 4 count).length = HEADER_SIZE := by
    rw [wire.length_to_le_bytes]
    rfl
  rw [copy_from_slice, if_pos ⟨hheader, hcount⟩] at hcopy
  exact (Option.some.inj hcopy).symm

/-- The bytes written from `start` on are those of the record. -/
theorem write_put_returns {b s' : BatchInner} {index : Nat} {cf_id : BitVec 64}
    {key value done : List Byte} {key_varint value_varint : VarInt}
    (h : Returns (write_put done.length cf_id key value key_varint value_varint)
      (b.with_data (done ++ List.replicate
        (1 + 8 + key_varint.size + key.length + value_varint.size + value.length) 0#8)) index s')
    (hkey : VarInt.new (BitVec.ofNat 32 key.length) = some key_varint)
    (hvalue : VarInt.new (BitVec.ofNat 32 value.length) = some value_varint) :
    s' = b.with_data (done ++ Record.encode { kind := .Put, cf_id, key, value }) := by
  obtain ⟨hkslice, hksize⟩ := VarInt.new_eq hkey
  obtain ⟨hvslice, hvsize⟩ := VarInt.new_eq hvalue
  have hassoc : 1 + 8 + key_varint.size + key.length + value_varint.size + value.length =
      [RecordKind.Put.to_byte].length + ((wire.to_le_bytes 8 cf_id).length +
        ((length_bytes key).length + (key.length + ((length_bytes value).length +
          (value.length + 0))))) := by
    rw [wire.length_to_le_bytes, List.length_singleton, length_bytes, length_bytes, hksize, hvsize]
    omega
  rw [hassoc] at h
  simp only [write_put, returns_bind, returns_pure, hkslice, hksize, hvslice, hvsize] at h
  obtain ⟨_, t1, hkind, _, t2, hcf, _, t3, hklen, _, t4, hkey, _, t5, hvlen, _, t6, hvalue, _,
    rfl⟩ := h
  obtain rfl := copy_into_returns hkind rfl rfl
  obtain rfl := copy_into_returns hcf (by simp) (by simp)
  obtain rfl := copy_into_returns hklen (by simp) rfl
  obtain rfl := copy_into_returns hkey (by simp; omega) rfl
  obtain rfl := copy_into_returns hvlen (by simp; omega) rfl
  obtain rfl := copy_into_returns hvalue (by simp; omega) rfl
  simp [Record.encode, length_bytes]

/-- A put that returns appends its record to the buffer and counts it in the
header. -/
theorem put_returns {s s' : BatchInner} {cf_id : BitVec 64} {key value : List Byte} {u : Unit}
    (h : Returns (put cf_id key value) s u s') :
    Record.Fits { kind := .Put, cf_id, key, value } ∧ s.count.toNat + 1 < 2 ^ 32 ∧
      s' = { s with
        data := counted (s.buffer ++ Record.encode { kind := .Put, cf_id, key, value })
          (s.count + 1#32)
        count := s.count + 1#32 } := by
  simp only [put, increment_count, returns_bind, returns_assert, returns_get, returns_pure,
    returns_modify_unwrap] at h
  obtain ⟨⟨key_varint, value_varint, size⟩, t, hlayout, ⟨start, stop⟩, t0, hreserve, index, t1,
    hwrite, _, _, ⟨_, rfl⟩, _, t2, hincrement, _, _, ⟨rfl, rfl⟩, old, t3, hadjust, _, rfl⟩ := h
  obtain ⟨rfl, ⟨hkey_lt, hvalue_lt⟩, hkvarint, hvvarint, rfl⟩ :=
    key_value_record_layout_returns hlayout
  obtain ⟨rfl, rfl, rfl⟩ := reserve_operation_returns hreserve
  obtain rfl := write_put_returns hwrite hkvarint hvvarint
  split at hincrement
  · rename_i hcount
    obtain rfl := Option.some.inj hincrement
    obtain rfl := adjust_count_in_header_returns hadjust
    exact ⟨⟨hkey_lt, hvalue_lt⟩, hcount, rfl⟩
  · cases hincrement

end BatchInner

/-- One call of `put`. -/
structure PutCall where
  cf_id : BitVec 64
  key : List Byte
  value : List Byte
  deriving DecidableEq, Repr

def PutCall.record (call : PutCall) : Record :=
  { kind := .Put, cf_id := call.cf_id, key := call.key, value := call.value }

/-- A sequence of puts, given up at the first one that is rejected. -/
def put_all : List PutCall → BatchM Unit
  | [] => pure ()
  | call :: calls => do
    BatchInner.put call.cf_id call.key call.value
    put_all calls

/-- The buffer shows the sequence bytes, the count and the records. -/
structure Formatted (seq : List Byte) (records : List Record) (b : BatchInner) : Prop where
  buffer : b.buffer = seq ++ wire.to_le_bytes 4 b.count ++ records.flatMap Record.encode
  seq_length : seq.length = BatchInner.BATCH_COUNT_OFFSET
  count : b.count.toNat = records.length
  fits : ∀ r ∈ records, r.Fits

theorem BatchInner.counted_format {seq ops : List Byte} {count count' : BitVec 32}
    (hseq : seq.length = BATCH_COUNT_OFFSET) :
    counted (seq ++ wire.to_le_bytes 4 count ++ ops) count' =
      seq ++ wire.to_le_bytes 4 count' ++ ops := by
  have hheader : (seq ++ wire.to_le_bytes 4 count).length = HEADER_SIZE := by
    rw [List.length_append, wire.length_to_le_bytes, hseq]
    rfl
  rw [counted, ← hseq, ← hheader, List.drop_left, List.append_assoc seq, List.take_left]

/-- Each put that returns adds its record to the format, and the buffer is then
written out. -/
theorem Formatted.put {seq : List Byte} {records : List Record} {b b' : BatchInner}
    {call : PutCall} {u : Unit} (hb : Formatted seq records b)
    (h : Returns (BatchInner.put call.cf_id call.key call.value) b u b') :
    Formatted seq (records ++ [call.record]) b' ∧ b'.data = b'.buffer := by
  obtain ⟨hfits, hcount, rfl⟩ := BatchInner.put_returns h
  have hdata : BatchInner.counted (b.buffer ++ call.record.encode) (b.count + 1#32) =
      seq ++ wire.to_le_bytes 4 (b.count + 1#32) ++
        (records ++ [call.record]).flatMap Record.encode := by
    rw [hb.buffer, List.append_assoc, BatchInner.counted_format hb.seq_length,
      List.flatMap_append, List.flatMap_singleton]
  have hbuffer : BatchInner.buffer { b with
      data := BatchInner.counted (b.buffer ++ call.record.encode) (b.count + 1#32)
      count := b.count + 1#32 } =
      BatchInner.counted (b.buffer ++ call.record.encode) (b.count + 1#32) := by
    rw [BatchInner.buffer, if_neg]
    rw [hdata, List.isEmpty_iff]
    intro hnil
    have hlen := congrArg List.length hnil
    rw [List.length_append, List.length_append, hb.seq_length] at hlen
    simp [BatchInner.BATCH_COUNT_OFFSET] at hlen
  refine ⟨⟨hbuffer.trans hdata, hb.seq_length, ?_, ?_⟩, hbuffer.symm⟩
  · rw [BitVec.toNat_add, hb.count, List.length_append, List.length_singleton, ← hb.count]
    exact Nat.mod_eq_of_lt hcount
  · intro r hr
    obtain hold | hnew := List.mem_append.mp hr
    · exact hb.fits r hold
    · rw [List.mem_singleton.mp hnew]
      exact hfits

theorem Formatted.put_all {seq : List Byte} {calls : List PutCall} : ∀ {records : List Record}
    {b b' : BatchInner} {u : Unit}, Formatted seq records b →
    (calls = [] → b.data = b.buffer) → Returns (put_all calls) b u b' →
    Formatted seq (records ++ calls.map PutCall.record) b' ∧ b'.data = b'.buffer := by
  induction calls with
  | nil =>
    intro records b b' u hb hwritten h
    simp only [batch.put_all, returns_pure] at h
    obtain ⟨_, rfl⟩ := h
    exact ⟨by simpa using hb, hwritten rfl⟩
  | cons call calls ih =>
    intro records b b' u hb _ h
    simp only [batch.put_all, returns_bind] at h
    obtain ⟨_, t, hput, hrest⟩ := h
    obtain ⟨hformat, hwritten⟩ := hb.put hput
    obtain ⟨hall, hdata⟩ := ih hformat (fun _ => hwritten) hrest
    rw [List.append_assoc, List.singleton_append, ← List.map_cons] at hall
    exact ⟨hall, hdata⟩

/-- A batch just constructed. -/
def Fresh (b : BatchInner) : Prop :=
  b = BatchInner.new ∨ ∃ cap, BatchInner.new_with_capacity cap = some b

/-- A batch just cleared. -/
def Cleared (b : BatchInner) : Prop :=
  ∃ old, BatchInner.clear old = some b

theorem Fresh.eq_new {b : BatchInner} (hb : Fresh b) : b = BatchInner.new := by
  obtain rfl | ⟨cap, hnew⟩ := hb
  · rfl
  · simp only [BatchInner.new_with_capacity, Option.bind_eq_bind, Option.bind_eq_some_iff] at hnew
    obtain ⟨_, _, hnew⟩ := hnew
    split at hnew <;> cases hnew
    rfl

theorem Cleared.data_eq {b : BatchInner} (hb : Cleared b) : b.data = [] ∧ b.count = 0 := by
  obtain ⟨old, hclear⟩ := hb
  unfold BatchInner.clear at hclear
  split at hclear <;> cases hclear
  exact ⟨rfl, rfl⟩

theorem formatted_start {b : BatchInner} (hdata : b.buffer = List.replicate 12 0#8)
    (hcount : b.count = 0) : Formatted (List.replicate 8 0#8) [] b := by
  refine ⟨?_, List.length_replicate, ?_, fun r hr => by cases hr⟩
  · rw [hdata, hcount]
    decide
  · rw [hcount]
    rfl

/-- What a sequence of puts leaves in a fresh or cleared batch. -/
theorem put_all_formatted {calls : List PutCall} {start b : BatchInner} {u : Unit}
    (hstart : Fresh start ∨ Cleared start ∧ calls ≠ []) (h : Returns (put_all calls) start u b) :
    Formatted (List.replicate 8 0#8) (calls.map PutCall.record) b ∧ b.data = b.buffer := by
  obtain hfresh | ⟨hcleared, hne⟩ := hstart
  · obtain rfl := hfresh.eq_new
    exact (formatted_start rfl rfl).put_all (fun _ => rfl) h
  · obtain ⟨hdata, hcount⟩ := hcleared.data_eq
    have hbuffer : start.buffer = List.replicate 12 0#8 := by
      rw [BatchInner.buffer, hdata]
      rfl
    exact (formatted_start hbuffer hcount).put_all (fun hnil => absurd hnil hne) h

/-- The operation bytes of a formatted batch. -/
theorem Formatted.operations {seq : List Byte} {records : List Record} {b : BatchInner}
    (hb : Formatted seq records b) :
    b.buffer.drop BatchInner.HEADER_SIZE = records.flatMap Record.encode := by
  have hheader : (seq ++ wire.to_le_bytes 4 b.count).length = BatchInner.HEADER_SIZE := by
    rw [List.length_append, wire.length_to_le_bytes, hb.seq_length]
    rfl
  rw [hb.buffer, ← hheader, List.drop_left]

theorem Formatted.recovers {seq : List Byte} {records : List Record} {b : BatchInner}
    (hb : Formatted seq records b) :
    ∀ r ∈ records, read_record.Recovers r r.encode ∧ r.encode ≠ [] :=
  fun r hr => ⟨read_record_recovers (hb.fits r hr), r.encode_ne_nil⟩

theorem PutCall.record_injective : Function.Injective PutCall.record := by
  rintro ⟨cf_id, key, value⟩ ⟨cf_id', key', value'⟩ heq
  cases heq
  rfl

/-- The bytes of a batch are its sequence bytes, the number of its puts and their
records in order; reading the records gives the puts back, and no other sequence
of puts gives the same operation bytes. -/
theorem put_all_faithful {calls : List PutCall} {start b : BatchInner}
    (hstart : Fresh start ∨ Cleared start ∧ calls ≠ [])
    (h : Returns (put_all calls) start () b) :
    b.data = List.replicate 8 0#8 ++ wire.to_le_bytes 4 (BitVec.ofNat 32 calls.length) ++
        (calls.map PutCall.record).flatMap Record.encode ∧
      calls.length < 2 ^ 32 ∧
      wire.read_to_end read_record (b.data.drop BatchInner.HEADER_SIZE) =
        some (calls.map PutCall.record) ∧
      ∀ (calls' : List PutCall) (start' b' : BatchInner),
        (Fresh start' ∨ Cleared start' ∧ calls' ≠ []) → Returns (put_all calls') start' () b' →
        b'.data.drop BatchInner.HEADER_SIZE = b.data.drop BatchInner.HEADER_SIZE →
        calls' = calls := by
  obtain ⟨hformat, hdata⟩ := put_all_formatted hstart h
  have hcount : b.count.toNat = calls.length := by simpa using hformat.count
  have hword : b.count = BitVec.ofNat 32 calls.length := by
    rw [← hcount, BitVec.ofNat_toNat, BitVec.setWidth_eq]
  refine ⟨?_, ?_, ?_, ?_⟩
  · rw [hdata, hformat.buffer, hword]
  · rw [← hcount]
    exact b.count.isLt
  · rw [hdata, hformat.operations]
    exact wire.read_to_end_flatMap hformat.recovers
  · intro calls' start' b' hstart' h' hsame
    obtain ⟨hformat', hdata'⟩ := put_all_formatted hstart' h'
    rw [hdata, hdata', hformat.operations, hformat'.operations] at hsame
    have hrecords := wire.flatMap_injective hformat'.recovers hformat.recovers hsame
    exact List.map_injective_iff.mpr PutCall.record_injective hrecords

def two_puts : List PutCall :=
  [{ cf_id := 7#64, key := [1#8], value := [2#8, 3#8] },
    { cf_id := 0#64, key := [], value := [255#8] }]

theorem put_all_faithful_two_puts : ∃ b,
    Returns (put_all two_puts) BatchInner.new () b ∧
      b.data.take 12 = List.replicate 8 0#8 ++ [2#8, 0#8, 0#8, 0#8] ∧
      wire.read_to_end read_record (b.data.drop BatchInner.HEADER_SIZE) =
        some (two_puts.map PutCall.record) := by
  obtain ⟨b, hreturns, hheader⟩ := returns_showing (put_all two_puts) BatchInner.new
    (fun b => b.data.take 12) (List.replicate 8 0#8 ++ [2#8, 0#8, 0#8, 0#8]) (by decide +kernel)
  exact ⟨b, hreturns, hheader, (put_all_faithful (.inl (.inl rfl)) hreturns).2.2.1⟩

/-- A cleared batch has no header until its first put. -/
theorem cleared_batch_has_no_header : ∃ start b, Cleared start ∧
    Returns (put_all []) start () b ∧
    ¬ ∃ seq : List Byte, seq.length = 8 ∧
      b.data = seq ++ wire.to_le_bytes 4 0#32 ++ ([] : List Record).flatMap Record.encode := by
  refine ⟨{ BatchInner.new with data := [] }, _, ⟨BatchInner.new, rfl⟩, rfl, ?_⟩
  rintro ⟨seq, hlen, hdata⟩
  have hempty := congrArg List.length hdata
  rw [List.length_append, List.length_append, hlen] at hempty
  simp at hempty

end ordinum.batch
