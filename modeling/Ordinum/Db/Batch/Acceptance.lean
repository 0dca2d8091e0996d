import Ordinum.Db.Batch.Format

open exec
open ordinum.utils

namespace ordinum.batch

/-- The size of the length prefix of `n` bytes. -/
def varint_len (n : Nat) : Nat := (VarInt.groups (BitVec.ofNat 32 n)).length

/-- The size of a record with a key and a value of these lengths. -/
def record_size (key_len value_len : Nat) : Nat :=
  9 + varint_len key_len + key_len + varint_len value_len + value_len

theorem varint_len_bounds (n : Nat) : 1 ≤ varint_len n ∧ varint_len n ≤ 5 :=
  ⟨VarInt.groups_length_pos _, VarInt.groups_length_le_max _⟩

theorem length_encode (r : Record) :
    r.encode.length = record_size r.key.length r.value.length := by
  simp only [Record.encode, List.length_append, List.length_singleton, wire.length_to_le_bytes,
    length_bytes, record_size, varint_len]
  omega

namespace BatchInner

/-- Why a batch rejects a record of these lengths, if it does. -/
def rejection (self : BatchInner) (key_len value_len : Nat) : Option Error :=
  if MAX_USER_KEY_BYTES < key_len then some (.KeyTooLarge key_len MAX_USER_KEY_BYTES)
  else if 2 ^ 32 - 1 < value_len then some (.ValueTooLarge value_len (2 ^ 32 - 1))
  else if self.max_batch_size < HEADER_SIZE + record_size key_len value_len then
    some (.RecordTooLarge (HEADER_SIZE + record_size key_len value_len) self.max_batch_size)
  else if self.max_batch_size < self.buffer.length + record_size key_len value_len then
    some (.BatchFull (record_size key_len value_len) self.buffer.length self.max_batch_size)
  else none

/-- The limits that hold of every batch in use. -/
structure Sized (b : BatchInner) : Prop where
  max_batch_size : b.max_batch_size = MAX_BATCH_SIZE
  size : b.data = [] ∨ HEADER_SIZE ≤ b.data.length ∧ b.data.length ≤ MAX_BATCH_SIZE
  count : 11 * b.count.toNat + HEADER_SIZE ≤ b.buffer.length
  state : b.runtime_commit_state = .Acquired

variable {b : BatchInner} {key_len value_len : Nat}

theorem rejection_none_iff : b.rejection key_len value_len = none ↔
    key_len ≤ MAX_USER_KEY_BYTES ∧ value_len ≤ 2 ^ 32 - 1 ∧
      HEADER_SIZE + record_size key_len value_len ≤ b.max_batch_size ∧
      b.buffer.length + record_size key_len value_len ≤ b.max_batch_size := by
  unfold rejection
  split
  · simp only [reduceCtorEq, false_iff]
    omega
  · split
    · simp only [reduceCtorEq, false_iff]
      omega
    · split
      · simp only [reduceCtorEq, false_iff]
        omega
      · split
        · simp only [reduceCtorEq, false_iff]
          omega
        · simp only [true_iff]
          omega

theorem Sized.buffer_length (hb : Sized b) :
    HEADER_SIZE ≤ b.buffer.length ∧ b.buffer.length ≤ MAX_BATCH_SIZE := by
  unfold buffer
  obtain hempty | hfull := hb.size
  · rw [if_pos (List.isEmpty_iff.mpr hempty), List.length_replicate]
    decide
  · split
    · rw [List.length_replicate]
      decide
    · exact hfull

section layout

theorem checked_add_of_lt {m n : Nat} (h : m + n < 2 ^ 64) : checked_add m n = some (m + n) := by
  rw [checked_add, if_pos h]

theorem u32_try_from_of_lt {n : Nat} (h : n < 2 ^ 32) :
    u32_try_from n = some (BitVec.ofNat 32 n) := by
  rw [u32_try_from, if_pos h]

/-- The size of a record that fits its prefixes does not overflow. -/
theorem record_size_lt (hkey : key_len ≤ MAX_USER_KEY_BYTES) (hvalue : value_len ≤ 2 ^ 32 - 1) :
    record_size key_len value_len < 2 ^ 33 := by
  have hk := varint_len_bounds key_len
  have hv := varint_len_bounds value_len
  unfold record_size
  change key_len ≤ 65535 at hkey
  omega

theorem layout_key_too_large (b : BatchInner) (hkey : MAX_USER_KEY_BYTES < key_len) :
    Throws (key_value_record_layout key_len value_len) b
      (.KeyTooLarge key_len MAX_USER_KEY_BYTES) b := by
  simp only [key_value_record_layout, throws_bind, throws_get, throws_ensure, returns_get]
  exact .inr ⟨b, b, ⟨rfl, rfl⟩, .inl ⟨by omega, trivial, rfl⟩⟩

theorem layout_value_too_large (b : BatchInner) (hkey : key_len ≤ MAX_USER_KEY_BYTES)
    (hvalue : 2 ^ 32 - 1 < value_len) :
    Throws (key_value_record_layout key_len value_len) b
      (.ValueTooLarge value_len (2 ^ 32 - 1)) b := by
  have hkey_lt : key_len < 2 ^ 32 := by
    change key_len ≤ 65535 at hkey
    omega
  obtain ⟨key_varint, hkv, -⟩ := VarInt.new_spec (BitVec.ofNat 32 key_len)
  have hnone : u32_try_from value_len = none := by
    rw [u32_try_from, if_neg (by omega)]
  simp only [key_value_record_layout, throws_bind, throws_get, throws_ensure, throws_ok_or,
    returns_get, returns_ensure, returns_ok_or, returns_unwrap]
  refine .inr ⟨b, b, ⟨rfl, rfl⟩, .inr ⟨(), b, ⟨hkey, rfl⟩, .inr ⟨_, b,
    ⟨u32_try_from_of_lt hkey_lt, rfl⟩, .inr ⟨key_varint, b, ⟨hkv, rfl⟩, .inl ⟨hnone, trivial, rfl⟩⟩⟩⟩⟩

theorem layout_returns (b : BatchInner) (hkey : key_len ≤ MAX_USER_KEY_BYTES)
    (hvalue : value_len ≤ 2 ^ 32 - 1) : ∃ key_varint value_varint,
      Returns (key_value_record_layout key_len value_len) b
        (key_varint, value_varint, record_size key_len value_len) b ∧
      VarInt.new (BitVec.ofNat 32 key_len) = some key_varint ∧
      VarInt.new (BitVec.ofNat 32 value_len) = some value_varint := by
  have hkey_lt : key_len < 2 ^ 32 := by
    change key_len ≤ 65535 at hkey
    omega
  have hsize := record_size_lt hkey hvalue
  obtain ⟨key_varint, hkv, -, hkvsize⟩ := VarInt.new_spec (BitVec.ofNat 32 key_len)
  obtain ⟨value_varint, hvv, -, hvvsize⟩ := VarInt.new_spec (BitVec.ofNat 32 value_len)
  refine ⟨key_varint, value_varint, ?_, hkv, hvv⟩
  change key_varint.size = varint_len key_len at hkvsize
  change value_varint.size = varint_len value_len at hvvsize
  have hadd : ((checked_add 1 8).bind fun size => (checked_add size key_varint.size).bind
      fun size => (checked_add size key_len).bind fun size =>
        (checked_add size value_varint.size).bind fun size => checked_add size value_len) =
      some (record_size key_len value_len) := by
    unfold record_size at hsize ⊢
    rw [hkvsize, hvvsize, checked_add_of_lt (by omega), Option.bind_some,
      checked_add_of_lt (by omega), Option.bind_some, checked_add_of_lt (by omega),
      Option.bind_some, checked_add_of_lt (by omega), Option.bind_some,
      checked_add_of_lt (by omega)]
  simp only [key_value_record_layout, returns_bind, returns_get, returns_ensure, returns_ok_or,
    returns_unwrap, returns_pure]
  exact ⟨b, b, ⟨rfl, rfl⟩, (), b, ⟨hkey, rfl⟩, _, b, ⟨u32_try_from_of_lt hkey_lt, rfl⟩, _, b,
    ⟨hkv, rfl⟩, _, b, ⟨u32_try_from_of_lt (by omega), rfl⟩, _, b, ⟨hvv, rfl⟩, _, b, ⟨hadd, rfl⟩,
    rfl, rfl⟩

end layout

section reserve

variable {size : Nat}

/-- A record that no batch holds is rejected before the header is written. -/
theorem reserve_too_large (hlt : size < 2 ^ 33) (hsize : b.max_batch_size < HEADER_SIZE + size) :
    Throws (reserve_operation size) b (.RecordTooLarge (HEADER_SIZE + size) b.max_batch_size) b := by
  have hadd : checked_add HEADER_SIZE size = some (HEADER_SIZE + size) :=
    checked_add_of_lt (by unfold HEADER_SIZE; omega)
  simp only [reserve_operation, throws_bind, throws_get, throws_ok_or, throws_ensure, returns_get,
    returns_ok_or]
  exact .inr ⟨b, b, ⟨rfl, rfl⟩, .inr ⟨_, b, ⟨hadd, rfl⟩, .inl ⟨by omega, rfl, rfl⟩⟩⟩

theorem current_size_exact (hsize : HEADER_SIZE + size ≤ b.max_batch_size) :
    Returns (current_size size) b b.buffer.length (b.with_data b.buffer) := by
  simp only [current_size, init_buffer, returns_bind, returns_get, returns_ite, returns_assert,
    returns_modify_unwrap, returns_pure]
  refine ⟨b, b, ⟨rfl, rfl⟩, ?_⟩
  by_cases hempty : b.data.isEmpty
  · have hnil := List.isEmpty_iff.mp hempty
    left
    refine ⟨hempty, (), b.with_data b.buffer, ⟨b, b, ⟨rfl, rfl⟩, (), b, ⟨?_, rfl⟩, (), b,
      ⟨hsize, rfl⟩, ?_⟩, ?_, rfl⟩
    · rw [hnil, List.length_nil]
    · simp [with_data, buffer, resize, hnil]
    · rw [buffer, if_pos hempty, List.length_replicate]
  · right
    refine ⟨hempty, ?_, ?_⟩
    · rw [buffer, if_neg hempty]
    · rw [buffer, if_neg hempty]
      rfl

/-- A batch that is full for the record is left as it is. -/
theorem reserve_full (hb : Sized b) (hsize : HEADER_SIZE + size ≤ b.max_batch_size)
    (hfull : b.max_batch_size < b.buffer.length + size) :
    Throws (reserve_operation size) b (.BatchFull size b.buffer.length b.max_batch_size) b := by
  have hlength := hb.buffer_length
  have hmax := hb.max_batch_size
  have hbuffer : b.with_data b.buffer = b := by
    rw [buffer, if_neg]
    · rfl
    · intro hempty
      rw [buffer, if_pos hempty, List.length_replicate] at hfull
      omega
  have hcurrent := current_size_exact hsize
  rw [hbuffer] at hcurrent
  have hbound : MAX_BATCH_SIZE = 2 ^ 20 := rfl
  have hheader : HEADER_SIZE = 12 := rfl
  simp only [reserve_operation, throws_bind, throws_get, throws_ok_or, throws_ensure, returns_get,
    returns_ok_or, returns_ensure]
  exact .inr ⟨b, b, ⟨rfl, rfl⟩, .inr ⟨_, b, ⟨checked_add_of_lt (by omega), rfl⟩, .inr ⟨(), b,
    ⟨hsize, rfl⟩, .inr ⟨_, b, hcurrent, .inr ⟨_, b, ⟨checked_add_of_lt (by omega), rfl⟩,
      .inl ⟨by omega, rfl, rfl⟩⟩⟩⟩⟩⟩

theorem reserve_exact (hb : Sized b) (hsize : HEADER_SIZE + size ≤ b.max_batch_size)
    (hroom : b.buffer.length + size ≤ b.max_batch_size) :
    Returns (reserve_operation size) b (b.buffer.length, b.buffer.length + size)
      (b.with_data (b.buffer ++ List.replicate size 0#8)) := by
  have hmax := hb.max_batch_size
  have hbound : MAX_BATCH_SIZE = 2 ^ 20 := rfl
  simp only [reserve_operation, returns_bind, returns_get, returns_ensure, returns_ok_or,
    returns_modify_unwrap, returns_pure]
  refine ⟨b, b, ⟨rfl, rfl⟩, _, b, ⟨checked_add_of_lt (by omega), rfl⟩, (), b, ⟨hsize, rfl⟩, _, _,
    current_size_exact hsize, _, _, ⟨checked_add_of_lt (by omega), rfl⟩, (), _, ⟨hroom, rfl⟩, _, _,
    ⟨rfl, rfl⟩, (), _, ?_, rfl, rfl⟩
  rw [with_data_data, resize_append]
  rfl

end reserve

section put

variable {cf_id : BitVec 64} {key value : List Byte}

/-- A buffer whose last `free` bytes are still to be written. -/
def filled (b : BatchInner) (done : List Byte) (free : Nat) : BatchInner :=
  b.with_data (done ++ List.replicate free 0#8)

theorem copy_into_free (b : BatchInner) (done src : List Byte) (free : Nat) {index len : Nat}
    (hindex : index = done.length) (hlen : len = src.length) :
    Returns (copy_into index len src) (b.filled done (src.length + free)) ()
      (b.filled (done ++ src) free) := by
  subst hindex hlen
  rw [filled, filled, copy_into, returns_modify_unwrap, with_data_data, copy_from_slice_free]
  rfl

/-- The record is written into the bytes reserved for it, up to their end. -/
theorem write_put_exact (b : BatchInner) (done : List Byte) (cf_id : BitVec 64)
    (key value : List Byte) {key_varint value_varint : VarInt}
    (hkey : VarInt.new (BitVec.ofNat 32 key.length) = some key_varint)
    (hvalue : VarInt.new (BitVec.ofNat 32 value.length) = some value_varint) :
    Returns (write_put done.length cf_id key value key_varint value_varint)
      (b.filled done (record_size key.length value.length))
      (done.length + record_size key.length value.length)
      (b.with_data (done ++ Record.encode { kind := .Put, cf_id, key, value })) := by
  obtain ⟨hkslice, hksize⟩ := VarInt.new_eq hkey
  obtain ⟨hvslice, hvsize⟩ := VarInt.new_eq hvalue
  have hkind : [RecordKind.Put.to_byte].length = 1 := rfl
  have hcf : (wire.to_le_bytes 8 cf_id).length = 8 := wire.length_to_le_bytes 8 cf_id
  have hkey_bytes : (length_bytes key).length = key_varint.size := hksize.symm
  have hvalue_bytes : (length_bytes value).length = value_varint.size := hvsize.symm
  have hsize : record_size key.length value.length =
      [RecordKind.Put.to_byte].length + ((wire.to_le_bytes 8 cf_id).length +
        ((length_bytes key).length + (key.length + ((length_bytes value).length +
          (value.length + 0))))) := by
    simp only [record_size, varint_len, hkind, hcf, length_bytes]
    omega
  have hend : b.with_data (done ++ Record.encode { kind := .Put, cf_id, key, value }) =
      b.filled (done ++ [RecordKind.Put.to_byte] ++ wire.to_le_bytes 8 cf_id ++
        length_bytes key ++ key ++ length_bytes value ++ value) 0 := by
    simp [filled, Record.encode]
  rw [hsize, hend]
  simp only [write_put, returns_bind, returns_pure, hkslice, hvslice]
  refine ⟨(), _, copy_into_free b _ _ _ rfl rfl, (), _, copy_into_free b _ _ _ ?_ hcf.symm, (), _,
    copy_into_free b _ (length_bytes key) _ ?_ hkey_bytes.symm, (), _,
    copy_into_free b _ _ _ ?_ rfl, (), _,
    copy_into_free b _ (length_bytes value) _ ?_ hvalue_bytes.symm, (), _,
    copy_into_free b _ _ _ ?_ rfl, ?_, rfl⟩
  all_goals simp only [List.length_append, hkind, hcf, hkey_bytes, hvalue_bytes]
  omega

theorem adjust_count_in_header_exact (count : BitVec 32) (hlength : HEADER_SIZE ≤ b.data.length) :
    Returns (adjust_count_in_header count) b
      (wire.from_le_bytes 32 ((b.data.take HEADER_SIZE).drop BATCH_COUNT_OFFSET))
      (b.with_data (counted b.data count)) := by
  have hcount : BATCH_COUNT_OFFSET + (wire.to_le_bytes 4 count).length = HEADER_SIZE := by
    rw [wire.length_to_le_bytes]
    rfl
  simp only [adjust_count_in_header, returns_bind, returns_get, returns_assert,
    returns_modify_unwrap, returns_pure]
  refine ⟨b, b, ⟨rfl, rfl⟩, (), b, ⟨hlength, rfl⟩, (), _, ?_, rfl, rfl⟩
  rw [copy_from_slice, if_pos ⟨hlength, hcount⟩]
  rfl

/-- The batch after a put. -/
def with_put (b : BatchInner) (cf_id : BitVec 64) (key value : List Byte) : BatchInner :=
  { b with
    data := counted (b.buffer ++ Record.encode { kind := .Put, cf_id, key, value }) (b.count + 1#32)
    count := b.count + 1#32 }

/-- Where a put is not rejected its count does not overflow. -/
theorem Sized.count_lt (hb : Sized b) : b.count.toNat + 1 < 2 ^ 32 := by
  have hcount := hb.count
  have hlength := hb.buffer_length.2
  have hbound : MAX_BATCH_SIZE = 2 ^ 20 := rfl
  omega

theorem put_exact (hb : Sized b) (cf_id : BitVec 64)
    (haccepted : b.rejection key.length value.length = none) :
    Returns (put cf_id key value) b () (b.with_put cf_id key value) := by
  obtain ⟨hkey, hvalue, hsize, hroom⟩ := rejection_none_iff.mp haccepted
  obtain ⟨key_varint, value_varint, hlayout, hkv, hvv⟩ := layout_returns b hkey hvalue
  have hwrite := write_put_exact b b.buffer cf_id key value hkv hvv
  have hcount := hb.count_lt
  simp only [put, increment_count, returns_bind, returns_assert, returns_get, returns_pure,
    returns_modify_unwrap]
  refine ⟨_, b, hlayout, _, _, reserve_exact hb hsize hroom, _, _, hwrite, (), _, ⟨rfl, rfl⟩, (), _,
    if_pos hcount, _, _, ⟨rfl, rfl⟩, _, _, adjust_count_in_header_exact _ ?_, trivial, rfl⟩
  change HEADER_SIZE ≤ (b.buffer ++ Record.encode { kind := .Put, cf_id, key, value }).length
  rw [List.length_append]
  have hlength := hb.buffer_length.1
  omega

/-- A rejection comes from the layout or from the reservation. -/
theorem rejected_cases (hb : Sized b) {e : Error}
    (hrejected : b.rejection key_len value_len = some e) :
    Throws (key_value_record_layout key_len value_len) b e b ∨ ∃ key_varint value_varint,
      Returns (key_value_record_layout key_len value_len) b
        (key_varint, value_varint, record_size key_len value_len) b ∧
      Throws (reserve_operation (record_size key_len value_len)) b e b := by
  unfold rejection at hrejected
  split at hrejected
  · rename_i hkey
    obtain rfl := Option.some.inj hrejected
    exact .inl (layout_key_too_large b hkey)
  · rename_i hkey
    have hkey := Nat.le_of_not_lt hkey
    split at hrejected
    · rename_i hvalue
      obtain rfl := Option.some.inj hrejected
      exact .inl (layout_value_too_large b hkey hvalue)
    · rename_i hvalue
      have hvalue := Nat.le_of_not_lt hvalue
      obtain ⟨key_varint, value_varint, hlayout, -⟩ := layout_returns b hkey hvalue
      refine .inr ⟨key_varint, value_varint, hlayout, ?_⟩
      split at hrejected
      · rename_i hlarge
        obtain rfl := Option.some.inj hrejected
        exact reserve_too_large (record_size_lt hkey hvalue) hlarge
      · rename_i hsize
        split at hrejected
        · rename_i hfull
          obtain rfl := Option.some.inj hrejected
          exact reserve_full hb (Nat.le_of_not_lt hsize) hfull
        · cases hrejected

/-- A rejected put leaves the batch as it is. -/
theorem put_rejected (hb : Sized b) (cf_id : BitVec 64) {e : Error}
    (hrejected : b.rejection key.length value.length = some e) :
    Throws (put cf_id key value) b e b := by
  simp only [put, throws_bind]
  obtain hlayout | ⟨key_varint, value_varint, hlayout, hreserve⟩ := rejected_cases hb hrejected
  · exact .inl hlayout
  · exact .inr ⟨_, b, hlayout, .inl hreserve⟩

/-- A put keeps the limits. -/
theorem Sized.with_put (hb : Sized b) (cf_id : BitVec 64)
    (haccepted : b.rejection key.length value.length = none) :
    Sized (b.with_put cf_id key value) ∧
      (b.with_put cf_id key value).data.length =
        b.buffer.length + record_size key.length value.length := by
  obtain ⟨-, -, -, hroom⟩ := rejection_none_iff.mp haccepted
  obtain ⟨hheader, -⟩ := hb.buffer_length
  have hmax := hb.max_batch_size
  have hcount := hb.count
  have hlt := hb.count_lt
  have hrecord : 11 ≤ record_size key.length value.length := by
    have hk := varint_len_bounds key.length
    have hv := varint_len_bounds value.length
    unfold record_size
    omega
  have hlength : (b.with_put cf_id key value).data.length =
      b.buffer.length + record_size key.length value.length := by
    change (counted (b.buffer ++ _) _).length = _
    have hle : HEADER_SIZE ≤
        (b.buffer ++ Record.encode { kind := .Put, cf_id, key, value }).length := by
      rw [List.length_append]
      omega
    have hoffset : BATCH_COUNT_OFFSET + 4 = HEADER_SIZE := rfl
    simp only [counted, List.length_append, List.length_take, List.length_drop,
      wire.length_to_le_bytes, length_encode] at hle ⊢
    omega
  have hbuffer : (b.with_put cf_id key value).buffer = (b.with_put cf_id key value).data := by
    rw [buffer, if_neg]
    intro hempty
    rw [List.isEmpty_iff.mp hempty, List.length_nil] at hlength
    omega
  refine ⟨⟨hmax, .inr ⟨by omega, by omega⟩, ?_, hb.state⟩, hlength⟩
  rw [hbuffer, hlength]
  change 11 * (b.count + 1#32).toNat + HEADER_SIZE ≤ _
  have hsucc : (b.count + 1#32).toNat = b.count.toNat + 1 := by
    rw [BitVec.toNat_add]
    exact Nat.mod_eq_of_lt hlt
  omega

end put

end BatchInner

end ordinum.batch
