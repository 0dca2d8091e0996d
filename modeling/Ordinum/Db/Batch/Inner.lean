import Ordinum.Db.Batch.State
import Ordinum.Utils.Exec
import Ordinum.Utils.VarInt
import Ordinum.Wal.SyncWaiter

open exec
open ordinum.utils ordinum.wal

namespace ordinum.batch

def MAX_USER_KEY_BYTES : Nat := 2 ^ 16 - 1

def MAX_BATCH_SIZE : Nat := 1024 * 1024

def DEFAULT_BATCH_INIT_SIZE : Nat := 2 ^ 10

def DEFAULT_CF_ID : BitVec 64 := 0

/-- The errors that the batch raises, with their payloads. -/
inductive Error where
  | KeyTooLarge (size max : Nat)
  | ValueTooLarge (size max : Nat)
  | RecordTooLarge (encoded_size max_batch_size : Nat)
  | BatchFull (record_size current_size max_batch_size : Nat)
  deriving DecidableEq, Repr

inductive RecordKind where
  | Put
  | Delete
  | Merge
  | RangeDel
  | LogData
  deriving DecidableEq, Repr

namespace RecordKind

def index : RecordKind → Nat
  | Put => 1
  | Delete => 2
  | Merge => 3
  | RangeDel => 4
  | LogData => 5

/-- `kind as u8`. -/
def to_byte (kind : RecordKind) : Byte := BitVec.ofNat 8 kind.index

end RecordKind

structure BatchMeta where
  first_seen_cf_id : BitVec 64
  multiple_cf_ids : Bool
  deriving DecidableEq, Repr

def BatchMeta.clear (_ : BatchMeta) : BatchMeta :=
  { first_seen_cf_id := 0, multiple_cf_ids := false }

/-- The memtables that a batch goes to, by column family. -/
structure CFTable where
  len : Nat
  vec : List (BitVec 64 × Nat)
  deriving DecidableEq, Repr

def CFTable.new : CFTable := { len := 0, vec := [] }

def CFTable.clear (_ : CFTable) : CFTable := { len := 0, vec := [] }

/-- A write batch: its encoded bytes, their limits and its commit state. -/
structure BatchInner where
  data : List Byte
  max_batch_size : Nat
  count : BitVec 32
  runtime_commit_state : BatchRuntimeState
  batch_meta : BatchMeta
  cf_table : CFTable
  sync_waiter : WalSyncResultState
  deriving DecidableEq, Repr

/-- Calls on a batch: what they return, and the batch they leave. -/
abbrev BatchM := Exec BatchInner Error

/-- `a.checked_add(b)` on `usize`. -/
def checked_add (a b : Nat) : Option Nat :=
  if a + b < 2 ^ 64 then some (a + b) else none

/-- `u32::try_from(n)`. -/
def u32_try_from (n : Nat) : Option (BitVec 32) :=
  if n < 2 ^ 32 then some (BitVec.ofNat 32 n) else none

/-- `data.resize(new_len, 0)`. -/
def resize (data : List Byte) (new_len : Nat) : List Byte :=
  data.take new_len ++ List.replicate (new_len - data.length) 0#8

/-- `data[start..stop].copy_from_slice(src)`: the range must lie in `data` and be
as long as `src`. -/
def copy_from_slice (data : List Byte) (start stop : Nat) (src : List Byte) : Option (List Byte) :=
  if stop ≤ data.length ∧ start + src.length = stop then
    some (data.take start ++ src ++ data.drop stop)
  else none

namespace BatchInner

def BATCH_COUNT_OFFSET : Nat := 8

def HEADER_SIZE : Nat := 12

def new : BatchInner :=
  { data := List.replicate HEADER_SIZE 0#8
    max_batch_size := MAX_BATCH_SIZE
    count := 0
    runtime_commit_state := .Acquired
    batch_meta := { first_seen_cf_id := 0, multiple_cf_ids := false }
    cf_table := .new
    sync_waiter := .Init }

/-- The header is the whole length at first; `cap` is only room to grow. -/
def new_with_capacity (cap : Nat) : Option BatchInner := do
  let capacity ← checked_add cap HEADER_SIZE
  if capacity ≤ MAX_BATCH_SIZE then some new else none

def init_buffer (capacity_hint : Nat) : BatchM Unit := do
  let self ← get
  assert (self.data.length = 0)
  assert (HEADER_SIZE + capacity_hint ≤ self.max_batch_size)
  modify_unwrap fun self => some { self with data := resize self.data HEADER_SIZE }

def seq_num (self : BatchInner) : Option (BitVec 64) :=
  if BATCH_COUNT_OFFSET < self.data.length then
    some (wire.from_le_bytes 64 (self.data.take BATCH_COUNT_OFFSET))
  else none

/-- Stamp the reserved sequence number into the header. -/
def assign_seq_num_once (seq_num : BitVec 64) (self : BatchInner) : Option BatchInner :=
  if BATCH_COUNT_OFFSET < self.data.length then
    (copy_from_slice self.data 0 BATCH_COUNT_OFFSET (wire.to_le_bytes 8 seq_num)).map fun data =>
      { self with data }
  else none

def get_batch_count (self : BatchInner) : BitVec 32 := self.count

def get_batch_size (self : BatchInner) : Nat := self.data.length

def set_runtime_state (self : BatchInner) (state : BatchRuntimeState) : BatchInner :=
  { self with runtime_commit_state := state }

/-- The size of the batch so far; an empty buffer is given its header. -/
def current_size (record_size : Nat) : BatchM Nat := do
  let self ← get
  if self.data.isEmpty then
    init_buffer record_size
    pure HEADER_SIZE
  else pure self.data.length

/-- Make room for a record and return where it starts and ends. -/
def reserve_operation (record_size : Nat) : BatchM (Nat × Nat) := do
  let self ← get
  let empty_batch_size ← ok_or (checked_add HEADER_SIZE record_size)
    (.RecordTooLarge (2 ^ 64 - 1) self.max_batch_size)
  ensure (empty_batch_size ≤ self.max_batch_size)
    (.RecordTooLarge empty_batch_size self.max_batch_size)
  let current_size ← current_size record_size
  let stop ← ok_or (checked_add current_size record_size)
    (.BatchFull record_size current_size self.max_batch_size)
  ensure (stop ≤ self.max_batch_size) (.BatchFull record_size current_size self.max_batch_size)
  let self ← get
  let start := self.data.length
  modify_unwrap fun self => some { self with data := resize self.data stop }
  pure (start, stop)

/-- Store the count in the header; the count that stood there is returned. -/
def adjust_count_in_header (count : BitVec 32) : BatchM (BitVec 32) := do
  let self ← get
  assert (HEADER_SIZE ≤ self.data.length)
  let old := wire.from_le_bytes 32 ((self.data.take HEADER_SIZE).drop BATCH_COUNT_OFFSET)
  modify_unwrap fun self =>
    (copy_from_slice self.data BATCH_COUNT_OFFSET HEADER_SIZE (wire.to_le_bytes 4 count)).map
      fun data => { self with data }
  pure old

/-- The two length prefixes of a record and its size. -/
def key_value_record_layout (key_len value_len : Nat) : BatchM (VarInt × VarInt × Nat) := do
  let self ← get
  ensure (key_len ≤ MAX_USER_KEY_BYTES) (.KeyTooLarge key_len MAX_USER_KEY_BYTES)
  let encoded_key_len ← ok_or (u32_try_from key_len) (.KeyTooLarge key_len (2 ^ 32 - 1))
  let key_varint ← unwrap (VarInt.new encoded_key_len)
  let encoded_value_len ← ok_or (u32_try_from value_len) (.ValueTooLarge value_len (2 ^ 32 - 1))
  let value_varint ← unwrap (VarInt.new encoded_value_len)
  let record_size ← ok_or
    ((checked_add 1 8).bind fun size => (checked_add size key_varint.size).bind fun size =>
      (checked_add size key_len).bind fun size => (checked_add size value_varint.size).bind
        fun size => checked_add size value_len)
    (.RecordTooLarge (2 ^ 64 - 1) self.max_batch_size)
  pure (key_varint, value_varint, record_size)

/-- `self.data[index..index + len].copy_from_slice(src)`. -/
def copy_into (index len : Nat) (src : List Byte) : BatchM Unit :=
  modify_unwrap fun self =>
    (copy_from_slice self.data index (index + len) src).map fun data => { self with data }

/-- `self.count += 1`: overflow panics. -/
def increment_count : BatchM Unit :=
  modify_unwrap fun self =>
    if self.count.toNat + 1 < 2 ^ 32 then some { self with count := self.count + 1#32 } else none

/-- The part of `put` that fills the reserved bytes, advancing an index by hand;
the index it ends at is returned. -/
def write_put (start : Nat) (cf_id : BitVec 64) (key value : List Byte)
    (key_varint value_varint : VarInt) : BatchM Nat := do
  let index := start
  copy_into index 1 [RecordKind.Put.to_byte]
  let index := index + 1
  copy_into index 8 (wire.to_le_bytes 8 cf_id)
  let index := index + 8
  copy_into index key_varint.size key_varint.as_slice
  let index := index + key_varint.size
  copy_into index key.length key
  let index := index + key.length
  copy_into index value_varint.size value_varint.as_slice
  let index := index + value_varint.size
  copy_into index value.length value
  pure (index + value.length)

def put (cf_id : BitVec 64) (key value : List Byte) : BatchM Unit := do
  let (key_varint, value_varint, record_size) ← key_value_record_layout key.length value.length
  let (start, stop) ← reserve_operation record_size
  let index ← write_put start cf_id key value key_varint value_varint
  assert (index = stop)
  increment_count
  let self ← get
  let _ ← adjust_count_in_header self.count

/-- Rewriting the bytes leaves the rest alone. -/
theorem keeps_map_data (g : BatchInner → Option (List Byte)) :
    Keeps sync_waiter
      (modify_unwrap fun self => (g self).map fun data => { self with data } : BatchM Unit) := by
  apply keeps_modify_unwrap
  intro s s' h
  obtain ⟨data, -, rfl⟩ := Option.map_eq_some_iff.mp h
  rfl

theorem reserve_operation_keeps (record_size : Nat) :
    Keeps sync_waiter (reserve_operation record_size) := by
  have hinit : Keeps sync_waiter (init_buffer record_size) := by
    refine keeps_bind _ (keeps_get _) fun self => keeps_bind _ (keeps_assert _ _) fun _ =>
      keeps_bind _ (keeps_assert _ _) fun _ => keeps_map_data fun self => some _
  have hcurrent : Keeps sync_waiter (current_size record_size) := by
    refine keeps_bind _ (keeps_get _) fun self => keeps_ite _ ?_ (keeps_pure _ _)
    exact keeps_bind _ hinit fun _ => keeps_pure _ _
  apply keeps_bind _ (keeps_get _)
  intro self
  refine keeps_bind _ (keeps_ok_or _ _ _) fun _ => keeps_bind _ (keeps_ensure _ _ _) fun _ => ?_
  refine keeps_bind _ hcurrent fun _ => keeps_bind _ (keeps_ok_or _ _ _) fun stop => ?_
  refine keeps_bind _ (keeps_ensure _ _ _) fun _ => keeps_bind _ (keeps_get _) fun self => ?_
  exact keeps_bind _ (keeps_map_data fun self => some _) fun _ => keeps_pure _ _

theorem write_put_keeps (start : Nat) (cf_id : BitVec 64) (key value : List Byte)
    (key_varint value_varint : VarInt) :
    Keeps sync_waiter (write_put start cf_id key value key_varint value_varint) := by
  have hcopy : ∀ index len src, Keeps sync_waiter (copy_into index len src) :=
    fun _ _ _ => keeps_map_data _
  exact keeps_bind _ (hcopy _ _ _) fun _ => keeps_bind _ (hcopy _ _ _) fun _ =>
    keeps_bind _ (hcopy _ _ _) fun _ => keeps_bind _ (hcopy _ _ _) fun _ =>
    keeps_bind _ (hcopy _ _ _) fun _ => keeps_bind _ (hcopy _ _ _) fun _ => keeps_pure _ _

/-- However a put ends, it leaves the sync waiter alone. -/
theorem put_keeps (cf_id : BitVec 64) (key value : List Byte) :
    Keeps sync_waiter (put cf_id key value) := by
  have hlayout : Keeps sync_waiter (key_value_record_layout key.length value.length) := by
    refine keeps_bind _ (keeps_get _) fun self => keeps_bind _ (keeps_ensure _ _ _) fun _ => ?_
    refine keeps_bind _ (keeps_ok_or _ _ _) fun _ => keeps_bind _ (keeps_unwrap _ _) fun _ => ?_
    refine keeps_bind _ (keeps_ok_or _ _ _) fun _ => keeps_bind _ (keeps_unwrap _ _) fun _ => ?_
    exact keeps_bind _ (keeps_ok_or _ _ _) fun _ => keeps_pure _ _
  have hcount : Keeps sync_waiter (increment_count) := by
    apply keeps_modify_unwrap
    intro s s' h
    split at h <;> cases h
    rfl
  have hadjust : ∀ count, Keeps sync_waiter (adjust_count_in_header count) := fun count =>
    keeps_bind _ (keeps_get _) fun self => keeps_bind _ (keeps_assert _ _) fun _ =>
      keeps_bind _ (keeps_map_data _) fun _ => keeps_pure _ _
  refine keeps_bind _ hlayout fun layout => keeps_bind _ (reserve_operation_keeps _) fun room => ?_
  apply keeps_bind _ (write_put_keeps _ _ _ _ _ _)
  intro index
  refine keeps_bind _ (keeps_assert _ _) fun _ => keeps_bind _ hcount fun _ => ?_
  exact keeps_bind _ (keeps_get _) fun self => keeps_bind _ (hadjust _) fun _ => keeps_pure _ _

/-- Reset everything but the limit, the runtime state and the sync waiter. -/
def clear (self : BatchInner) : Option BatchInner :=
  if self.runtime_commit_state.is_reset_safe then
    some { self with
      count := 0
      data := []
      batch_meta := self.batch_meta.clear
      cf_table := self.cf_table.clear }
  else none

/-- `BatchObject::reset_batch`: the assertion fails outside the reset-safe
states. -/
def reset_batch (self : BatchInner) : Option BatchInner :=
  if self.runtime_commit_state.is_reset_safe then
    self.clear.map fun self => self.set_runtime_state .Acquired
  else none

/-- What a reset leaves: the limit and the waiter stay as they were. -/
theorem reset_batch_spec {self inner : BatchInner} (hreset : self.reset_batch = some inner) :
    inner = { self with
      data := [], count := 0, batch_meta := self.batch_meta.clear, cf_table := .new
      runtime_commit_state := .Acquired } := by
  by_cases hsafe : self.runtime_commit_state.is_reset_safe
  · simp only [reset_batch, clear, if_pos hsafe, Option.map_some, Option.some.injEq] at hreset
    exact hreset.symm
  · simp [reset_batch, if_neg hsafe] at hreset

/-- `BatchObject::wait_until_reusable`: whether the wait succeeds; a primed
waiter keeps the caller waiting (`none`). -/
def wait_until_reusable (self : BatchInner) : Option Bool :=
  match self.sync_waiter with
  | .Init => some true
  | .Primed => none
  | .SyncDone => some true
  | .IoError | .WalError => some false

end BatchInner

end ordinum.batch
