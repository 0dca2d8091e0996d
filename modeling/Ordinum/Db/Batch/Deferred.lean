import Ordinum.Db.Batch.Acceptance

open exec
open ordinum.utils

namespace ordinum.batch

/-- A borrowed part of the buffer. -/
structure Slice where
  start : Nat
  len : Nat
  deriving DecidableEq, Repr

namespace Slice

/-- `slice.split_at_mut(mid)`: panics past the end. -/
def split_at_mut (slice : Slice) (mid : Nat) : Option (Slice × Slice) :=
  if mid ≤ slice.len then
    some (⟨slice.start, mid⟩, ⟨slice.start + mid, slice.len - mid⟩)
  else none

/-- `&mut data[start..stop]`. -/
def of_range (data : List Byte) (start stop : Nat) : Option Slice :=
  if start ≤ stop ∧ stop ≤ data.length then some ⟨start, stop - start⟩ else none

/-- The bytes that the slice borrows. -/
def read (slice : Slice) (data : List Byte) : List Byte :=
  (data.drop slice.start).take slice.len

/-- Write through the slice. -/
def write (slice : Slice) (data bytes : List Byte) : List Byte :=
  data.take slice.start ++ bytes ++ data.drop (slice.start + slice.len)

/-- No byte belongs to both. -/
def Disjoint (a b : Slice) : Prop :=
  a.start + a.len ≤ b.start ∨ b.start + b.len ≤ a.start

end Slice

/-- A deferred operation; `batch` says whether it still has its batch. -/
structure DeferredOp where
  batch : Bool
  reservation_start : Nat
  reservation_end : Nat
  key_offset : Nat
  key_len : Nat
  value_offset : Nat
  value_len : Nat
  deriving DecidableEq, Repr

namespace DeferredOp

def new (reservation_start reservation_end key_offset key_len value_offset value_len : Nat) :
    BatchM DeferredOp := do
  assert (reservation_start ≤ reservation_end)
  pure
    { batch := true
      reservation_start
      reservation_end
      key_offset
      key_len
      value_offset
      value_len }

variable (self : DeferredOp) (data : List Byte)

/-- Panics once the operation is finished. -/
def key_mut : Option Slice :=
  if self.batch then Slice.of_range data self.key_offset (self.key_offset + self.key_len) else none

def value_mut : Option Slice :=
  if self.batch then Slice.of_range data self.value_offset (self.value_offset + self.value_len)
  else none

def key_value_mut : Option (Slice × Slice) :=
  if self.batch then do
    let region ← Slice.of_range data self.key_offset (self.value_offset + self.value_len)
    let (key, remainder) ← region.split_at_mut self.key_len
    if self.key_offset + self.key_len ≤ self.value_offset then
      let value_varint_len := self.value_offset - (self.key_offset + self.key_len)
      let (_, value) ← remainder.split_at_mut value_varint_len
      let (value, _) ← value.split_at_mut self.value_len
      some (key, value)
    else none
  else none

def finish : DeferredOp :=
  { self with batch := false }

def rollback : BatchM DeferredOp := do
  assert self.batch
  modify_unwrap fun inner => some { inner with data := resize inner.data self.reservation_start }
  let inner ← get
  assert (inner.data.length = self.reservation_start)
  pure { self with reservation_end := self.reservation_start }

def drop : BatchM Unit :=
  if self.batch then do
    let _ ← self.rollback
  else pure ()

end DeferredOp

/-- New contents for a borrowed slice: its length cannot change. -/
abbrev Rewrite (old : List Byte) := { new : List Byte // new.length = old.length }

/-- A closure that `put_with` is given: what it does with the deferred operation,
each step depending on the bytes it has been shown. -/
inductive DeferredFn where
  | ret
  | panic
  | key_mut (write : (key : List Byte) → Rewrite key) (next : List Byte → DeferredFn)
  | value_mut (write : (value : List Byte) → Rewrite value) (next : List Byte → DeferredFn)
  | key_value_mut (write : (key value : List Byte) → Rewrite key × Rewrite value)
    (next : List Byte → List Byte → DeferredFn)
  | finish (next : DeferredFn)

/-- How the closure ends. -/
inductive FnEnd where
  | returned
  | panicked
  deriving DecidableEq, Repr

namespace DeferredFn

/-- Run the closure on a deferred operation and the bytes of its batch. -/
def run : DeferredFn → DeferredOp → List Byte → DeferredOp × List Byte × FnEnd
  | .ret, op, data => (op, data, .returned)
  | .panic, op, data => (op, data, .panicked)
  | .key_mut write next, op, data =>
    match op.key_mut data with
    | some key => (next (key.read data)).run op (key.write data (write (key.read data)).1)
    | none => (op, data, .panicked)
  | .value_mut write next, op, data =>
    match op.value_mut data with
    | some value => (next (value.read data)).run op (value.write data (write (value.read data)).1)
    | none => (op, data, .panicked)
  | .key_value_mut write next, op, data =>
    match op.key_value_mut data with
    | some (key, value) =>
      let bytes := write (key.read data) (value.read data)
      (next (key.read data) (value.read data)).run op
        (value.write (key.write data bytes.1.1) bytes.2.1)
    | none => (op, data, .panicked)
  | .finish next, op, data => next.run op.finish data

/-- The closure reaches the batch only through its slices. -/
def OnlySlices : DeferredFn → Prop
  | .ret | .panic => True
  | .key_mut _ next | .value_mut _ next => ∀ bytes, (next bytes).OnlySlices
  | .key_value_mut _ next => ∀ key value, (next key value).OnlySlices
  | .finish _ => False

end DeferredFn

namespace BatchInner

/-- Lay out a record without its key and value. -/
def prepare_with_key_value_impl (cf_id : BitVec 64) (key_len value_len : Nat)
    (kind : RecordKind) : BatchM DeferredOp := do
  let self ← get
  assert (self.runtime_commit_state ≠ .InQueue)
  let (key_varint, value_varint, record_size) ← key_value_record_layout key_len value_len
  let (reservation_start, reservation_end) ← reserve_operation record_size
  let index := reservation_start
  copy_into index 1 [kind.to_byte]
  let index := index + 1
  copy_into index 8 (wire.to_le_bytes 8 cf_id)
  let index := index + 8
  copy_into index key_varint.size key_varint.as_slice
  let index := index + key_varint.size
  let key_offset := index
  let index := index + key_len
  copy_into index value_varint.size value_varint.as_slice
  let index := index + value_varint.size
  let value_offset := index
  assert (reservation_end = index + value_len)
  DeferredOp.new reservation_start reservation_end key_offset key_len value_offset value_len

/-- The closure runs on the operation; if it panics the operation is dropped with
its batch, if it returns without. -/
def put_with (cf_id : BitVec 64) (key_len value_len : Nat) (kind : RecordKind)
    (f : DeferredFn) : BatchM FnEnd := do
  let op ← prepare_with_key_value_impl cf_id key_len value_len kind
  let self ← get
  let (op, data, ended) := f.run op self.data
  modify_unwrap fun self => some { self with data }
  let op := if ended = .returned then op.finish else op
  op.drop
  pure ended

/-- A batch that has been used by `put`, `put_with` and `clear` only, whatever
these returned. -/
inductive Reached : BatchInner → Prop where
  | fresh {b} (hfresh : Fresh b) : Reached b
  | put {b cf_id key value r b'} (hb : Reached b)
    (hrun : (put cf_id key value).run.run b = some (r, b')) : Reached b'
  | put_with {b cf_id key_len value_len kind f r b'} (hb : Reached b)
    (hrun : (put_with cf_id key_len value_len kind f).run.run b = some (r, b')) : Reached b'
  | clear {b b'} (hb : Reached b) (hclear : b.clear = some b') : Reached b'

end BatchInner

section slices

/-- The slice of `middle` in a buffer. -/
theorem Slice.read_middle (before middle after : List Byte) :
    (Slice.mk before.length middle.length).read (before ++ (middle ++ after)) = middle := by
  rw [Slice.read, List.drop_left, List.take_left]

theorem Slice.write_middle (before middle after new : List Byte) :
    (Slice.mk before.length middle.length).write (before ++ (middle ++ after)) new =
      before ++ (new ++ after) := by
  have hdrop : (before ++ (middle ++ after)).drop (before.length + middle.length) = after := by
    rw [← List.append_assoc, ← List.length_append, List.drop_left]
  rw [Slice.write, List.take_left, hdrop, List.append_assoc]

/-- What stands before the key in a record. -/
def record_head (kind : RecordKind) (cf_id : BitVec 64) (key_len : Nat) : List Byte :=
  [kind.to_byte] ++ (wire.to_le_bytes 8 cf_id ++ VarInt.groups (BitVec.ofNat 32 key_len))

theorem length_record_head (kind : RecordKind) (cf_id : BitVec 64) (key_len : Nat) :
    (record_head kind cf_id key_len).length = 9 + varint_len key_len := by
  simp only [record_head, List.length_append, List.length_singleton, wire.length_to_le_bytes,
    varint_len]
  omega

theorem encode_eq (kind : RecordKind) (cf_id : BitVec 64) (key value : List Byte) :
    Record.encode { kind, cf_id, key, value } = record_head kind cf_id key.length ++
      (key ++ (VarInt.groups (BitVec.ofNat 32 value.length) ++ value)) := by
  simp [Record.encode, record_head, length_bytes]

/-- Where the key stands in a record that begins at `start`. -/
def key_slice (start key_len : Nat) : Slice :=
  ⟨start + (9 + varint_len key_len), key_len⟩

def value_slice (start key_len value_len : Nat) : Slice :=
  ⟨start + (9 + varint_len key_len) + key_len + varint_len value_len, value_len⟩

/-- The operation of a record that begins at `start`. -/
def deferred_op (start key_len value_len : Nat) : DeferredOp :=
  { batch := true
    reservation_start := start
    reservation_end := start + record_size key_len value_len
    key_offset := start + (9 + varint_len key_len)
    key_len
    value_offset := start + (9 + varint_len key_len) + key_len + varint_len value_len
    value_len }

variable {start key_len value_len : Nat} {data : List Byte}

theorem of_range_of_le {i j : Nat} (hij : i ≤ j) (hj : j ≤ data.length) :
    Slice.of_range data i j = some ⟨i, j - i⟩ := by
  rw [Slice.of_range, if_pos ⟨hij, hj⟩]

theorem split_at_mut_of_le {slice : Slice} {mid : Nat} (hmid : mid ≤ slice.len) :
    slice.split_at_mut mid =
      some (⟨slice.start, mid⟩, ⟨slice.start + mid, slice.len - mid⟩) := by
  rw [Slice.split_at_mut, if_pos hmid]

/-- Splitting around the varint gives the slices at the two offsets. -/
theorem key_value_mut_eq {op : DeferredOp} (hbatch : op.batch = true)
    (hvarint : op.key_offset + op.key_len ≤ op.value_offset)
    (hdata : op.value_offset + op.value_len ≤ data.length) :
    op.key_value_mut data =
      some (⟨op.key_offset, op.key_len⟩, ⟨op.value_offset, op.value_len⟩) := by
  have hvalue : op.key_offset + op.key_len + (op.value_offset - (op.key_offset + op.key_len)) =
      op.value_offset := by omega
  rw [DeferredOp.key_value_mut, if_pos hbatch, of_range_of_le (by omega) hdata, Option.bind_eq_bind,
    Option.bind_some, split_at_mut_of_le (by simp only; omega), Option.bind_eq_bind,
    Option.bind_some]
  simp only [if_pos hvarint]
  rw [split_at_mut_of_le (by simp only; omega), Option.bind_some,
    split_at_mut_of_le (by simp only; omega), Option.bind_some, hvalue]

/-- The three ways to borrow give the slices of the key and of the value. -/
theorem deferred_op_slices (hdata : start + record_size key_len value_len ≤ data.length) :
    (deferred_op start key_len value_len).key_mut data = some (key_slice start key_len) ∧
      (deferred_op start key_len value_len).value_mut data =
        some (value_slice start key_len value_len) ∧
      (deferred_op start key_len value_len).key_value_mut data =
        some (key_slice start key_len, value_slice start key_len value_len) := by
  unfold record_size at hdata
  refine ⟨?_, ?_, ?_⟩
  · simp only [DeferredOp.key_mut, deferred_op, if_true]
    rw [of_range_of_le (by omega) (by omega), key_slice, Nat.add_sub_cancel_left]
  · simp only [DeferredOp.value_mut, deferred_op, if_true]
    rw [of_range_of_le (by omega) (by omega), value_slice, Nat.add_sub_cancel_left]
  · apply key_value_mut_eq rfl
    · change start + (9 + varint_len key_len) + key_len ≤ _ + varint_len value_len
      omega
    · change start + (9 + varint_len key_len) + key_len + varint_len value_len + value_len ≤ _
      omega

end slices

section closure

variable (before : List Byte) (r : Record)

theorem length_encode_eq : (before ++ r.encode).length =
    before.length + record_size r.key.length r.value.length := by
  rw [List.length_append, length_encode]

/-- A record in the buffer, around its key. -/
theorem around_key : before ++ r.encode = (before ++ record_head r.kind r.cf_id r.key.length) ++
    (r.key ++ (length_bytes r.value ++ r.value)) := by
  rw [encode_eq, List.append_assoc, length_bytes]

/-- A record in the buffer, around its value. -/
theorem around_value : before ++ r.encode =
    (before ++ record_head r.kind r.cf_id r.key.length ++ r.key ++ length_bytes r.value) ++
      (r.value ++ []) := by
  rw [around_key, List.append_nil]
  simp only [List.append_assoc]

theorem key_slice_eq : key_slice before.length r.key.length =
    ⟨(before ++ record_head r.kind r.cf_id r.key.length).length, r.key.length⟩ := by
  rw [List.length_append, length_record_head, key_slice]

theorem value_slice_eq : value_slice before.length r.key.length r.value.length =
    ⟨(before ++ record_head r.kind r.cf_id r.key.length ++ r.key ++ length_bytes r.value).length,
      r.value.length⟩ := by
  simp only [List.length_append, length_record_head, value_slice, length_bytes, varint_len]

theorem read_key : (key_slice before.length r.key.length).read (before ++ r.encode) = r.key := by
  rw [key_slice_eq, around_key, Slice.read_middle]

theorem read_value :
    (value_slice before.length r.key.length r.value.length).read (before ++ r.encode) =
      r.value := by
  rw [value_slice_eq, around_value, Slice.read_middle]

/-- Writing through the slice of the key changes the key of the record only. -/
theorem write_key {key : List Byte} (hkey : key.length = r.key.length) :
    (key_slice before.length r.key.length).write (before ++ r.encode) key =
      before ++ Record.encode { r with key } := by
  rw [key_slice_eq, around_key, Slice.write_middle, around_key before { r with key }]
  simp only [hkey]

theorem write_value {value : List Byte} (hvalue : value.length = r.value.length) :
    (value_slice before.length r.key.length r.value.length).write (before ++ r.encode) value =
      before ++ Record.encode { r with value } := by
  rw [value_slice_eq, around_value, Slice.write_middle, around_value before { r with value }]
  simp only [hvalue, length_bytes]

section run

variable {key_len value_len : Nat} (hkey : r.key.length = key_len)
  (hvalue : r.value.length = value_len)
include hkey hvalue

/-- A step of a closure on an unfinished operation rewrites the key of its record,
and goes on. -/
theorem run_key_mut (write : (key : List Byte) → Rewrite key) (next : List Byte → DeferredFn) :
    (DeferredFn.key_mut write next).run (deferred_op before.length key_len value_len)
        (before ++ r.encode) =
      (next r.key).run (deferred_op before.length key_len value_len)
        (before ++ Record.encode { r with key := (write r.key).1 }) := by
  subst hkey hvalue
  obtain ⟨hslice, -, -⟩ := deferred_op_slices (length_encode_eq before r).ge
  rw [DeferredFn.run, hslice]
  simp only
  rw [read_key, write_key before r (write r.key).2]

theorem run_value_mut (write : (value : List Byte) → Rewrite value)
    (next : List Byte → DeferredFn) :
    (DeferredFn.value_mut write next).run (deferred_op before.length key_len value_len)
        (before ++ r.encode) =
      (next r.value).run (deferred_op before.length key_len value_len)
        (before ++ Record.encode { r with value := (write r.value).1 }) := by
  subst hkey hvalue
  obtain ⟨-, hslice, -⟩ := deferred_op_slices (length_encode_eq before r).ge
  rw [DeferredFn.run, hslice]
  simp only
  rw [read_value, write_value before r (write r.value).2]

theorem run_key_value_mut (write : (key value : List Byte) → Rewrite key × Rewrite value)
    (next : List Byte → List Byte → DeferredFn) :
    (DeferredFn.key_value_mut write next).run (deferred_op before.length key_len value_len)
        (before ++ r.encode) =
      (next r.key r.value).run (deferred_op before.length key_len value_len)
        (before ++ Record.encode
          { r with key := (write r.key r.value).1.1, value := (write r.key r.value).2.1 }) := by
  subst hkey hvalue
  obtain ⟨-, -, hslices⟩ := deferred_op_slices (length_encode_eq before r).ge
  -- the slice of the value is where it was once the key is written
  have hwrite := write_value before { r with key := (write r.key r.value).1.1 }
    (write r.key r.value).2.2
  simp only [(write r.key r.value).1.2] at hwrite
  rw [DeferredFn.run, hslices]
  simp only
  rw [read_key, read_value, write_key before r (write r.key r.value).1.2, hwrite]

end run

/-- The record with other bytes in its key and value. -/
def Record.Rewrites (r r' : Record) : Prop :=
  ∃ key value, key.length = r.key.length ∧ value.length = r.value.length ∧
    r' = { r with key, value }

theorem Record.Rewrites.refl : r.Rewrites r :=
  ⟨r.key, r.value, rfl, rfl, rfl⟩

theorem Record.Rewrites.trans {r r' r'' : Record} (h : r.Rewrites r') (h' : r'.Rewrites r'') :
    r.Rewrites r'' := by
  obtain ⟨key, value, hkey, hvalue, rfl⟩ := h
  obtain ⟨key', value', hkey', hvalue', rfl⟩ := h'
  exact ⟨key', value', hkey'.trans hkey, hvalue'.trans hvalue, rfl⟩

/-- The operation of the record, finished or not. -/
def Operates (before : List Byte) (r : Record) (op : DeferredOp) : Prop :=
  op = deferred_op before.length r.key.length r.value.length ∨
    op = (deferred_op before.length r.key.length r.value.length).finish

variable {before r}

theorem Operates.rewrites {op : DeferredOp} {r' : Record} (h : Operates before r op)
    (hr : r.Rewrites r') : Operates before r' op := by
  obtain ⟨key, value, hkey, hvalue, rfl⟩ := hr
  unfold Operates at h ⊢
  simp only [hkey, hvalue]
  exact h

/-- Whatever a closure does, the buffer then holds the same record with other bytes
in its key and value; a closure that keeps to its slices leaves the operation
unfinished. -/
theorem DeferredFn.run_record (f : DeferredFn) : ∀ (r : Record) (op : DeferredOp),
    Operates before r op → ∃ r' op' ended,
      f.run op (before ++ r.encode) = (op', before ++ r'.encode, ended) ∧ r.Rewrites r' ∧
        Operates before r' op' ∧ (f.OnlySlices → op' = op) := by
  induction f with
  | ret =>
    intro r op hop
    exact ⟨r, op, .returned, rfl, .refl r, hop, fun _ => rfl⟩
  | panic =>
    intro r op hop
    exact ⟨r, op, .panicked, rfl, .refl r, hop, fun _ => rfl⟩
  | key_mut write next ih =>
    intro r op hop
    obtain rfl | rfl := hop
    · have hr : r.Rewrites { r with key := (write r.key).1 } :=
        ⟨_, r.value, (write r.key).2, rfl, rfl⟩
      obtain ⟨r', op', ended, hrun, hr', hop', honly⟩ :=
        ih r.key _ _ (Operates.rewrites (.inl rfl) hr)
      refine ⟨r', op', ended, ?_, hr.trans hr', hop', fun h => honly (h _)⟩
      rw [run_key_mut before r rfl rfl, hrun]
    · exact ⟨r, _, .panicked, rfl, .refl r, .inr rfl, fun _ => rfl⟩
  | value_mut write next ih =>
    intro r op hop
    obtain rfl | rfl := hop
    · have hr : r.Rewrites { r with value := (write r.value).1 } :=
        ⟨r.key, _, rfl, (write r.value).2, rfl⟩
      obtain ⟨r', op', ended, hrun, hr', hop', honly⟩ :=
        ih r.value _ _ (Operates.rewrites (.inl rfl) hr)
      refine ⟨r', op', ended, ?_, hr.trans hr', hop', fun h => honly (h _)⟩
      rw [run_value_mut before r rfl rfl, hrun]
    · exact ⟨r, _, .panicked, rfl, .refl r, .inr rfl, fun _ => rfl⟩
  | key_value_mut write next ih =>
    intro r op hop
    obtain rfl | rfl := hop
    · have hr : r.Rewrites
          { r with key := (write r.key r.value).1.1, value := (write r.key r.value).2.1 } :=
        ⟨_, _, (write r.key r.value).1.2, (write r.key r.value).2.2, rfl⟩
      obtain ⟨r', op', ended, hrun, hr', hop', honly⟩ :=
        ih r.key r.value _ _ (Operates.rewrites (.inl rfl) hr)
      refine ⟨r', op', ended, ?_, hr.trans hr', hop', fun h => honly (h _ _)⟩
      rw [run_key_value_mut before r rfl rfl, hrun]
    · exact ⟨r, _, .panicked, rfl, .refl r, .inr rfl, fun _ => rfl⟩
  | finish next ih =>
    intro r op hop
    have hfinish : Operates before r op.finish := by
      obtain rfl | rfl := hop <;> exact .inr rfl
    obtain ⟨r', op', ended, hrun, hr, hop', -⟩ := ih r _ hfinish
    exact ⟨r', op', ended, hrun, hr, hop', fun h => h.elim⟩

end closure

end ordinum.batch
