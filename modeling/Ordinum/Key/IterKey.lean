import Ordinum.Key.InternalKey

open ordinum.utils

namespace ordinum.key

def MAX_KEY_SIZE : Nat := 2 ^ 16 - 1

def INITIAL_KEY_BUFFER_CAP : Nat := 512

/-- Inline size of iterator keys. -/
def ITER_INLINE : Nat := 39

/-- How a key buffer goes wrong. -/
inductive Fault where
  | MaxKeySize
  | OutOfRange
  | SetLen
  deriving DecidableEq, Repr

/-- `dst[start..start + src.len()].copy_from_slice(src)`. -/
def copy_at (dst : List Byte) (start : Nat) (src : List Byte) : Except Fault (List Byte) :=
  if start + src.length ≤ dst.length then
    .ok (dst.take start ++ src ++ dst.drop (start + src.length))
  else .error .OutOfRange

def encode_into (dst user_key : List Byte) (seq_no : BitVec 64) (op : InternalKeyKind) :
    Except Fault (List Byte) := do
  let user_len := user_key.length
  if user_len + 8 ≤ dst.length then
    let dst ← copy_at dst 0 user_key
    copy_at dst user_len (encode_trailer seq_no op)
  else .error .OutOfRange

/-- What `Vec::reserve` promises when it has to grow: a capacity that is at least
the one needed. -/
structure Growth where
  capacity : (old needed : Nat) → Nat
  enough : ∀ old needed, needed ≤ capacity old needed

/-- A vector of bytes: the allocation it has, and how much of it is in use. -/
structure Vec where
  ptr : Nat
  buf : List Byte
  len : Nat
  deriving DecidableEq, Repr

namespace Vec

def with_capacity (cap : Nat) : Vec :=
  { ptr := 0, buf := List.replicate cap 0#8, len := 0 }

def capacity (self : Vec) : Nat := self.buf.length

def clear (self : Vec) : Vec := { self with len := 0 }

/-- Nothing happens when there is room; otherwise the bytes in use move to a new
allocation. -/
def reserve (self : Vec) (growth : Growth) (additional : Nat) : Vec :=
  if self.len + additional ≤ self.capacity then self
  else
    let capacity := growth.capacity self.capacity (self.len + additional)
    { self with
      ptr := self.ptr + 1
      buf := self.buf.take self.len ++ List.replicate (capacity - self.len) 0#8 }

/-- The length must not exceed the capacity. -/
def set_len (self : Vec) (new_len : Nat) : Except Fault Vec :=
  if new_len ≤ self.capacity then .ok { self with len := new_len } else .error .SetLen

/-- Write the first bytes. -/
def store (self : Vec) (bytes : List Byte) : Vec :=
  { self with buf := bytes ++ self.buf.drop bytes.length }

@[simp] theorem clear_capacity (self : Vec) : self.clear.capacity = self.capacity := rfl

theorem set_len_of_le {self : Vec} {new_len : Nat} (h : new_len ≤ self.capacity) :
    self.set_len new_len = .ok { self with len := new_len } := by
  rw [set_len, if_pos h]

theorem le_of_set_len {self heap : Vec} {new_len : Nat} (h : self.set_len new_len = .ok heap) :
    new_len ≤ heap.capacity := by
  unfold set_len at h
  split at h
  · cases h
    assumption
  · cases h

theorem error_of_set_len {self : Vec} {new_len : Nat} {e : Fault}
    (h : self.set_len new_len = .error e) : e = .SetLen := by
  unfold set_len at h
  split at h
  · cases h
  · cases h
    rfl

theorem set_len_of_lt {self : Vec} {new_len : Nat} (h : self.capacity < new_len) :
    self.set_len new_len = .error .SetLen := by
  rw [set_len, if_neg (Nat.not_le.mpr h)]

end Vec

structure InnerKey (INLINE : Nat) where
  _inline : { bytes : List Byte // bytes.length = INLINE }
  len : Nat
  external : Option Nat

namespace InnerKey

variable {N : Nat} (self : InnerKey N)

def new (N : Nat) : InnerKey N :=
  { _inline := ⟨List.replicate N 0#8, List.length_replicate⟩, len := 0, external := none }

/-- The pointer must be that of the live allocation, and the bytes must lie in it. -/
def as_slice (heap : Vec) : Option (List Byte) :=
  match self.external with
  | some ptr =>
    if ptr = heap.ptr ∧ self.len ≤ heap.capacity then some (heap.buf.take self.len) else none
  | none => if self.len ≤ N then some (self._inline.1.take self.len) else none

def set_inline (len : Nat) : Except Fault (InnerKey N) :=
  if len ≤ N then .ok { self with len, external := none } else .error .OutOfRange

def set_external (len : Nat) (ptr : Nat) : InnerKey N :=
  { self with len, external := some ptr }

/-- Write the first inline bytes. -/
def store (bytes : List Byte) : InnerKey N :=
  { self with
    _inline := ⟨(bytes ++ self._inline.1.drop bytes.length).take N, by
      rw [List.length_take, List.length_append, List.length_drop, self._inline.2]
      omega⟩ }

def encode_inline (user_key : List Byte) (seq_no : BitVec 64) (op : InternalKeyKind) :
    Except Fault (InnerKey N) := do
  let total := user_key.length + 8
  let self ← self.set_inline total
  let bytes ← encode_into (self._inline.1.take total) user_key seq_no op
  pure (self.store bytes)

def encode_inline_from_slice (slice : List Byte) : Except Fault (InnerKey N) := do
  let len := slice.length
  let self ← self.set_inline len
  let bytes ← copy_at (self._inline.1.take len) 0 slice
  pure (self.store bytes)

end InnerKey

structure IterKey (N : Nat) where
  _inner : InnerKey N
  heap : Vec

namespace IterKey

variable {N : Nat} (self : IterKey N)

/-- `cap` is the capacity that `Vec::with_capacity(INITIAL_KEY_BUFFER_CAP)` gives. -/
def new (N cap : Nat) : IterKey N :=
  { _inner := .new N, heap := .with_capacity cap }

/-- The heap of both setters: cleared, grown by what it lacks, and given its length. -/
def heap_of_len (growth : Growth) (len : Nat) : Except Fault Vec :=
  let heap := self.heap.clear
  let heap :=
    if heap.capacity < len then heap.reserve growth (len - heap.capacity) else heap
  heap.set_len len

def set (growth : Growth) (user_key : List Byte) (seq_no : BitVec 64) (op : InternalKeyKind) :
    Except Fault (IterKey N) := do
  let total := user_key.length + 8
  if MAX_KEY_SIZE < total then throw .MaxKeySize
  if total ≤ N then
    let _inner ← self._inner.encode_inline user_key seq_no op
    return { self with _inner }
  let heap ← self.heap_of_len growth total
  let _inner := self._inner.set_external total heap.ptr
  let bytes ← encode_into (heap.buf.take total) user_key seq_no op
  return { _inner, heap := heap.store bytes }

def set_from_slice (growth : Growth) (slice : List Byte) : Except Fault (IterKey N) := do
  let len := slice.length
  if len ≤ N then
    let _inner ← self._inner.encode_inline_from_slice slice
    return { self with _inner }
  let heap ← self.heap_of_len growth len
  let _inner := self._inner.set_external len heap.ptr
  let bytes ← copy_at (heap.buf.take len) 0 slice
  return { _inner, heap := heap.store bytes }

def as_slice : Option (List Byte) :=
  self._inner.as_slice self.heap

end IterKey

section write

variable {N : Nat} {dst user_key slice : List Byte} {seq_no : BitVec 64} {op : InternalKeyKind}

theorem length_encode (user_key : List Byte) (seq_no : BitVec 64) (op : InternalKeyKind) :
    (encode user_key seq_no op).length = user_key.length + 8 := by
  rw [encode, List.length_append, encode_trailer, wire.length_to_be_bytes]

/-- A key that fills its buffer. -/
theorem encode_into_exact (hdst : dst.length = user_key.length + 8) :
    encode_into dst user_key seq_no op = .ok (encode user_key seq_no op) := by
  have htrailer : (encode_trailer seq_no op).length = 8 := wire.length_to_be_bytes 8 _
  have hrest : (user_key ++ dst.drop user_key.length).length = user_key.length + 8 := by
    rw [List.length_append, List.length_drop, hdst]
    omega
  have hfirst : copy_at dst 0 user_key = .ok (user_key ++ dst.drop user_key.length) := by
    rw [copy_at, if_pos (by omega), List.take_zero, List.nil_append, Nat.zero_add]
  have hsecond : copy_at (user_key ++ dst.drop user_key.length) user_key.length
      (encode_trailer seq_no op) = .ok (encode user_key seq_no op) := by
    rw [copy_at, if_pos (by omega), List.take_left, htrailer, ← hrest, List.drop_length,
      List.append_nil, encode]
  simp only [encode_into]
  rw [if_pos (by omega), hfirst]
  exact hsecond

theorem copy_at_exact (hdst : dst.length = slice.length) : copy_at dst 0 slice = .ok slice := by
  rw [copy_at, if_pos (by omega), List.take_zero, List.nil_append, Nat.zero_add, ← hdst,
    List.drop_length, List.append_nil]

end write

/-- A call of one of the setters. -/
inductive KeyCall where
  | set (user_key : List Byte) (seq_no : BitVec 64) (op : InternalKeyKind)
  | set_from_slice (slice : List Byte)
  deriving DecidableEq, Repr

namespace KeyCall

/-- The bytes that the key should hold after the call. -/
def bytes : KeyCall → List Byte
  | .set user_key seq_no op => encode user_key seq_no op
  | .set_from_slice slice => slice

/-- What the assertion of `set` asks. -/
def Asserted : KeyCall → Prop
  | .set user_key _ _ => user_key.length + 8 ≤ MAX_KEY_SIZE
  | .set_from_slice _ => True

def run {N : Nat} (growth : Growth) (self : IterKey N) : KeyCall → Except Fault (IterKey N)
  | .set user_key seq_no op => self.set growth user_key seq_no op
  | .set_from_slice slice => self.set_from_slice growth slice

end KeyCall

section call

variable {N : Nat} {self : IterKey N} {growth : Growth} {call : KeyCall}

/-- The inner key once bytes are held inline. -/
def InnerKey.inline_of (inner : InnerKey N) (bytes : List Byte) : InnerKey N :=
  { inner with len := bytes.length, external := none }.store bytes

theorem InnerKey.inline_of_as_slice (inner : InnerKey N) {bytes : List Byte}
    (hbytes : bytes.length ≤ N) (heap : Vec) :
    (inner.inline_of bytes).as_slice heap = some bytes := by
  change (if bytes.length ≤ N then some (((bytes ++ _).take N).take bytes.length) else none) = _
  rw [if_pos hbytes, List.take_take, Nat.min_eq_left hbytes, List.take_left]

theorem set_inline_of_le (inner : InnerKey N) {len : Nat} (hlen : len ≤ N) :
    inner.set_inline len = .ok { inner with len, external := none } := by
  rw [InnerKey.set_inline, if_pos hlen]

/-- The inline bytes that a key is written into. -/
theorem InnerKey.length_take_inline (inner : InnerKey N) {len : Nat} (hlen : len ≤ N) :
    (inner._inline.1.take len).length = len := by
  rw [List.length_take, inner._inline.2, Nat.min_eq_left hlen]

theorem InnerKey.encode_inline_exact (inner : InnerKey N) {user_key : List Byte}
    (seq_no : BitVec 64) (op : InternalKeyKind) (hlen : user_key.length + 8 ≤ N) :
    inner.encode_inline user_key seq_no op = .ok (inner.inline_of (encode user_key seq_no op)) := by
  rw [InnerKey.encode_inline, set_inline_of_le _ hlen]
  change encode_into (inner._inline.1.take (user_key.length + 8)) _ _ _ >>= _ = _
  rw [encode_into_exact (inner.length_take_inline hlen), InnerKey.inline_of, length_encode]
  rfl

theorem InnerKey.encode_inline_from_slice_exact (inner : InnerKey N) {slice : List Byte}
    (hlen : slice.length ≤ N) :
    inner.encode_inline_from_slice slice = .ok (inner.inline_of slice) := by
  rw [InnerKey.encode_inline_from_slice, set_inline_of_le _ hlen]
  change copy_at (inner._inline.1.take slice.length) _ _ >>= _ = _
  rw [copy_at_exact (inner.length_take_inline hlen)]
  rfl

/-- A key that fits inline is held there, and the heap is left alone. -/
theorem KeyCall.run_inline (hassert : call.Asserted) (hlen : call.bytes.length ≤ N) :
    ∃ self', call.run growth self = .ok self' ∧ self'.as_slice = some call.bytes ∧
      self'.heap = self.heap := by
  refine ⟨{ self with _inner := self._inner.inline_of call.bytes }, ?_,
    self._inner.inline_of_as_slice hlen self.heap, rfl⟩
  cases call with
  | set user_key seq_no op =>
    simp only [KeyCall.bytes, length_encode] at hlen ⊢
    simp only [KeyCall.run, IterKey.set]
    rw [if_neg (Nat.not_lt.mpr hassert), if_pos hlen, InnerKey.encode_inline_exact _ _ _ hlen]
    rfl
  | set_from_slice slice =>
    simp only [KeyCall.bytes] at hlen ⊢
    simp only [KeyCall.run, IterKey.set_from_slice]
    rw [if_pos hlen, InnerKey.encode_inline_from_slice_exact _ hlen]
    rfl

theorem heap_of_len_capacity {len : Nat} {heap : Vec}
    (h : self.heap_of_len growth len = .ok heap) : len ≤ heap.capacity :=
  Vec.le_of_set_len h

/-- A key that does not fit inline goes to the heap, once this has its length. -/
theorem KeyCall.run_heap (hassert : call.Asserted) (hlen : N < call.bytes.length) :
    call.run growth self = (self.heap_of_len growth call.bytes.length).map fun heap =>
      { _inner := self._inner.set_external call.bytes.length heap.ptr
        heap := heap.store call.bytes } := by
  cases hheap : self.heap_of_len growth call.bytes.length with
  | error e =>
    cases call with
    | set user_key seq_no op =>
      simp only [KeyCall.bytes, length_encode] at hlen hheap
      simp only [KeyCall.run, IterKey.set]
      rw [if_neg (Nat.not_lt.mpr hassert), if_neg (Nat.not_le.mpr hlen), hheap]
      rfl
    | set_from_slice slice =>
      simp only [KeyCall.bytes] at hlen hheap
      simp only [KeyCall.run, IterKey.set_from_slice]
      rw [if_neg (Nat.not_le.mpr hlen), hheap]
      rfl
  | ok heap =>
    have htake : (heap.buf.take call.bytes.length).length = call.bytes.length :=
      List.length_take_of_le (heap_of_len_capacity hheap)
    cases call with
    | set user_key seq_no op =>
      simp only [KeyCall.bytes, length_encode] at hlen hheap htake ⊢
      simp only [KeyCall.run, IterKey.set]
      rw [if_neg (Nat.not_lt.mpr hassert), if_neg (Nat.not_le.mpr hlen), hheap]
      change (encode_into (heap.buf.take (user_key.length + 8)) _ _ _ >>= _) = _
      rw [encode_into_exact htake]
      rfl
    | set_from_slice slice =>
      simp only [KeyCall.bytes] at hlen hheap htake ⊢
      simp only [KeyCall.run, IterKey.set_from_slice]
      rw [if_neg (Nat.not_le.mpr hlen), hheap]
      change (copy_at (heap.buf.take slice.length) _ _ >>= _) = _
      rw [copy_at_exact htake]
      rfl

/-- A heap that is large enough is used as it is. -/
theorem heap_of_len_of_le {len : Nat} (hlen : len ≤ self.heap.capacity) :
    self.heap_of_len growth len = .ok { self.heap with len } := by
  unfold IterKey.heap_of_len
  have hroom : ¬ self.heap.clear.capacity < len := Nat.not_lt.mpr hlen
  simp only [if_neg hroom]
  exact Vec.set_len_of_le hlen

/-- A pointer to a live allocation gives its first bytes. -/
theorem InnerKey.external_as_slice (inner : InnerKey N) {heap : Vec} {bytes : List Byte}
    (hbytes : bytes.length ≤ heap.capacity) (htake : heap.buf.take bytes.length = bytes) :
    (inner.set_external bytes.length heap.ptr).as_slice heap = some bytes :=
  (if_pos ⟨rfl, hbytes⟩).trans (congrArg some htake)

theorem store_capacity {heap : Vec} {bytes : List Byte} (hbytes : bytes.length ≤ heap.capacity) :
    (heap.store bytes).capacity = heap.capacity := by
  simp only [Vec.capacity, Vec.store, List.length_append, List.length_drop] at hbytes ⊢
  omega

/-- The growth that gives what is asked and no more. -/
def Growth.least : Growth where
  capacity _ needed := needed
  enough _ _ := le_rfl

/-- The heap asks for what it lacks as if it kept what it has: it is then given a
length that it has no room for. -/
theorem heap_of_len_least {len : Nat} (hpos : 0 < self.heap.capacity)
    (hlen : self.heap.capacity < len) : self.heap_of_len .least len = .error .SetLen := by
  unfold IterKey.heap_of_len
  have hgrow : self.heap.clear.capacity < len := hlen
  simp only [if_pos hgrow]
  apply Vec.set_len_of_lt
  rw [Vec.clear_capacity]
  unfold Vec.reserve
  split
  · exact hlen
  · simp only [Vec.capacity, Vec.clear, List.take_zero, List.nil_append, List.length_replicate,
      Growth.least] at hpos hlen ⊢
    omega

/-- Up to twice its capacity the heap does not even grow. -/
theorem heap_of_len_between {len : Nat} (hlen : self.heap.capacity < len)
    (htwice : len ≤ 2 * self.heap.capacity) : self.heap_of_len growth len = .error .SetLen := by
  unfold IterKey.heap_of_len
  have hgrow : self.heap.clear.capacity < len := hlen
  have hroom : self.heap.clear.len + (len - self.heap.clear.capacity) ≤
      self.heap.clear.capacity := by
    change 0 + (len - self.heap.capacity) ≤ self.heap.capacity
    omega
  simp only [if_pos hgrow]
  rw [Vec.reserve, if_pos hroom]
  exact Vec.set_len_of_lt hlen

/-- The lengths that the buffers take: inline, or in a heap of this capacity. -/
def KeyCall.Within (N cap : Nat) (call : KeyCall) : Prop :=
  call.Asserted ∧ (call.bytes.length ≤ N ∨ call.bytes.length ≤ cap)

/-- Each call returns, and the key then holds its bytes. -/
def Serves {N : Nat} : List (KeyCall × Growth) → IterKey N → Prop
  | [], _ => True
  | (call, growth) :: calls, self =>
    ∃ self', call.run growth self = .ok self' ∧ self'.as_slice = some call.bytes ∧
      Serves calls self'

theorem KeyCall.run_within {cap : Nat} (hcap : self.heap.capacity = cap) (growth : Growth)
    (h : call.Within N cap) : ∃ self', call.run growth self = .ok self' ∧
      self'.as_slice = some call.bytes ∧ self'.heap.capacity = cap := by
  obtain ⟨hassert, hlen⟩ := h
  by_cases hinline : call.bytes.length ≤ N
  · obtain ⟨self', hrun, hslice, hheap⟩ := KeyCall.run_inline hassert hinline
    exact ⟨self', hrun, hslice, by rw [hheap, hcap]⟩
  · let heap : Vec := { self.heap with len := call.bytes.length }
    have hheap : call.bytes.length ≤ heap.capacity := by
      change _ ≤ self.heap.capacity
      rw [hcap]
      exact hlen.resolve_left hinline
    have hcapacity := store_capacity hheap
    refine ⟨{ _inner := self._inner.set_external call.bytes.length heap.ptr,
              heap := heap.store call.bytes }, ?_, ?_, hcapacity.trans hcap⟩
    · rw [KeyCall.run_heap hassert (Nat.lt_of_not_le hinline), heap_of_len_of_le hheap]
      rfl
    · exact self._inner.external_as_slice (hcapacity.ge.trans' hheap) List.take_left

/-- With the least growth a call that returns was within the capacity. -/
theorem KeyCall.within_of_run_least {cap : Nat} (hpos : 0 < cap) (hcap : self.heap.capacity = cap)
    {self' : IterKey N} (h : call.run .least self = .ok self') : call.Within N cap := by
  have hassert : call.Asserted := by
    cases call with
    | set user_key seq_no op =>
      apply Nat.le_of_not_lt
      intro hlong
      simp only [KeyCall.run, IterKey.set] at h
      rw [if_pos hlong] at h
      cases h
    | set_from_slice slice => trivial
  refine ⟨hassert, ?_⟩
  by_contra hnot
  obtain ⟨hinline, hheap⟩ := not_or.mp hnot
  rw [← hcap] at hpos hheap
  rw [KeyCall.run_heap hassert (Nat.lt_of_not_le hinline),
    heap_of_len_least hpos (Nat.lt_of_not_le hheap)] at h
  cases h

theorem serves_of_within {cap : Nat} (calls : List (KeyCall × Growth)) :
    ∀ {self : IterKey N}, self.heap.capacity = cap → (∀ call ∈ calls, call.1.Within N cap) →
      Serves calls self := by
  induction calls with
  | nil => exact fun _ _ => trivial
  | cons call calls ih =>
    intro self hcap h
    obtain ⟨hfirst, hrest⟩ := List.forall_mem_cons.mp h
    obtain ⟨self', hrun, hslice, hcap'⟩ := KeyCall.run_within hcap call.2 hfirst
    exact ⟨self', hrun, hslice, ih hcap' hrest⟩

theorem within_of_serves_least {cap : Nat} (hpos : 0 < cap) (calls : List KeyCall) :
    ∀ {self : IterKey N}, self.heap.capacity = cap →
      Serves (calls.map fun call => (call, Growth.least)) self →
      ∀ call ∈ calls, call.Within N cap := by
  induction calls with
  | nil => exact fun _ _ => nofun
  | cons call calls ih =>
    intro self hcap h
    obtain ⟨self', hrun, -, hrest⟩ := h
    have hfirst := KeyCall.within_of_run_least hpos hcap hrun
    obtain ⟨self'', hrun', -, hcap'⟩ := KeyCall.run_within hcap Growth.least hfirst
    cases hrun.symm.trans hrun'
    exact List.forall_mem_cons.mpr ⟨hfirst, ih hcap' hrest⟩

/-- Whatever `Vec::reserve` gives within its contract, every key of a sequence is
held in full exactly when none of them needs more than the capacity that the heap
was made with. -/
theorem iter_key_serves_iff (N : Nat) {cap : Nat} (hcap : INITIAL_KEY_BUFFER_CAP ≤ cap)
    (calls : List KeyCall) :
    (∀ run : List (KeyCall × Growth), run.map Prod.fst = calls → Serves run (IterKey.new N cap)) ↔
      ∀ call ∈ calls, call.Within N cap := by
  have hcapacity : (IterKey.new N cap).heap.capacity = cap := List.length_replicate
  constructor
  · intro h
    have hpos : 0 < cap := Nat.lt_of_lt_of_le (by decide) hcap
    have hcalls : (calls.map fun call => (call, Growth.least)).map Prod.fst = calls := by
      rw [List.map_map]
      exact List.map_id calls
    exact within_of_serves_least hpos calls hcapacity (h _ hcalls)
  · intro h run hrun
    apply serves_of_within _ hcapacity
    intro call hcall
    apply h call.1
    rw [← hrun]
    exact List.mem_map_of_mem hcall

/-- A short key, then one that fills the first capacity. -/
def short_then_long : List KeyCall :=
  [.set [1#8] 7#64 .Put, .set_from_slice (List.replicate INITIAL_KEY_BUFFER_CAP 2#8)]

theorem iter_key_serves_iff_short_then_long :
    Serves (short_then_long.map fun call => (call, Growth.least))
      (IterKey.new ITER_INLINE INITIAL_KEY_BUFFER_CAP) := by
  refine (iter_key_serves_iff ITER_INLINE le_rfl short_then_long).mpr ?_ _ rfl
  intro call hcall
  simp only [short_then_long, List.mem_cons, List.not_mem_nil, or_false] at hcall
  obtain rfl | rfl := hcall
  · exact ⟨(by decide : 1 + 8 ≤ MAX_KEY_SIZE), .inl (by decide)⟩
  · exact ⟨trivial, .inr (Nat.le_of_eq List.length_replicate)⟩

/-- A new key that is given a slice longer than its heap forces the length past the
capacity, however the allocator grows. -/
theorem iter_key_sets_len_past_capacity : ∃ slice : List Byte, ∀ growth : Growth,
    (IterKey.new ITER_INLINE INITIAL_KEY_BUFFER_CAP).set_from_slice growth slice =
      .error .SetLen := by
  obtain ⟨slice, hlength⟩ : ∃ slice : List Byte, slice.length = 600 :=
    ⟨List.replicate 600 7#8, List.length_replicate⟩
  refine ⟨slice, fun growth => ?_⟩
  have hcapacity : (IterKey.new ITER_INLINE INITIAL_KEY_BUFFER_CAP).heap.capacity = 512 :=
    List.length_replicate
  have hheap : (IterKey.new ITER_INLINE INITIAL_KEY_BUFFER_CAP).heap_of_len growth slice.length =
      .error .SetLen := by
    rw [hlength]
    exact heap_of_len_between (by omega) (by omega)
  change KeyCall.run growth _ (KeyCall.set_from_slice slice) = _
  have hinline : ITER_INLINE < (KeyCall.set_from_slice slice).bytes.length := by
    change 39 < slice.length
    omega
  have hassert : (KeyCall.set_from_slice slice).Asserted := trivial
  rw [KeyCall.run_heap hassert hinline]
  change (IterKey.heap_of_len _ growth slice.length).map _ = _
  rw [hheap]
  rfl

end call

end ordinum.key
