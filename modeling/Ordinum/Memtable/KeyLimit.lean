import Ordinum.Db.Batch.Inner
import Ordinum.Key.LookUpKey
import Ordinum.Utils.SkipLists.MemSkipList

open ordinum.key ordinum.utils

namespace ordinum.mem_skip_list

/-- `offset_of!(Node, tower)`: two `u16` and a `u32`. -/
def TOWER_OFFSET : Nat := 8

def POINTER_SIZE : Nat := 8

/-- A node as the arena holds it: the lengths of its header, and its allocation. -/
structure RawNode where
  height : BitVec 16
  key_len : BitVec 16
  value_len : BitVec 32
  memory : List Byte
  deriving DecidableEq, Repr

/-- The memory that the arena hands out for a size, with whatever bytes it holds. -/
abbrev RawMemory := (size : Nat) → { bytes : List Byte // bytes.length = size }

namespace RawNode

def build_layout (height key_len value_len : Nat) : Nat :=
  TOWER_OFFSET + height * POINTER_SIZE + key_len + value_len

def alloc (arena : RawMemory) (height : BitVec 16) (key_len : BitVec 16) (value_len : BitVec 32) :
    Option RawNode :=
  if height.toNat ≤ MAX_HEAD_HEIGHT then
    let layout := build_layout height.toNat key_len.toNat value_len.toNat
    some { height, key_len, value_len, memory := (arena layout).1 }
  else none

variable (self : RawNode)

def key_ptr : Nat := TOWER_OFFSET + self.height.toNat * POINTER_SIZE

def value_ptr : Nat := self.key_ptr + self.key_len.toNat

def get_key_bytes : List Byte := (self.memory.drop self.key_ptr).take self.key_len.toNat

/-- `copy_nonoverlapping(src, node + offset, src.len())`: past the allocation it
writes into memory that is not the node's. -/
def copy_nonoverlapping (offset : Nat) (src : List Byte) : Option RawNode :=
  if offset + src.length ≤ self.memory.length then
    some { self with
      memory := self.memory.take offset ++ src ++ self.memory.drop (offset + src.length) }
  else none

end RawNode

/-- The node that `insert` makes, for a tower of this height. -/
def insert_node (arena : RawMemory) (height : Nat) (key value : List Byte) : Option RawNode := do
  let node ← RawNode.alloc arena (BitVec.ofNat 16 height) (BitVec.ofNat 16 key.length)
    (BitVec.ofNat 32 value.length)
  let node ← node.copy_nonoverlapping node.key_ptr key
  node.copy_nonoverlapping node.value_ptr value

/-- The node that `insert_with` makes: the closure writes its key. -/
def insert_with_node (arena : RawMemory) (height : Nat) (key_len : BitVec 16) (value : List Byte)
    (f : RawNode → Option RawNode) : Option RawNode := do
  let node ← RawNode.alloc arena (BitVec.ofNat 16 height) key_len (BitVec.ofNat 32 value.length)
  let node ← f node
  node.copy_nonoverlapping node.value_ptr value

/-- `MemtableInner::insert_direct`, where the bytes of the dropped trailer are still there. -/
def insert_direct_node (arena : RawMemory) (height : Nat) (user_key : List Byte)
    (seq_no : BitVec 64) (op_type : InternalKeyKind) (value : List Byte) : Option RawNode :=
  let user_key_len := user_key.length
  insert_with_node arena height (BitVec.ofNat 16 (user_key_len + 8)) value fun node => do
    let node ← node.copy_nonoverlapping node.key_ptr user_key
    node.copy_nonoverlapping (node.key_ptr + user_key_len) (encode_trailer seq_no op_type)

section node

variable {arena : RawMemory} {height : Nat} {key value : List Byte}

theorem copy_of_le {node : RawNode} {offset : Nat} {src : List Byte}
    (h : offset + src.length ≤ node.memory.length) : node.copy_nonoverlapping offset src =
      some { node with
        memory := node.memory.take offset ++ src ++ node.memory.drop (offset + src.length) } := by
  rw [RawNode.copy_nonoverlapping, if_pos h]

theorem copy_eq_some {node node' : RawNode} {offset : Nat} {src : List Byte}
    (h : node.copy_nonoverlapping offset src = some node') :
    offset + src.length ≤ node.memory.length ∧
      node' = { node with
        memory := node.memory.take offset ++ src ++ node.memory.drop (offset + src.length) } := by
  unfold RawNode.copy_nonoverlapping at h
  split at h
  · cases h
    exact ⟨by assumption, rfl⟩
  · cases h

/-- Copying in two parts is copying the whole. -/
theorem copy_append (node : RawNode) (offset : Nat) (a b : List Byte) :
    node.copy_nonoverlapping offset (a ++ b) = (node.copy_nonoverlapping offset a).bind
      fun node => node.copy_nonoverlapping (offset + a.length) b := by
  by_cases hroom : offset + (a ++ b).length ≤ node.memory.length
  · have hlen := hroom
    rw [List.length_append] at hlen
    rw [copy_of_le hroom, copy_of_le (by omega), Option.bind_some, copy_of_le]
    · have htake : (node.memory.take offset ++ a).length = offset + a.length := by
        rw [List.length_append, List.length_take]
        omega
      have hdrop : (node.memory.drop (offset + a.length)).drop b.length =
          node.memory.drop (offset + (a ++ b).length) := by
        rw [List.drop_drop, List.length_append, Nat.add_assoc]
      simp only [Option.some.injEq, RawNode.mk.injEq, true_and]
      rw [← htake, List.take_left, List.drop_append, hdrop.symm, htake]
      simp
      omega
    · simp only [List.length_append, List.length_take, List.length_drop]
      omega
  · have hnone : node.copy_nonoverlapping offset (a ++ b) = none := if_neg hroom
    rw [hnone]
    by_cases hfirst : offset + a.length ≤ node.memory.length
    · rw [copy_of_le hfirst, Option.bind_some, RawNode.copy_nonoverlapping, if_neg]
      simp only [List.length_append, List.length_take, List.length_drop] at hroom ⊢
      omega
    · rw [RawNode.copy_nonoverlapping, if_neg hfirst, Option.bind_none]

/-- The allocation is as large as the header says, with its lengths truncated. -/
theorem alloc_eq (arena : RawMemory) (hheight : height ≤ MAX_HEAD_HEIGHT) (key value : List Byte) :
    ∃ node, RawNode.alloc arena (BitVec.ofNat 16 height) (BitVec.ofNat 16 key.length)
        (BitVec.ofNat 32 value.length) = some node ∧
      node.key_len.toNat = key.length % 2 ^ 16 ∧
      node.memory.length = node.key_ptr + key.length % 2 ^ 16 + value.length % 2 ^ 32 := by
  have hheight_nat : (BitVec.ofNat 16 height).toNat = height := by
    rw [BitVec.toNat_ofNat]
    apply Nat.mod_eq_of_lt
    change height ≤ 8 at hheight
    omega
  refine ⟨_, if_pos (hheight_nat.trans_le hheight), BitVec.toNat_ofNat .., ?_⟩
  rw [(arena _).2, RawNode.build_layout, BitVec.toNat_ofNat key.length,
    BitVec.toNat_ofNat value.length]
  rfl

/-- A node has the whole key exactly when no length of its header is truncated. -/
theorem insert_node_iff (hheight : height ≤ MAX_HEAD_HEIGHT) :
    (∃ node, insert_node arena height key value = some node ∧ node.get_key_bytes = key) ↔
      key.length < 2 ^ 16 ∧ value.length < 2 ^ 32 := by
  obtain ⟨node, halloc, hkey_len, hlength⟩ := alloc_eq arena hheight key value
  have hkey_mod := Nat.mod_le key.length (2 ^ 16)
  have hvalue_mod := Nat.mod_lt value.length (by decide : 0 < 2 ^ 32)
  rw [insert_node, halloc]
  simp only [Option.bind_eq_bind, Option.bind_some]
  constructor
  · rintro ⟨node', hnode, hkey⟩
    obtain ⟨with_key, hcopy_key, hcopy_value⟩ := Option.bind_eq_some_iff.mp hnode
    obtain ⟨hroom_key, rfl⟩ := copy_eq_some hcopy_key
    obtain ⟨hroom_value, rfl⟩ := copy_eq_some hcopy_value
    have hread := congrArg List.length hkey
    simp only [RawNode.get_key_bytes, List.length_take, hkey_len] at hread
    simp only [RawNode.value_ptr, RawNode.key_ptr, hkey_len, List.length_append, List.length_take,
      List.length_drop] at hroom_key hroom_value hlength
    omega
  · rintro ⟨hkey, hvalue⟩
    rw [Nat.mod_eq_of_lt hkey] at hkey_len hlength
    rw [Nat.mod_eq_of_lt hvalue] at hlength
    have hfront : (node.memory.take node.key_ptr ++ key).length = node.key_ptr + key.length := by
      rw [List.length_append, List.length_take]
      omega
    have hprefix : (node.memory.take node.key_ptr).length = node.key_ptr := by
      rw [List.length_take]
      omega
    rw [copy_of_le (by omega), Option.bind_some]
    have hptr : ∀ memory : List Byte, ({ node with memory } : RawNode).value_ptr =
        (node.memory.take node.key_ptr ++ key).length := by
      intro memory
      rw [hfront]
      change node.key_ptr + node.key_len.toNat = _
      rw [hkey_len]
    rw [hptr, copy_of_le]
    · refine ⟨_, rfl, ?_⟩
      simp only [List.take_left]
      change ((node.memory.take node.key_ptr ++ key ++ value ++ _).drop node.key_ptr).take
        node.key_len.toNat = key
      rw [List.append_assoc, List.append_assoc, List.drop_left' hprefix, hkey_len, List.take_left]
    · rw [hfront, List.length_append, hfront, List.length_drop]
      omega

end node

section direct

variable {arena : RawMemory} {height : Nat} {user_key value : List Byte} {seq_no : BitVec 64}
  {op : InternalKeyKind}

/-- Writing the key in place makes the node that copying it encoded makes. -/
theorem insert_direct_node_eq : insert_direct_node arena height user_key seq_no op value =
    insert_node arena height (encode user_key seq_no op) value := by
  rw [insert_direct_node, insert_with_node, insert_node, length_encode]
  congr 1
  funext node
  rw [encode, copy_append]
  simp only [Option.bind_eq_bind]
  cases hcopy : node.copy_nonoverlapping node.key_ptr user_key with
  | none => rfl
  | some node' =>
    obtain ⟨-, rfl⟩ := copy_eq_some hcopy
    rfl

/-- A user key is stored in full by both inserts, looked up in full and taken by an
iterator key exactly when it fits the limit together with its trailer, and its value
the header of a node. -/
theorem key_stored_and_looked_up_iff (arena : RawMemory) (hheight : height ≤ MAX_HEAD_HEIGHT)
    (user_key value : List Byte) (seq_no : BitVec 64) (op : InternalKeyKind) (N : Nat) {M : Nat}
    (iter_key : IterKey M) (growth : Growth) :
    ((∃ node, insert_direct_node arena height user_key seq_no op value = some node ∧
        node.get_key_bytes = encode user_key seq_no op) ∧
      (∃ node, insert_node arena height (encode user_key seq_no op) value = some node ∧
        node.get_key_bytes = encode user_key seq_no op) ∧
      (∃ k, LookUpKey.new N user_key seq_no op = .ok k ∧
        k.as_ref = some (encode user_key seq_no op)) ∧
      iter_key.set growth user_key seq_no op ≠ .error .MaxKeySize) ↔
      user_key.length + 8 ≤ MAX_KEY_SIZE ∧ value.length < 2 ^ 32 := by
  have hlength := length_encode user_key seq_no op
  have hlimit : MAX_KEY_SIZE = 2 ^ 16 - 1 := rfl
  rw [insert_direct_node_eq, insert_node_iff hheight, look_up_key_iff, iter_key_asserts_iff,
    hlength, hlimit]
  constructor
  · rintro ⟨⟨-, hvalue⟩, -, hkey, -⟩
    exact ⟨hkey, hvalue⟩
  · rintro ⟨hkey, hvalue⟩
    have hnode : user_key.length + 8 < 2 ^ 16 ∧ value.length < 2 ^ 32 := ⟨by omega, hvalue⟩
    exact ⟨hnode, hnode, hkey, hkey⟩

theorem length_zeroes (size : Nat) : (List.replicate size 0#8).length = size :=
  List.length_replicate

def zeroed : RawMemory := fun size => ⟨List.replicate size 0#8, length_zeroes size⟩

theorem key_stored_and_looked_up_short :
    ∃ node, insert_direct_node zeroed 1 [7#8] 3#64 .Put [8#8] = some node ∧
      node.get_key_bytes = encode [7#8] 3#64 .Put :=
  ((key_stored_and_looked_up_iff zeroed (by decide) [7#8] [8#8] 3#64 .Put INLINE_IK_SIZE
    (IterKey.new ITER_INLINE INITIAL_KEY_BUFFER_CAP) .least).mpr ⟨by decide, by decide⟩).1

/-- A user key that the batch accepts: with its trailer the length wraps to zero, the
bytes go past the node, and the read side refuses the key. -/
theorem accepted_key_is_not_stored : ∃ user_key : List Byte,
    user_key.length ≤ batch.MAX_USER_KEY_BYTES ∧
      BitVec.ofNat 16 (user_key.length + 8) = 0#16 ∧
      insert_direct_node zeroed 1 user_key 3#64 .Put [] = none ∧
      LookUpKey.new INLINE_IK_SIZE user_key 3#64 .Put = .error .MaxKeySize := by
  obtain ⟨user_key, hlength⟩ : ∃ user_key : List Byte, user_key.length = 2 ^ 16 - 8 :=
    ⟨List.replicate (2 ^ 16 - 8) 7#8, List.length_replicate⟩
  refine ⟨user_key, ?_, ?_, ?_, ?_⟩
  · rw [hlength]
    decide
  · rw [hlength]
    rfl
  · obtain ⟨node, halloc, -, hmemory⟩ :=
      alloc_eq zeroed (by decide : 1 ≤ MAX_HEAD_HEIGHT) (encode user_key 3#64 .Put) []
    rw [length_encode, hlength] at hmemory
    rw [insert_direct_node_eq, insert_node, halloc, Option.bind_eq_bind, Option.bind_some,
      RawNode.copy_nonoverlapping, if_neg]
    · rfl
    · rw [length_encode, hlength]
      change node.memory.length = node.key_ptr + 0 + 0 at hmemory
      omega
  · rw [LookUpKey.new, if_pos]
    · rfl
    · rw [hlength]
      decide

end direct

end ordinum.mem_skip_list
