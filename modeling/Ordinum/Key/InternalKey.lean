import Ordinum.Key.Comparator
import Ordinum.Wire.BigEndian

open ordinum.utils

namespace ordinum.key

inductive InternalKeyKind where
  | Put
  | Delete
  | Merge
  | RangeDel
  | Log
  | Max
  deriving DecidableEq, Repr

/-- `op as u8`. -/
def InternalKeyKind.to_u8 : InternalKeyKind → Byte
  | .Put => 1
  | .Delete => 2
  | .Merge => 3
  | .RangeDel => 4
  | .Log => 5
  | .Max => 255

theorem InternalKeyKind.to_u8_injective {a b : InternalKeyKind} (h : a.to_u8 = b.to_u8) :
    a = b := by
  cases a <;> cases b <;> first | rfl | exact absurd h (by decide)

structure InvalidInternalKeyKind where
  raw : Byte
  deriving DecidableEq, Repr

def InternalKeyKind.try_from (raw : Byte) : Except InvalidInternalKeyKind InternalKeyKind :=
  if raw = 1 then .ok .Put
  else if raw = 2 then .ok .Delete
  else if raw = 3 then .ok .Merge
  else if raw = 255 then .ok .Max
  else .error { raw }

def pack_trailer (seq_no : BitVec 64) (op : InternalKeyKind) : BitVec 64 :=
  (seq_no <<< 8) ||| op.to_u8.setWidth 64

def encode_trailer (seq_no : BitVec 64) (op : InternalKeyKind) : List Byte :=
  wire.to_be_bytes 8 (pack_trailer seq_no op)

def unpack_trailer_raw (trailer : BitVec 64) : BitVec 64 × Byte :=
  (trailer >>> 8, (trailer &&& 0xff).setWidth 8)

def unpack_trailer (trailer : BitVec 64) :
    Except InvalidInternalKeyKind (BitVec 64 × InternalKeyKind) := do
  let (seq_no, op) := unpack_trailer_raw trailer
  return (seq_no, ← InternalKeyKind.try_from op)

structure InternalKeyRef where
  user_key : List Byte
  seq_no : BitVec 64
  op : Byte
  deriving DecidableEq, Repr

/-- `InternalKeyRef::from`, for keys that have a trailer. -/
def InternalKeyRef.from_key (key : List Byte) : InternalKeyRef :=
  let (user_key, trailer_bytes) := split_trailer key
  let (seq_no, op) := unpack_trailer_raw (wire.from_be_bytes 64 trailer_bytes)
  { user_key, seq_no, op }

/-- What `encode_into` writes. -/
def encode (user_key : List Byte) (seq_no : BitVec 64) (op : InternalKeyKind) : List Byte :=
  user_key ++ encode_trailer seq_no op

section trailer

variable {seq_no : BitVec 64} (hseq : seq_no.toNat < 2 ^ 56) (op : InternalKeyKind)

include hseq

/-- As a number, the sequence number is above the kind. -/
theorem pack_trailer_toNat :
    (pack_trailer seq_no op).toNat = seq_no.toNat * 2 ^ 8 + op.to_u8.toNat := by
  have hop : op.to_u8.toNat < 2 ^ 8 := op.to_u8.isLt
  have hshift : (seq_no <<< 8).toNat = seq_no.toNat <<< 8 := by
    rw [BitVec.toNat_shiftLeft, Nat.mod_eq_of_lt]
    rw [Nat.shiftLeft_eq]
    omega
  rw [pack_trailer, BitVec.toNat_or, hshift, BitVec.toNat_setWidth,
    Nat.mod_eq_of_lt (hop.trans (by decide)), ← Nat.shiftLeft_add_eq_or_of_lt hop,
    Nat.shiftLeft_eq]

theorem unpack_pack_trailer :
    unpack_trailer_raw (pack_trailer seq_no op) = (seq_no, op.to_u8) := by
  have hop : op.to_u8.toNat < 2 ^ 8 := op.to_u8.isLt
  have hpack := pack_trailer_toNat hseq op
  rw [unpack_trailer_raw, Prod.mk.injEq]
  constructor
  · apply BitVec.eq_of_toNat_eq
    rw [BitVec.toNat_ushiftRight, Nat.shiftRight_eq_div_pow, hpack]
    omega
  · apply BitVec.eq_of_toNat_eq
    have hmask : (0xff : BitVec 64).toNat = 2 ^ 8 - 1 := rfl
    rw [BitVec.toNat_setWidth, BitVec.toNat_and, hmask, Nat.and_two_pow_sub_one_eq_mod, hpack]
    omega

end trailer

section encode

theorem split_trailer_append {user_key trailer : List Byte} (hlength : trailer.length = TRAILER_LEN) :
    split_trailer (user_key ++ trailer) = (user_key, trailer) := by
  have hsplit : (user_key ++ trailer).length - TRAILER_LEN = user_key.length := by
    rw [List.length_append, hlength, Nat.add_sub_cancel]
  rw [split_trailer, hsplit, List.splitAt_eq, List.take_left, List.drop_left]

theorem split_trailer_encode (user_key : List Byte) (seq_no : BitVec 64) (op : InternalKeyKind) :
    split_trailer (encode user_key seq_no op) = (user_key, encode_trailer seq_no op) :=
  split_trailer_append (wire.length_to_be_bytes 8 _)

/-- An encoded key is decoded to its parts. -/
theorem from_key_encode (user_key : List Byte) (op : InternalKeyKind) {seq_no : BitVec 64}
    (hseq : seq_no.toNat < 2 ^ 56) : InternalKeyRef.from_key (encode user_key seq_no op) =
      { user_key, seq_no, op := op.to_u8 } := by
  have hbytes : wire.from_be_bytes 64 (encode_trailer seq_no op) = pack_trailer seq_no op :=
    wire.from_be_bytes_to_be_bytes 8 (pack_trailer seq_no op).isLt
  simp only [InternalKeyRef.from_key, split_trailer_encode, hbytes, unpack_pack_trailer hseq]

/-- Encoded keys: user keys ascend, and under one user key the newest is first. -/
theorem compare_encode {a_user b_user : List Byte} {a_seq b_seq : BitVec 64}
    {a_op b_op : InternalKeyKind} (ha : a_seq.toNat < 2 ^ 56) (hb : b_seq.toNat < 2 ^ 56) :
    InternalKeyComparator.compare (encode a_user a_seq a_op) (encode b_user b_seq b_op) =
      (compare a_user b_user).then
        (compare (b_seq.toNat * 2 ^ 8 + b_op.to_u8.toNat)
          (a_seq.toNat * 2 ^ 8 + a_op.to_u8.toNat)) := by
  have htrailer : compare (encode_trailer b_seq b_op) (encode_trailer a_seq a_op) =
      compare (b_seq.toNat * 2 ^ 8 + b_op.to_u8.toNat)
        (a_seq.toNat * 2 ^ 8 + a_op.to_u8.toNat) := by
    rw [encode_trailer, encode_trailer, wire.compare_to_be_bytes 8 (BitVec.isLt _) (BitVec.isLt _),
      pack_trailer_toNat hb, pack_trailer_toNat ha]
  simp only [InternalKeyComparator, compare_internal_keys, split_trailer_encode, htrailer]
  cases compare a_user b_user <;> rfl

end encode

section order

theorem compare_packed (a_seq b_seq : Nat) (a_op b_op : InternalKeyKind) :
    compare (a_seq * 2 ^ 8 + a_op.to_u8.toNat) (b_seq * 2 ^ 8 + b_op.to_u8.toNat) =
      (compare a_seq b_seq).then (compare a_op.to_u8.toNat b_op.to_u8.toNat) := by
  have ha : a_op.to_u8.toNat < 2 ^ 8 := a_op.to_u8.isLt
  have hb : b_op.to_u8.toNat < 2 ^ 8 := b_op.to_u8.isLt
  rw [wire.compare_div_mod (n := 2 ^ 8)]
  congr 2 <;> omega

/-- A user key is left of every longer one that it begins. -/
theorem compare_proper_prefix {a b : List Byte} (hstarts : a <+: b) (hne : a ≠ b) :
    compare a b = .lt := by
  obtain ⟨rest, rfl⟩ := hstarts
  have hrest : rest ≠ [] := fun h => hne (by rw [h, List.append_nil])
  obtain ⟨byte, rest, rfl⟩ := List.exists_cons_of_ne_nil hrest
  have hself : compare a a = .eq := Std.ReflCmp.compare_self
  have happend := wire.compare_append (rfl : a.length = a.length) [] (byte :: rest)
  rw [List.append_nil, hself] at happend
  exact happend

variable {a_user b_user : List Byte} {a_seq b_seq : BitVec 64} {a_op b_op : InternalKeyKind}

/-- A key long enough to be split at its trailer. -/
abbrev TrailedKey := { key : List Byte // TRAILER_LEN ≤ key.length }

/-- Encoded keys are ordered by user key, then descend by sequence number and kind; and
the keys with a trailer are totally ordered. -/
theorem internal_key_order (ha : a_seq.toNat < 2 ^ 56) (hb : b_seq.toNat < 2 ^ 56)
    (a b c : TrailedKey) :
    InternalKeyComparator.compare (encode a_user a_seq a_op) (encode b_user b_seq b_op) =
        (compare a_user b_user).then ((compare b_seq.toNat a_seq.toNat).then
          (compare b_op.to_u8.toNat a_op.to_u8.toNat)) ∧
      (a_user <+: b_user → a_user ≠ b_user →
        InternalKeyComparator.compare (encode a_user a_seq a_op) (encode b_user b_seq b_op) = .lt) ∧
      (InternalKeyComparator.compare a.1 b.1 = .eq ↔ a = b) ∧
      InternalKeyComparator.compare b.1 a.1 = (InternalKeyComparator.compare a.1 b.1).swap ∧
      ((InternalKeyComparator.compare a.1 b.1).isLE → (InternalKeyComparator.compare b.1 c.1).isLE →
        (InternalKeyComparator.compare a.1 c.1).isLE) := by
  refine ⟨?_, ?_, ?_, ?_, ?_⟩
  · rw [compare_encode ha hb, compare_packed]
  · intro hstarts hne
    rw [compare_encode ha hb, compare_proper_prefix hstarts hne]
    rfl
  · rw [Std.LawfulEqCmp.compare_eq_iff_eq, Subtype.ext_iff]
  · exact Std.OrientedCmp.eq_swap
  · exact Std.TransCmp.isLE_trans

/-- A key with nothing but its trailer, beside one that has a byte more. -/
theorem internal_key_order_prefix :
    InternalKeyComparator.compare (encode [] 1 .Put) (encode [0xff#8] 2 .Delete) = .lt :=
  (@internal_key_order [] [0xff#8] 1 2 .Put .Delete (by decide) (by decide)
    ⟨encode [] 1 .Put, by decide⟩ ⟨encode [] 2 .Put, by decide⟩
    ⟨encode [] 3 .Put, by decide⟩).2.1 List.nil_prefix (by decide)

end order

end ordinum.key
