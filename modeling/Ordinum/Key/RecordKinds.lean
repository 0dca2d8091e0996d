import Ordinum.Db.Batch.Inner
import Ordinum.Key.LookUpKey

open ordinum.batch ordinum.utils

namespace ordinum.key

/-- `InternalKeyKind::try_from` of a record's kind. -/
def InternalKeyKind.try_from_record : RecordKind → Except RecordKind InternalKeyKind
  | .Put => .ok .Put
  | .Delete => .ok .Delete
  | .Merge => .ok .Merge
  | .RangeDel => .error .RangeDel
  | .LogData => .ok .Log

/-- The kinds that records are written with. -/
def InternalKeyKind.Written (kind : InternalKeyKind) : Prop :=
  ∃ record, InternalKeyKind.try_from_record record = .ok kind

/-- Of the kinds that are written, one has no byte that is read. -/
theorem InternalKeyKind.Written.try_from_iff {kind : InternalKeyKind} (h : kind.Written) :
    InternalKeyKind.try_from kind.to_u8 = .ok kind ↔ kind ≠ .Log := by
  obtain ⟨record, hrecord⟩ := h
  cases record <;> cases hrecord <;> decide

/-- What a read makes of the bytes of a lookup key. -/
structure DecodesTo (bytes user_key : List Byte) (seq_no : BitVec 64) (kind : InternalKeyKind) :
    Prop where
  user : (InternalKeyRef.from_key bytes).user_key = user_key
  sequence : (InternalKeyRef.from_key bytes).seq_no = seq_no
  op : InternalKeyKind.try_from (InternalKeyRef.from_key bytes).op = .ok kind
  trailer : unpack_trailer (wire.from_be_bytes 64 (split_trailer bytes).2) = .ok (seq_no, kind)

theorem encode_decodes_iff (user_key : List Byte) {seq_no : BitVec 64}
    (hseq : seq_no.toNat < 2 ^ 56) {kind : InternalKeyKind} (hkind : kind.Written) :
    DecodesTo (encode user_key seq_no kind) user_key seq_no kind ↔ kind ≠ .Log := by
  have hkey := from_key_encode user_key kind hseq
  have htrailer : unpack_trailer_raw (wire.from_be_bytes 64 (encode_trailer seq_no kind)) =
      (seq_no, kind.to_u8) := by
    rw [encode_trailer, wire.from_be_bytes_to_be_bytes 8 (BitVec.isLt _),
      unpack_pack_trailer hseq]
  rw [← hkind.try_from_iff]
  constructor
  · intro h
    have hop := h.op
    rwa [hkey] at hop
  · intro hop
    refine ⟨by rw [hkey], by rw [hkey], by rwa [hkey], ?_⟩
    rw [split_trailer_encode, unpack_trailer, htrailer]
    simp only [hop]
    rfl

end ordinum.key
