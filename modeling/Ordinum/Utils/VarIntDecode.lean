import Mathlib.Order.Bounds.Defs
import Mathlib.Tactic.Ring
import Ordinum.Utils.VarInt

namespace ordinum.utils.VarInt

section size

/-- The groups of a value hold all of its bits. -/
theorem lt_two_pow_groups_length (v : BitVec 32) :
    v.toNat < 2 ^ (7 * (groups v).length) := by
  induction v using groups.induct with
  | case1 v hlarge ih =>
    rw [shift_toNat] at ih
    rw [groups, if_pos hlarge, List.length_cons, Nat.mul_succ, Nat.pow_add]
    omega
  | case2 v hsmall =>
    rw [groups, if_neg hsmall, List.length_singleton]
    omega

theorem groups_length_isLeast (v : BitVec 32) :
    IsLeast { n | 1 ≤ n ∧ n ≤ MAX_VARINT ∧ v.toNat < 2 ^ (7 * n) } (groups v).length := by
  refine ⟨⟨groups_length_pos v, groups_length_le_max v, lt_two_pow_groups_length v⟩, ?_⟩
  rintro n ⟨hpos, -, hv⟩
  obtain ⟨m, rfl⟩ := Nat.exists_eq_succ_of_ne_zero (Nat.pos_iff_ne_zero.mp hpos)
  exact groups_length_le m v hv

/-- No encoding is a proper prefix of another: the decoder would read both. -/
theorem eq_of_groups_prefix {v w : BitVec 32} (h : groups v <+: groups w) : v = w := by
  obtain ⟨rest, hrest⟩ := h
  have hw := decode_groups w []
  rw [List.append_nil, ← hrest, decode_groups v rest] at hw
  exact congrArg Prod.fst (Option.some.inj hw)

theorem new_loop_length {buf : List Byte} {v : BitVec 32} {i : Nat} {varint : VarInt}
    (h : new_loop buf v i = some varint) : varint.buf.length = buf.length := by
  induction buf, v, i using new_loop.induct generalizing varint with
  | case1 buf v i hlarge ih =>
    rw [new_loop, if_pos hlarge] at h
    obtain ⟨buf', hset, hloop⟩ := Option.bind_eq_some_iff.mp h
    rw [ih buf' hloop]
    rw [set_byte] at hset
    split at hset <;> cases hset
    exact List.length_set
  | case2 buf v i hsmall =>
    rw [new_loop, if_neg hsmall] at h
    obtain ⟨buf', hset, hlen⟩ := Option.bind_eq_some_iff.mp h
    cases hlen
    rw [set_byte] at hset
    split at hset <;> cases hset
    exact List.length_set

/-- Every value is encoded in its buffer, in as few bytes as hold it, and read back from
any bytes that start with its encoding. -/
theorem decode_undoes_new (value : BitVec 32) :
    ∃ varint, new value = some varint ∧ varint.buf.length = MAX_VARINT ∧
      IsLeast { n | 1 ≤ n ∧ n ≤ MAX_VARINT ∧ value.toNat < 2 ^ (7 * n) } varint.size ∧
      (∀ rest, decode (varint.as_slice ++ rest) = some (value, varint.size)) ∧
      ∀ other other_varint, new other = some other_varint →
        varint.as_slice <+: other_varint.as_slice →
        varint.as_slice = other_varint.as_slice ∧ value = other := by
  obtain ⟨varint, hnew, hslice, hsize⟩ := new_spec value
  refine ⟨varint, hnew, ?_, ?_, ?_, ?_⟩
  · rw [new_loop_length hnew, List.length_replicate]
  · rw [hsize]
    exact groups_length_isLeast value
  · intro rest
    rw [hslice, hsize]
    exact decode_groups value rest
  · intro other other_varint hother hstarts
    obtain ⟨varint', hnew', hslice', -⟩ := new_spec other
    obtain rfl : varint' = other_varint := Option.some.inj (hnew'.symm.trans hother)
    rw [hslice, hslice'] at hstarts ⊢
    obtain rfl := eq_of_groups_prefix hstarts
    exact ⟨rfl, rfl⟩

end size

section malformed

def payload (byte : Byte) : Nat := (byte &&& 0x7F#8).toNat

/-- The number that bytes denote: their payloads, lowest first. -/
def denoted : List Byte → Nat
  | [] => 0
  | byte :: buf => payload byte + 2 ^ 7 * denoted buf

/-- The bytes up to the first without a continuation bit, or all of them. -/
def leading_groups : List Byte → List Byte
  | [] => []
  | byte :: buf => byte :: if byte &&& 0x80#8 = 0#8 then [] else leading_groups buf

theorem payload_lt (byte : Byte) : payload byte < 2 ^ 7 := by
  rw [payload, BitVec.toNat_and]
  exact Nat.and_lt_two_pow _ (by decide)

theorem leading_groups_first (buf : List Byte) : leading_groups buf <+: buf := by
  induction buf with
  | nil => exact List.prefix_rfl
  | cons byte buf ih =>
    rw [leading_groups]
    split
    · exact ⟨buf, rfl⟩
    · exact List.prefix_cons_inj byte |>.mpr ih

theorem payload_shift (byte : Byte) (shift : Nat) :
    ((byte &&& 0x7F#8).setWidth 32 <<< shift).toNat = payload byte * 2 ^ shift % 2 ^ 32 := by
  have hbyte : (byte &&& 0x7F#8).toNat < 2 ^ 32 := Nat.lt_trans (BitVec.isLt _) (by decide)
  rw [BitVec.toNat_shiftLeft, BitVec.toNat_setWidth, Nat.mod_eq_of_lt hbyte, Nat.shiftLeft_eq,
    payload]

/-- A group whose bits are all above those read so far is added to them. -/
theorem or_payload_shift {result shift : Nat} (hresult : result < 2 ^ shift) (byte : Byte) :
    BitVec.ofNat 32 result ||| ((byte &&& 0x7F#8).setWidth 32 <<< shift) =
      BitVec.ofNat 32 (result + payload byte * 2 ^ shift) := by
  apply BitVec.eq_of_toNat_eq
  rw [BitVec.toNat_or, payload_shift, BitVec.toNat_ofNat, BitVec.toNat_ofNat,
    ← Nat.or_mod_two_pow, ← Nat.shiftLeft_eq, Nat.add_comm,
    Nat.shiftLeft_add_eq_or_of_lt hresult, Nat.or_comm]

/-- From the group `n` on, the decoder reads the leading groups as they are, but for the
bits of a fifth that a `u32` does not have; a sixth is shifted too far. -/
theorem decode_loop_eq (buf : List Byte) : ∀ result n, n ≤ MAX_VARINT → result < 2 ^ (7 * n) →
    decode_loop buf (BitVec.ofNat 32 result) (7 * n) n =
      if n + (leading_groups buf).length ≤ MAX_VARINT then
        some (BitVec.ofNat 32 (result + 2 ^ (7 * n) * denoted (leading_groups buf)),
          n + (leading_groups buf).length)
      else none := by
  induction buf with
  | nil =>
    intro result n hn hresult
    have hread : n + (leading_groups []).length ≤ MAX_VARINT := hn
    rw [if_pos hread]
    rfl
  | cons byte buf ih =>
    intro result n hn hresult
    obtain rfl | hroom := Nat.eq_or_lt_of_le hn
    · rw [decode_loop, if_pos (by decide), if_neg (by simp [leading_groups])]
    · have hshift : ¬ 32 ≤ 7 * n := by
        rw [MAX_VARINT] at hroom
        omega
      have hpayload := payload_lt byte
      have hnext : result + payload byte * 2 ^ (7 * n) < 2 ^ (7 * (n + 1)) := by
        rw [Nat.mul_succ, Nat.pow_add]
        have hle := Nat.mul_le_mul_right (2 ^ (7 * n)) (Nat.le_sub_one_of_lt hpayload)
        omega
      rw [decode_loop, if_neg hshift, leading_groups]
      simp only [or_payload_shift hresult]
      split
      · rw [List.length_singleton, if_pos (Nat.succ_le_of_lt hroom)]
        simp only [denoted, Nat.mul_zero, Nat.add_zero, Nat.mul_comm (payload byte)]
      · have hloop := ih _ (n + 1) hroom hnext
        rw [Nat.mul_succ] at hloop
        rw [hloop, List.length_cons, Nat.add_right_comm n 1, Nat.add_assoc n]
        congr 4
        rw [denoted, Nat.pow_add]
        ring

/-- What `decode` makes of any bytes. -/
theorem decode_eq (buf : List Byte) :
    decode buf = if (leading_groups buf).length ≤ MAX_VARINT then
      some (BitVec.ofNat 32 (denoted (leading_groups buf)), (leading_groups buf).length)
    else none := by
  have hloop := decode_loop_eq buf 0 0 (Nat.zero_le _) (by decide)
  rw [decode]
  simpa using hloop

theorem denoted_append (a b : List Byte) :
    denoted (a ++ b) = denoted a + 2 ^ (7 * a.length) * denoted b := by
  induction a with
  | nil => simp [denoted]
  | cons byte a ih =>
    rw [List.cons_append, denoted, denoted, ih, List.length_cons, Nat.mul_succ, Nat.pow_add]
    ring

theorem denoted_lt (bytes : List Byte) : denoted bytes < 2 ^ (7 * bytes.length) := by
  induction bytes with
  | nil => exact Nat.one_pos
  | cons byte bytes ih =>
    have hpayload := payload_lt byte
    rw [denoted, List.length_cons, Nat.mul_succ, Nat.pow_add]
    omega

/-- Five groups are a `u32` exactly when the fifth has four bits. -/
theorem denoted_lt_iff {bytes : List Byte} (hlength : bytes.length ≤ MAX_VARINT) :
    denoted bytes < 2 ^ 32 ↔ ∀ byte, bytes[4]? = some byte → payload byte < 2 ^ 4 := by
  have hlow := denoted_lt (bytes.take 4)
  rw [← List.take_append_drop 4 bytes, denoted_append]
  cases hhigh : bytes.drop 4 with
  | nil =>
    have hshort : bytes.length ≤ 4 := List.drop_eq_nil_iff.mp hhigh
    have hpow : 2 ^ (7 * (bytes.take 4).length) ≤ 2 ^ 28 := by
      apply Nat.pow_le_pow_right (by omega)
      rw [List.length_take]
      omega
    simp only [List.append_nil, denoted, Nat.mul_zero, Nat.add_zero, List.getElem?_take]
    constructor
    · intro _ byte hbyte
      cases hbyte
    · intro _
      omega
  | cons fifth rest =>
    have hlong : (bytes.drop 4).length = rest.length + 1 := by rw [hhigh]; rfl
    rw [List.length_drop] at hlong
    have hfour : (bytes.take 4).length = 4 := by
      rw [List.length_take]
      omega
    obtain rfl : rest = [] := List.length_eq_zero_iff.mp (by rw [MAX_VARINT] at hlength; omega)
    rw [hfour] at hlow ⊢
    rw [List.getElem?_append_right (Nat.le_of_eq hfour), hfour]
    simp only [denoted, Nat.mul_zero, Nat.add_zero, Nat.sub_self, List.getElem?_cons_zero,
      Option.some.injEq, forall_eq']
    omega

/-- The leading groups are those of a `u32`: five at most, and four bits in the fifth. -/
structure LeadsWithU32 (buf : List Byte) : Prop where
  at_most_five : (leading_groups buf).length ≤ MAX_VARINT
  fifth : ∀ byte, (leading_groups buf)[4]? = some byte → payload byte < 2 ^ 4

/-- `decode` shifts by less than 32, reads five bytes at most, none past the end, and
returns the number that they denote. -/
def DecodesSafely (buf : List Byte) : Prop :=
  ∃ value bytes_read, decode buf = some (value, bytes_read) ∧ bytes_read ≤ MAX_VARINT ∧
    bytes_read ≤ buf.length ∧ value.toNat = denoted (buf.take bytes_read)

theorem decodes_safely_iff (buf : List Byte) : DecodesSafely buf ↔ LeadsWithU32 buf := by
  have hread := List.prefix_iff_eq_take.mp (leading_groups_first buf)
  rw [DecodesSafely, decode_eq]
  constructor
  · rintro ⟨value, bytes_read, hdecode, -, -, hvalue⟩
    split at hdecode
    · rename_i hlength
      cases hdecode
      rw [← hread, BitVec.toNat_ofNat] at hvalue
      exact ⟨hlength, (denoted_lt_iff hlength).mp (hvalue ▸ Nat.mod_lt _ (by decide))⟩
    · cases hdecode
  · rintro ⟨hlength, hfifth⟩
    rw [if_pos hlength]
    refine ⟨_, _, rfl, hlength, (leading_groups_first buf).length_le, ?_⟩
    rw [← hread, BitVec.toNat_ofNat, Nat.mod_eq_of_lt ((denoted_lt_iff hlength).mpr hfifth)]

/-- A fifth continuation bit makes the decoder shift by 35; of a fifth payload it drops
the bits from 32 on. -/
theorem decode_unsafe :
    ¬ DecodesSafely [0x80#8, 0x80#8, 0x80#8, 0x80#8, 0x80#8, 0x00#8] ∧
    ¬ DecodesSafely [0x80#8, 0x80#8, 0x80#8, 0x80#8, 0x10#8] := by
  constructor
  · rintro ⟨value, bytes_read, hdecode, -⟩
    have hshift : decode [0x80#8, 0x80#8, 0x80#8, 0x80#8, 0x80#8, 0x00#8] = none := rfl
    cases hshift.symm.trans hdecode
  · rintro ⟨value, bytes_read, hdecode, -, -, hvalue⟩
    have hzero : decode [0x80#8, 0x80#8, 0x80#8, 0x80#8, 0x10#8] = some (0#32, 5) := rfl
    cases hzero.symm.trans hdecode
    exact absurd hvalue (by decide)

end malformed

end ordinum.utils.VarInt
