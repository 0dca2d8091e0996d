import Mathlib.Data.Nat.Bitwise
import Ordinum.Wire.Reader

namespace ordinum.utils

abbrev Byte := BitVec 8

def MSB : Byte := 0x80#8

def LOW_7_BITS : BitVec 32 := 0x7F#32

def SHIFT_7_BITS : Nat := 7

/-- A `u32` in seven-bit groups, lowest first, in the first `len` bytes of
`buf`. -/
structure VarInt where
  buf : List Byte
  len : Nat
  deriving DecidableEq, Repr

namespace VarInt

def MAX_VARINT : Nat := 5

def size (varint : VarInt) : Nat := varint.len

def as_slice (varint : VarInt) : List Byte := varint.buf.take varint.size

/-- `buf[i] = byte`: an index past the end panics. -/
def set_byte (buf : List Byte) (i : Nat) (byte : Byte) : Option (List Byte) :=
  if i < buf.length then some (buf.set i byte) else none

/-- The loop of `new`: one group a round while more than seven bits are left. -/
def new_loop (buf : List Byte) (v : BitVec 32) (i : Nat) : Option VarInt :=
  if 127 < v.toNat then do
    let buf ← set_byte buf i ((v &&& LOW_7_BITS).setWidth 8 ||| MSB)
    new_loop buf (v >>> SHIFT_7_BITS) (i + 1)
  else do
    let buf ← set_byte buf i (v.setWidth 8)
    return { buf, len := i + 1 }
termination_by v.toNat
decreasing_by
  rw [BitVec.toNat_ushiftRight, SHIFT_7_BITS, Nat.shiftRight_eq_div_pow]
  omega

def new (value : BitVec 32) : Option VarInt :=
  new_loop (List.replicate MAX_VARINT 0#8) value 0

/-- The loop of `decode`; shifting a `u32` by 32 or more panics. -/
def decode_loop : List Byte → BitVec 32 → Nat → Nat → Option (BitVec 32 × Nat)
  | [], result, _, bytes_read => some (result, bytes_read)
  | byte :: buf, result, shift, bytes_read =>
    if 32 ≤ shift then none
    else
      let result := result ||| ((byte &&& 0x7F#8).setWidth 32 <<< shift)
      if byte &&& 0x80#8 = 0#8 then some (result, bytes_read + 1)
      else decode_loop buf result (shift + 7) (bytes_read + 1)

def decode (buf : List Byte) : Option (BitVec 32 × Nat) :=
  decode_loop buf 0#32 0 0

/-- The groups of a value, lowest first: what an encoding is meant to be. -/
def groups (v : BitVec 32) : List Byte :=
  if 127 < v.toNat then ((v &&& LOW_7_BITS).setWidth 8 ||| MSB) :: groups (v >>> SHIFT_7_BITS)
  else [v.setWidth 8]
termination_by v.toNat
decreasing_by
  rw [BitVec.toNat_ushiftRight, SHIFT_7_BITS, Nat.shiftRight_eq_div_pow]
  omega

theorem shift_toNat (v : BitVec 32) : (v >>> SHIFT_7_BITS).toNat = v.toNat / 128 := by
  rw [BitVec.toNat_ushiftRight, SHIFT_7_BITS, Nat.shiftRight_eq_div_pow]

theorem groups_length_pos (v : BitVec 32) : 0 < (groups v).length := by
  rw [groups]
  split <;> simp

/-- A value of at most `7 * n` bits has at most `n` groups. -/
theorem groups_length_le (n : Nat) : ∀ v : BitVec 32, v.toNat < 2 ^ (7 * (n + 1)) →
    (groups v).length ≤ n + 1 := by
  induction n with
  | zero =>
    intro v hv
    rw [groups, if_neg (by omega)]
    exact Nat.le_refl _
  | succ n ih =>
    intro v hv
    rw [groups]
    split
    · have hshift : (v >>> SHIFT_7_BITS).toNat < 2 ^ (7 * (n + 1)) := by
        rw [shift_toNat]
        apply Nat.div_lt_of_lt_mul
        rwa [show 128 = 2 ^ 7 from rfl, ← Nat.pow_add, Nat.add_comm 7, ← Nat.mul_succ]
      exact Nat.succ_le_succ (ih _ hshift)
    · simp

theorem groups_length_le_max (v : BitVec 32) : (groups v).length ≤ MAX_VARINT :=
  groups_length_le 4 v (Nat.lt_trans v.isLt (by decide))

/-- The encoder writes the groups one after the other into the free part of its
buffer. -/
theorem new_loop_spec (v : BitVec 32) : ∀ done free : List Byte,
    (groups v).length ≤ free.length →
    ∃ buf, new_loop (done ++ free) v done.length =
        some { buf, len := done.length + (groups v).length } ∧
      buf.take (done.length + (groups v).length) = done ++ groups v := by
  induction v using groups.induct with
  | case1 v hlarge ih =>
    intro done free hroom
    rw [groups, if_pos hlarge, List.length_cons] at hroom
    obtain ⟨slot, free, rfl⟩ := List.exists_cons_of_length_pos (l := free) (by omega)
    have hset : set_byte (done ++ slot :: free) done.length
        ((v &&& LOW_7_BITS).setWidth 8 ||| MSB) =
        some ((done ++ [(v &&& LOW_7_BITS).setWidth 8 ||| MSB]) ++ free) := by
      simp [set_byte]
    obtain ⟨buf, hloop, htake⟩ := ih (done ++ [(v &&& LOW_7_BITS).setWidth 8 ||| MSB]) free
      (by simpa using hroom)
    rw [List.length_append, List.length_singleton] at hloop htake
    rw [new_loop, if_pos hlarge, groups, if_pos hlarge, List.length_cons]
    refine ⟨buf, ?_, ?_⟩
    · simp only [hset, Option.bind_eq_bind, Option.bind_some, hloop, Option.some.injEq,
        VarInt.mk.injEq, true_and]
      omega
    · rw [show done.length + ((groups (v >>> SHIFT_7_BITS)).length + 1) =
        done.length + 1 + (groups (v >>> SHIFT_7_BITS)).length by omega, htake]
      simp
  | case2 v hsmall =>
    intro done free hroom
    rw [groups, if_neg hsmall, List.length_singleton] at hroom ⊢
    obtain ⟨slot, free, rfl⟩ := List.exists_cons_of_length_pos (l := free) hroom
    have hset : set_byte (done ++ slot :: free) done.length (v.setWidth 8) =
        some ((done ++ [v.setWidth 8]) ++ free) := by
      simp [set_byte]
    rw [new_loop, if_neg hsmall]
    refine ⟨(done ++ [v.setWidth 8]) ++ free, ?_, ?_⟩
    · simp only [hset, Option.bind_eq_bind, Option.bind_some]
      rfl
    · exact List.take_left' (by simp)

/-- `new` always succeeds, and its slice is the groups of the value. -/
theorem new_spec (value : BitVec 32) :
    ∃ varint, new value = some varint ∧ varint.as_slice = groups value ∧
      varint.size = (groups value).length := by
  obtain ⟨buf, hnew, htake⟩ := new_loop_spec value [] (List.replicate MAX_VARINT 0#8)
    (by simpa using groups_length_le_max value)
  rw [List.length_nil, Nat.zero_add] at hnew htake
  exact ⟨_, hnew, htake, rfl⟩

theorem low_7_bits_getLsbD (i : Nat) : LOW_7_BITS.getLsbD i = decide (i < 7) := by
  rw [show LOW_7_BITS = BitVec.ofNat 32 (2 ^ 7 - 1) from rfl, BitVec.getLsbD_ofNat,
    Nat.testBit_two_pow_sub_one]
  by_cases hi : i < 7
  · simp [hi, Nat.lt_trans hi]
  · simp [hi]

theorem payload_of_group (v : BitVec 32) :
    (((v &&& LOW_7_BITS).setWidth 8 ||| MSB) &&& 0x7F#8).setWidth 32 = v &&& LOW_7_BITS := by
  have hlow : LOW_7_BITS.toNat = 2 ^ 7 - 1 := rfl
  have hmsb : MSB.toNat = 2 ^ 7 := rfl
  have hmask : (0x7F#8).toNat = 2 ^ 7 - 1 := rfl
  apply BitVec.eq_of_toNat_eq
  simp only [BitVec.toNat_setWidth, BitVec.toNat_and, BitVec.toNat_or, hlow, hmsb, hmask,
    Nat.and_two_pow_sub_one_eq_mod, Nat.or_mod_two_pow, Nat.mod_self, Nat.or_zero]
  omega

theorem group_continues (byte : Byte) : (byte ||| MSB) &&& 0x80#8 ≠ 0#8 := by
  have habsorb : (byte ||| MSB) &&& 0x80#8 = 0x80#8 := by
    apply BitVec.eq_of_getLsbD_eq
    intro i hi
    rw [MSB, BitVec.getLsbD_and, BitVec.getLsbD_or]
    cases (0x80#8).getLsbD i <;> simp
  rw [habsorb]
  decide

theorem last_group {v : BitVec 32} (hsmall : ¬ 127 < v.toNat) :
    v.setWidth 8 &&& 0x80#8 = 0#8 ∧ (v.setWidth 8 &&& 0x7F#8).setWidth 32 = v := by
  have hmask : (0x7F#8).toNat = 2 ^ 7 - 1 := rfl
  constructor
  · apply BitVec.eq_of_toNat_eq
    rw [BitVec.toNat_and, BitVec.toNat_setWidth, Nat.mod_eq_of_lt (by omega),
      show (0x80#8).toNat = 2 ^ 7 from rfl, Nat.and_two_pow, Nat.testBit_lt_two_pow (by omega)]
    rfl
  · apply BitVec.eq_of_toNat_eq
    simp only [BitVec.toNat_setWidth, BitVec.toNat_and, hmask, Nat.and_two_pow_sub_one_eq_mod]
    omega

/-- A group and the groups after it are two parts of the same shifted value. -/
theorem join_groups (v : BitVec 32) (shift : Nat) :
    ((v &&& LOW_7_BITS) <<< shift) ||| ((v >>> SHIFT_7_BITS) <<< (shift + 7)) = v <<< shift := by
  apply BitVec.eq_of_getLsbD_eq
  intro i hi
  simp only [BitVec.getLsbD_or, BitVec.getLsbD_shiftLeft, BitVec.getLsbD_and,
    BitVec.getLsbD_ushiftRight, low_7_bits_getLsbD, SHIFT_7_BITS, hi, decide_true, Bool.true_and]
  by_cases hbelow : i < shift
  · simp [hbelow, Nat.lt_add_right 7 hbelow]
  · by_cases hgroup : i < shift + 7
    · have hlow : i - shift < 7 := by omega
      simp [hbelow, hgroup, hlow]
    · have hhigh : ¬ i - shift < 7 := by omega
      have hsame : 7 + (i - (shift + 7)) = i - shift := by omega
      simp [hbelow, hgroup, hhigh, hsame]

/-- The decoder collects the groups of a value whose bits all fit above `shift`,
and stops at the last one. -/
theorem decode_loop_groups (v : BitVec 32) : ∀ (rest : List Byte) (result : BitVec 32)
    (shift bytes_read : Nat), shift < 32 → v.toNat < 2 ^ (32 - shift) →
    decode_loop (groups v ++ rest) result shift bytes_read =
      some (result ||| (v <<< shift), bytes_read + (groups v).length) := by
  induction v using groups.induct with
  | case1 v hlarge ih =>
    intro rest result shift bytes_read hshift hbits
    have hroom : shift + 7 < 32 := by
      by_contra hnot
      have hpow : 2 ^ (32 - shift) ≤ 2 ^ 7 := Nat.pow_le_pow_right (by omega) (by omega)
      omega
    have hnext : (v >>> SHIFT_7_BITS).toNat < 2 ^ (32 - (shift + 7)) := by
      rw [shift_toNat]
      apply Nat.div_lt_of_lt_mul
      rwa [show 128 = 2 ^ 7 from rfl, ← Nat.pow_add,
        show 7 + (32 - (shift + 7)) = 32 - shift by omega]
    rw [groups, if_pos hlarge, List.cons_append, decode_loop, if_neg (by omega)]
    simp only [payload_of_group, if_neg (group_continues _)]
    rw [ih rest _ (shift + 7) (bytes_read + 1) hroom hnext, BitVec.or_assoc, join_groups,
      List.length_cons, Nat.add_assoc, Nat.add_comm 1]
  | case2 v hsmall =>
    intro rest result shift bytes_read hshift hbits
    obtain ⟨hstop, hpayload⟩ := last_group hsmall
    rw [groups, if_neg hsmall, List.cons_append, decode_loop, if_neg (by omega)]
    simp only [hpayload, if_pos hstop, List.length_singleton]

/-- Decoding reads an encoding back from any buffer that starts with it. -/
theorem decode_groups (v : BitVec 32) (rest : List Byte) :
    decode (groups v ++ rest) = some (v, (groups v).length) := by
  rw [decode, decode_loop_groups v rest 0#32 0 0 (by omega) v.isLt]
  simp

end VarInt

end ordinum.utils
