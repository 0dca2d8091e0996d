import Mathlib.Data.Nat.Bitwise
import Mathlib.Tactic.NormNum

namespace ordinum.write_pipeline

/-- The queue's two 32-bit counters packed in one word: `head` in the upper
half, `tail` in the lower half. -/
structure HeadTail where
  raw : BitVec 64
  deriving DecidableEq, Repr

namespace HeadTail

def DEQUEUE_BITS : Nat := 32

def MASK : BitVec 64 := (1#64 <<< DEQUEUE_BITS) - 1#64

def pack (head tail : BitVec 32) : HeadTail :=
  ⟨(head.setWidth 64 <<< DEQUEUE_BITS) ||| (tail.setWidth 64 &&& MASK)⟩

def unpack_unchecked (packed : BitVec 64) : BitVec 32 × BitVec 32 :=
  (((packed >>> DEQUEUE_BITS) &&& MASK).setWidth 32, (packed &&& MASK).setWidth 32)

theorem mask_toNat : MASK.toNat = 2 ^ 32 - 1 := by decide

/-- The packed word read as a number: `head` counts in units of `2 ^ 32`. -/
theorem pack_toNat (head tail : BitVec 32) :
    (pack head tail).raw.toNat = head.toNat * 2 ^ 32 + tail.toNat := by
  have hhead : head.toNat < 2 ^ 32 := head.isLt
  have htail : tail.toNat < 2 ^ 32 := tail.isLt
  have hlow : (tail.setWidth 64 &&& MASK).toNat = tail.toNat := by
    rw [BitVec.toNat_and, mask_toNat, Nat.and_two_pow_sub_one_eq_mod, BitVec.toNat_setWidth]
    omega
  have hhigh : (head.setWidth 64 <<< DEQUEUE_BITS).toNat = head.toNat <<< 32 := by
    rw [BitVec.toNat_shiftLeft, BitVec.toNat_setWidth, DEQUEUE_BITS, Nat.shiftLeft_eq,
      Nat.shiftLeft_eq]
    omega
  rw [pack, BitVec.toNat_or, hlow, hhigh, ← Nat.shiftLeft_add_eq_or_of_lt htail, Nat.shiftLeft_eq]

@[simp] theorem unpack_unchecked_pack (head tail : BitVec 32) :
    unpack_unchecked (pack head tail).raw = (head, tail) := by
  have hhead : head.toNat < 2 ^ 32 := head.isLt
  have htail : tail.toNat < 2 ^ 32 := tail.isLt
  have hraw := pack_toNat head tail
  refine Prod.ext (BitVec.eq_of_toNat_eq ?_) (BitVec.eq_of_toNat_eq ?_)
  · simp only [unpack_unchecked, BitVec.toNat_setWidth, BitVec.toNat_and, mask_toNat,
      Nat.and_two_pow_sub_one_eq_mod, BitVec.toNat_ushiftRight, DEQUEUE_BITS,
      Nat.shiftRight_eq_div_pow, hraw]
    omega
  · simp only [unpack_unchecked, BitVec.toNat_setWidth, BitVec.toNat_and, mask_toNat,
      Nat.and_two_pow_sub_one_eq_mod, hraw]
    omega

theorem pack_injective {head tail head' tail' : BitVec 32}
    (heq : (pack head tail).raw = (pack head' tail').raw) : head = head' ∧ tail = tail' := by
  have h := congrArg unpack_unchecked heq
  simpa using h

/-- The word after `enqueued` batches entered and `dequeued` left since the
counters were zero. -/
def counters (enqueued dequeued : Nat) : BitVec 64 :=
  (pack (BitVec.ofNat 32 enqueued) (BitVec.ofNat 32 dequeued)).raw

theorem counters_zero : counters 0 0 = 0#64 := by decide

/-- Adding one to the upper half advances `head` and leaves `tail` alone, also
when `head` wraps: the carry leaves the word. -/
theorem counters_add_head (enqueued dequeued : Nat) :
    counters enqueued dequeued + (1#64 <<< DEQUEUE_BITS) = counters (enqueued + 1) dequeued := by
  apply BitVec.eq_of_toNat_eq
  have hone : (1#64 <<< DEQUEUE_BITS).toNat = 2 ^ 32 := by decide
  rw [BitVec.toNat_add, hone, counters, counters, pack_toNat, pack_toNat]
  simp only [BitVec.toNat_ofNat]
  omega

/-- Two words agree exactly when both counters agree modulo `2 ^ 32`. -/
theorem counters_eq_iff {enqueued dequeued enqueued' dequeued' : Nat} :
    counters enqueued dequeued = counters enqueued' dequeued' ↔
      enqueued % 2 ^ 32 = enqueued' % 2 ^ 32 ∧ dequeued % 2 ^ 32 = dequeued' % 2 ^ 32 := by
  constructor
  · intro heq
    obtain ⟨hhead, htail⟩ := pack_injective heq
    exact ⟨by simpa using congrArg BitVec.toNat hhead, by simpa using congrArg BitVec.toNat htail⟩
  · rintro ⟨hhead, htail⟩
    have hh : BitVec.ofNat 32 enqueued = BitVec.ofNat 32 enqueued' :=
      BitVec.eq_of_toNat_eq (by simpa using hhead)
    have ht : BitVec.ofNat 32 dequeued = BitVec.ofNat 32 dequeued' :=
      BitVec.eq_of_toNat_eq (by simpa using htail)
    rw [counters, counters, hh, ht]

end HeadTail

/-- `(counter & (N as u32) - 1) as usize`: the physical slot of a counter. -/
def slot_index (N : Nat) (counter : BitVec 32) : Nat :=
  (counter &&& (BitVec.ofNat 32 N - 1#32)).toNat

/-- The slot of a logical position is the position modulo the capacity, also
after the 32-bit counter has wrapped. -/
theorem slot_index_ofNat {N : Nat} (hpow : ∃ k, N = 2 ^ k) (hN : N ≤ 1024) (position : Nat) :
    slot_index N (BitVec.ofNat 32 position) = position % N := by
  obtain ⟨k, rfl⟩ := hpow
  have hk : k ≤ 10 := (Nat.pow_le_pow_iff_right Nat.one_lt_two).mp hN
  have hpos : 0 < 2 ^ k := Nat.two_pow_pos k
  have hmask : (BitVec.ofNat 32 (2 ^ k) - 1#32).toNat = 2 ^ k - 1 := by
    rw [BitVec.toNat_sub]
    simp only [BitVec.toNat_ofNat]
    omega
  rw [slot_index, BitVec.toNat_and, hmask, Nat.and_two_pow_sub_one_eq_mod, BitVec.toNat_ofNat]
  exact Nat.mod_mod_of_dvd position (pow_dvd_pow 2 (by omega))

end ordinum.write_pipeline
