import Mathlib.Order.Compare
import Ordinum.Wire.Reader

namespace wire

/-- The lowest `n` bytes of a word, highest first. -/
def to_be_bytes {w : Nat} (n : Nat) (x : BitVec w) : List (BitVec 8) :=
  (to_le_bytes n x).reverse

def from_be_bytes (w : Nat) (bytes : List (BitVec 8)) : BitVec w :=
  from_le_bytes w bytes.reverse

@[simp] theorem length_to_be_bytes {w : Nat} (n : Nat) (x : BitVec w) :
    (to_be_bytes n x).length = n := by
  rw [to_be_bytes, List.length_reverse, length_to_le_bytes]

theorem from_be_bytes_to_be_bytes {w : Nat} (n : Nat) {x : BitVec w} (hx : x.toNat < 2 ^ (8 * n)) :
    from_be_bytes w (to_be_bytes n x) = x := by
  rw [from_be_bytes, to_be_bytes, List.reverse_reverse, from_le_bytes_to_le_bytes n hx]

theorem to_be_bytes_from_be_bytes {w : Nat} (bytes : List (BitVec 8))
    (hlength : 8 * bytes.length ≤ w) : to_be_bytes bytes.length (from_be_bytes w bytes) = bytes := by
  have hbytes := to_le_bytes_from_le_bytes (w := w) bytes.reverse (by rwa [List.length_reverse])
  rw [List.length_reverse] at hbytes
  rw [to_be_bytes, from_be_bytes, hbytes, List.reverse_reverse]

theorem to_be_bytes_succ {w : Nat} (n : Nat) (x : BitVec w) :
    to_be_bytes (n + 1) x = to_be_bytes n (x >>> 8) ++ [x.setWidth 8] := by
  rw [to_be_bytes, to_le_bytes, List.reverse_cons, to_be_bytes]

/-- Words of one length are compared from the left. -/
theorem compare_append {α : Type*} [Ord α] {a b : List α} (hlength : a.length = b.length)
    (c d : List α) : compare (a ++ c) (b ++ d) = (compare a b).then (compare c d) := by
  induction a generalizing b with
  | nil =>
    obtain rfl : b = [] := List.length_eq_zero_iff.mp hlength.symm
    rfl
  | cons x a ih =>
    cases b with
    | nil => cases hlength
    | cons y b =>
      rw [List.cons_append, List.cons_append, List.compare_cons_cons, List.compare_cons_cons,
        ih (Nat.succ.inj hlength), Ordering.then_assoc]

theorem compare_bitVec {w : Nat} (x y : BitVec w) : compare x y = compare x.toNat y.toNat := by
  simp only [compare, compareOfLessAndEq, BitVec.lt_def, BitVec.toNat_inj]

/-- Numbers are compared by their quotients, then by their remainders. -/
theorem compare_div_mod (x y : Nat) {n : Nat} :
    compare x y = (compare (x / n) (y / n)).then (compare (x % n) (y % n)) := by
  obtain hlt | heq | hgt := Nat.lt_trichotomy (x / n) (y / n)
  · rw [Nat.compare_eq_lt.mpr hlt, Nat.compare_eq_lt.mpr (Nat.lt_of_div_lt_div hlt)]
    rfl
  · have hx := Nat.div_add_mod x n
    have hy := Nat.div_add_mod y n
    rw [heq] at hx
    rw [Nat.compare_eq_eq.mpr heq, Ordering.eq_then]
    obtain hlt | heq | hgt := Nat.lt_trichotomy (x % n) (y % n)
    · rw [Nat.compare_eq_lt.mpr hlt, Nat.compare_eq_lt.mpr (by omega)]
    · rw [Nat.compare_eq_eq.mpr heq, Nat.compare_eq_eq.mpr (by omega)]
    · rw [Nat.compare_eq_gt.mpr hgt, Nat.compare_eq_gt.mpr (by omega)]
  · rw [Nat.compare_eq_gt.mpr hgt, Nat.compare_eq_gt.mpr (Nat.lt_of_div_lt_div hgt)]
    rfl

/-- Highest bytes first, words are compared as their numbers. -/
theorem compare_to_be_bytes {w : Nat} (n : Nat) {x y : BitVec w} (hx : x.toNat < 2 ^ (8 * n))
    (hy : y.toNat < 2 ^ (8 * n)) :
    compare (to_be_bytes n x) (to_be_bytes n y) = compare x.toNat y.toNat := by
  induction n generalizing x y with
  | zero =>
    obtain hzero : x.toNat = 0 := by simpa using hx
    obtain hzero' : y.toNat = 0 := by simpa using hy
    rw [hzero, hzero']
    rfl
  | succ n ih =>
    rw [to_be_bytes_succ, to_be_bytes_succ, compare_append (by simp),
      ih (ushiftRight_toNat_lt hx) (ushiftRight_toNat_lt hy), List.compare_cons_cons,
      compare_bitVec, compare_div_mod (n := 2 ^ 8) x.toNat y.toNat]
    simp [BitVec.toNat_ushiftRight, Nat.shiftRight_eq_div_pow]

end wire
