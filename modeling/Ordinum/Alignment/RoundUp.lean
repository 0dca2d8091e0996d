import Mathlib.Data.Nat.Bitwise

namespace alignment

/-- The least multiple of `align` that is not below `n`. -/
def round_up (n align : Nat) : Nat := (n + (align - 1)) / align * align

section round_up

variable {n align : Nat}

theorem dvd_round_up : align ∣ round_up n align := Nat.dvd_mul_left ..

theorem le_round_up (hpos : 0 < align) : n ≤ round_up n align := by
  have hmod := Nat.mod_lt (n + (align - 1)) hpos
  have hdiv := Nat.div_add_mod' (n + (align - 1)) align
  unfold round_up
  omega

theorem round_up_of_dvd (hpos : 0 < align) (hdvd : align ∣ n) : round_up n align = n := by
  obtain ⟨k, rfl⟩ := hdvd
  rw [round_up, Nat.mul_add_div hpos, Nat.div_eq_of_lt (by omega), Nat.add_zero, Nat.mul_comm]

theorem round_up_zero (hpos : 0 < align) : round_up 0 align = 0 := by
  unfold round_up
  rw [Nat.div_eq_of_lt (by omega), Nat.zero_mul]

end round_up

/-- Masking off the low `k` bits rounds down to a multiple of `2 ^ k`. -/
theorem toNat_and_not_mask {w : Nat} (x : BitVec w) (k : Nat) :
    (x &&& ~~~BitVec.ofNat w (2 ^ k - 1)).toNat = x.toNat / 2 ^ k * 2 ^ k := by
  have hlow : x &&& ~~~BitVec.ofNat w (2 ^ k - 1) = (x >>> k) <<< k := by
    apply BitVec.eq_of_getLsbD_eq
    intro i hi
    simp only [BitVec.getLsbD_and, BitVec.getLsbD_not, BitVec.getLsbD_ofNat,
      Nat.testBit_two_pow_sub_one, BitVec.getLsbD_shiftLeft, BitVec.getLsbD_ushiftRight]
    by_cases hik : i < k
    · simp [hi, hik]
    · simp [hi, hik, show k + (i - k) = i by omega]
  have hle := Nat.div_mul_le_self x.toNat (2 ^ k)
  rw [hlow, BitVec.toNat_shiftLeft, BitVec.toNat_ushiftRight, Nat.shiftRight_eq_div_pow,
    Nat.shiftLeft_eq, Nat.mod_eq_of_lt (Nat.lt_of_le_of_lt hle x.isLt)]

end alignment
