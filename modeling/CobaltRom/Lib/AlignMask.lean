import Mathlib.Tactic

/-! Rounding a 32-bit address down to a power of two by masking off its low bits. -/
namespace AlignMask

theorem nat_and_not_mask {w : Nat} (x k : Nat) (hx : x < 2 ^ w) (hk : k ≤ w) :
    x &&& (2 ^ w - 1 - (2 ^ k - 1)) = x / 2 ^ k * 2 ^ k := by
  have hpow : 2 ^ k ≤ 2 ^ w := Nat.pow_le_pow_right (by omega) hk
  have hpos : 0 < 2 ^ k := Nat.two_pow_pos k
  have hsub : 2 ^ w - 1 - (2 ^ k - 1) = 2 ^ w - (2 ^ k - 1 + 1) := by omega
  refine Nat.eq_of_testBit_eq fun i => ?_
  rw [hsub, Nat.testBit_and, Nat.testBit_two_pow_sub_succ (by omega), Nat.testBit_two_pow_sub_one,
    ← Nat.shiftLeft_eq, ← Nat.shiftRight_eq_div_pow, Nat.testBit_shiftLeft, Nat.testBit_shiftRight]
  by_cases hik : k ≤ i
  · have hi : k + (i - k) = i := by omega
    by_cases hw : i < w
    · simp [hik, hw, hi, Nat.not_lt.mpr hik]
    · have : x.testBit i = false :=
        Nat.testBit_lt_two_pow (hx.trans_le (Nat.pow_le_pow_right (by omega) (by omega)))
      simp [this, hi]
  · simp [hik, Nat.lt_of_not_le hik]

/-- Masking with `2 ^ k - 1` rounds down to a multiple of `2 ^ k`. -/
theorem toNat_and_not_mask {m : UInt32} {k : Nat} (x : UInt32) (hk : k ≤ 32)
    (hm : m.toNat = 2 ^ k - 1) : (x &&& ~~~m).toNat = x.toNat / 2 ^ k * 2 ^ k := by
  rw [UInt32.toNat_and, UInt32.toNat_not, hm]
  exact nat_and_not_mask _ _ x.toNat_lt hk

/-- Two such masks together are the larger one. -/
theorem or_masks (j k : Nat) : (2 ^ j - 1) ||| (2 ^ k - 1) = 2 ^ max j k - 1 := by
  refine Nat.eq_of_testBit_eq fun i => ?_
  simp only [Nat.testBit_or, Nat.testBit_two_pow_sub_one]
  by_cases hj : i < j
  · simp [hj]
  · by_cases hk : i < k
    · simp [hk]
    · simp [hj, hk]

end AlignMask
