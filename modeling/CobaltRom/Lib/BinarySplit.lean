import Mathlib.Tactic

/-! A number cut into its powers of two, which are laid out one after another as blocks. -/
namespace BinarySplit

/-- A block by its base and the exponent of its size. -/
abbrev Block := Nat × Nat

/-- The bits `lo` to `lo + k - 1` of `n` from the top one down, laid out from `base` on. -/
def split (lo : Nat) : Nat → Nat → Nat → List Block
  | 0, _, _ => []
  | k + 1, base, n =>
    if n.testBit (lo + k) then (base, lo + k) :: split lo k (base + 2 ^ (lo + k)) n
    else split lo k base n

def In (a : Nat) (x : Block) : Prop := x.1 ≤ a ∧ a < x.1 + 2 ^ x.2

variable {lo k base n a : Nat} {x : Block}

/-- The bits above `lo` are those below the top one and the top one. -/
theorem part_succ (lo k n : Nat) : n / 2 ^ lo % 2 ^ (k + 1) * 2 ^ lo =
    n / 2 ^ lo % 2 ^ k * 2 ^ lo + if n.testBit (lo + k) then 2 ^ (lo + k) else 0 := by
  have hbit : n / 2 ^ lo / 2 ^ k % 2 = if n.testBit (lo + k) then 1 else 0 := by
    rw [Nat.div_div_eq_div_mul, ← Nat.pow_add, ← Nat.toNat_testBit]
    cases n.testBit (lo + k) <;> rfl
  rw [Nat.mod_pow_succ, hbit, Nat.add_mul]
  split
  · rw [mul_one, ← pow_add, Nat.add_comm k]
  · rw [mul_zero, zero_mul]

theorem split_length (lo k base n : Nat) :
    (split lo k base n).length = (List.range k).countP fun i => n.testBit (lo + i) := by
  induction k generalizing base with
  | zero => rfl
  | succ k ih =>
    rw [split, List.range_succ, List.countP_append, List.countP_singleton]
    split
    · rw [List.length_cons, ih]
    · rw [ih]
      rfl

theorem split_exponent (hx : x ∈ split lo k base n) : lo ≤ x.2 ∧ x.2 < lo + k := by
  induction k generalizing base with
  | zero => cases hx
  | succ k ih =>
    rw [split] at hx
    split at hx
    · rcases List.mem_cons.mp hx with rfl | hx
      · exact ⟨Nat.le_add_right lo k, Nat.lt_succ_self _⟩
      · exact ⟨(ih hx).1, (ih hx).2.trans (Nat.lt_succ_self _)⟩
    · exact ⟨(ih hx).1, (ih hx).2.trans (Nat.lt_succ_self _)⟩

/-- The blocks lie at multiples of their sizes. -/
theorem split_dvd (hbase : 2 ^ (lo + k) ∣ base) (hx : x ∈ split lo k base n) : 2 ^ x.2 ∣ x.1 := by
  induction k generalizing base with
  | zero => cases hx
  | succ k ih =>
    have hhalf : 2 ^ (lo + k) ∣ base := (pow_dvd_pow 2 (Nat.le_succ _)).trans hbase
    rw [split] at hx
    split at hx
    · rcases List.mem_cons.mp hx with rfl | hx
      · exact hhalf
      · exact ih (hhalf.add dvd_rfl) hx
    · exact ih hhalf hx

theorem split_base_le (hx : x ∈ split lo k base n) : base ≤ x.1 := by
  induction k generalizing base with
  | zero => cases hx
  | succ k ih =>
    rw [split] at hx
    split at hx
    · rcases List.mem_cons.mp hx with rfl | hx
      · exact le_rfl
      · exact (Nat.le_add_right base _).trans (ih hx)
    · exact ih hx

/-- Every block ends where the next one begins or before. -/
theorem split_pairwise (lo k base n : Nat) :
    (split lo k base n).Pairwise fun x y => x.1 + 2 ^ x.2 ≤ y.1 := by
  induction k generalizing base with
  | zero => exact List.Pairwise.nil
  | succ k ih =>
    rw [split]
    split
    · exact List.pairwise_cons.mpr ⟨fun y hy => split_base_le hy, ih _⟩
    · exact ih base

/-- The blocks cover what the bits are worth. -/
theorem split_cover (lo k base n : Nat) (a : Nat) : (∃ x ∈ split lo k base n, In a x) ↔
    base ≤ a ∧ a < base + n / 2 ^ lo % 2 ^ k * 2 ^ lo := by
  induction k generalizing base with
  | zero => simp [split, Nat.mod_one]
  | succ k ih =>
    rw [split, part_succ]
    split
    · have hpos : 0 < 2 ^ (lo + k) := Nat.two_pow_pos _
      simp only [List.mem_cons, exists_eq_or_imp]
      rw [ih, In]
      dsimp only
      omega
    · rw [ih, Nat.add_zero]

/-- A number without a bit from `lo` on has no blocks. -/
theorem split_eq_nil (h : n % 2 ^ (lo + k) < 2 ^ lo) : split lo k base n = [] := by
  induction k generalizing base with
  | zero => rfl
  | succ k ih =>
    have hsucc : n % 2 ^ (lo + (k + 1)) =
        n % 2 ^ (lo + k) + 2 ^ (lo + k) * (n / 2 ^ (lo + k) % 2) :=
      Nat.mod_pow_succ
    have hpow : 2 ^ lo ≤ 2 ^ (lo + k) := Nat.pow_le_pow_right (by decide) (Nat.le_add_right lo k)
    have hbit : n.testBit (lo + k) = false := by
      rw [Nat.testBit_eq_decide_div_mod_eq, decide_eq_false_iff_not]
      intro hone
      rw [hone] at hsucc
      omega
    rw [split, hbit]
    exact ih (by omega)

end BinarySplit
