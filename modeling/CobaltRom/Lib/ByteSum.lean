import Mathlib.Tactic

/-! Checksums: bytes whose sum is 0 modulo 256. -/
namespace ByteSum

/-- The sum of some bytes. -/
def total (l : List UInt8) : Nat := (l.map UInt8.toNat).sum

/-- The bytes sum to 0 modulo 256. -/
def SumsToZero (l : List UInt8) : Prop := 256 ∣ total l

instance (l : List UInt8) : Decidable (SumsToZero l) := inferInstanceAs (Decidable (_ ∣ _))

/-- `sum -= b` for each byte. -/
def subAll (sum : UInt8) (l : List UInt8) : UInt8 := l.foldl (· - ·) sum

variable {l m : List UInt8} {s b : UInt8}

@[simp] theorem total_nil : total [] = 0 := rfl

@[simp] theorem total_cons (b : UInt8) (l : List UInt8) : total (b :: l) = b.toNat + total l := by
  simp [total]

@[simp] theorem total_append (l m : List UInt8) : total (l ++ m) = total l + total m := by
  simp [total]

/-- What is left after subtracting all bytes makes up for them. -/
theorem total_subAll (l : List UInt8) (s : UInt8) :
    (total l + (subAll s l).toNat) % 256 = s.toNat := by
  induction l generalizing s with
  | nil =>
    have := s.toNat_lt
    simp only [total_nil, subAll, List.foldl_nil]
    omega
  | cons b l ih =>
    have hs := s.toNat_lt
    have hb := b.toNat_lt
    have h := ih (s - b)
    rw [UInt8.toNat_sub] at h
    simp only [total_cons, subAll, List.foldl_cons] at h ⊢
    omega

/-- Where the byte that stands among the others was 0, the difference completes the sum. -/
theorem sumsToZero_of_cleared (h : total m = total l + (subAll 0 l).toNat) : SumsToZero m := by
  have := total_subAll l 0
  rw [UInt8.toNat_zero] at this
  rw [SumsToZero, h]
  exact Nat.dvd_of_mod_eq_zero this

/-- Replacing one byte. -/
theorem total_set (l : List UInt8) (i : Nat) (h : i < l.length) (b : UInt8) :
    total (l.set i b) + l[i].toNat = total l + b.toNat := by
  induction l generalizing i with
  | nil => exact absurd h (Nat.not_lt_zero i)
  | cons c l ih =>
    cases i with
    | zero =>
      simp only [List.set_cons_zero, total_cons, List.getElem_cons_zero]
      omega
    | succ i =>
      have := ih i (Nat.lt_of_succ_lt_succ h)
      simp only [List.set_cons_succ, total_cons, List.getElem_cons_succ]
      omega

end ByteSum
