import Mathlib.Tactic

/-! Byte memory without bounds: writing a list of bytes at an address and reading one back. -/
namespace ByteArea

abbrev Area := Nat → UInt8

variable {m : Area} {o p n k : Nat} {l : List UInt8}

/-- `memcpy (m + o, l, l.length)`. -/
def write (m : Area) (o : Nat) (l : List UInt8) : Area := fun i =>
  if o ≤ i ∧ i < o + l.length then l.getD (i - o) 0 else m i

/-- The `n` bytes at `o`. -/
def read (m : Area) (o n : Nat) : List UInt8 := (List.range n).map fun i => m (o + i)

theorem write_of_lt (h : p < o) : write m o l p = m p := by
  rw [write, if_neg (by omega)]

theorem write_of_ge (h : o + l.length ≤ p) : write m o l p = m p := by
  rw [write, if_neg (by omega)]

@[simp] theorem write_nil (m : Area) (o : Nat) : write m o [] = m := by
  funext i
  rw [write, if_neg (by simp)]

@[simp] theorem read_length (m : Area) (o n : Nat) : (read m o n).length = n := by
  simp [read]

@[simp] theorem read_nil (m : Area) (o : Nat) : read m o 0 = [] := rfl

theorem read_succ (m : Area) (o n : Nat) : read m o (n + 1) = m o :: read m (o + 1) n := by
  simp [read, List.range_succ_eq_map, Nat.add_assoc, Nat.add_comm 1]

theorem read_congr {m m' : Area} (h : ∀ i, i < n → m (o + i) = m' (o + i)) :
    read m o n = read m' o n := by
  apply List.map_congr_left
  intro i hi
  exact h i (List.mem_range.mp hi)

theorem read_add (m : Area) (o n k : Nat) : read m o (n + k) = read m o n ++ read m (o + n) k := by
  simp [read, List.range_add, Nat.add_assoc]

/-- A write outside the bytes read is not seen. -/
theorem read_write_disjoint (h : o + n ≤ p ∨ p + l.length ≤ o) :
    read (write m p l) o n = read m o n := by
  apply read_congr
  intro i hi
  rcases h with h | h
  · exact write_of_lt (by omega)
  · exact write_of_ge (by omega)

theorem read_write_self (m : Area) (o : Nat) (l : List UInt8) :
    read (write m o l) o l.length = l := by
  apply List.ext_getElem
  · simp
  · intro i h₁ h₂
    have hi : i < l.length := h₂
    simp [read, write, hi]

theorem read_zero (h : ∀ i, o ≤ i → m i = 0) : read m o n = List.replicate n 0 := by
  apply List.ext_getElem
  · simp
  · intro i h₁ h₂
    simp [read, h (o + i) (by omega)]

end ByteArea
