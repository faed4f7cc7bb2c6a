import Mathlib

/-! Heap blocks as lists of cells: resizing, bounded copies inside a block and into it. A
copy that leaves the block is a fault. -/
namespace HeapBlock

variable {α : Type*}

/-- A block's contents after a resize to `n` cells; new cells hold `fresh`. -/
def resize (fresh : α) (b : List α) (n : Nat) : List α :=
  b.take n ++ List.replicate (n - b.length) fresh

/-- `memmove (b + dest, b + src, len)`. -/
def move (b : List α) (dest src len : Int) : Option (List α) :=
  if 0 ≤ dest ∧ 0 ≤ src ∧ 0 ≤ len ∧ dest + len ≤ b.length ∧ src + len ≤ b.length then
    some (b.take dest.toNat ++ (b.drop src.toNat).take len.toNat ++ b.drop (dest + len).toNat)
  else
    none

/-- `memmove (b + dest, l, l.length)` from outside the block. -/
def copyIn (b : List α) (dest : Int) (l : List α) : Option (List α) :=
  if 0 ≤ dest ∧ dest + l.length ≤ b.length then
    some (b.take dest.toNat ++ l ++ b.drop (dest + l.length).toNat)
  else
    none

theorem resize_grow (fresh : α) (b : List α) (k : Nat) :
    resize fresh b (b.length + k) = b ++ List.replicate k fresh := by
  rw [resize, List.take_of_length_le (by omega), Nat.add_sub_cancel_left]

theorem resize_shrink (fresh : α) (a b : List α) : resize fresh (a ++ b) a.length = a := by
  simp [resize]

/-- Opening a gap of `k` cells before `c`, whose old cells stay in the gap or move up. -/
theorem move_up (a c : List α) (fresh : List α) :
    ∃ g : List α, g.length = fresh.length ∧
      move (a ++ c ++ fresh) (a.length + fresh.length : Nat) (a.length : Nat) (c.length : Nat) =
        some (a ++ g ++ c) := by
  refine ⟨(c ++ fresh).take fresh.length, by simp, ?_⟩
  rw [move, if_pos (by push_cast [List.length_append]; omega)]
  have hd : ((a.length + fresh.length : Nat) + (c.length : Nat) : Int).toNat =
      (a ++ c ++ fresh).length := by
    simp only [List.length_append]
    omega
  rw [hd, List.drop_length, Int.toNat_natCast, Int.toNat_natCast, Int.toNat_natCast,
    List.append_nil, List.append_assoc a c fresh, List.drop_left, List.take_left,
    List.take_length_add_append]

/-- Closing a gap: `c` slides down over `m`, its tail stays behind. -/
theorem move_down (a m c : List α) :
    ∃ g : List α, g.length = m.length ∧
      move (a ++ m ++ c) (a.length : Nat) (a.length + m.length : Nat) (c.length : Nat) =
        some (a ++ c ++ g) := by
  refine ⟨(a ++ m ++ c).drop (a.length + c.length), by simp, ?_⟩
  rw [move, if_pos (by push_cast [List.length_append]; omega)]
  have hs : (a ++ m ++ c).drop (a.length + m.length) = c := by
    rw [← List.length_append, List.drop_left]
  have hd : ((a.length : Nat) + (c.length : Nat) : Int).toNat = a.length + c.length := by omega
  rw [hd, Int.toNat_natCast, Int.toNat_natCast, Int.toNat_natCast, hs, List.take_length,
    List.append_assoc a m c, List.take_left]

/-- What lies behind a move stays. -/
theorem move_append {b b' : List α} {dest src len : Int} (w : List α)
    (h : move b dest src len = some b') : move (b ++ w) dest src len = some (b' ++ w) := by
  unfold move at h ⊢
  split at h
  · rename_i hr
    rw [if_pos (by rw [List.length_append]; omega)]
    cases h
    rw [List.take_append_of_le_length (by omega), List.drop_append_of_le_length (by omega),
      List.take_append_of_le_length (by rw [List.length_drop]; omega),
      List.drop_append_of_le_length (by omega), ← List.append_assoc]
  · cases h

theorem copyIn_mid (a g l c : List α) (h : g.length = l.length) :
    copyIn (a ++ g ++ c) (a.length : Nat) l = some (a ++ l ++ c) := by
  rw [copyIn, if_pos (by push_cast [List.length_append]; omega)]
  have hd : ((a.length : Nat) + (l.length : Nat) : Int).toNat = (a ++ g).length := by
    simp only [List.length_append]
    omega
  rw [hd, List.drop_left, Int.toNat_natCast, List.append_assoc a g c, List.take_left]

end HeapBlock
