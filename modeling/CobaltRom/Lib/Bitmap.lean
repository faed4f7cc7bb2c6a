import Mathlib.Tactic
import Mathlib.Data.List.GetD

/-! Sets of bit numbers kept in a list of bytes, eight to a byte. -/
namespace Bitmap

variable {l : List UInt8} {i j k : Nat} {x y : UInt8}

/-- Bit `j` of a byte. -/
def bit (x : UInt8) (j : Nat) : Bool := x.toBitVec.getLsbD j

/-- The byte with only bit `j` set. -/
def mask (j : Nat) : UInt8 := UInt8.ofNat (1 <<< j)

/-- Bit number `k` is set; past the end of the list no bit is. -/
def mem (l : List UInt8) (k : Nat) : Bool := bit (l.getD (k / 8) 0) (k % 8)

def set (l : List UInt8) (k : Nat) : List UInt8 := l.modify (k / 8) (· ||| mask (k % 8))

def clear (l : List UInt8) (k : Nat) : List UInt8 := l.modify (k / 8) (· &&& ~~~ mask (k % 8))

@[simp] theorem bit_zero (j : Nat) : bit 0 j = false := by simp [bit]

@[simp] theorem bit_or (x y : UInt8) (j : Nat) : bit (x ||| y) j = (bit x j || bit y j) := by
  simp [bit]

@[simp] theorem bit_and (x y : UInt8) (j : Nat) : bit (x &&& y) j = (bit x j && bit y j) := by
  simp [bit]

theorem bit_mask (hi : i < 8) (j : Nat) : bit (mask i) j = decide (j = i) := by
  unfold bit mask
  rw [UInt8.toBitVec_ofNat', BitVec.getLsbD_ofNat, Nat.one_shiftLeft, Nat.testBit_two_pow]
  by_cases h : i = j
  · subst h; simp [hi]
  · simp [h, Ne.symm h]

theorem bit_not (hj : j < 8) (x : UInt8) : bit (~~~ x) j = !bit x j := by
  simp [bit, hj]

theorem bit_lt (h : bit x j = true) : j < 8 := BitVec.lt_of_getLsbD h

theorem byte_ext (h : ∀ j, j < 8 → bit x j = bit y j) : x = y := by
  apply UInt8.toBitVec_inj.mp
  apply BitVec.eq_of_getLsbD_eq
  exact h

/-- A byte is full exactly if no bit is clear. -/
theorem full_iff : x = 0xff ↔ ∀ j, j < 8 → bit x j = true := by
  constructor
  · rintro rfl j hj
    interval_cases j <;> decide
  · intro h
    apply byte_ext
    intro j hj
    rw [h j hj]
    interval_cases j <;> decide

theorem and_mask_eq_zero (hj : j < 8) : x &&& mask j = 0 ↔ bit x j = false := by
  constructor
  · intro h
    have hb := bit_and x (mask j) j
    rw [h, bit_zero, bit_mask hj] at hb
    simpa using hb.symm
  · intro h
    apply byte_ext
    intro i hi
    rw [bit_and, bit_mask hj, bit_zero]
    by_cases he : i = j
    · subst he; simp [h]
    · simp [he]

theorem mem_lt (h : mem l k = true) : k < 8 * l.length := by
  by_contra hk
  have hn : l.length ≤ k / 8 := by omega
  rw [mem, List.getD_eq_default _ _ hn, bit_zero] at h
  cases h

@[simp] theorem length_set (l : List UInt8) (k : Nat) : (set l k).length = l.length := by
  simp [set]

@[simp] theorem length_clear (l : List UInt8) (k : Nat) : (clear l k).length = l.length := by
  simp [clear]

theorem getD_modify (l : List UInt8) (f : UInt8 → UInt8) (i j : Nat) :
    (l.modify i f).getD j 0 = if j = i ∧ j < l.length then f (l.getD j 0) else l.getD j 0 := by
  simp only [List.getD_eq_getElem?_getD, List.getElem?_modify]
  by_cases hj : j < l.length
  · by_cases he : i = j
    · subst he; simp [hj]
    · simp [he, Ne.symm he]
  · simp [hj]

theorem mem_set (l : List UInt8) (k j : Nat) :
    mem (set l k) j = (mem l j || decide (j = k ∧ k < 8 * l.length)) := by
  unfold mem set
  rw [getD_modify]
  by_cases hb : j / 8 = k / 8 ∧ j / 8 < l.length
  · rw [if_pos hb, bit_or, bit_mask (Nat.mod_lt _ (by decide))]
    congr 1
    apply decide_eq_decide.mpr
    omega
  · rw [if_neg hb]
    have hn : ¬ (j = k ∧ k < 8 * l.length) := by omega
    simp [hn]

theorem mem_clear (l : List UInt8) (k j : Nat) :
    mem (clear l k) j = (mem l j && decide (j ≠ k)) := by
  unfold mem clear
  rw [getD_modify]
  by_cases hb : j / 8 = k / 8 ∧ j / 8 < l.length
  · rw [if_pos hb, bit_and, bit_not (Nat.mod_lt _ (by decide)), bit_mask (Nat.mod_lt _ (by decide))]
    congr 1
    rw [← decide_not]
    apply decide_eq_decide.mpr
    omega
  · rw [if_neg hb]
    by_cases he : j = k
    · subst he
      have hn : l.length ≤ j / 8 := by omega
      rw [List.getD_eq_default _ _ hn, bit_zero, Bool.false_and]
    · simp [he]

@[simp] theorem mem_replicate (n k : Nat) : mem (List.replicate n 0) k = false := by
  have h : (List.replicate n (0 : UInt8)).getD (k / 8) 0 = 0 := by
    rw [List.getD_eq_getElem?_getD, List.getElem?_replicate]
    split <;> rfl
  rw [mem, h, bit_zero]

theorem bit_eq_false (h : 8 ≤ j) : bit x j = false := by
  refine Bool.of_not_eq_true fun hb => ?_
  have := bit_lt hb
  omega

/-- A bitmap with bits in its first byte only. -/
theorem mem_cons_replicate (x : UInt8) (n k : Nat) :
    mem (x :: List.replicate n 0) k = bit x k := by
  by_cases hk : k < 8
  · rw [mem, Nat.div_eq_of_lt hk, Nat.mod_eq_of_lt hk]
    rfl
  · obtain ⟨j, hj⟩ : ∃ j, k / 8 = j + 1 := ⟨k / 8 - 1, by omega⟩
    have hz : (x :: List.replicate n 0).getD (k / 8) 0 = 0 := by
      rw [hj, List.getD_eq_getElem?_getD, List.getElem?_cons_succ, List.getElem?_replicate]
      split <;> rfl
    rw [mem, hz, bit_zero, bit_eq_false (by omega)]

/-- Two maps of one length with the same bits are the same map. -/
theorem ext_mem {m : List UInt8} (hl : l.length = m.length)
    (h : ∀ k, k < 8 * l.length → mem l k = mem m k) : l = m := by
  apply List.ext_getElem hl
  intro i hi hm
  apply byte_ext
  intro j hj
  have hk := h (8 * i + j) (by omega)
  rw [mem, mem, show (8 * i + j) / 8 = i by omega, show (8 * i + j) % 8 = j by omega,
    List.getD_eq_getElem _ _ hi, List.getD_eq_getElem _ _ hm] at hk
  exact hk

end Bitmap
