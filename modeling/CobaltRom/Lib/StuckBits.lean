import CobaltRom.Lib.Ram

/-! Byte memory some of whose bits are stuck, and little-endian elements of several bytes in it. -/
namespace StuckBits

/-- The bits in `stuck` are stuck at what they are in `level`, the others are healthy. -/
structure StuckByte where
  stuck : UInt8
  level : UInt8

/-- What is read where `v` has been written. -/
def StuckByte.see (b : StuckByte) (v : UInt8) : UInt8 :=
  (v &&& ~~~b.stuck) ||| (b.level &&& b.stuck)

/-- Where the stuck bits of a memory are. -/
abbrev Faults := UInt32 → StuckByte

def StuckBit (f : Faults) (a : UInt32) (bit : Nat) : Prop := (f a).stuck.toNat.testBit bit = true

/-- Byte `j` of a number. -/
def byteOf (v j : Nat) : UInt8 := UInt8.ofNat (v / 256 ^ j)

/-- The `w` bytes at `a`, as they are read. -/
def load (f : Faults) (m : Ram) : Nat → UInt32 → Nat
  | 0, _ => 0
  | w + 1, a => ((f a).see (m a)).toNat + 256 * load f m w (a + 1)

/-- `v` to the `w` bytes at `a`. -/
def store (m : Ram) : Nat → UInt32 → Nat → Ram
  | 0, _, _ => m
  | w + 1, a, v => (store m w (a + 1) (v / 256)).store a (byteOf v 0)

variable {f : Faults} {m : Ram} {a p : UInt32} {b : StuckByte} {v t w n : Nat}

/-! ### One byte -/

theorem see_healthy (h : b.stuck = 0) (v : UInt8) : b.see v = v := by
  rw [StuckByte.see, h]
  simp

/-- A byte that takes all zeros and all ones has no stuck bit. -/
theorem healthy_of_see (h0 : b.see 0 = 0) (h1 : b.see 0xff = 0xff) : b.stuck = 0 := by
  rw [StuckByte.see, UInt8.zero_and, UInt8.zero_or] at h0
  rw [StuckByte.see, h0, UInt8.or_zero] at h1
  have hnot : ~~~b.stuck = 0xff := by
    rw [← h1]
    exact (UInt8.neg_one_and).symm
  exact UInt8.not_inj.mp hnot

theorem exists_stuckBit_iff : (∃ bit, StuckBit f a bit) ↔ (f a).stuck ≠ 0 := by
  constructor
  · rintro ⟨bit, h⟩ h0
    rw [StuckBit, h0] at h
    simp at h
  · intro h
    obtain ⟨bit, hbit⟩ := Nat.exists_testBit_of_ne_zero fun h0 => h (UInt8.toNat_inj.mp h0)
    exact ⟨bit, hbit⟩

/-! ### Elements -/

theorem byteOf_succ (v j : Nat) : byteOf v (j + 1) = byteOf (v / 256) j := by
  rw [byteOf, byteOf, Nat.div_div_eq_div_mul, pow_succ, Nat.mul_comm]

theorem byteOf_mod {j : Nat} (hj : j < t) (v : Nat) : byteOf (v % 256 ^ t) j = byteOf v j := by
  obtain ⟨k, rfl⟩ : ∃ k, t = j + (k + 1) := ⟨t - j - 1, by omega⟩
  rw [byteOf, byteOf, pow_add, Nat.mod_mul_right_div_self, ← UInt8.toNat_inj, UInt8.toNat_ofNat',
    UInt8.toNat_ofNat', Nat.mod_mod_of_dvd _ (dvd_pow_self 256 k.succ_ne_zero)]

theorem sub_succ_toNat (h : a ≠ p) : (a - (p + 1)).toNat + 1 = (a - p).toNat := by
  have hne : a.toNat ≠ p.toNat := fun he => h (UInt32.toNat_inj.mp he)
  have ha := a.toNat_lt
  have hp := p.toNat_lt
  rw [UInt32.toNat_sub, UInt32.toNat_sub, UInt32.toNat_add, UInt32.toNat_one]
  omega

theorem store_apply (hw : w ≤ 2 ^ 32) : store m w p v a =
    if (a - p).toNat < w then byteOf v (a - p).toNat else m a := by
  induction w generalizing p v with
  | zero => rw [store, if_neg (Nat.not_lt_zero _)]
  | succ w ih =>
    rw [store]
    by_cases h : a = p
    · rw [h, Ram.store_self, UInt32.sub_self, UInt32.toNat_zero, if_pos (Nat.succ_pos w)]
    · have hsub := sub_succ_toNat h
      rw [Ram.store_ne h, ih (by omega), ← hsub, byteOf_succ]
      simp only [Nat.add_lt_add_iff_right]

/-- The low bytes of an element. -/
theorem load_mod (h : t ≤ w) : load f m w a % 256 ^ t = load f m t a := by
  induction t generalizing w a with
  | zero => rw [pow_zero, Nat.mod_one, load]
  | succ t ih =>
    obtain ⟨w, rfl⟩ : ∃ k, w = k + 1 := ⟨w - 1, by omega⟩
    have hlt : ((f a).see (m a)).toNat < 256 := UInt8.toNat_lt _
    have hle : t ≤ w := by omega
    rw [load, load, ← ih hle, pow_succ, Nat.mul_comm (256 ^ t), Nat.mod_mul,
      Nat.add_mul_mod_self_left, Nat.mod_eq_of_lt hlt, Nat.add_mul_div_left _ _ (by decide),
      Nat.div_eq_of_lt hlt, Nat.zero_add]

/-- An element is read as a number exactly if all its bytes are. -/
theorem load_eq_iff : load f m t a = v % 256 ^ t ↔
    ∀ j < t, (f (a + .ofNat j)).see (m (a + .ofNat j)) = byteOf v j := by
  induction t generalizing a v with
  | zero => simp [load, Nat.mod_one]
  | succ t ih =>
    have hlt : ((f a).see (m a)).toNat < 256 := UInt8.toNat_lt _
    have hsplit : load f m (t + 1) a = v % 256 ^ (t + 1) ↔
        ((f a).see (m a)).toNat = v % 256 ∧ load f m t (a + 1) = v / 256 % 256 ^ t := by
      rw [load, pow_succ, Nat.mul_comm (256 ^ t), Nat.mod_mul]
      omega
    have hbyte : ((f a).see (m a)).toNat = v % 256 ↔ (f a).see (m a) = byteOf v 0 := by
      rw [← UInt8.toNat_inj, byteOf, pow_zero, Nat.div_one, UInt8.toNat_ofNat']
    rw [hsplit, hbyte, ih]
    constructor
    · rintro ⟨h0, hs⟩ j hj
      cases j with
      | zero => simpa using h0
      | succ j =>
        have := hs j (by omega)
        rwa [byteOf_succ, show a + UInt32.ofNat (j + 1) = a + 1 + .ofNat j by
          rw [UInt32.ofNat_add, UInt32.add_assoc, UInt32.add_comm 1]
          rfl]
    · intro h
      refine ⟨by simpa using h 0 (by omega), fun j hj => ?_⟩
      have := h (j + 1) (by omega)
      rwa [byteOf_succ, show a + UInt32.ofNat (j + 1) = a + 1 + .ofNat j by
        rw [UInt32.ofNat_add, UInt32.add_assoc, UInt32.add_comm 1]
        rfl] at this

/-! ### Filling -/

/-- `v` to `n` elements of `w` bytes in a row, from the first on. -/
def fill (w n : Nat) (p : UInt32) (v : Nat) (m : Ram) : Ram :=
  (List.range n).foldl (fun m i => store m w (p + .ofNat (w * i)) v) m

theorem fill_succ (w n : Nat) (p : UInt32) (v : Nat) (m : Ram) :
    fill w (n + 1) p v m = store (fill w n p v m) w (p + .ofNat (w * n)) v := by
  rw [fill, List.range_succ, List.foldl_append]
  rfl

theorem fill_apply {i j : Nat} (hn : w * n ≤ 2 ^ 32) (hi : i < n) (hj : j < w) :
    fill w n p v m (p + .ofNat (w * i + j)) = byteOf v j := by
  induction n with
  | zero => omega
  | succ n ih =>
    have hmul : w * (n + 1) = w * n + w := Nat.mul_succ w n
    rw [fill_succ, store_apply (by omega)]
    have hle : w * i ≤ w * n := Nat.mul_le_mul_left w (by omega)
    have hnat : (p + UInt32.ofNat (w * i + j) - (p + .ofNat (w * n))).toNat =
        (2 ^ 32 - w * n + (w * i + j)) % 2 ^ 32 := by
      rw [UInt32.toNat_sub, UInt32.toNat_add, UInt32.toNat_add, UInt32.toNat_ofNat',
        UInt32.toNat_ofNat']
      omega
    by_cases hlast : i = n
    · subst hlast
      have hj' : (p + UInt32.ofNat (w * i + j) - (p + .ofNat (w * i))).toNat = j := by omega
      rw [hj', if_pos hj]
    · have hstep : w * (i + 1) ≤ w * n := Nat.mul_le_mul_left w (by omega)
      have hstep' : w * (i + 1) = w * i + w := Nat.mul_succ w i
      rw [if_neg (by omega)]
      exact ih (by omega) (by omega)

end StuckBits
