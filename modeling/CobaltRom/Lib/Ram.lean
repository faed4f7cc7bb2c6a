import CobaltRom.Lib.WordBytes

/-! Byte memory with 32-bit addresses that wrap: words, and copying and filling byte by byte. -/

abbrev Ram := UInt32 → UInt8

namespace Ram
open WordBytes

variable {m m' : Ram} {a dst src : UInt32} {i j n : Nat} {v : UInt8}

def store (m : Ram) (a : UInt32) (v : UInt8) : Ram := fun b => if b = a then v else m b

def le16 (m : Ram) (a : UInt32) : UInt16 :=
  (m (a + 1)).toUInt16 <<< (8 : UInt16) ||| (m a).toUInt16

def le32 (m : Ram) (a : UInt32) : UInt32 := be32 (m (a + 3)) (m (a + 2)) (m (a + 1)) (m a)

def store32 (m : Ram) (a v : UInt32) : Ram :=
  (((m.store a v.toUInt8).store (a + 1) (v >>> 8).toUInt8).store (a + 2) (v >>> 16).toUInt8).store
    (a + 3) (v >>> 24).toUInt8

/-- Forwards, so that what has been written is read again where the areas overlap. -/
def copy (m : Ram) (dst src : UInt32) : Nat → Ram
  | 0 => m
  | n + 1 => (copy m dst src n).store (dst + .ofNat n) (copy m dst src n (src + .ofNat n))

/-- Backwards, from the last byte on. -/
def copyDown (m : Ram) (dst src : UInt32) : Nat → Ram
  | 0 => m
  | n + 1 => copyDown (m.store (dst + .ofNat n) (m (src + .ofNat n))) dst src n

def fill (m : Ram) (dst : UInt32) (v : UInt8) : Nat → Ram
  | 0 => m
  | n + 1 => (fill m dst v n).store (dst + .ofNat n) v

theorem store_self (m : Ram) (a : UInt32) (v : UInt8) : m.store a v a = v := if_pos rfl

theorem store_ne {b : UInt32} (h : b ≠ a) : m.store a v b = m b := if_neg h

theorem le32_congr (h : ∀ k, k < 4 → m (a + .ofNat k) = m' (a + .ofNat k)) :
    m.le32 a = m'.le32 a := by
  have h0 : m a = m' a := by simpa using h 0 (by decide)
  rw [le32, le32, h0]
  congr 1
  · exact h 3 (by decide)
  · exact h 2 (by decide)
  · exact h 1 (by decide)

/-! ### Addresses in a row -/

theorem add_ofNat_eq_iff (hi : i < 2 ^ 32) (hj : j < 2 ^ 32) :
    a + .ofNat i = a + .ofNat j ↔ i = j := by
  rw [UInt32.add_right_inj, ← UInt32.toNat_inj, UInt32.toNat_ofNat', UInt32.toNat_ofNat']
  omega

/-- The byte that is copied to `dst + i` has been written itself if it is `dst + j` with `j < i`. -/
theorem src_eq_dst_iff (hi : i < 2 ^ 32) (hj : j < i) :
    src + .ofNat i = dst + .ofNat j ↔ (dst - src).toNat ≠ 0 ∧ i = (dst - src).toNat + j := by
  have hdst : dst.toNat = (src.toNat + (dst - src).toNat) % 2 ^ 32 := by
    rw [← UInt32.toNat_add, UInt32.add_comm, UInt32.sub_add_cancel]
  have hdiff := (dst - src).toNat_lt
  rw [← UInt32.toNat_inj, UInt32.toNat_add, UInt32.toNat_add, UInt32.toNat_ofNat',
    UInt32.toNat_ofNat', hdst]
  omega

theorem copy_other (h : ∀ k, k < n → a ≠ dst + .ofNat k) : copy m dst src n a = m a := by
  induction n with
  | zero => rfl
  | succ n ih =>
    rw [copy, store_ne (h n (Nat.lt_succ_self n))]
    exact ih fun k hk => h k (Nat.lt_succ_of_lt hk)

theorem fill_other (h : ∀ k, k < n → a ≠ dst + .ofNat k) : fill m dst v n a = m a := by
  induction n with
  | zero => rfl
  | succ n ih =>
    rw [fill, store_ne (h n (Nat.lt_succ_self n))]
    exact ih fun k hk => h k (Nat.lt_succ_of_lt hk)

theorem fill_apply (hn : n ≤ 2 ^ 32) (hi : i < n) : fill m dst v n (dst + .ofNat i) = v := by
  induction n with
  | zero => omega
  | succ n ih =>
    rw [fill]
    by_cases hlast : i = n
    · rw [hlast, store_self]
    · rw [store_ne fun h => hlast ((add_ofNat_eq_iff (by omega) (by omega)).mp h)]
      exact ih (by omega) (by omega)

/-- Where the destination begins inside the source, the bytes before it are repeated. -/
theorem copy_apply (hn : n ≤ 2 ^ 32) (hi : i < n) :
    copy m dst src n (dst + .ofNat i) = m (src + .ofNat (i % (dst - src).toNat)) := by
  induction n generalizing i with
  | zero => omega
  | succ n ih =>
    rw [copy]
    by_cases hlast : i = n
    · rw [hlast, store_self]
      by_cases hinside : (dst - src).toNat ≠ 0 ∧ (dst - src).toNat ≤ n
      · have hback : src + .ofNat n = dst + .ofNat (n - (dst - src).toNat) :=
          (src_eq_dst_iff (by omega) (by omega)).mpr ⟨hinside.1, by omega⟩
        rw [hback, ih (by omega) (by omega), ← Nat.mod_eq_sub_mod hinside.2]
      · have hmod : n % (dst - src).toNat = n := by
          by_cases hzero : (dst - src).toNat = 0
          · rw [hzero, Nat.mod_zero]
          · exact Nat.mod_eq_of_lt (by omega)
        rw [hmod]
        refine copy_other fun k hk h => ?_
        obtain ⟨hne, hsum⟩ := (src_eq_dst_iff (by omega) hk).mp h
        omega
    · rw [store_ne fun h => hlast ((add_ofNat_eq_iff (by omega) (by omega)).mp h)]
      exact ih (by omega) (by omega)

/-- A copy forwards reads no byte that it has written. -/
theorem copy_disjoint (hn : n ≤ 2 ^ 32) (hi : i < n)
    (hread : ∀ k, k < i → src + .ofNat i ≠ dst + .ofNat k) :
    copy m dst src n (dst + .ofNat i) = m (src + .ofNat i) := by
  have hmod : i % (dst - src).toNat = i := by
    by_cases hinside : (dst - src).toNat ≠ 0 ∧ (dst - src).toNat ≤ i
    · have hback : src + .ofNat i = dst + .ofNat (i - (dst - src).toNat) :=
        (src_eq_dst_iff (by omega) (by omega)).mpr ⟨hinside.1, by omega⟩
      exact absurd hback (hread _ (by omega))
    · by_cases hzero : (dst - src).toNat = 0
      · rw [hzero, Nat.mod_zero]
      · exact Nat.mod_eq_of_lt (by omega)
  rw [copy_apply hn hi, hmod]

theorem copyDown_other (h : ∀ k, k < n → a ≠ dst + .ofNat k) : copyDown m dst src n a = m a := by
  induction n generalizing m with
  | zero => rfl
  | succ n ih =>
    rw [copyDown, ih fun k hk => h k (Nat.lt_succ_of_lt hk)]
    exact store_ne (h n (Nat.lt_succ_self n))

/-- A copy backwards reads no byte that it has written. -/
theorem copyDown_disjoint (hn : n ≤ 2 ^ 32) (hi : i < n)
    (hread : ∀ k, i < k → k < n → src + .ofNat i ≠ dst + .ofNat k) :
    copyDown m dst src n (dst + .ofNat i) = m (src + .ofNat i) := by
  induction n generalizing m with
  | zero => omega
  | succ n ih =>
    rw [copyDown]
    by_cases hlast : i = n
    · -- the first byte written; nothing comes back to it
      have hother : ∀ k, k < n → dst + .ofNat i ≠ dst + .ofNat k := by
        intro k hk h
        have heq := (add_ofNat_eq_iff (by omega) (by omega)).mp h
        omega
      rw [copyDown_other hother, hlast, store_self]
    · rw [ih (by omega) (by omega) fun k hlow hhigh => hread k hlow (Nat.lt_succ_of_lt hhigh)]
      exact store_ne (hread n (by omega) (Nat.lt_succ_self n))

theorem store32_other {b v : UInt32} (h : ∀ k, k < 4 → b ≠ a + .ofNat k) :
    m.store32 a v b = m b := by
  have h0 : b ≠ a := by simpa using h 0 (by decide)
  have h1 : b ≠ a + 1 := h 1 (by decide)
  have h2 : b ≠ a + 2 := h 2 (by decide)
  have h3 : b ≠ a + 3 := h 3 (by decide)
  rw [store32, store_ne h3, store_ne h2, store_ne h1, store_ne h0]

theorem le32_store32 (m : Ram) (a v : UInt32) : (m.store32 a v).le32 a = v := by
  have hne : ∀ i j : Nat, i < 4 → j < 4 → i ≠ j → a + .ofNat i ≠ a + .ofNat j := by
    intro i j hi hj hij h
    exact hij ((add_ofNat_eq_iff (by omega) (by omega)).mp h)
  have h01 : a ≠ a + 1 := by simp
  have h02 : a ≠ a + 2 := by simp
  have h03 : a ≠ a + 3 := by simp
  have h12 : a + 1 ≠ a + 2 := hne 1 2 (by decide) (by decide) (by decide)
  have h13 : a + 1 ≠ a + 3 := hne 1 3 (by decide) (by decide) (by decide)
  have h23 : a + 2 ≠ a + 3 := hne 2 3 (by decide) (by decide) (by decide)
  rw [le32, store32, store_self, store_ne h23, store_self, store_ne h13, store_ne h12, store_self,
    store_ne h03, store_ne h02, store_ne h01, store_self]
  exact be32_eta v

/-- Words at different places that are multiples of four do not overlap. -/
theorem le32_store32_ne {b v : UInt32} (ha : a.toNat % 4 = 0) (hb : b.toNat % 4 = 0) (h : b ≠ a) :
    (m.store32 a v).le32 b = m.le32 b := by
  refine le32_congr fun i hi => store32_other fun j hj heq => h ?_
  have hnat := congrArg UInt32.toNat heq
  simp only [UInt32.toNat_add, UInt32.toNat_ofNat'] at hnat
  have hla := a.toNat_lt
  have hlb := b.toNat_lt
  apply UInt32.toNat_inj.mp
  omega

/-! ### Areas -/

/-- Every byte of an area, given by its first address and its size, lies in a window. -/
def AreaIn (base size : UInt32) (area : UInt32 × UInt32) : Prop :=
  ∀ k, k < area.2.toNat → base.toNat ≤ (area.1 + .ofNat k).toNat ∧
    (area.1 + .ofNat k).toNat < base.toNat + size.toNat

/-- An area that begins behind the window's begin is in it if it is empty or ends there. -/
theorem areaIn_iff {base size count : UInt32} (hsize : base.toNat + size.toNat < 2 ^ 32)
    (hlow : ¬ a < base) :
    AreaIn base size (a, count) ↔
      count = 0 ∨ a.toNat + count.toNat ≤ base.toNat + size.toNat := by
  have hle : base.toNat ≤ a.toNat := UInt32.le_iff_toNat_le.mp (UInt32.not_lt.mp hlow)
  have ha := a.toNat_lt
  have hcount := count.toNat_lt
  have haddr : ∀ k, k < 2 ^ 32 → (a + .ofNat k).toNat = (a.toNat + k) % 2 ^ 32 := by
    intro k hk
    rw [UInt32.toNat_add, UInt32.toNat_ofNat', Nat.mod_eq_of_lt hk]
  constructor
  · intro hall
    by_contra hneither
    obtain ⟨hzero, hover⟩ := not_or.mp hneither
    have hpos : count.toNat ≠ 0 := fun h => hzero (UInt32.toNat_inj.mp h)
    -- the first byte behind the window
    obtain ⟨-, hin⟩ := hall (base.toNat + size.toNat - a.toNat) (by
      change _ < count.toNat
      omega)
    rw [haddr _ (by omega)] at hin
    omega
  · rintro (rfl | hfits) k hk
    · exact absurd hk (Nat.not_lt_zero k)
    · change k < count.toNat at hk
      rw [haddr k (by omega)]
      omega

end Ram
