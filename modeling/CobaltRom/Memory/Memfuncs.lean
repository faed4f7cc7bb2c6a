import CobaltRom.Lib.Ram

/-! `common/memfuncs.c`: copying, filling and comparing memory. The string instructions run with the
direction flag clear. -/
namespace Memfuncs

/-- `rep movsb` with `n` in `ecx`. -/
def repMovsb : Nat → UInt32 → UInt32 → Ram → Ram
  | 0, _, _, m => m
  | n + 1, dst, src, m => repMovsb n (dst + 1) (src + 1) (m.store dst (m src))

/-- `rep stosb` with `n` in `ecx`. -/
def repStosb : Nat → UInt32 → UInt8 → Ram → Ram
  | 0, _, _, m => m
  | n + 1, dst, v, m => repStosb n (dst + 1) v (m.store dst v)

def memcpy (reg2 reg1 n : UInt32) (m : Ram) : UInt32 × Ram :=
  (reg2, repMovsb n.toNat reg2 reg1 m)

/-- The `while (n--)` of `memmove`: `dest` and `src` come down from the last byte. -/
def moveDown : Nat → UInt32 → UInt32 → Ram → UInt32 × Ram
  | 0, dest, _, m => (dest, m)
  | n + 1, dest, src, m => moveDown n (dest - 1) (src - 1) (m.store dest (m src))

/-- The pointer returned after the loop is where the loop has come to. -/
def memmove (dest src n : UInt32) (m : Ram) : UInt32 × Ram :=
  if dest < src then (dest, (memcpy dest src n m).2)
  else moveDown n.toNat (dest + (n - 1)) (src + (n - 1)) m

def memset (mem : UInt32) (c : UInt32) (n : UInt32) (m : Ram) : UInt32 × Ram :=
  (mem, repStosb n.toNat mem c.toUInt8 m)

/-- The `while (n--)` of `memcmp`. -/
def compareBytes (m : Ram) : Nat → UInt32 → UInt32 → Int
  | 0, _, _ => 0
  | n + 1, p1, p2 =>
    if ((m p1).toNat : Int) - (m p2).toNat ≠ 0 then (m p1).toNat - (m p2).toNat
    else compareBytes m n (p1 + 1) (p2 + 1)

def memcmp (s1 s2 n : UInt32) (m : Ram) : Int := compareBytes m n.toNat s1 s2

variable {m : Ram} {a dest src n dst : UInt32} {i k left : Nat} {v : UInt8}

/-! ### The instructions and the loop -/

theorem next_byte (a : UInt32) (k : Nat) : a + .ofNat k + 1 = a + .ofNat (k + 1) := by
  rw [UInt32.add_assoc, UInt32.ofNat_add]
  rfl

theorem repMovsb_from (k left : Nat) (m : Ram) :
    repMovsb left (dst + .ofNat k) (src + .ofNat k) (m.copy dst src k) =
      m.copy dst src (k + left) := by
  induction left generalizing k with
  | zero => rfl
  | succ left ih =>
    rw [repMovsb, next_byte, next_byte, ← Ram.copy, ih (k + 1), Nat.add_assoc, Nat.add_comm 1]

/-- `rep movsb` copies forwards. -/
theorem repMovsb_eq_copy (left : Nat) (m : Ram) :
    repMovsb left dst src m = m.copy dst src left := by
  have h : repMovsb left (dst + .ofNat 0) (src + .ofNat 0) (m.copy dst src 0) =
      m.copy dst src (0 + left) := repMovsb_from 0 left m
  simpa [Ram.copy] using h

theorem repStosb_from (k left : Nat) (m : Ram) :
    repStosb left (dst + .ofNat k) v (m.fill dst v k) = m.fill dst v (k + left) := by
  induction left generalizing k with
  | zero => rfl
  | succ left ih =>
    rw [repStosb, next_byte, ← Ram.fill, ih (k + 1), Nat.add_assoc, Nat.add_comm 1]

theorem repStosb_eq_fill (left : Nat) (m : Ram) : repStosb left dst v m = m.fill dst v left := by
  have h : repStosb left (dst + .ofNat 0) v (m.fill dst v 0) = m.fill dst v (0 + left) :=
    repStosb_from 0 left m
  simpa [Ram.fill] using h

/-- The loop of `memmove` copies backwards and stops in front of the destination. -/
theorem moveDown_eq_copyDown (left : Nat) (m : Ram) :
    moveDown left (dest + .ofNat left - 1) (src + .ofNat left - 1) m =
      (dest - 1, m.copyDown dest src left) := by
  have hback : ∀ (a : UInt32) (k : Nat), a + .ofNat (k + 1) - 1 = a + .ofNat k := by
    intro a k
    rw [← next_byte, UInt32.add_sub_cancel]
  induction left generalizing m with
  | zero => simp [moveDown, Ram.copyDown]
  | succ left ih => rw [moveDown, hback, hback, ih, Ram.copyDown]

/-! ### The functions -/

/-- Addresses that do not wrap are in their order. -/
theorem toNat_byte (h : a.toNat + k < 2 ^ 32) : (a + .ofNat k).toNat = a.toNat + k := by
  rw [UInt32.toNat_add, UInt32.toNat_ofNat', Nat.mod_eq_of_lt (a := k) (by omega),
    Nat.mod_eq_of_lt h]

/-- What is outside an area is none of its bytes. -/
theorem outside_ne (hdest : dest.toNat + left ≤ 2 ^ 32)
    (ha : ¬ (dest.toNat ≤ a.toNat ∧ a.toNat < dest.toNat + left)) (hk : k < left) :
    a ≠ dest + .ofNat k := by
  rintro rfl
  rw [toNat_byte (by omega)] at ha
  omega

theorem memmove_snd (dest src n : UInt32) (m : Ram) : (memmove dest src n m).2 =
    if dest < src then m.copy dest src n.toNat else m.copyDown dest src n.toNat := by
  rw [memmove]
  split
  · exact repMovsb_eq_copy n.toNat m
  · have hlast : ∀ a : UInt32, a + (n - 1) = a + .ofNat n.toNat - 1 := by
      intro a
      rw [UInt32.ofNat_toNat, UInt32.sub_eq_add_neg, UInt32.sub_eq_add_neg, UInt32.add_assoc]
    rw [hlast, hlast, moveDown_eq_copyDown]

/-- However the two areas overlap, the destination gets the bytes that the source had, and nothing
else changes. -/
theorem memmove_copies (dest src n : UInt32) (m : Ram) (hdest : dest.toNat + n.toNat ≤ 2 ^ 32)
    (hsrc : src.toNat + n.toNat ≤ 2 ^ 32) :
    (∀ i < n.toNat, (memmove dest src n m).2 (dest + .ofNat i) = m (src + .ofNat i)) ∧
    ∀ a : UInt32, ¬ (dest.toNat ≤ a.toNat ∧ a.toNat < dest.toNat + n.toNat) →
      (memmove dest src n m).2 a = m a := by
  have hn := n.toNat_lt
  rw [memmove_snd]
  split
  case isTrue hbelow =>
    have hbelow : dest.toNat < src.toNat := UInt32.lt_iff_toNat_lt.mp hbelow
    constructor
    · intro i hi
      refine Ram.copy_disjoint hn.le hi fun k hk h => ?_
      rw [← UInt32.toNat_inj, toNat_byte (by omega), toNat_byte (by omega)] at h
      omega
    · intro a ha
      exact Ram.copy_other fun k hk => outside_ne hdest ha hk
  case isFalse habove =>
    have habove : src.toNat ≤ dest.toNat := UInt32.le_iff_toNat_le.mp (UInt32.not_lt.mp habove)
    constructor
    · intro i hi
      refine Ram.copyDown_disjoint hn.le hi fun k hlow hhigh h => ?_
      rw [← UInt32.toNat_inj, toNat_byte (by omega), toNat_byte (by omega)] at h
      omega
    · intro a ha
      exact Ram.copyDown_other fun k hk => outside_ne hdest ha hk

/-- Three bytes go up by one, over themselves. -/
theorem memmove_overlap : (∀ i < 3, (memmove 0x1001 0x1000 3 UInt32.toUInt8).2 (0x1001 + .ofNat i) =
      (0x1000 + UInt32.ofNat i).toUInt8) ∧
    ∀ a : UInt32, ¬ (0x1001 ≤ a.toNat ∧ a.toNat < 0x1004) →
      (memmove 0x1001 0x1000 3 UInt32.toUInt8).2 a = a.toUInt8 :=
  memmove_copies 0x1001 0x1000 3 UInt32.toUInt8 (by decide) (by decide)

/-- `memset` gives the bytes of its area the low byte of `c`. -/
theorem memset_fills (mem c n : UInt32) (m : Ram) (hi : i < n.toNat) :
    (memset mem c n m).2 (mem + .ofNat i) = c.toUInt8 := by
  rw [memset, repStosb_eq_fill]
  exact Ram.fill_apply n.toNat_lt.le hi

theorem compareBytes_eq_zero (left : Nat) (p1 p2 : UInt32) :
    compareBytes m left p1 p2 = 0 ↔ ∀ i < left, m (p1 + .ofNat i) = m (p2 + .ofNat i) := by
  induction left generalizing p1 p2 with
  | zero => exact iff_of_true rfl fun i hi => absurd hi (Nat.not_lt_zero i)
  | succ left ih =>
    have hshift : ∀ (a : UInt32) (i : Nat), a + 1 + .ofNat i = a + .ofNat (i + 1) := by
      intro a i
      rw [UInt32.ofNat_add, UInt32.add_assoc, UInt32.add_comm 1]
      rfl
    have hfirst : ((m p1).toNat : Int) - (m p2).toNat = 0 ↔ m p1 = m p2 := by
      rw [← UInt8.toNat_inj]
      omega
    rw [compareBytes]
    split
    case isTrue hdiff =>
      refine iff_of_false hdiff fun hall => hdiff (hfirst.mpr ?_)
      simpa using hall 0 (Nat.succ_pos left)
    case isFalse hsame =>
      have hhead : m p1 = m p2 := hfirst.mp (not_not.mp hsame)
      rw [ih]
      constructor
      · rintro hrest (_ | i) hi
        · simpa using hhead
        · rw [← hshift, ← hshift]
          exact hrest i (Nat.lt_of_succ_lt_succ hi)
      · intro hall i hi
        rw [hshift, hshift]
        exact hall (i + 1) (Nat.succ_lt_succ hi)

/-- `memcmp` is zero exactly on equal areas. -/
theorem memcmp_eq_zero (s1 s2 n : UInt32) (m : Ram) :
    memcmp s1 s2 n m = 0 ↔ ∀ i < n.toNat, m (s1 + .ofNat i) = m (s2 + .ofNat i) :=
  compareBytes_eq_zero n.toNat s1 s2

end Memfuncs
