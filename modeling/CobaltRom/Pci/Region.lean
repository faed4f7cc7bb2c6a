import CobaltRom.Lib.AlignMask

/-! `common/region.c`: regions that are handed out from the top down. -/
namespace Pci.Resource

/-- `region_info`. `spent` records that the base has come down to 0, or wrapped below it. -/
structure Region where
  mask : UInt8
  limit : UInt32
  base : UInt32
  size : UInt32
  spent : Bool

def regionInit (align : UInt8) (base : UInt32) : Region where
  mask := align
  limit := base
  base := base
  size := 0
  spent := base == 0

/-- The loop of `roundup2`: the set bits below the top one are counted in `aligned`. -/
def roundup2Loop : Nat → UInt32 → UInt32 → UInt32 → UInt32 × UInt32
  | 0, _, aligned, shifts => (aligned, shifts)
  | fuel + 1, n, aligned, shifts =>
    if n = 0 then (aligned, shifts)
    else
      roundup2Loop fuel (n >>> 1)
        (if n &&& 1 ≠ 0 ∧ 1 < n then aligned + 1 else aligned) (shifts + 1)

def roundup2 (num : UInt32) : UInt32 :=
  let (aligned, shifts) := roundup2Loop 32 num 0 0
  if aligned ≠ 0 then 1 <<< shifts else num

def regionAllocate (size : UInt32) (region : Region) : UInt32 × Region :=
  if size = 0 then (region.size, region)
  else
    let size := roundup2 size
    let aligned := region.base &&& ~~~((size - 1) ||| region.mask.toUInt32)
    let region := { region with
      base := aligned - size
      size := region.size + size
      spent := region.spent || decide (aligned ≤ size) }
    (region.base, region)

def regionAlign (mask : UInt32) (region : Region) : UInt32 × Region :=
  let base := region.base &&& ~~~mask
  (base, { region with base := base, spent := region.spent || base == 0 })

variable {r r' : Region} {k j : Nat} {size mask : UInt32}

/-- What allocations do to a region that is not spent. -/
structure Down (r r' : Region) : Prop where
  base : r'.base.toNat ≤ r.base.toNat
  mask : r'.mask = r.mask
  spent : r.spent = false

theorem roundup2_two_pow (hk : k < 32) :
    roundup2 (UInt32.ofNat (2 ^ k)) = UInt32.ofNat (2 ^ k) := by
  have h : ∀ i : Fin 32, roundup2 (UInt32.ofNat (2 ^ i.val)) = UInt32.ofNat (2 ^ i.val) := by
    decide +kernel
  exact h ⟨k, hk⟩

/-- A block of `2 ^ k` bytes is taken below the base, aligned to its size. -/
theorem regionAllocate_spec (hk : k < 32) (hsize : size.toNat = 2 ^ k)
    (hmask : r.mask.toNat = 2 ^ j - 1) (hj : j ≤ 8)
    (hfit : (regionAllocate size r).2.spent = false) :
    (regionAllocate size r).1 = (regionAllocate size r).2.base ∧
      r.spent = false ∧ (regionAllocate size r).2.mask = r.mask ∧
      0 < (regionAllocate size r).1.toNat ∧ 2 ^ k ∣ (regionAllocate size r).1.toNat ∧
      (regionAllocate size r).1.toNat + 2 ^ k ≤ r.base.toNat := by
  have hpow : 0 < 2 ^ k := Nat.two_pow_pos k
  have hlt : 2 ^ k < 2 ^ 32 := Nat.pow_lt_pow_right (by omega) hk
  have hne : size ≠ 0 := by
    intro h
    rw [h] at hsize
    simp at hsize
    omega
  have hround : roundup2 size = size := by
    have : size = UInt32.ofNat (2 ^ k) := by rw [← hsize, UInt32.ofNat_toNat]
    rw [this, roundup2_two_pow hk]
  have halign : (r.base &&& ~~~((size - 1) ||| r.mask.toUInt32)).toNat =
      r.base.toNat / 2 ^ max k j * 2 ^ max k j := by
    refine AlignMask.toNat_and_not_mask _ (by omega) ?_
    have h1 : (size - 1).toNat = 2 ^ k - 1 := by
      rw [UInt32.toNat_sub_of_le _ _ (by rw [UInt32.le_iff_toNat_le, hsize]; exact hpow), hsize]
      rfl
    rw [UInt32.toNat_or, h1, UInt8.toNat_toUInt32, hmask, AlignMask.or_masks]
  generalize hA : r.base &&& ~~~((size - 1) ||| r.mask.toUInt32) = aligned at halign
  simp only [regionAllocate, if_neg hne, hround, hA, Bool.or_eq_false_iff,
    decide_eq_false_iff_not, UInt32.not_le, UInt32.lt_iff_toNat_lt, hsize] at hfit ⊢
  obtain ⟨hspent, hfit⟩ := hfit
  have hdvd : 2 ^ k ∣ aligned.toNat := by
    rw [halign]
    exact (pow_dvd_pow 2 (le_max_left k j)).trans (Nat.dvd_mul_left _ _)
  have hle : aligned.toNat ≤ r.base.toNat := by
    rw [halign]
    exact Nat.div_mul_le_self _ _
  have hsub : (aligned - size).toNat = aligned.toNat - 2 ^ k := by
    rw [UInt32.toNat_sub_of_le _ _ (by rw [UInt32.le_iff_toNat_le]; omega), hsize]
  rw [hsub]
  exact ⟨trivial, hspent, trivial, by omega, Nat.dvd_sub hdvd dvd_rfl, by omega⟩

/-- Aligning rounds the base down. -/
theorem regionAlign_spec (hk : k ≤ 32) (hmask : mask.toNat = 2 ^ k - 1)
    (hfit : (regionAlign mask r).2.spent = false) :
    (regionAlign mask r).1 = (regionAlign mask r).2.base ∧ Down r (regionAlign mask r).2 ∧
      0 < (regionAlign mask r).1.toNat ∧
      (regionAlign mask r).1.toNat = r.base.toNat / 2 ^ k * 2 ^ k := by
  have halign := AlignMask.toNat_and_not_mask r.base hk hmask
  simp only [regionAlign, Bool.or_eq_false_iff, beq_eq_false_iff_ne] at hfit ⊢
  have hpos : 0 < (r.base &&& ~~~mask).toNat :=
    Nat.pos_of_ne_zero fun h => hfit.2 (UInt32.toNat_inj.mp h)
  refine ⟨trivial, ⟨?_, rfl, hfit.1⟩, hpos, halign⟩
  rw [halign]
  exact Nat.div_mul_le_self _ _

theorem Down.trans {r'' : Region} (h : Down r r') (h' : Down r' r'') : Down r r'' :=
  ⟨h'.base.trans h.base, h'.mask.trans h.mask, h.spent⟩

end Pci.Resource
