import CobaltRom.Cpu.Mtrr
import Mathlib.Data.Nat.Bitwise

/-! The loop of `mtrr_init` programs the blocks of the memory size, as many as it has pairs for. -/
namespace Cpu.Mtrr
open BinarySplit (Block split)

variable {m : Msrs} {a vmax memSize x : UInt32} {num i j k n base : Nat} {b : Block}
  {bs : List Block}
  {s : RangeState}

/-! ### One range -/

theorem shift_toNat (hk : k < 10) :
    ((1 : UInt32) <<< UInt32.ofNat (22 + k)).toNat = 2 ^ (22 + k) := by
  have hall : ∀ k < 10, ((1 : UInt32) <<< UInt32.ofNat (22 + k)).toNat = 2 ^ (22 + k) := by decide
  exact hall k hk

theorem mask_eq (hk : k < 10) (base : Nat) :
    (maskHi (1 <<< UInt32.ofNat (22 + k))).toUInt64 <<< 32 |||
      (maskLo (1 <<< UInt32.ofNat (22 + k))).toUInt64 = blockMask (base, 22 + k) := by
  have hall : ∀ k < 10, (maskHi (1 <<< UInt32.ofNat (22 + k))).toUInt64 <<< 32 |||
      (maskLo (1 <<< UInt32.ofNat (22 + k))).toUInt64 =
      .ofNat (2 ^ 36 - 2 ^ (22 + k) + 2 ^ 11) := by
    decide
  exact hall k hk

/-- Masking to the 36 bits of an address and down to a multiple of `2 ^ k`. -/
theorem toNat_and_high {v mask : UInt64} (hk : k ≤ 36) (hmask : mask.toNat = 2 ^ 36 - 2 ^ k)
    (hv : v.toNat < 2 ^ 36) : (v &&& mask).toNat = v.toNat / 2 ^ k * 2 ^ k := by
  have hpow : 2 ^ k ≤ 2 ^ 36 := Nat.pow_le_pow_right (by decide) hk
  have hpos : 0 < 2 ^ k := Nat.two_pow_pos k
  rw [UInt64.toNat_and, hmask, ← AlignMask.nat_and_not_mask _ k hv hk]
  congr 1
  omega

theorem base_eq (hdvd : 2 ^ 22 ∣ x.toNat) (e : Nat) :
    mtrrPhysTypeWB ||| (x.toUInt64 &&& mtrrPhysRange) = blockBase (x.toNat, e) := by
  have hx := x.toNat_lt
  have hand : (x.toUInt64 &&& mtrrPhysRange).toNat = x.toNat / 2 ^ 12 * 2 ^ 12 := by
    rw [toNat_and_high (k := 12) (by decide) rfl]
    · rw [UInt32.toNat_toUInt64]
    · rw [UInt32.toNat_toUInt64]
      omega
  have hor := Nat.two_pow_add_eq_or_of_lt (b := 6) (i := 12) (by decide) (x.toNat / 2 ^ 12)
  rw [← UInt64.toNat_inj, UInt64.toNat_or, hand, Nat.or_comm, Nat.mul_comm]
  refine hor.symm.trans ?_
  rw [blockBase, UInt64.toNat_ofNat']
  omega

/-- A block of `2 ^ (22 + k)` bytes goes to the next pair, and the base moves behind it. -/
theorem programRange_eq (hk : k < 10) (hdvd : 2 ^ 22 ∣ s.ramBase.toNat)
    (hend : s.ramBase.toNat + 2 ^ (22 + k) < 2 ^ 32) (hnum : s.mtrrNum.toNat + 1 < 2 ^ 16) :
    let s' := programRange (1 <<< UInt32.ofNat (22 + k)) s
    let b : Block := (s.ramBase.toNat, 22 + k)
    s'.msrs = setPair s.mtrrNum.toNat (blockBase b) (blockMask b) s.msrs ∧
      s'.mtrrNum.toNat = s.mtrrNum.toNat + 1 ∧
      s'.ramBase.toNat = s.ramBase.toNat + 2 ^ (22 + k) := by
  refine ⟨?_, ?_, ?_⟩
  · rw [programRange, wrmsr, mask_eq hk s.ramBase.toNat, base_eq hdvd (22 + k), setPair,
      UInt32.ofNat_toNat]
  · have hlt : s.mtrrNum.toNat + 1 < 2 ^ 32 := by omega
    exact (UInt32.toNat_add _ _).trans (Nat.mod_eq_of_lt hlt)
  · change (s.ramBase + _).toNat = _
    rw [UInt32.toNat_add, shift_toNat hk, Nat.mod_eq_of_lt hend]

/-! ### The bits of the size -/

theorem and_bit_eq_zero (hk : k < 10) (hsize : x.toNat = n % 2 ^ (22 + (k + 1))) :
    x &&& (1 <<< UInt32.ofNat (22 + k)) = 0 ↔ n.testBit (22 + k) = false := by
  have hbit : x.toNat.testBit (22 + k) = n.testBit (22 + k) := by
    rw [hsize, Nat.testBit_mod_two_pow, decide_eq_true (by omega), Bool.true_and]
  have hpos : 0 < 2 ^ (22 + k) := Nat.two_pow_pos _
  rw [← UInt32.toNat_inj, UInt32.toNat_and, shift_toNat hk, Nat.and_two_pow, hbit]
  cases n.testBit (22 + k) <;> simp

theorem clear_bit (hk : k < 10) (hsize : x.toNat = n % 2 ^ (22 + (k + 1))) :
    (x &&& ~~~(1 <<< UInt32.ofNat (22 + k))).toNat = n % 2 ^ (22 + k) := by
  have hlt : 2 ^ (22 + k) < 2 ^ 32 := Nat.pow_lt_pow_right (by decide) (by omega)
  have hnot : (~~~((1 : UInt32) <<< UInt32.ofNat (22 + k))).toNat =
      2 ^ 32 - (2 ^ (22 + k) + 1) := by
    rw [UInt32.toNat_not, shift_toNat hk, show UInt32.size = 2 ^ 32 from rfl]
    omega
  rw [UInt32.toNat_and, hnot, hsize]
  refine Nat.eq_of_testBit_eq fun i => ?_
  rw [Nat.testBit_and, Nat.testBit_two_pow_sub_succ hlt, Nat.testBit_two_pow,
    Nat.testBit_mod_two_pow,
    Nat.testBit_mod_two_pow]
  rcases lt_trichotomy i (22 + k) with h | rfl | h
  · simp [h, show i < 22 + (k + 1) by omega, show i < 32 by omega, show ¬ 22 + k = i by omega]
  · simp
  · simp [show ¬ i < 22 + k by omega, show ¬ i < 22 + (k + 1) by omega]

theorem mod_succ_of_clear (h : n.testBit i = false) : n % 2 ^ (i + 1) = n % 2 ^ i := by
  rw [Nat.testBit_eq_decide_div_mod_eq, decide_eq_false_iff_not] at h
  have hzero : n / 2 ^ i % 2 = 0 := by omega
  rw [Nat.mod_pow_succ, hzero, Nat.mul_zero, Nat.add_zero]

theorem mod_succ_of_set (h : n.testBit i = true) : n % 2 ^ (i + 1) = n % 2 ^ i + 2 ^ i := by
  rw [Nat.testBit_eq_decide_div_mod_eq, decide_eq_true_iff] at h
  rw [Nat.mod_pow_succ, h, Nat.mul_one]

/-! ### The loop -/

/-- What is left of the size are its bits from the next one down, and the base is a multiple of what
they can be worth: the loop programs the blocks for them while there are pairs. -/
theorem rangeLoop_eq (k : Nat) (hk : k ≤ 10) : ∀ s : RangeState,
    s.ramSize.toNat = n % 2 ^ (22 + k) →
    2 ^ (22 + k) ∣ s.ramBase.toNat → s.ramBase.toNat + n % 2 ^ (22 + k) < 2 ^ 32 →
    s.mtrrNum.toNat + k < 2 ^ 16 →
    let bs := (split 22 k s.ramBase.toNat n).take (vmax.toNat - s.mtrrNum.toNat)
    (rangeLoop vmax k s).msrs = setPairs bs s.mtrrNum.toNat s.msrs ∧
      (rangeLoop vmax k s).mtrrNum.toNat = s.mtrrNum.toNat + bs.length := by
  induction k with
  | zero =>
    intro s _ _ _ _
    simp [rangeLoop, split, setPairs]
  | succ k ih =>
    intro s hsize hdvd hend hnum
    have hhalf : 2 ^ (22 + k) ∣ s.ramBase.toNat := (pow_dvd_pow 2 (Nat.le_succ _)).trans hdvd
    rw [← Nat.add_assoc] at hend
    rw [rangeLoop]
    by_cases hgo : 0x3ffff < s.ramSize ∧ s.mtrrNum < vmax
    · have hleft : s.mtrrNum.toNat < vmax.toNat := UInt32.lt_iff_toNat_lt.mp hgo.2
      have hzero := and_bit_eq_zero (by omega) hsize
      rw [if_pos hgo, split]
      dsimp only
      by_cases hbit : n.testBit (22 + k) = true
      · -- the bit is set: its block takes the next pair
        rw [hbit] at hzero
        rw [mod_succ_of_set hbit] at hend
        rw [if_pos hbit, if_neg (hzero.not.mpr (by decide))]
        obtain ⟨hmsrs, hnext, hbase⟩ := programRange_eq (s := s) (k := k) (by omega)
          ((pow_dvd_pow 2 (Nat.le_add_right 22 k)).trans hhalf) (by omega) (by omega)
        have hrest := ih (by omega) _ (clear_bit (by omega) hsize)
          (by rw [hbase]; exact hhalf.add dvd_rfl)
          (by rw [hbase]; omega) (by rw [hnext]; omega)
        rw [hmsrs, hnext, hbase] at hrest
        obtain ⟨left, hvmax⟩ : ∃ left, vmax.toNat - s.mtrrNum.toNat = left + 1 :=
          ⟨vmax.toNat - s.mtrrNum.toNat - 1, by omega⟩
        have hleft : vmax.toNat - (s.mtrrNum.toNat + 1) = left := by omega
        rw [hleft] at hrest
        rw [hvmax, List.take_succ_cons, List.length_cons, setPairs]
        refine ⟨hrest.1, hrest.2.trans ?_⟩
        omega
      · have hclear : n.testBit (22 + k) = false := by simpa using hbit
        rw [mod_succ_of_clear hclear] at hend
        rw [if_neg hbit, if_pos (hzero.mpr hclear)]
        refine ih (by omega) s ?_ hhalf hend (by omega)
        rw [hsize, ← Nat.add_assoc, mod_succ_of_clear hclear]
    · -- no bit is left, or no pair
      have hnone :
          (split 22 (k + 1) s.ramBase.toNat n).take (vmax.toNat - s.mtrrNum.toNat) = [] := by
        rcases not_and_or.mp hgo with hsmall | hfull
        · rw [BinarySplit.split_eq_nil, List.take_nil]
          have hle : s.ramSize.toNat ≤ 0x3ffff :=
            UInt32.le_iff_toNat_le.mp (UInt32.not_lt.mp hsmall)
          rw [← hsize]
          omega
        · have hle : vmax.toNat ≤ s.mtrrNum.toNat :=
            UInt32.le_iff_toNat_le.mp (UInt32.not_lt.mp hfull)
          rw [Nat.sub_eq_zero_of_le hle, List.take_zero]
      rw [if_neg hgo, hnone]
      exact ⟨rfl, rfl⟩

/-! ### The whole function -/

/-- The registers before the loop. -/
def cleared (m : Msrs) : Msrs :=
  mtrrClear (msrGet msrMtrrCap m &&& 0xff).toUInt32
    (msrSetOff msrMtrrDefType (mtrrFixEnable ||| mtrrVarEnable) m)

/-- The blocks of the memory size for which there are pairs. -/
def ranges (memSize : UInt32) (m : Msrs) : List Block :=
  (split 22 10 0 memSize.toNat).take (vcnt m - 2)

theorem setBits_high (x : UInt32) :
    setBits (x >>> 22) = (List.range 10).countP fun i => x.toNat.testBit (22 + i) := by
  have hbit : ∀ i, (x >>> 22).toNat.testBit i = x.toNat.testBit (22 + i) := by
    intro i
    rw [UInt32.toNat_shiftRight]
    exact Nat.testBit_shiftRight _
  have hnone : ∀ i, 10 ≤ i → x.toNat.testBit (22 + i) = false := fun i hi =>
    Nat.testBit_lt_two_pow (x.toNat_lt.trans_le (Nat.pow_le_pow_right (by decide) (by omega)))
  have hrange : List.range (10 + 22) = List.range 10 ++ (List.range 22).map (10 + ·) :=
    List.range_add
  have hhigh : ((List.range 22).map (10 + ·)).countP (fun i => x.toNat.testBit (22 + i)) = 0 := by
    rw [List.countP_eq_zero]
    intro i hi
    obtain ⟨j, -, rfl⟩ := List.mem_map.mp hi
    rw [hnone _ (Nat.le_add_right 10 j)]
    decide
  simp only [setBits, hbit]
  rw [show 32 = 10 + 22 from rfl, hrange, List.countP_append, hhigh, Nat.add_zero]

theorem ranges_length (memSize : UInt32) (m : Msrs) :
    (ranges memSize m).length = min (vcnt m - 2) (setBits (memSize >>> 22)) := by
  rw [ranges, List.length_take, BinarySplit.split_length, setBits_high]

theorem setBits_high_le (x : UInt32) : setBits (x >>> 22) ≤ 10 := by
  rw [setBits_high]
  exact List.countP_le_length

theorem ranges_length_le (memSize : UInt32) (m : Msrs) : (ranges memSize m).length ≤ 10 := by
  rw [ranges_length]
  exact (min_le_right _ _).trans (setBits_high_le memSize)

abbrev topBase : UInt64 := 0xfc000000
abbrev topMask : UInt64 := 0xffc000800

theorem reserveTop_eq (num : UInt32) (m : Msrs) :
    reserveTop num m = setPair num.toNat topBase topMask m := by
  rw [setPair, UInt32.ofNat_toNat]
  rfl

/-- The blocks, then the top of the address space, and the ranges are on. -/
theorem mtrrInit_eq (hcap : msrGet msrMtrrCap m &&& 0x100 ≠ 0) (hcnt : 2 ≤ vcnt m)
    (memSize : UInt32) :
    mtrrInit true memSize m = msrSet msrMtrrDefType 0xc00 (setPair (ranges memSize m).length topBase
      topMask (setPairs (ranges memSize m) 0 (cleared m))) := by
  have hvmax := vmax_toNat m
  have htwo : (2 : UInt32) ≤ (msrGet msrMtrrCap m &&& 0xff).toUInt32 :=
    UInt32.le_iff_toNat_le.mpr (hcnt.trans hvmax.ge)
  have hspare : ((msrGet msrMtrrCap m &&& 0xff).toUInt32 - 2).toNat = vcnt m - 2 := by
    rw [UInt32.toNat_sub_of_le _ _ htwo, hvmax]
    rfl
  have hmemSize : memSize.toNat = memSize.toNat % 2 ^ 32 := (Nat.mod_eq_of_lt memSize.toNat_lt).symm
  obtain ⟨hmsrs, hnum⟩ := rangeLoop_eq 10 le_rfl ⟨cleared m, 0, memSize, 0⟩ hmemSize (dvd_zero _)
    ((Nat.zero_add _).trans_lt (Nat.mod_lt _ (by decide))) (show 0 + 10 < 2 ^ 16 by decide)
  rw [hspare] at hmsrs hnum
  have hlen := ranges_length_le memSize m
  change _ = setPairs (ranges memSize m) 0 (cleared m) at hmsrs
  change _ = 0 + (ranges memSize m).length at hnum
  rw [Nat.zero_add] at hnum
  have hoff : (setPair (ranges memSize m).length topBase topMask
      (setPairs (ranges memSize m) 0 (cleared m))) msrMtrrDefType = 0 := by
    have hreg : (msrMtrrDefType : UInt32).toNat = 0x2ff := rfl
    rw [setPair_other (by omega) (Or.inr (by omega)), setPairs_other (by omega) (Or.inr (by omega)),
      cleared, mtrrClear_defType]
  rw [mtrrInit, if_neg (by decide)]
  dsimp only
  rw [if_neg hcap]
  change msrSetOn _ _ (reserveTop (rangeLoop _ 10 ⟨cleared m, 0, memSize, 0⟩).mtrrNum
    (rangeLoop _ 10 ⟨cleared m, 0, memSize, 0⟩).msrs) = _
  rw [reserveTop_eq, hmsrs, hnum, msrSetOn, hoff]
  rfl

end Cpu.Mtrr
