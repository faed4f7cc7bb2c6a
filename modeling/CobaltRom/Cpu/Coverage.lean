import CobaltRom.Cpu.RangeLoop

/-! What the variable ranges cover after `mtrr_init`, and how many pairs are left over. -/
namespace Cpu.Mtrr
open BinarySplit (Block In split)

variable {m : Msrs} {a vmax memSize : UInt32} {num i j k n n' base cnt : Nat} {b : Block}

/-! ### The pairs in the end -/

theorem ranges_lt_vcnt (hcnt : 2 ≤ vcnt m) : (ranges memSize m).length < vcnt m := by
  rw [ranges_length]
  omega

theorem pairBelow_iff (hn : n ≤ 2 ^ 16) :
    PairBelow n a ↔ 0x200 ≤ a.toNat ∧ a.toNat < 0x200 + 2 * n := by
  constructor
  · rintro ⟨i, hi, h | h⟩
    · rw [eq_physBase_iff (by omega)] at h
      omega
    · rw [eq_physMask_iff (by omega)] at h
      omega
  · rintro ⟨hlow, hhigh⟩
    refine ⟨(a.toNat - 0x200) / 2, by omega, ?_⟩
    rw [eq_physBase_iff (by omega), eq_physMask_iff (by omega)]
    omega

/-- The pairs that are used lie in front of the default type. -/
theorem ne_defType (ha : a.toNat < 0x2ff) : a ≠ msrMtrrDefType := by
  rintro rfl
  exact absurd ha (by decide)

/-- The mask of a block is enabled. -/
theorem enabled_block (he : 22 ≤ b.2 ∧ b.2 < 32) : blockMask b &&& mtrrVarEnable ≠ 0 := by
  have hall : ∀ k < 10, (UInt64.ofNat (2 ^ 36 - 2 ^ (22 + k) + 2 ^ 11)) &&& mtrrVarEnable ≠ 0 := by
    decide
  have hk := hall (b.2 - 22) (by omega)
  rwa [Nat.add_sub_cancel' he.1] at hk

section
variable (hcap : msrGet msrMtrrCap m &&& 0x100 ≠ 0) (hcnt : 2 ≤ vcnt m)
include hcap hcnt

/-- The pairs of the blocks. -/
theorem mtrrInit_range (hi : (ranges memSize m)[i]? = some b) :
    mtrrInit true memSize m (mtrrPhysBase (.ofNat i)) = blockBase b ∧
      mtrrInit true memSize m (mtrrPhysMask (.ofNat i)) = blockMask b := by
  have hle := ranges_length_le memSize m
  obtain ⟨hlt, -⟩ := List.getElem?_eq_some_iff.mp hi
  have hbase : (mtrrPhysBase (.ofNat i)).toNat = 0x200 + 2 * i := physBase_toNat (by omega)
  have hmask : (mtrrPhysMask (.ofNat i)).toNat = 0x201 + 2 * i := physMask_toNat (by omega)
  rw [mtrrInit_eq hcap hcnt, msrSet_ne (ne_defType (by omega)), msrSet_ne (ne_defType (by omega)),
    setPair_other (by omega) (Or.inl (by omega)), setPair_other (by omega) (Or.inl (by omega)),
    ← Nat.zero_add i]
  exact setPairs_get (by omega) hi

/-- The pair behind them. -/
theorem mtrrInit_top :
    mtrrInit true memSize m (mtrrPhysBase (.ofNat (ranges memSize m).length)) = topBase ∧
      mtrrInit true memSize m (mtrrPhysMask (.ofNat (ranges memSize m).length)) = topMask := by
  have hle := ranges_length_le memSize m
  have hbase : (mtrrPhysBase (.ofNat (ranges memSize m).length)).toNat =
      0x200 + 2 * (ranges memSize m).length := physBase_toNat (by omega)
  have hmask : (mtrrPhysMask (.ofNat (ranges memSize m).length)).toNat =
      0x201 + 2 * (ranges memSize m).length := physMask_toNat (by omega)
  rw [mtrrInit_eq hcap hcnt, msrSet_ne (ne_defType (by omega)), msrSet_ne (ne_defType (by omega))]
  exact ⟨setPair_base _ _ (by omega) _, setPair_mask _ _ _ _⟩

/-- All other registers but the one of the default type are as they were before the loop. -/
theorem mtrrInit_other (ha : a ≠ msrMtrrDefType)
    (hpair : ¬ PairBelow ((ranges memSize m).length + 1) a) :
    mtrrInit true memSize m a = cleared m a := by
  have hle := ranges_length_le memSize m
  rw [pairBelow_iff (by omega)] at hpair
  rw [mtrrInit_eq hcap hcnt, msrSet_ne ha, setPair_other (by omega) (by unfold NotIn; omega),
    setPairs_other (by omega) (by unfold NotIn; omega)]

/-- No pair behind the programmed ones is a write-back range. -/
theorem not_writeBack (hn : (ranges memSize m).length ≤ n) (hlt : n < vcnt m) :
    ¬ WriteBack (mtrrInit true memSize m) n := by
  have hvcnt := vcnt_le m
  rintro ⟨henabled, htype⟩
  rcases hn.eq_or_lt with rfl | hn
  · rw [(mtrrInit_top hcap hcnt).1] at htype
    exact absurd htype (by decide)
  · have hvmax := vmax_toNat m
    have hbase : (mtrrPhysBase (.ofNat n)).toNat = 0x200 + 2 * n := physBase_toNat (by omega)
    have hmask : (mtrrPhysMask (.ofNat n)).toNat = 0x201 + 2 * n := physMask_toNat (by omega)
    have hle := ranges_length_le memSize m
    have hnot : ∀ a : UInt32, 0x200 + 2 * n ≤ a.toNat →
        ¬ PairBelow ((ranges memSize m).length + 1) a := by
      intro a ha
      rw [pairBelow_iff (by omega)]
      omega
    by_cases hdef : n = 127
    · -- the mask is the register of the default type, which is on
      subst hdef
      have hzero : cleared m (mtrrPhysBase (.ofNat 127)) = 0 := by
        rw [cleared, mtrrClear_apply, if_neg (by decide), if_neg (by decide), if_pos]
        exact Or.inr (Or.inr ⟨127, hvmax.ge.trans_lt' hlt, Or.inl rfl⟩)
      rw [mtrrInit_other hcap hcnt (by decide) (hnot _ hbase.ge), hzero] at htype
      exact absurd htype (by decide)
    · refine henabled ?_
      rw [mtrrInit_other hcap hcnt ?_ (hnot _ (by omega)), cleared]
      · exact mtrrClear_mask (hvmax.ge.trans_lt' hlt) (by omega)
      · intro h
        rw [h] at hmask
        exact hdef (by change 0x2ff = _ at hmask; omega)

/-- A pair is zero exactly if it is behind those programmed and the one for the top. -/
theorem zeroPair_iff (hn : n < vcnt m) (hsmall : n < 40) :
    ZeroPair (mtrrInit true memSize m) n ↔ (ranges memSize m).length < n := by
  have hvcnt := vcnt_le m
  have hle := ranges_length_le memSize m
  rcases lt_trichotomy n (ranges memSize m).length with hlt | rfl | hgt
  · have hb := List.getElem?_eq_getElem hlt
    obtain ⟨hlow, hhigh⟩ :=
      BinarySplit.split_exponent (List.mem_of_mem_take (List.mem_of_getElem? hb))
    refine iff_of_false (fun hzero => ?_) (by omega)
    have hmask := (mtrrInit_range hcap hcnt hb).2.symm.trans hzero.2
    refine enabled_block ⟨hlow, hhigh⟩ ?_
    rw [hmask]
    exact UInt64.zero_and
  · refine iff_of_false (fun hzero => ?_) (lt_irrefl _)
    have hbase := (mtrrInit_top hcap hcnt).1.symm.trans hzero.1
    exact absurd hbase (by decide)
  · refine iff_of_true ?_ hgt
    have hvmax := vmax_toNat m
    obtain ⟨hbase, hmask⟩ : ZeroPair (cleared m) n := mtrrClear_zero (hvmax.ge.trans_lt' hn) hsmall
    have hother : ∀ a : UInt32, 0x200 + 2 * n ≤ a.toNat → a.toNat < 0x2ff →
        mtrrInit true memSize m a = cleared m a := by
      intro a hlow hhigh
      refine mtrrInit_other hcap hcnt ?_ ?_
      · rintro rfl
        exact absurd hhigh (by decide)
      · rw [pairBelow_iff (by omega)]
        omega
    have hbaseReg : (mtrrPhysBase (.ofNat n)).toNat = 0x200 + 2 * n := physBase_toNat (by omega)
    have hmaskReg : (mtrrPhysMask (.ofNat n)).toNat = 0x201 + 2 * n := physMask_toNat (by omega)
    exact ⟨(hother _ (by omega) (by omega)).trans hbase,
      (hother _ (by omega) (by omega)).trans hmask⟩

end

/-! ### Decoding -/

theorem div_mul_eq_iff {a b d : Nat} (hd : 0 < d) (hdvd : d ∣ b) :
    a / d * d = b ↔ b ≤ a ∧ a < b + d := by
  obtain ⟨c, rfl⟩ := hdvd
  rw [Nat.mul_comm d c, Nat.mul_left_inj hd.ne', Nat.div_eq_iff hd]
  omega

/-- The hardware takes a pair for the addresses of its block. -/
theorem inRange_block {f : Msrs} {x : UInt64} (hbase : f (mtrrPhysBase (.ofNat n)) = blockBase b)
    (hmask : f (mtrrPhysMask (.ofNat n)) = blockMask b) (he : 22 ≤ b.2 ∧ b.2 < 32)
    (hdvd : 2 ^ b.2 ∣ b.1) (hb : b.1 < 2 ^ 32) (hx : x.toNat < 2 ^ 36) :
    InRange f n x ↔ In x.toNat b := by
  have hpos : 0 < 2 ^ b.2 := Nat.two_pow_pos _
  have hhigh : (blockMask b &&& mtrrPhysRange).toNat = 2 ^ 36 - 2 ^ b.2 := by
    have hall :
      ∀ k < 10, ((UInt64.ofNat (2 ^ 36 - 2 ^ (22 + k) + 2 ^ 11)) &&& mtrrPhysRange).toNat =
        2 ^ 36 - 2 ^ (22 + k) := by decide
    have hk := hall (b.2 - 22) (by omega)
    rwa [Nat.add_sub_cancel' he.1] at hk
  have hval : (blockBase b).toNat = b.1 + 6 := by
    rw [blockBase, UInt64.toNat_ofNat', Nat.mod_eq_of_lt (by omega)]
  have hlow : (b.1 + 6) / 2 ^ b.2 * 2 ^ b.2 = b.1 := by
    have hfour : 2 ^ 22 ≤ 2 ^ b.2 := Nat.pow_le_pow_right (by decide) he.1
    rw [div_mul_eq_iff hpos hdvd]
    omega
  rw [InRange, hbase, hmask, ← UInt64.toNat_inj, toNat_and_high (by omega) hhigh hx,
    toNat_and_high (by omega) hhigh (by omega), hval, hlow, div_mul_eq_iff hpos hdvd, In]

theorem type_block (hdvd : 2 ^ 22 ∣ b.1) : blockBase b &&& 0xff = mtrrPhysTypeWB := by
  have hmod : (b.1 + 6) % 2 ^ 64 % 2 ^ 8 = 6 := by omega
  rw [← UInt64.toNat_inj, UInt64.toNat_and, blockBase, UInt64.toNat_ofNat']
  exact (Nat.and_two_pow_sub_one_eq_mod _ 8).trans hmod

/-! ### Coverage -/

/-- The blocks of a size lie at multiples of their sizes within 4 GB. -/
theorem ranges_block (hb : b ∈ split 22 10 0 memSize.toNat) :
    (22 ≤ b.2 ∧ b.2 < 32) ∧ 2 ^ b.2 ∣ b.1 ∧ b.1 + 2 ^ b.2 ≤ 2 ^ 32 := by
  have hlt := memSize.toNat_lt
  have hdvd := BinarySplit.split_dvd (dvd_zero _) hb
  have hpos : 0 < 2 ^ b.2 := Nat.two_pow_pos _
  have hcover := (BinarySplit.split_cover 22 10 0 memSize.toNat (b.1 + 2 ^ b.2 - 1)).mp
    ⟨b, hb, by unfold In; omega⟩
  exact ⟨BinarySplit.split_exponent hb, hdvd, by omega⟩

/-- With enough pairs the write-back ranges are the blocks of the memory size. -/
theorem ranges_all (hbits : setBits (memSize >>> 22) ≤ vcnt m - 2) :
    ranges memSize m = split 22 10 0 memSize.toNat := by
  rw [ranges]
  refine List.take_of_length_le ?_
  rwa [BinarySplit.split_length, ← setBits_high]

/-- The pair of a block is a write-back range for its addresses. -/
theorem writeBack_block (hcap : msrGet msrMtrrCap m &&& 0x100 ≠ 0) (hcnt : 2 ≤ vcnt m)
    (hb : (ranges memSize m)[n]? = some b) : WriteBack (mtrrInit true memSize m) n ∧
      ∀ a : UInt64, a.toNat < 2 ^ 36 → (InRange (mtrrInit true memSize m) n a ↔ In a.toNat b) := by
  obtain ⟨he, hdvd, hend⟩ := ranges_block (List.mem_of_mem_take (List.mem_of_getElem? hb))
  have hpos : 0 < 2 ^ b.2 := Nat.two_pow_pos _
  obtain ⟨hbase, hmask⟩ := mtrrInit_range hcap hcnt hb
  refine ⟨⟨?_, ?_⟩, fun a ha => inRange_block hbase hmask he hdvd (by omega) ha⟩
  · rw [hmask]
    exact enabled_block he
  · rw [hbase]
    exact type_block ((pow_dvd_pow 2 he.1).trans hdvd)

/-- With as many pairs as the size has bits, the write-back ranges are naturally aligned, apart from
each other and cover the memory, rounded down to 4 MB. -/
theorem writeBack_exact (memSize : UInt32) (m : Msrs) (hcap : msrGet msrMtrrCap m &&& 0x100 ≠ 0)
    (hcnt : 3 ≤ vcnt m) (hbits : setBits (memSize >>> 22) ≤ vcnt m - 2) :
    let f := mtrrInit true memSize m
    (∀ n < vcnt m, WriteBack f n → ∃ base e, 2 ^ e ∣ base ∧ base + 2 ^ e ≤ 2 ^ 36 ∧
      ∀ a : UInt64, a.toNat < 2 ^ 36 → (InRange f n a ↔ base ≤ a.toNat ∧ a.toNat < base + 2 ^ e)) ∧
    (∀ n < vcnt m, ∀ n' < vcnt m, n ≠ n' → WriteBack f n → WriteBack f n' →
      ∀ a : UInt64, a.toNat < 2 ^ 36 → ¬ (InRange f n a ∧ InRange f n' a)) ∧
    ∀ a : UInt64, a.toNat < 2 ^ 36 →
      ((∃ n < vcnt m, WriteBack f n ∧ InRange f n a) ↔
        a.toNat < memSize.toNat / 2 ^ 22 * 2 ^ 22) := by
  intro f
  have htwo : 2 ≤ vcnt m := by omega
  have hall := ranges_all hbits
  have hlen : (split 22 10 0 memSize.toNat).length < vcnt m := by
    rw [← hall]
    exact ranges_lt_vcnt htwo
  have hpair : ∀ n b, (split 22 10 0 memSize.toNat)[n]? = some b → WriteBack f n ∧
      ∀ a : UInt64, a.toNat < 2 ^ 36 → (InRange f n a ↔ In a.toNat b) := by
    intro n b hb
    rw [← hall] at hb
    exact writeBack_block hcap htwo hb
  have hblock : ∀ n < vcnt m, WriteBack f n → ∃ b, (split 22 10 0 memSize.toNat)[n]? = some b := by
    intro n hn hwb
    by_contra hnone
    push Not at hnone
    have hle : (split 22 10 0 memSize.toNat).length ≤ n :=
      List.getElem?_eq_none_iff.mp (Option.eq_none_iff_forall_ne_some.mpr hnone)
    rw [← hall] at hle
    exact not_writeBack hcap htwo hle hn hwb
  refine ⟨fun n hn hwb => ?_, fun n hn n' hn' hne hwb hwb' a ha => ?_, fun a ha => ?_⟩
  · obtain ⟨b, hb⟩ := hblock n hn hwb
    obtain ⟨-, hdvd, hend⟩ := ranges_block (List.mem_of_getElem? hb)
    exact ⟨b.1, b.2, hdvd, by omega, (hpair n b hb).2⟩
  · obtain ⟨b, hb⟩ := hblock n hn hwb
    obtain ⟨b', hb'⟩ := hblock n' hn' hwb'
    rw [(hpair n b hb).2 a ha, (hpair n' b' hb').2 a ha]
    obtain ⟨hlt, rfl⟩ := List.getElem?_eq_some_iff.mp hb
    obtain ⟨hlt', rfl⟩ := List.getElem?_eq_some_iff.mp hb'
    have hpairwise :=
      List.pairwise_iff_getElem.mp (BinarySplit.split_pairwise 22 10 0 memSize.toNat)
    unfold In
    rcases Nat.lt_or_gt_of_ne hne with h | h
    · have := hpairwise n n' hlt hlt' h
      omega
    · have := hpairwise n' n hlt' hlt h
      omega
  · have hcover := BinarySplit.split_cover 22 10 0 memSize.toNat a.toNat
    have hsize := memSize.toNat_lt
    have hwhole : memSize.toNat / 2 ^ 22 % 2 ^ 10 = memSize.toNat / 2 ^ 22 := by omega
    rw [hwhole, Nat.zero_add, and_iff_right (Nat.zero_le _)] at hcover
    rw [← hcover]
    constructor
    · rintro ⟨n, hn, hwb, hin⟩
      obtain ⟨b, hb⟩ := hblock n hn hwb
      exact ⟨b, List.mem_of_getElem? hb, ((hpair n b hb).2 a ha).mp hin⟩
    · rintro ⟨b, hb, hin⟩
      obtain ⟨n, hn, rfl⟩ := List.mem_iff_getElem.mp hb
      have hget := List.getElem?_eq_getElem hn
      exact ⟨n, by omega, (hpair n _ hget).1, ((hpair n _ hget).2 a ha).mpr hin⟩

/-- 80 MB and eight pairs: the last byte is covered. -/
theorem writeBack_exact_eight :
    ∃ n < 8, WriteBack (mtrrInit true 0x05000000 fun i => if i = 0xfe then 0x508 else 0) n ∧
      InRange (mtrrInit true 0x05000000 fun i => if i = 0xfe then 0x508 else 0) n 0x04ffffff :=
  ((writeBack_exact 0x05000000 (fun i => if i = 0xfe then 0x508 else 0) (by decide) (by decide)
    (by decide)).2.2 0x04ffffff (by decide)).mpr (by decide)

/-! ### What is left -/

/-- At least two pairs are zero. -/
def LeavesTwo (f : Msrs) (cnt : Nat) : Prop := ∃ i j, i < j ∧ j < cnt ∧ ZeroPair f i ∧ ZeroPair f j

/-- Nothing changes but the fixed ranges, the default type and the first `cnt` pairs. -/
def KeepsRest (m f : Msrs) (cnt : Nat) : Prop :=
  ∀ a, a ∉ fixedRanges → a ≠ msrMtrrDefType → ¬ PairBelow cnt a → f a = m a

theorem keepsRest (hcap : msrGet msrMtrrCap m &&& 0x100 ≠ 0) (hcnt : 2 ≤ vcnt m)
    (memSize : UInt32) :
    KeepsRest m (mtrrInit true memSize m) (vcnt m) := by
  intro a hfixed hdef hpair
  have hvcnt := vcnt_le m
  have hlt : (ranges memSize m).length < vcnt m := ranges_lt_vcnt hcnt
  have hvmax := vmax_toNat m
  have hnone : ∀ b ∈ fixedRanges, a ≠ b := fun b hb h => hfixed (h ▸ hb)
  rw [mtrrInit_other hcap hcnt hdef, cleared, mtrrClear_apply, hvmax]
  · rw [if_neg, if_neg, if_neg, msrSetOff_ne hdef]
    · exact not_or.mpr ⟨hdef, not_or.mpr ⟨hfixed, hpair⟩⟩
    · exact not_or.mpr ⟨hnone _ (by decide), hnone _ (by decide)⟩
    · exact not_or.mpr ⟨hnone _ (by decide), hnone _ (by decide)⟩
  · rw [pairBelow_iff (by omega)] at hpair ⊢
    omega

theorem leavesTwo (hcap : msrGet msrMtrrCap m &&& 0x100 ≠ 0) (hcnt : 2 ≤ vcnt m)
    (memSize : UInt32) :
    LeavesTwo (mtrrInit true memSize m) (vcnt m) ↔ setBits (memSize >>> 22) < vcnt m - 2 := by
  have hlen := ranges_length memSize m
  have hle := setBits_high_le memSize
  constructor
  · rintro ⟨i, j, hij, hj, hi, -⟩
    by_contra hfull
    rw [zeroPair_iff hcap hcnt (hij.trans hj) (by omega)] at hi
    omega
  · intro hfew
    refine ⟨(ranges memSize m).length + 1, (ranges memSize m).length + 2,
      by omega, by omega, ?_, ?_⟩
    · rw [zeroPair_iff hcap hcnt (by omega) (by omega)]
      omega
    · rw [zeroPair_iff hcap hcnt (by omega) (by omega)]
      omega

/-- Two pairs are left exactly if the blocks do not need all the pairs that they may have. -/
theorem leaves_two_iff (memSize : UInt32) (m : Msrs) (hcap : msrGet msrMtrrCap m &&& 0x100 ≠ 0)
    (hcnt : 3 ≤ vcnt m) :
    (LeavesTwo (mtrrInit true memSize m) (vcnt m) ∧
        KeepsRest m (mtrrInit true memSize m) (vcnt m)) ↔
      setBits (memSize >>> 22) < vcnt m - 2 := by
  have htwo : 2 ≤ vcnt m := by omega
  rw [leavesTwo hcap htwo, and_iff_left (keepsRest hcap htwo memSize)]

/-- 64 MB and eight pairs. -/
theorem leaves_two_eight :
    LeavesTwo (mtrrInit true 0x04000000 fun i => if i = 0xfe then 0x508 else 0) 8 :=
  ((leaves_two_iff 0x04000000 (fun i => if i = 0xfe then 0x508 else 0) (by decide) (by decide)).mpr
    (by decide)).1

/-- 252 MB are six blocks. -/
theorem not_leaves_two :
    ¬ LeavesTwo (mtrrInit true 0x0fc00000 fun i => if i = 0xfe then 0x508 else 0) 8 := by
  have h := leavesTwo (m := fun i => if i = 0xfe then 0x508 else 0) (by decide)
    (by decide) 0x0fc00000
  exact fun hleaves => absurd (h.mp hleaves) (by decide)

end Cpu.Mtrr
