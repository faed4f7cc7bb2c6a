import CobaltRom.Cpu.Msr
import CobaltRom.Lib.AlignMask
import CobaltRom.Lib.BinarySplit

/-! `mtrr_init` of `common/cache_l1.c`: which registers it writes, and what they hold in the end. -/
namespace Cpu.Mtrr
open BinarySplit (Block split)

abbrev msrMtrrCap : UInt32 := 0xfe
abbrev msrMtrrDefType : UInt32 := 0x2ff
abbrev mtrrFixEnable : UInt64 := 0x400
abbrev mtrrVarEnable : UInt64 := 0x800

abbrev mtrrPhysTypeUC : UInt64 := 0x0
abbrev mtrrPhysTypeWB : UInt64 := 0x6
abbrev mtrrFixTypeWP : UInt64 := 0x0505050505050505
abbrev mtrrFixTypeWB : UInt64 := 0x0606060606060606
abbrev mtrrPhysRange : UInt64 := 0x0000000ffffff000
abbrev mtrrTopBase : UInt32 := 0xfc000000
abbrev mtrrTopSize : UInt32 := 0x04000000

def mtrrPhysBase (num : UInt32) : UInt32 := 0x200 + (num <<< (1 : UInt32))
def mtrrPhysMask (num : UInt32) : UInt32 := 0x200 + 1 + (num <<< (1 : UInt32))

/-- The registers of the fixed ranges, in the order in which they are set to zero. -/
def fixedRanges : List UInt32 :=
  [0x250, 0x258, 0x259, 0x268, 0x269, 0x26a, 0x26b, 0x26c, 0x26d, 0x26e, 0x26f]

def zeroPair (m : Msrs) (num : Nat) : Msrs :=
  msrSet (mtrrPhysMask (.ofNat num)) 0 (msrSet (mtrrPhysBase (.ofNat num)) 0 m)

/-- Everything to zero, then the fixed ranges. -/
def mtrrClear (vmax : UInt32) (m : Msrs) : Msrs :=
  let m := fixedRanges.foldl (fun m msr => msrSet msr 0 m) m
  let m := (List.range vmax.toNat).foldl zeroPair m
  let m := msrSet msrMtrrDefType mtrrPhysTypeUC m
  let m := msrSet 0x250 mtrrFixTypeWB m
  let m := msrSet 0x258 mtrrFixTypeWB m
  let m := msrSet 0x26e mtrrFixTypeWP m
  msrSet 0x26f mtrrFixTypeWP m

/-- The variables of the loop over the bits, and the registers. -/
structure RangeState where
  msrs : Msrs
  mtrrNum : UInt32
  ramSize : UInt32
  ramBase : UInt32

/-- The low half of a mask: `lo` is 32 bits wide. -/
def maskLo (size : UInt32) : UInt32 :=
  (((~~~(size - 1)).toUInt64 &&& mtrrPhysRange) ||| mtrrVarEnable).toUInt32

def maskHi (size : UInt32) : UInt32 := (~~~((size >>> 4) - 1) >>> 28) &&& 0xf

/-- A bit of the size that is set becomes a range. -/
def programRange (size : UInt32) (s : RangeState) : RangeState :=
  let m := msrSet (mtrrPhysBase s.mtrrNum)
    (mtrrPhysTypeWB ||| (s.ramBase.toUInt64 &&& mtrrPhysRange)) s.msrs
  { msrs := wrmsr (mtrrPhysMask s.mtrrNum) (maskLo size) (maskHi size) m
    mtrrNum := s.mtrrNum + 1
    ramSize := s.ramSize &&& ~~~size
    ramBase := s.ramBase + size }

/-- The loop over `bit` from 31 on; the argument is `bit - 21`. -/
def rangeLoop (vmax : UInt32) : Nat → RangeState → RangeState
  | 0, s => s
  | k + 1, s =>
    if 0x3ffff < s.ramSize ∧ s.mtrrNum < vmax then
      let size : UInt32 := 1 <<< UInt32.ofNat (22 + k)
      if s.ramSize &&& size = 0 then rangeLoop vmax k s
      else rangeLoop vmax k (programRange size s)
    else s

/-- The last 64 MB below 4 GB become uncachable. -/
def reserveTop (num : UInt32) (m : Msrs) : Msrs :=
  let m := wrmsr (mtrrPhysBase num) (mtrrTopBase ||| mtrrPhysTypeUC.toUInt32) 0 m
  let lo := (~~~(mtrrTopSize - 1) &&& 0xfffff000) ||| mtrrVarEnable.toUInt32
  wrmsr (mtrrPhysMask num) lo (maskHi mtrrTopSize) m

def mtrrInit (is5k : Bool) (memSize : UInt32) (m : Msrs) : Msrs :=
  if !is5k then m
  else
    let msr := msrGet msrMtrrCap m
    if msr &&& 0x100 = 0 then m
    else
      let m := msrSetOff msrMtrrDefType (mtrrFixEnable ||| mtrrVarEnable) m
      let vmax := (msr &&& 0xff).toUInt32
      let m := mtrrClear vmax m
      let s := rangeLoop (vmax - 2) 10 ⟨m, 0, memSize, 0⟩
      let m := reserveTop s.mtrrNum s.msrs
      msrSetOn msrMtrrDefType (mtrrFixEnable ||| mtrrVarEnable) m

/-- The number of variable ranges. -/
def vcnt (m : Msrs) : Nat := (msrGet msrMtrrCap m &&& 0xff).toNat

/-- The number of bits that are set. -/
def setBits (x : UInt32) : Nat := (List.range 32).countP fun i => x.toNat.testBit i

/-! ### What the hardware makes of a pair -/

/-- The range is enabled, and its type is write-back. -/
def WriteBack (m : Msrs) (num : Nat) : Prop :=
  m (mtrrPhysMask (.ofNat num)) &&& mtrrVarEnable ≠ 0 ∧
    m (mtrrPhysBase (.ofNat num)) &&& 0xff = mtrrPhysTypeWB

/-- The base and the mask, 36 bits wide, agree on the address. -/
def InRange (m : Msrs) (num : Nat) (a : UInt64) : Prop :=
  a &&& (m (mtrrPhysMask (.ofNat num)) &&& mtrrPhysRange) =
    m (mtrrPhysBase (.ofNat num)) &&& (m (mtrrPhysMask (.ofNat num)) &&& mtrrPhysRange)

/-- Both registers of the pair are zero. -/
def ZeroPair (m : Msrs) (num : Nat) : Prop :=
  m (mtrrPhysBase (.ofNat num)) = 0 ∧ m (mtrrPhysMask (.ofNat num)) = 0

variable {m : Msrs} {a vmax memSize : UInt32} {num i j k n base : Nat} {b : Block} {bs : List Block}
  {s : RangeState}

/-! ### The registers of a pair -/

theorem physBase_toNat (h : num < 2 ^ 16) :
    (mtrrPhysBase (.ofNat num)).toNat = 0x200 + 2 * num := by
  have hone : 2 ^ (1 % 2 ^ 32 % 32) = 2 := rfl
  simp only [mtrrPhysBase, UInt32.toNat_add, UInt32.toNat_shiftLeft, UInt32.toNat_ofNat',
    UInt32.toNat_ofNat, Nat.shiftLeft_eq, hone]
  omega

theorem physMask_toNat (h : num < 2 ^ 16) :
    (mtrrPhysMask (.ofNat num)).toNat = 0x201 + 2 * num := by
  have hone : 2 ^ (1 % 2 ^ 32 % 32) = 2 := rfl
  simp only [mtrrPhysMask, UInt32.toNat_add, UInt32.toNat_shiftLeft, UInt32.toNat_ofNat',
    UInt32.toNat_ofNat, Nat.shiftLeft_eq, hone]
  omega

theorem eq_physBase_iff (h : num < 2 ^ 16) :
    a = mtrrPhysBase (.ofNat num) ↔ a.toNat = 0x200 + 2 * num := by
  rw [← UInt32.toNat_inj, physBase_toNat h]

theorem eq_physMask_iff (h : num < 2 ^ 16) :
    a = mtrrPhysMask (.ofNat num) ↔ a.toNat = 0x201 + 2 * num := by
  rw [← UInt32.toNat_inj, physMask_toNat h]

/-! ### The number of pairs -/

theorem vcnt_le (m : Msrs) : vcnt m ≤ 0xff := by
  rw [vcnt, UInt64.toNat_and]
  exact Nat.and_le_right

/-- The number of pairs as `mtrr_init` reads it. -/
theorem vmax_toNat (m : Msrs) : (msrGet msrMtrrCap m &&& 0xff).toUInt32.toNat = vcnt m := by
  have hle := vcnt_le m
  rw [UInt64.toNat_toUInt32, ← vcnt]
  exact Nat.mod_eq_of_lt (by omega)

/-! ### What clearing leaves -/

theorem foldl_msrSet (l : List UInt32) (m : Msrs) (a : UInt32) :
    l.foldl (fun m msr => msrSet msr 0 m) m a = if a ∈ l then 0 else m a := by
  induction l generalizing m with
  | nil => rfl
  | cons msr l ih =>
    rw [List.foldl_cons, ih, msrSet]
    by_cases hl : a ∈ l
    · simp [hl]
    · by_cases ha : a = msr <;> simp [hl, ha]

/-- A register of one of the first `n` pairs. -/
def PairBelow (n : Nat) (a : UInt32) : Prop :=
  ∃ i < n, a = mtrrPhysBase (.ofNat i) ∨ a = mtrrPhysMask (.ofNat i)

instance (n : Nat) (a : UInt32) : Decidable (PairBelow n a) :=
  inferInstanceAs (Decidable (∃ i < n, a = mtrrPhysBase (.ofNat i) ∨ a = mtrrPhysMask (.ofNat i)))

theorem pairBelow_succ (n : Nat) (a : UInt32) : PairBelow (n + 1) a ↔
    PairBelow n a ∨ a = mtrrPhysBase (.ofNat n) ∨ a = mtrrPhysMask (.ofNat n) := by
  simp only [PairBelow, Nat.lt_succ_iff_lt_or_eq, or_and_right, exists_or, exists_eq_left]

theorem foldl_zeroPair (n : Nat) (m : Msrs) (a : UInt32) :
    (List.range n).foldl zeroPair m a = if PairBelow n a then 0 else m a := by
  induction n with
  | zero =>
    rw [if_neg]
    · rfl
    · rintro ⟨i, hi, -⟩
      exact Nat.not_lt_zero i hi
  | succ n ih =>
    rw [List.range_succ, List.foldl_append, List.foldl_cons, List.foldl_nil, zeroPair,
      msrSet, msrSet,
      ih]
    simp only [pairBelow_succ]
    split_ifs <;> simp_all

theorem mtrrClear_apply (vmax : UInt32) (m : Msrs) (a : UInt32) : mtrrClear vmax m a =
    if a = 0x26f ∨ a = 0x26e then mtrrFixTypeWP
    else if a = 0x258 ∨ a = 0x250 then mtrrFixTypeWB
    else if a = msrMtrrDefType ∨ a ∈ fixedRanges ∨ PairBelow vmax.toNat a then 0
    else m a := by
  simp only [mtrrClear, msrSet, foldl_zeroPair, foldl_msrSet]
  split_ifs <;> simp_all

theorem mtrrClear_defType (vmax : UInt32) (m : Msrs) : mtrrClear vmax m msrMtrrDefType = 0 := by
  rw [mtrrClear_apply, if_neg (by decide), if_neg (by decide), if_pos (Or.inl rfl)]

/-- After clearing, the mask of a pair is not enabled; it may be the register of a fixed range. -/
theorem mtrrClear_mask (hi : i < vmax.toNat) (hsmall : i < 2 ^ 16) :
    mtrrClear vmax m (mtrrPhysMask (.ofNat i)) &&& mtrrVarEnable = 0 := by
  have hodd := physMask_toNat hsmall
  have heven : ∀ b : UInt32, b.toNat % 2 = 0 → mtrrPhysMask (.ofNat i) ≠ b := by
    rintro _ hb rfl
    omega
  have hpair : PairBelow vmax.toNat (mtrrPhysMask (.ofNat i)) := ⟨i, hi, Or.inr rfl⟩
  rw [mtrrClear_apply]
  split
  · decide
  · rw [if_neg, if_pos (Or.inr (Or.inr hpair))]
    · decide
    · rintro (h | h)
      · exact heven _ (by decide) h
      · exact heven _ (by decide) h

/-- Pairs that have no register in common with the fixed ranges are zero. -/
theorem mtrrClear_zero (hi : i < vmax.toNat) (hsmall : i < 40) : ZeroPair (mtrrClear vmax m) i := by
  have hlow : ∀ a : UInt32, a.toNat < 0x250 → a ≠ 0x26f ∧ a ≠ 0x26e ∧ a ≠ 0x258 ∧ a ≠ 0x250 := by
    intro a ha
    refine ⟨?_, ?_, ?_, ?_⟩ <;> rintro rfl <;> exact absurd ha (by decide)
  have hzero : ∀ a : UInt32, a.toNat < 0x250 →
      a = mtrrPhysBase (.ofNat i) ∨ a = mtrrPhysMask (.ofNat i) → mtrrClear vmax m a = 0 := by
    intro a ha hpair
    obtain ⟨h1, h2, h3, h4⟩ := hlow a ha
    rw [mtrrClear_apply, if_neg (not_or.mpr ⟨h1, h2⟩), if_neg (not_or.mpr ⟨h3, h4⟩),
      if_pos (Or.inr (Or.inr ⟨i, hi, hpair⟩))]
  constructor
  · refine hzero _ ?_ (Or.inl rfl)
    rw [physBase_toNat (by omega)]
    omega
  · refine hzero _ ?_ (Or.inr rfl)
    rw [physMask_toNat (by omega)]
    omega

/-! ### Pairs for a list of blocks -/

def blockBase (b : Block) : UInt64 := .ofNat (b.1 + 6)
def blockMask (b : Block) : UInt64 := .ofNat (2 ^ 36 - 2 ^ b.2 + 2 ^ 11)

/-- A pair of registers with a base and a mask. -/
def setPair (num : Nat) (base mask : UInt64) (m : Msrs) : Msrs :=
  msrSet (mtrrPhysMask (.ofNat num)) mask (msrSet (mtrrPhysBase (.ofNat num)) base m)

def setPairs : List Block → Nat → Msrs → Msrs
  | [], _, m => m
  | b :: bs, num, m => setPairs bs (num + 1) (setPair num (blockBase b) (blockMask b) m)

/-- The register belongs to none of the pairs from `num` to `num + n - 1`. -/
def NotIn (a : UInt32) (num n : Nat) : Prop :=
  a.toNat < 0x200 + 2 * num ∨ 0x200 + 2 * (num + n) ≤ a.toNat

theorem setPair_other {v v' : UInt64} (h : num < 2 ^ 16) (ha : NotIn a num 1) :
    setPair num v v' m a = m a := by
  have hbase : a ≠ mtrrPhysBase (.ofNat num) := by
    rw [ne_eq, eq_physBase_iff h]
    unfold NotIn at ha
    omega
  have hmask : a ≠ mtrrPhysMask (.ofNat num) := by
    rw [ne_eq, eq_physMask_iff h]
    unfold NotIn at ha
    omega
  rw [setPair, msrSet_ne hmask, msrSet_ne hbase]

theorem setPair_base (v v' : UInt64) (h : num < 2 ^ 16) (m : Msrs) :
    setPair num v v' m (mtrrPhysBase (.ofNat num)) = v := by
  rw [setPair, msrSet_ne, msrSet_self]
  rw [ne_eq, eq_physMask_iff h, physBase_toNat h]
  omega

theorem setPair_mask (num : Nat) (v v' : UInt64) (m : Msrs) :
    setPair num v v' m (mtrrPhysMask (.ofNat num)) = v' := msrSet_self _ _ _

theorem setPairs_other (h : num + bs.length < 2 ^ 16) (ha : NotIn a num bs.length) :
    setPairs bs num m a = m a := by
  induction bs generalizing num m with
  | nil => rfl
  | cons b bs ih =>
    rw [List.length_cons] at h ha
    unfold NotIn at ha
    rw [setPairs, ih (by omega) (by unfold NotIn; omega),
      setPair_other (by omega) (by unfold NotIn; omega)]

theorem setPairs_get (h : num + bs.length < 2 ^ 16) (hi : bs[i]? = some b) :
    setPairs bs num m (mtrrPhysBase (.ofNat (num + i))) = blockBase b ∧
      setPairs bs num m (mtrrPhysMask (.ofNat (num + i))) = blockMask b := by
  induction bs generalizing num m i with
  | nil => cases hi
  | cons b' bs ih =>
    rw [List.length_cons] at h
    rw [setPairs]
    cases i with
    | zero =>
      obtain rfl : b' = b := Option.some.inj hi
      have hbase : NotIn (mtrrPhysBase (.ofNat num)) (num + 1) bs.length := by
        unfold NotIn
        rw [physBase_toNat (by omega)]
        omega
      have hmask : NotIn (mtrrPhysMask (.ofNat num)) (num + 1) bs.length := by
        unfold NotIn
        rw [physMask_toNat (by omega)]
        omega
      rw [Nat.add_zero num, setPairs_other (by omega) hbase, setPairs_other (by omega) hmask]
      exact ⟨setPair_base _ _ (by omega) m, setPair_mask _ _ _ m⟩
    | succ i =>
      rw [show num + (i + 1) = num + 1 + i by omega]
      exact ih (by omega) hi

end Cpu.Mtrr
