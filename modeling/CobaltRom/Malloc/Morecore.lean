import CobaltRom.Malloc.Shape

/-! Memory from the system: it comes in one piece behind the last, as long as the table of blocks is
large enough for it. -/
namespace Malloc
open Hoare Memfuncs

variable {m : Machine} {lim k b : Int} {fuel : Nat} {a : UInt32}

/-! ### Blocks and their addresses -/

theorem blockAddr_add (b k : Int) : blockAddr b + UInt32.ofInt (k * 4096) = blockAddr (b + k) := by
  have hsum : (b + k - 1) * 4096 = (b - 1) * 4096 + k * 4096 := by ring
  rw [blockAddr, blockAddr, hsum, UInt32.ofInt_add, UInt32.add_assoc, UInt32.add_comm ramHeapSpace,
    ← UInt32.add_assoc]

theorem address_eq (hbase : m.heapbase = ramHeapSpace) (b : Int) : m.address b = blockAddr b := by
  rw [Machine.address, hbase]
  rfl

theorem block_eq (hbase : m.heapbase = ramHeapSpace) (hlow : ramHeapSpace.toNat ≤ a.toNat)
    (hhigh : a.toNat ≤ ramHeapSpaceMax.toNat) :
    m.block a = ((a.toNat : Int) - 0x01b00000) / 4096 + 1 := by
  have hlow' : 0x01b00000 ≤ a.toNat := hlow
  have hhigh' : a.toNat ≤ 0x01f00000 := hhigh
  have hle : ramHeapSpace ≤ a := UInt32.le_iff_toNat_le.mpr hlow
  have hoff : (a - ramHeapSpace).toNat = a.toNat - 0x01b00000 := UInt32.toNat_sub_of_le a _ hle
  rw [Machine.block, hbase, toInt_toInt32, hoff, Int.bmod_def, Int.tdiv_eq_ediv]
  omega

theorem block_blockAddr (hbase : m.heapbase = ramHeapSpace) (hpos : 1 ≤ b) (h : b ≤ 1025) :
    m.block (blockAddr b) = b := by
  have haddr := toNat_blockAddr hpos h
  have hlow : ramHeapSpace.toNat ≤ (blockAddr b).toNat := by
    change 0x01b00000 ≤ _
    omega
  have hhigh : (blockAddr b).toNat ≤ ramHeapSpaceMax.toNat := by
    change _ ≤ 0x01f00000
    omega
  rw [block_eq hbase hlow hhigh]
  omega

theorem blockAddr_aligned (hpos : 1 ≤ b) (h : b ≤ 1025) : blockAddr b % blocksize = 0 := by
  have haddr := toNat_blockAddr hpos h
  rw [← UInt32.toNat_inj, UInt32.toNat_mod]
  change (blockAddr b).toNat % 4096 = 0
  omega

theorem blockAddr_ne_zero (hpos : 1 ≤ b) (h : b ≤ 1025) : blockAddr b ≠ 0 := by
  intro hzero
  have haddr := toNat_blockAddr hpos h
  rw [hzero] at haddr
  change (0 : Int) = _ at haddr
  omega

/-! ### `sbrk` -/

/-- A piece that ends in the heap is handed out, or taken back where `k` is negative. -/
theorem defaultMorecore_run (hw : m.highWater = blockAddr lim) (hlow : 1 ≤ lim) (hhigh : lim ≤ 1025)
    (hpos : 1 ≤ lim + k) (hfits : lim + k ≤ 1025) :
    (defaultMorecore (UInt32.ofInt (k * 4096))).run m = some (blockAddr lim, { m with
      highWater := blockAddr (lim + k)
      mem := if 0 < (UInt32.ofInt (k * 4096)).toInt32.toInt
        then (memset (blockAddr lim) 0 (UInt32.ofInt (k * 4096)) m.mem).2 else m.mem }) := by
  have hend := toNat_blockAddr hpos hfits
  have hbegin := toNat_blockAddr hlow hhigh
  have hroom : ¬ m.highWater + UInt32.ofInt (k * 4096) > ramHeapSpaceMax := by
    rw [hw, blockAddr_add]
    intro h
    have h := UInt32.lt_iff_toNat_lt.mp h
    change 0x01f00000 < _ at h
    omega
  have hvalid : blockAddr lim ≠ 0xffffffff := by
    intro h
    rw [h] at hbegin
    change (0xffffffff : Int) = _ at hbegin
    omega
  have hsbrk : (sbrk (UInt32.ofInt (k * 4096))).run m = some (blockAddr lim, { m with
      highWater := blockAddr (lim + k)
      mem := if 0 < (UInt32.ofInt (k * 4096)).toInt32.toInt
        then (memset (blockAddr lim) 0 (UInt32.ofInt (k * 4096)) m.mem).2 else m.mem }) := by
    rw [sbrk, run_get_bind]
    dsimp only
    rw [if_neg hroom, hw, blockAddr_add]
    rfl
  rw [defaultMorecore, run_bind_some hsbrk, if_neg hvalid]
  rfl

theorem defaultMorecore_full (hw : m.highWater = blockAddr lim) (hlow : 1 ≤ lim)
    (hhigh : lim ≤ 1025) {size : UInt32} (hsize : size.toNat ≤ 2 ^ 31)
    (hfull : 0x01f00000 < 0x01b00000 + (lim - 1) * 4096 + size.toNat) :
    (defaultMorecore size).run m = some (0, { m with warned := true }) := by
  have hbegin := toNat_blockAddr hlow hhigh
  have hover : m.highWater + size > ramHeapSpaceMax := by
    rw [hw]
    apply UInt32.lt_iff_toNat_lt.mpr
    rw [UInt32.toNat_add]
    change 0x01f00000 < _
    omega
  rw [defaultMorecore, sbrk, run_bind_some (a := 0) (t := { m with warned := true })]
  · rfl
  · rw [run_get_bind]
    dsimp only
    rw [if_pos hover]
    rfl

theorem toInt_ofInt {v : Int} (hlow : -2 ^ 31 ≤ v) (hhigh : v < 2 ^ 31) :
    (UInt32.ofInt v).toInt32.toInt = v := by
  unfold UInt32.ofInt
  rw [toInt_toInt32, UInt32.toNat_ofNat', Int.bmod_def]
  omega

/-- Only memory behind the end of the heap may have changed. -/
def Beyond (lim : Int) (mem mem' : Ram) : Prop :=
  ∀ a : UInt32, a.toNat < (blockAddr lim).toNat ∨ ramHeapSpaceMax.toNat ≤ a.toNat → mem' a = mem a

theorem more_run (hw : m.highWater = blockAddr lim) (hlow : 1 ≤ lim) (hpos : 0 < k)
    (hfits : lim + k ≤ 1025) :
    ∃ mem', (defaultMorecore (UInt32.ofInt (k * 4096))).run m =
        some (blockAddr lim, { m with highWater := blockAddr (lim + k), mem := mem' }) ∧
      Beyond lim m.mem mem' := by
  have hrun := defaultMorecore_run hw hlow (by omega) (k := k) (by omega) hfits
  rw [if_pos (by rw [toInt_ofInt] <;> omega)] at hrun
  refine ⟨_, hrun, fun a ha => ?_⟩
  have hbegin := toNat_blockAddr hlow (b := lim) (by omega)
  have hsize := toNat_ofInt (k := k * 4096) (by omega) (by omega)
  rw [memset, repStosb_eq_fill]
  have hend : (blockAddr lim).toNat + (UInt32.ofInt (k * 4096)).toNat ≤ 2 ^ 32 := by omega
  refine Ram.fill_other fun j hj => outside_ne hend ?_ hj
  change _ ∨ 0x01f00000 ≤ _ at ha
  omega

theorem less_run (hw : m.highWater = blockAddr lim) (hhigh : lim ≤ 1025) (hpos : 0 ≤ k)
    (hfits : 1 ≤ lim - k) :
    (defaultMorecore (UInt32.ofInt (-k * 4096))).run m =
      some (blockAddr lim, { m with highWater := blockAddr (lim - k) }) := by
  have hrun := defaultMorecore_run hw (by omega) hhigh (k := -k) (by omega) (by omega)
  rw [if_neg (by rw [toInt_ofInt] <;> omega), ← sub_eq_add_neg] at hrun
  exact hrun

/-- `sbrk (0)` tells where the memory ends. -/
theorem ask_run (hw : m.highWater = blockAddr lim) (hlow : 1 ≤ lim) (hhigh : lim ≤ 1025) :
    (defaultMorecore 0).run m = some (blockAddr lim, m) := by
  have hrun := less_run hw hhigh (k := 0) le_rfl (by omega)
  have hsame : { m with highWater := blockAddr lim } = m := by rw [← hw]
  rw [sub_zero, hsame] at hrun
  exact hrun

theorem Beyond.trans {mem mem' mem'' : Ram} (h : Beyond lim mem mem') (h' : Beyond lim mem' mem'') :
    Beyond lim mem mem'' := fun a ha => (h' a ha).trans (h a ha)

/-! ### `morecore` -/

/-- Pieces of whole blocks are aligned as they come. -/
theorem align_run (hw : m.highWater = blockAddr lim) (hlow : 1 ≤ lim) (hpos : 0 < k)
    (hfits : lim + k ≤ 1025) :
    ∃ mem', (align (UInt32.ofInt (k * 4096))).run m =
        some (blockAddr lim, { m with highWater := blockAddr (lim + k), mem := mem' }) ∧
      Beyond lim m.mem mem' := by
  obtain ⟨mem', hrun, hframe⟩ := more_run hw hlow hpos hfits
  refine ⟨mem', ?_, hframe⟩
  rw [align, run_bind_some hrun]
  dsimp only
  rw [if_neg (not_not.mpr (blockAddr_aligned hlow (by omega)))]
  rfl

theorem align_full (hw : m.highWater = blockAddr lim) (hlow : 1 ≤ lim) (hhigh : lim ≤ 1025)
    {size : UInt32} (hsize : size.toNat ≤ 2 ^ 31)
    (hfull : 0x01f00000 < 0x01b00000 + (lim - 1) * 4096 + size.toNat) :
    (align size).run m = some (0, { m with warned := true }) := by
  rw [align, run_bind_some (defaultMorecore_full hw hlow hhigh hsize hfull)]
  rfl

/-- More blocks come as long as there is room for them and an entry for the block behind them. -/
theorem morecore_run (fuel : Nat) (hr : Ready m lim) (hpos : 0 < k) (hfits : lim + k ≤ 1024) :
    ∃ mem', (morecore fuel (UInt32.ofInt (k * 4096))).run m =
        some (blockAddr lim, m.withCore (blockAddr (lim + k)) (lim + k) mem') ∧
      Beyond lim m.mem mem' := by
  have hlow := hr.low
  obtain ⟨mem', hrun, hframe⟩ := align_run hr.highWater (by omega) hpos (by omega)
  refine ⟨mem', ?_, hframe⟩
  rw [morecore, run_bind_some hrun, if_neg (blockAddr_ne_zero (by omega) (by omega)), run_get_bind,
    blockAddr_add]
  have hlast : Machine.block { m with highWater := blockAddr (lim + k), mem := mem' }
      (blockAddr (lim + k)) = lim + k := block_blockAddr hr.heapbase (by omega) (by omega)
  have hinside : ¬ lim + k > m.heapsize := by
    rw [hr.heapsize]
    omega
  dsimp only
  rw [hlast, if_neg hinside, run_modify_bind]
  dsimp only
  rw [hlast]
  rfl

/-- The table cannot grow: it would not fit behind a full heap. Either way `sbrk` warns. -/
theorem morecore_full (hr : Ready m lim) (hpos : 0 < k) (hsmall : k * 4096 ≤ 2 ^ 31)
    (hfull : 1024 < lim + k) (hfuel : 2 ≤ fuel) :
    ∃ mem', (morecore fuel (UInt32.ofInt (k * 4096))).run m =
        some (0, { m with mem := mem', warned := true }) ∧ Beyond lim m.mem mem' := by
  have hlow := hr.low
  have hhigh := hr.high
  have hsize := toNat_ofInt (k := k * 4096) (by omega) (by omega)
  by_cases hover : 1025 < lim + k
  · refine ⟨m.mem, ?_, fun a _ => rfl⟩
    rw [morecore,
      run_bind_some (align_full hr.highWater (by omega) (by omega) (by omega) (by omega))]
    rfl
  · obtain ⟨mem', hrun, hframe⟩ := align_run hr.highWater (by omega) hpos (by omega)
    refine ⟨mem', ?_, hframe⟩
    obtain ⟨fuel, rfl⟩ : ∃ n, fuel = n + 1 + 1 := Nat.exists_eq_add_of_le' hfuel
    have hend : lim + k = 1025 := by omega
    rw [morecore, run_bind_some hrun, if_neg (blockAddr_ne_zero (by omega) (by omega)),
      run_get_bind, blockAddr_add, hend]
    have hlast : Machine.block { m with highWater := blockAddr 1025, mem := mem' }
        (blockAddr 1025) = 1025 := block_blockAddr hr.heapbase (by omega) (by omega)
    have hbehind : (1025 : Int) > m.heapsize := by
      rw [hr.heapsize]
      omega
    have hdouble : ∀ s, (doubleTo 1025 (fuel + 1 + 1) m.heapsize).run s = some (2048, s) := by
      intro s
      rw [hr.heapsize]
      rfl
    have htable : ∀ s : Machine, s.highWater = blockAddr 1025 →
        (align (UInt32.ofInt 2048 * infoBytes)).run s = some (0, { s with warned := true }) :=
      fun s hs =>
      align_full hs (by omega) (by omega) (by decide) (by decide)
    have hend : ({ m with
        highWater := blockAddr 1025, mem := mem', warned := true } : Machine).highWater =
      blockAddr 1025 := rfl
    have hback := less_run hend (k := k) (by omega) (by omega) (by omega)
    dsimp only
    rw [hlast, if_pos hbehind, run_bind_some (hdouble _), run_bind_some (htable _ rfl), if_pos rfl]
    rw [neg_mul, UInt32.ofInt_neg, ← UInt32.zero_sub] at hback
    rw [run_bind_some hback, show 1025 - k = lim by omega, ← hr.highWater]
    rfl

end Malloc
