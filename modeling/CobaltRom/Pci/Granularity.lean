import CobaltRom.Pci.Exhaustion

/-! The alignment of what `region_allocate` returns: BARs and the I/O blocks of `acpi_allocate`. -/
namespace Pci.Resource

/-- `region_allocate`, as the BAR loop and `acpi_allocate` call it, and `region_align`. -/
inductive RegionOp
  | allocate (size : UInt32)
  | align (mask : UInt32)

/-- The sizes asked for, and the bases returned for them. -/
def given : List RegionOp → Region → List (UInt32 × UInt32)
  | [], _ => []
  | .allocate size :: ops, r =>
    let (base, r) := regionAllocate size r
    (size, base) :: given ops r
  | .align mask :: ops, r => given ops (regionAlign mask r).2

/-- No size is 0 or above `2 ^ 31`, and no area reaches below address 0. -/
def NoWrap : List RegionOp → Region → Prop
  | [], _ => True
  | .allocate size :: ops, r =>
    (size ≠ 0 ∧ size.toNat ≤ 2 ^ 31 ∧ roundUp size ≤ (top size r).toNat) ∧
      NoWrap ops (regionAllocate size r).2
  | .align mask :: ops, r => NoWrap ops (regionAlign mask r).2

variable {r : Region} {size : UInt32} {ops : List RegionOp} {k : Nat}

theorem top_toNat (hn : size ≠ 0) (hle : size.toNat ≤ 2 ^ 31) (hmask : r.mask.toNat = 2 ^ k - 1) :
    (top size r).toNat =
      r.base.toNat / 2 ^ max (Nat.clog 2 size.toNat) k * 2 ^ max (Nat.clog 2 size.toNat) k := by
  have hround := roundup2_toNat hn hle
  have hclog : Nat.clog 2 size.toNat ≤ 31 := Nat.clog_le_of_le_pow hle
  have hk : k ≤ 8 := by
    by_contra hk
    have h9 : 2 ^ 9 ≤ 2 ^ k := Nat.pow_le_pow_right (by decide) (by omega)
    have := r.mask.toNat_lt
    omega
  have hpos : 0 < roundUp size := Nat.two_pow_pos _
  refine AlignMask.toNat_and_not_mask _ (by omega) ?_
  have hsub : (roundup2 size - 1).toNat = 2 ^ Nat.clog 2 size.toNat - 1 := by
    rw [UInt32.toNat_sub_of_le _ _ (by rw [UInt32.le_iff_toNat_le, hround]; exact hpos), hround]
    rfl
  rw [UInt32.toNat_or, hsub, UInt8.toNat_toUInt32, hmask, AlignMask.or_masks]

/-- A base is aligned to the larger of the two only if that is the size. -/
theorem regionAllocate_aligned_iff (hn : size ≠ 0) (hle : size.toNat ≤ 2 ^ 31)
    (hfit : roundUp size ≤ (top size r).toNat) (hmask : r.mask.toNat = 2 ^ k - 1) :
    max (2 ^ k) (roundUp size) ∣ (regionAllocate size r).1.toNat ↔ 2 ^ k ≤ roundUp size := by
  obtain ⟨hbase, -⟩ := regionAllocate_base hn r
  have hround := roundup2_toNat hn hle
  have hpos : 0 < roundUp size := Nat.two_pow_pos _
  have htop := top_toNat (r := r) hn hle hmask
  have hsub : (regionAllocate size r).1.toNat = (top size r).toNat - roundUp size := by
    rw [hbase, UInt32.toNat_sub_of_le _ _ (by rw [UInt32.le_iff_toNat_le, hround]; exact hfit),
      hround]
  rw [hsub]
  constructor
  · intro hdvd
    by_contra hlt
    rw [max_eq_left (by omega)] at hdvd
    have hk : 2 ^ k ∣ (top size r).toNat := by
      rw [htop]
      exact (pow_dvd_pow 2 (le_max_right _ k)).trans (Nat.dvd_mul_left _ _)
    have : 2 ^ k ∣ roundUp size := by
      have := Nat.dvd_sub hk hdvd
      rwa [Nat.sub_sub_self hfit] at this
    exact hlt (Nat.le_of_dvd hpos this)
  · intro hk
    rw [max_eq_right hk]
    refine Nat.dvd_sub ?_ dvd_rfl
    rw [htop]
    exact (pow_dvd_pow 2 (le_max_left _ k)).trans (Nat.dvd_mul_left _ _)

/-- The bases returned in a run are aligned exactly if no size is below the region's minimum. -/
theorem given_aligned_iff (ops : List RegionOp) (r : Region) (k : Nat)
    (hmask : r.mask.toNat = 2 ^ k - 1) (h : NoWrap ops r) :
    (∀ p ∈ given ops r, max (2 ^ k) (roundUp p.1) ∣ p.2.toNat) ↔
      ∀ size, .allocate size ∈ ops → 2 ^ k ≤ roundUp size := by
  induction ops generalizing r with
  | nil => simp [given]
  | cons op ops ih =>
    cases op with
    | allocate size =>
      obtain ⟨⟨hn, hle, hfit⟩, hrest⟩ := h
      have hmask' : (regionAllocate size r).2.mask.toNat = 2 ^ k - 1 := by
        rw [(regionAllocate_base hn r).2.2.2, hmask]
      simp only [given, List.mem_cons, RegionOp.allocate.injEq, forall_eq_or_imp]
      rw [regionAllocate_aligned_iff hn hle hfit hmask, ih _ hmask' hrest]
    | align mask =>
      simp only [given, List.mem_cons, reduceCtorEq, false_or]
      exact ih _ hmask h

/-- An I/O region as `pci_resource_init` starts it. -/
abbrev ioRegion : Region := regionInit (alignDev .io) 0xffff

theorem roundUp_of_roundup2 {m : Nat} (hn : size ≠ 0) (hle : size.toNat ≤ 2 ^ 31)
    (h : (roundup2 size).toNat = m) : roundUp size = m :=
  (roundup2_toNat hn hle).symm.trans h

/-- The I/O blocks for the power management timer and for the processor control. -/
theorem given_aligned_iff_acpi :
    (∀ p ∈ given [.allocate 4, .allocate 8] ioRegion, max (2 ^ 2) (roundUp p.1) ∣ p.2.toNat) ↔
      ∀ size, .allocate size ∈ [RegionOp.allocate 4, .allocate 8] → 2 ^ 2 ≤ roundUp size := by
  have h4 : roundUp 4 = 4 := roundUp_of_roundup2 (by decide) (by decide) (by decide)
  have h8 : roundUp 8 = 8 := roundUp_of_roundup2 (by decide) (by decide) (by decide)
  exact given_aligned_iff [.allocate 4, .allocate 8] ioRegion 2 (by decide)
    ⟨⟨by decide, by decide, by rw [h4]; decide⟩,
      ⟨by decide, by decide, by rw [h8]; decide⟩, trivial⟩

/-- One byte of I/O space is taken at 0xfffb. -/
theorem given_unaligned : NoWrap [.allocate 1] ioRegion ∧
    given [.allocate 1] ioRegion = [(1, 0xfffb)] ∧
    ¬ ∀ p ∈ given [.allocate 1] ioRegion, max (2 ^ 2) (roundUp p.1) ∣ p.2.toNat := by
  have h1 : roundUp 1 = 1 := roundUp_of_roundup2 (by decide) (by decide) (by decide)
  have hrun : given [.allocate 1] ioRegion = [(1, 0xfffb)] := by decide
  refine ⟨⟨⟨by decide, by decide, by rw [h1]; decide⟩, trivial⟩, hrun, ?_⟩
  rw [hrun]
  intro h
  have := h (1, 0xfffb) List.mem_cons_self
  simp only [h1] at this
  revert this
  decide

end Pci.Resource
