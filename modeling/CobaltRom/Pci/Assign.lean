import CobaltRom.Lib.Windows
import CobaltRom.Pci.Resource

/-! The addresses that `pci_resource_allocate` gives out for one type. -/
namespace Pci.Resource

open Windows

/-- Base and size of a BAR. -/
def Bar.block (b : Bar) : Block := (b.base.toNat, b.size.toNat)

def blocksOf (t : BarType) (bars : List Bar) : List Block :=
  (bars.filter fun b => b.type = t).map Bar.block

/-- The granularity of the windows of a bridge, as a power of two. -/
def gran : BarType → Nat
  | .io => 12
  | _ => 20

/-- The address that the base register of a bridge stands for. -/
def decodeBase : BarType → UInt32 → Nat
  | .io, reg => reg.toNat * 2 ^ 8
  | _, reg => reg.toNat * 2 ^ 16

def decodeLimit (t : BarType) (reg : UInt32) : Nat := decodeBase t reg + (2 ^ gran t - 1)

/-- The BARs of one type on a bus and the window to them. -/
def part (t : BarType) (bus : Bus) : Part where
  blocks := blocksOf t bus.devices.flatten
  lo := decodeBase t (bus.regBase t)
  hi := decodeLimit t (bus.regLimit t)

/-- Sizes that a BAR may have. -/
def Bar.Sized (b : Bar) : Prop :=
  match b.type with
  | .empty => True
  | .io => ∃ k, 2 ≤ k ∧ k ≤ 8 ∧ b.size.toNat = 2 ^ k
  | _ => ∃ k, 4 ≤ k ∧ k < 32 ∧ b.size.toNat = 2 ^ k

/-- The addresses that a bridge can pass on. -/
def space : BarType → Nat
  | .io => 2 ^ 16
  | _ => 2 ^ 32

variable {t u : BarType} {b : Bar} {r r' r'' : Region} {l l' : List Block} {a : UInt32}

theorem Bar.Sized.two_pow (h : b.Sized) (ht : t ≠ .empty) (hb : b.type = t) :
    ∃ k, 2 ≤ k ∧ k < 32 ∧ b.size.toNat = 2 ^ k := by
  subst hb
  unfold Bar.Sized at h
  split at h
  · contradiction
  · obtain ⟨k, h₁, h₂, h₃⟩ := h
    exact ⟨k, h₁, by omega, h₃⟩
  · obtain ⟨k, h₁, h₂, h₃⟩ := h
    exact ⟨k, by omega, h₂, h₃⟩

theorem alignDev_toNat (ht : t ≠ .empty) : ∃ j, j ≤ 8 ∧ (alignDev t).toNat = 2 ^ j - 1 := by
  cases t with
  | empty => contradiction
  | io => exact ⟨2, by decide, rfl⟩
  | mmio => exact ⟨4, by decide, rfl⟩
  | pmmio => exact ⟨4, by decide, rfl⟩

theorem alignBus_toNat (ht : t ≠ .empty) : ∃ j, j ≤ 32 ∧ (alignBus t).toNat = 2 ^ j - 1 := by
  cases t with
  | empty => contradiction
  | io => exact ⟨2, by decide, rfl⟩
  | mmio => exact ⟨16, by decide, rfl⟩
  | pmmio => exact ⟨16, by decide, rfl⟩

theorem alignBridge_toNat (ht : t ≠ .empty) : (alignBridge t).toNat = 2 ^ gran t - 1 := by
  cases t with
  | empty => contradiction
  | io => rfl
  | mmio => rfl
  | pmmio => rfl

/-- A register keeps an address up to the granularity. -/
theorem decodeBase_regOf (ht : t ≠ .empty) (ha : a.toNat < space t) :
    decodeBase t (regOf t a) = a.toNat / 2 ^ gran t * 2 ^ gran t := by
  have hmem : ((a >>> 16) &&& 0xfff0).toNat * 2 ^ 16 = a.toNat / 2 ^ 20 * 2 ^ 20 := by
    have hmask : (0xfff0 : UInt32).toNat = 2 ^ 16 - 1 - (2 ^ 4 - 1) := rfl
    have hs : (a >>> 16).toNat = a.toNat / 2 ^ 16 := by
      rw [UInt32.toNat_shiftRight, ← Nat.shiftRight_eq_div_pow]
      rfl
    rw [UInt32.toNat_and, hs, hmask, AlignMask.nat_and_not_mask _ _ (by have := a.toNat_lt; omega)
      (by omega), Nat.div_div_eq_div_mul, Nat.mul_assoc, ← pow_add, ← pow_add]
  cases t with
  | empty => contradiction
  | io =>
    have hmask : (0xf0 : UInt32).toNat = 2 ^ 8 - 1 - (2 ^ 4 - 1) := rfl
    have hs : (a >>> 8).toNat = a.toNat / 2 ^ 8 := by
      rw [UInt32.toNat_shiftRight, ← Nat.shiftRight_eq_div_pow]
      rfl
    simp only [decodeBase, regOf, gran]
    rw [UInt32.toNat_and, hs, hmask, AlignMask.nat_and_not_mask _ _
      (by simp only [space] at ha; omega) (by omega), Nat.div_div_eq_div_mul, Nat.mul_assoc,
      ← pow_add, ← pow_add]
  | mmio => exact hmem
  | pmmio => exact hmem

theorem closed_window (ht : t ≠ .empty) : decodeLimit t 0 < decodeBase t (closedBase t) := by
  cases t with
  | empty => contradiction
  | io => decide
  | mmio => decide
  | pmmio => decide

/-- The blocks `l` were taken from the region, one below the other. -/
structure Taken (r r' : Region) (l : List Block) : Prop where
  down : Down r r'
  between : ∀ x, x ∈ l → Between r'.base.toNat r.base.toNat x
  apart : l.Pairwise Apart
  aligned : ∀ x, x ∈ l → x.2 ∣ x.1
  room : l ≠ [] → r'.base.toNat + 2 ≤ r.base.toNat

theorem Taken.refl (h : r.spent = false) : Taken r r [] :=
  ⟨⟨le_rfl, rfl, h⟩, by simp, List.Pairwise.nil, by simp, by simp⟩

theorem Taken.trans (h : Taken r r' l) (h' : Taken r' r'' l') : Taken r r'' (l ++ l') := by
  have hle := h.down.base
  have hle' := h'.down.base
  refine ⟨h.down.trans h'.down, fun x hx => ?_, ?_, fun x hx => ?_, fun hne => ?_⟩
  · rcases List.mem_append.mp hx with hx | hx
    · exact (h.between x hx).mono hle' le_rfl
    · exact (h'.between x hx).mono le_rfl hle
  · refine List.pairwise_append.mpr ⟨h.apart, h'.apart, fun x hx y hy => ?_⟩
    exact Or.inr ((h'.between y hy).2.trans (h.between x hx).1)
  · rcases List.mem_append.mp hx with hx | hx
    · exact h.aligned x hx
    · exact h'.aligned x hx
  · by_cases hl : l = []
    · have := h'.room (by rintro rfl; exact hne (by simp [hl]))
      omega
    · have := h.room hl
      omega

/-- A BAR of the type gets a block, others stay as they are. -/
theorem allocBar_taken (ht : t ≠ .empty) (hb : b.Sized) (hmask : r.mask = alignDev t)
    (hfit : (allocBar t b r).2.spent = false) :
    Taken r (allocBar t b r).2 (blocksOf t [(allocBar t b r).1]) := by
  by_cases hbt : b.type = t
  · obtain ⟨k, hk, hk', hsize⟩ := hb.two_pow ht hbt
    obtain ⟨j, hj, hj'⟩ := alignDev_toNat ht
    have hrun : allocBar t b r =
        ((if (regionAllocate b.size r).1 = 0 then { b with base := (regionAllocate b.size r).1 }
          else { b with base := (regionAllocate b.size r).1,
                        limit := (regionAllocate b.size r).1 + b.size - 1 }),
          (regionAllocate b.size r).2) := by
      rw [allocBar, if_neg (not_not.mpr hbt)]
      dsimp only
      split_ifs <;> rfl
    rw [hrun] at hfit ⊢
    obtain ⟨hret, hspent, hmask', hpos, hdvd, hle⟩ :=
      regionAllocate_spec hk' hsize (by rw [hmask, hj']) hj hfit
    have hne : (regionAllocate b.size r).1 ≠ 0 := by
      intro h
      rw [h] at hpos
      exact absurd hpos (by decide)
    have hk4 : 2 ^ 2 ≤ 2 ^ k := Nat.pow_le_pow_right (by omega) hk
    rw [if_neg hne]
    simp only [blocksOf, List.filter_cons, List.filter_nil, hbt, decide_true, if_true,
      List.map_cons, List.map_nil, Bar.block]
    refine ⟨⟨?_, hmask', hspent⟩, fun x hx => ?_, List.pairwise_singleton _ _, fun x hx => ?_,
      fun _ => ?_⟩
    · rw [← hret]
      omega
    · obtain rfl := List.mem_singleton.mp hx
      rw [hsize, ← hret]
      exact ⟨le_rfl, hle⟩
    · obtain rfl := List.mem_singleton.mp hx
      rw [hsize]
      exact hdvd
    · rw [← hret]
      omega
  · rw [allocBar, if_pos hbt] at hfit ⊢
    simpa [blocksOf, hbt] using Taken.refl hfit

theorem blocksOf_append (t : BarType) (l l' : List Bar) :
    blocksOf t (l ++ l') = blocksOf t l ++ blocksOf t l' := by
  simp [blocksOf]

/-- What of a BAR the device decides. -/
def Bar.kind (b : Bar) : BarType × UInt32 := (b.type, b.size)

theorem allocBar_kind (t : BarType) (b : Bar) (r : Region) : (allocBar t b r).1.kind = b.kind := by
  rw [allocBar]
  split_ifs
  · rfl
  · dsimp only
    split_ifs <;> rfl

theorem allocBar_other (hu : u ≠ t) (b : Bar) (r : Region) :
    blocksOf u [(allocBar t b r).1] = blocksOf u [b] := by
  by_cases hbt : b.type = t
  · have hkind := congrArg Prod.fst (allocBar_kind t b r)
    have h₁ : ¬(allocBar t b r).1.type = u := fun h => hu (h.symm.trans (hkind.trans hbt))
    have h₂ : ¬b.type = u := fun h => hu (by rw [← h, hbt])
    simp [blocksOf, h₁, h₂]
  · rw [allocBar, if_pos hbt]

theorem Bar.Sized.of_kind {b b' : Bar} (h : b.Sized) (hk : b'.kind = b.kind) : b'.Sized := by
  simp only [kind, Prod.mk.injEq] at hk
  unfold Sized at h ⊢
  rw [hk.1, hk.2]
  exact h

theorem allocBar_mask (t : BarType) (b : Bar) (r : Region) : (allocBar t b r).2.mask = r.mask := by
  rw [allocBar]
  split_ifs
  · rfl
  · dsimp only
    split_ifs <;> rw [regionAllocate] <;> split_ifs <;> rfl

theorem allocBars_mask (t : BarType) (bars : List Bar) (r : Region) :
    (allocBars t bars r).2.mask = r.mask := by
  induction bars generalizing r with
  | nil => rfl
  | cons b bars ih => exact (ih _).trans (allocBar_mask t b r)

theorem allocBars_taken (ht : t ≠ .empty) (bars : List Bar) (hb : ∀ b, b ∈ bars → b.Sized)
    (hmask : r.mask = alignDev t) (hfit : (allocBars t bars r).2.spent = false) :
    Taken r (allocBars t bars r).2 (blocksOf t (allocBars t bars r).1) := by
  induction bars generalizing r with
  | nil => exact Taken.refl hfit
  | cons b bars ih =>
    have h₂ := ih (r := (allocBar t b r).2) (fun x hx => hb x (List.mem_cons_of_mem _ hx))
      ((allocBar_mask t b r).trans hmask) hfit
    have h₁ := allocBar_taken ht (hb b List.mem_cons_self) hmask h₂.down.spent
    have h := h₁.trans h₂
    rwa [← blocksOf_append] at h

theorem allocBars_kind (t : BarType) (bars : List Bar) (r : Region) :
    (allocBars t bars r).1.map Bar.kind = bars.map Bar.kind := by
  induction bars generalizing r with
  | nil => rfl
  | cons b bars ih => simp only [allocBars, List.map_cons, allocBar_kind, ih]

theorem allocBars_other (hu : u ≠ t) (bars : List Bar) (r : Region) :
    blocksOf u (allocBars t bars r).1 = blocksOf u bars := by
  induction bars generalizing r with
  | nil => rfl
  | cons b bars ih =>
    have h := congrArg₂ (· ++ ·) (allocBar_other hu b r) (ih (allocBar t b r).2)
    simp only [← blocksOf_append, List.singleton_append] at h
    exact h

theorem allocDevices_taken (ht : t ≠ .empty) (devices : List (List Bar))
    (hb : ∀ dev, dev ∈ devices → ∀ b, b ∈ dev → b.Sized) (hmask : r.mask = alignDev t)
    (hfit : (allocDevices t devices r).2.spent = false) :
    Taken r (allocDevices t devices r).2 (blocksOf t (allocDevices t devices r).1.flatten) := by
  induction devices generalizing r with
  | nil => exact Taken.refl hfit
  | cons dev devices ih =>
    have h₂ := ih (r := (allocBars t dev r).2) (fun x hx => hb x (List.mem_cons_of_mem _ hx))
      ((allocBars_mask t dev r).trans hmask) hfit
    have h₁ := allocBars_taken ht dev (hb dev List.mem_cons_self) hmask h₂.down.spent
    have h := h₁.trans h₂
    rwa [← blocksOf_append] at h

theorem allocDevices_kind (t : BarType) (devices : List (List Bar)) (r : Region) :
    (allocDevices t devices r).1.map (List.map Bar.kind) = devices.map (List.map Bar.kind) := by
  induction devices generalizing r with
  | nil => rfl
  | cons dev devices ih => simp only [allocDevices, List.map_cons, allocBars_kind, ih]

theorem allocDevices_other (hu : u ≠ t) (devices : List (List Bar)) (r : Region) :
    blocksOf u (allocDevices t devices r).1.flatten = blocksOf u devices.flatten := by
  induction devices generalizing r with
  | nil => rfl
  | cons dev devices ih =>
    simp only [allocDevices, List.flatten_cons, blocksOf_append, allocBars_other hu, ih]

/-- The window of a bridge is closed when nothing was taken since its limit, else it goes from the
aligned base to the end of the granule of its limit. -/
theorem pciResourceBridge_window (ht : t ≠ .empty) (bus : Bus) (st : St)
    (hbase : (bus.resource t).base = st.region.base)
    (hspace : (bus.resource t).limit.toNat < space t)
    (hfit : (pciResourceBridge t bus st).2.2.region.spent = false) :
    ((bus.resource t).limit.toNat ≤ st.region.base.toNat ∧
        (pciResourceBridge t bus st).2.2.region = st.region ∧
        (part t (pciResourceBridge t bus st).2.1).hi <
        (part t (pciResourceBridge t bus st).2.1).lo) ∨
      (st.region.base.toNat < (bus.resource t).limit.toNat ∧
        Down st.region (pciResourceBridge t bus st).2.2.region ∧
        (pciResourceBridge t bus st).2.2.region.base.toNat =
          st.region.base.toNat / 2 ^ gran t * 2 ^ gran t ∧
        (part t (pciResourceBridge t bus st).2.1).lo =
          (pciResourceBridge t bus st).2.2.region.base.toNat ∧
        (part t (pciResourceBridge t bus st).2.1).hi =
          (bus.resource t).limit.toNat / 2 ^ gran t * 2 ^ gran t + (2 ^ gran t - 1)) := by
  by_cases hle : (bus.resource t).limit ≤ (bus.resource t).base
  · left
    simp only [pciResourceBridge, if_neg ht, if_pos hle, if_true, ne_eq, not_true, if_false, part,
      Function.update_self]
    rw [hbase, UInt32.le_iff_toNat_le] at hle
    exact ⟨hle, trivial, closed_window ht⟩
  · right
    have hlt : st.region.base.toNat < (bus.resource t).limit.toNat := by
      rw [hbase, UInt32.not_le, UInt32.lt_iff_toNat_lt] at hle
      exact hle
    have hrun : (pciResourceBridge t bus st).2.2.region =
        (regionAlign (alignBridge t) st.region).2 := by
      simp only [pciResourceBridge, if_neg ht, if_neg hle]
      split_ifs <;> rfl
    rw [hrun] at hfit ⊢
    obtain ⟨hret, hdown, -, halign⟩ := regionAlign_spec (show gran t ≤ 32 by cases t <;> decide)
      (alignBridge_toNat ht) hfit
    have hltA : (regionAlign (alignBridge t) st.region).1 < (bus.resource t).limit := by
      rw [UInt32.lt_iff_toNat_lt, hret]
      exact hdown.base.trans_lt hlt
    have hsize : ¬(bus.resource t).limit - (regionAlign (alignBridge t) st.region).1 = 0 := by
      intro h
      have := congrArg UInt32.toNat h
      rw [UInt32.toNat_sub_of_le _ _ (UInt32.le_of_lt hltA)] at this
      rw [UInt32.lt_iff_toNat_lt] at hltA
      simp only [UInt32.toNat_zero] at this
      omega
    have hregs : (pciResourceBridge t bus st).2.1.regBase t =
          regOf t (regionAlign (alignBridge t) st.region).1 ∧
        (pciResourceBridge t bus st).2.1.regLimit t = regOf t (bus.resource t).limit := by
      simp only [pciResourceBridge, if_neg ht, if_neg hle, if_pos hltA, if_neg hsize, if_pos hsize,
        ne_eq, Function.update_self]
      exact ⟨trivial, trivial⟩
    refine ⟨hlt, hdown, by rw [← hret, halign], ?_, ?_⟩
    · simp only [part]
      rw [hregs.1, decodeBase_regOf ht (by rw [UInt32.lt_iff_toNat_lt] at hltA; omega), ← hret,
        halign, Nat.mul_div_cancel _ (Nat.two_pow_pos _)]
    · simp only [part, decodeLimit]
      rw [hregs.2, decodeBase_regOf ht hspace]

theorem pciResourceBridge_devices (t : BarType) (bus : Bus) (st : St) :
    (pciResourceBridge t bus st).2.1.devices = bus.devices := by
  rw [pciResourceBridge]
  split_ifs
  · rfl
  · dsimp only
    split_ifs <;> rfl

theorem pciResourceBridge_other (hu : u ≠ t) (bus : Bus) (st : St) :
    part u (pciResourceBridge t bus st).2.1 = part u bus := by
  have hdev := pciResourceBridge_devices t bus st
  have hregs : (pciResourceBridge t bus st).2.1.regBase u = bus.regBase u ∧
      (pciResourceBridge t bus st).2.1.regLimit u = bus.regLimit u := by
    rw [pciResourceBridge]
    split_ifs
    · exact ⟨rfl, rfl⟩
    · dsimp only
      split_ifs <;> simp [Function.update_of_ne hu]
  simp only [part, hdev, hregs.1, hregs.2]

end Pci.Resource
