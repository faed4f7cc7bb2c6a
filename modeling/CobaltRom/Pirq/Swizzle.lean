import CobaltRom.Pirq.Route

/-! The interrupt pins of devices behind PCI-PCI bridges. -/
namespace Pirq

variable {num n self : UInt8} {pmap : List PirqEntry} {dev : PciDev} {pin : UInt8} {i : Nat}

/-- The pin on the host bus of pin `pin` in slot `slot`: each bridge turns the pins of the slots
behind it by their number. -/
def PciBus.hostPin : {num : UInt8} → PciBus num → Nat → Nat → Nat
  | _, host _, _, pin => pin
  | _, bridged _ parent self _, slot, pin => parent.hostPin (pciSlot self).toNat ((pin + slot) % 4)

/-- The slots of the bridges below the one on the host bus. -/
def PciBus.slotsBelow : {num : UInt8} → PciBus num → List Nat
  | _, host _ => []
  | _, bridged _ (host _) _ _ => []
  | _, bridged _ (bridged n parent self lower) s _ =>
    (pciSlot s).toNat :: (bridged n parent self lower).slotsBelow

/-- The pins add up along the chain. -/
theorem PciBus.hostPin_sum (b : PciBus num) (h : b.top = some (n, self)) (slot pin : Nat) :
    b.hostPin slot pin = (pin + slot + b.slotsBelow.sum) % 4 := by
  induction b generalizing slot pin with
  | host num => cases h
  | bridged num parent s lower ih =>
    cases parent with
    | host m => simp [hostPin, slotsBelow]
    | bridged m parent t lower' =>
      rw [top] at h
      rw [hostPin, ih h, slotsBelow, List.sum_cons]
      omega

/-- The host bus has the smallest number of the chain. -/
theorem PciBus.top_lt (b : PciBus num) (h : b.top = some (n, self)) : n < num := by
  induction b with
  | host num => cases h
  | bridged num parent s lower ih =>
    cases parent with
    | host m =>
      obtain ⟨rfl, -⟩ := Prod.mk.inj (Option.some.inj h)
      exact lower
    | bridged m parent t lower' =>
      rw [top] at h
      exact UInt8.lt_trans (ih h) lower

theorem findSlot_bus {bus devfn : UInt8} (h : findSlot pmap bus devfn = some i) :
    (pmap[i]?).map PirqEntry.bus = some bus := by
  obtain ⟨hi, he, -⟩ := List.findIdx?_eq_some_iff_getElem.1 h
  rw [List.getElem?_eq_getElem hi, Option.map_some, (of_decide_eq_true he).1]

/-- What the rule of the bridge specification makes of the pin of a device. -/
def swizzle (dev : PciDev) (pin : UInt8) : Nat :=
  (pin.toNat + (pciSlot dev.devfn).toNat + dev.bus.slotsBelow.sum) % 4

/-- It is the pin that turning at every bridge leads to. -/
theorem swizzle_hostPin (htop : dev.bus.top = some (n, self)) :
    swizzle dev pin = dev.bus.hostPin (pciSlot dev.devfn).toNat pin.toNat :=
  (dev.bus.hostPin_sum htop _ _).symm

/-- The place of the entry of the bridge on the host bus. -/
def topEntry (pmap : List PirqEntry) (dev : PciDev) : Option Nat :=
  dev.bus.top.bind fun t => findSlot pmap t.1 t.2

/-- Both systems take the pin that the rule gives, the one from `intlines`, the other from the
entry of the bridge on the host bus. -/
structure Swizzled (pmap : List PirqEntry) (dev : PciDev) (pin : UInt8) : Prop where
  threeK : pirqLookup3k dev pin = .inl (swizzle dev pin)
  fiveK : pirqLookup5k pmap dev pin = (topEntry pmap dev).map fun i => (i, swizzle dev pin)

theorem lookup5k_own (hown : findSlot pmap dev.num dev.devfn = some i) :
    pirqLookup5k pmap dev pin = some (i, pin.toNat) := by
  simp only [pirqLookup5k, hown]

theorem lookup5k_bridge (hown : findSlot pmap dev.num dev.devfn = none)
    (htop : dev.bus.top = some (n, self)) :
    pirqLookup5k pmap dev pin = (findSlot pmap n self).map fun i =>
      (i, (pciSlot dev.devfn % 4 + pin).toNat) := by
  simp only [pirqLookup5k, hown, htop]
  cases findSlot pmap n self <;> rfl

/-- Behind a bridge no interrupt of the 3k is fixed. -/
theorem lookup3k_bridge (pin : UInt8) (htop : dev.bus.top = some (n, self)) :
    pirqLookup3k dev pin = .inl ((pciSlot dev.devfn).toNat % 4 + pin.toNat) := by
  have hlt : n < dev.num := dev.bus.top_lt htop
  have hnum : dev.num ≠ 0 := fun h => UInt8.not_lt_zero (h ▸ hlt)
  rw [pirqLookup3k, if_neg hnum, UInt8.toNat_mod]
  rfl

theorem realpin_toNat (devfn : UInt8) (hpin : pin < 4) :
    (pciSlot devfn % 4 + pin).toNat = (pciSlot devfn).toNat % 4 + pin.toNat := by
  have hlt : pin.toNat < 4 := hpin
  have hfour : (4 : UInt8).toNat = 4 := rfl
  rw [UInt8.toNat_add, UInt8.toNat_mod, hfour]
  omega

/-- For a device behind bridges both lookups follow the rule just where the device has no entry
of its own, its slot does not turn its pin past the fourth, and the slots of the bridges below
the one on the host bus turn nothing. -/
theorem swizzled_iff (hk : dev.bus.top.isSome) (hpin : pin < 4) :
    Swizzled pmap dev pin ↔ findSlot pmap dev.num dev.devfn = none ∧
      (pciSlot dev.devfn).toNat % 4 + pin.toNat < 4 ∧ 4 ∣ dev.bus.slotsBelow.sum := by
  obtain ⟨⟨n, self⟩, htop⟩ := Option.isSome_iff_exists.1 hk
  have hlt : n < dev.num := dev.bus.top_lt htop
  have hreal := realpin_toNat dev.devfn hpin
  have hlt4 : pin.toNat < 4 := hpin
  have hpins : (pciSlot dev.devfn).toNat % 4 + pin.toNat = swizzle dev pin ↔
      (pciSlot dev.devfn).toNat % 4 + pin.toNat < 4 ∧ 4 ∣ dev.bus.slotsBelow.sum := by
    rw [swizzle]
    omega
  have h3 := lookup3k_bridge pin htop
  rw [← hpins]
  constructor
  · rintro ⟨hthree, hfive⟩
    rw [h3] at hthree
    refine ⟨?_, Sum.inl.inj hthree⟩
    cases hown : findSlot pmap dev.num dev.devfn with
    | none => rfl
    | some i =>
      -- the bridge is on another bus, so its entry is another one
      rw [lookup5k_own hown] at hfive
      obtain ⟨j, hj, he⟩ := Option.map_eq_some_iff.1 hfive.symm
      obtain ⟨rfl, -⟩ := Prod.mk.inj he
      rw [topEntry, htop] at hj
      have hbus := (findSlot_bus hj).symm.trans (findSlot_bus hown)
      exact absurd (Option.some.inj hbus) (UInt8.ne_of_lt hlt)
  · rintro ⟨hown, hpin⟩
    refine ⟨h3.trans (congrArg _ hpin), ?_⟩
    rw [lookup5k_bridge hown htop, topEntry, htop, Option.bind_some, ← hpin, hreal]

/-- The 3k reads behind `intlines` where a slot turns a pin past the fourth. -/
theorem pirqRoutePci3k_outside_iff (hk : dev.bus.top.isSome) :
    pirqRoutePci3k dev pin = .error .outside ↔
      4 ≤ (pciSlot dev.devfn).toNat % 4 + pin.toNat := by
  obtain ⟨⟨n, self⟩, htop⟩ := Option.isSome_iff_exists.1 hk
  simp only [pirqRoutePci3k, lookup3k_bridge pin htop]
  generalize (pciSlot dev.devfn).toNat % 4 + pin.toNat = k
  cases h : ([9, 10, 11, 12] : List UInt8)[k]? with
  | none => exact iff_of_true rfl (List.getElem?_eq_none_iff.1 h)
  | some irq =>
    exact iff_of_false (fun he => by cases he)
      (Nat.not_le.2 (List.getElem?_eq_some_iff.1 h).1)

/-- Whatever the lookup gives is an entry of the table. -/
theorem lookup5k_entry {j : Nat} (h : pirqLookup5k pmap dev pin = some (i, j)) :
    i < pmap.length := by
  have hfound : ∀ {bus devfn}, findSlot pmap bus devfn = some i → i < pmap.length :=
    fun hf => (List.findIdx?_eq_some_iff_getElem.1 hf).1
  cases hown : findSlot pmap dev.num dev.devfn with
  | some i' =>
    rw [lookup5k_own hown] at h
    obtain ⟨rfl, -⟩ := Prod.mk.inj (Option.some.inj h)
    exact hfound hown
  | none =>
    cases htop : dev.bus.top with
    | none =>
      simp only [pirqLookup5k, hown, htop] at h
      cases h
    | some t =>
      rw [lookup5k_bridge hown htop] at h
      obtain ⟨i', hi', he⟩ := Option.map_eq_some_iff.1 h
      obtain ⟨rfl, -⟩ := Prod.mk.inj he
      exact hfound hi'

theorem pciirq5k_not_outside (index : UInt8) (map : UInt16) (r : Router) :
    pciirq5k index map r ≠ .error .outside := by
  rw [pciirq5k]
  cases nextIrq map 16 r.last <;> exact fun h => by cases h

/-- The 5k reads behind an entry just where the lookup gives a pin past the fourth. -/
theorem pirqRoutePci5k_outside_iff (r : Router) :
    pirqRoutePci5k dev pin r = .error .outside ↔
      ∃ i j, pirqLookup5k r.pmap dev pin = some (i, j) ∧ 4 ≤ j := by
  cases h : pirqLookup5k r.pmap dev pin with
  | none =>
    simp only [pirqRoutePci5k, h]
    exact iff_of_false (fun he => by cases he) (by rintro ⟨i, j, he, -⟩; cases he)
  | some p =>
    obtain ⟨i, j⟩ := p
    have hi := lookup5k_entry h
    simp only [pirqRoutePci5k, h, List.getElem?_eq_getElem hi, Option.bind_some]
    cases hline : r.pmap[i].irq[j]? with
    | none => exact iff_of_true rfl ⟨i, j, rfl, Vector.getElem?_eq_none_iff.1 hline⟩
    | some line =>
      have hj : ¬ 4 ≤ j := Nat.not_le.2 (Vector.getElem?_eq_some_iff.1 hline).1
      refine iff_of_false ?_ ?_
      · dsimp only
        by_cases hlink : line.link = 0
        · rw [if_pos hlink]
          exact fun he => by cases he
        · rw [if_neg hlink]
          cases hirq : pciirq5k line.link line.map r with
          | error f =>
            have := pciirq5k_not_outside line.link line.map r
            rwa [hirq] at this
          | ok q =>
            dsimp only
            split <;> exact fun he => by cases he
      · rintro ⟨i', j', he, hle⟩
        obtain ⟨-, rfl⟩ := Prod.mk.inj (Option.some.inj he)
        exact hj hle

/-- `pirq_map_5k_alpine`. -/
def pirqMap5kAlpine : List PirqEntry :=
  let none : PirqLine := ⟨0, 0⟩
  let pci (n : UInt8) : PirqLine := ⟨n ||| 0x10, 0x18a0⟩
  [⟨0, pciDevfn 0xf 0, #v[⟨1, 0x200⟩, none, none, none], 0⟩,
    ⟨1, pciDevfn 0x6 0, #v[pci 0, none, none, none], 0⟩,
    ⟨1, pciDevfn 0x7 0, #v[pci 1, none, none, none], 0⟩,
    ⟨1, pciDevfn 0x8 0, #v[pci 2, pci 3, pci 4, pci 5], 1⟩]

/-- A device on a card with a bridge in the PCI slot. -/
def cardDev (slot : UInt8) : PciDev where
  num := 2
  bus := .bridged 2 (.host 1) (pciDevfn 8 0) (by decide)
  devfn := pciDevfn slot 0

theorem swizzled_card :
    Swizzled pirqMap5kAlpine (cardDev 1) 0 ↔
      findSlot pirqMap5kAlpine (cardDev 1).num (cardDev 1).devfn = none ∧
        (pciSlot (cardDev 1).devfn).toNat % 4 + (0 : UInt8).toNat < 4 ∧
        4 ∣ (cardDev 1).bus.slotsBelow.sum :=
  swizzled_iff rfl (by decide)

/-- INTD of a device in slot 1 of the card should be INTA of the slot, and both lookups take the
fifth of four pins. -/
theorem card_not_swizzled :
    (cardDev 1).bus.top.isSome ∧ ¬ Swizzled pirqMap5kAlpine (cardDev 1) 3 := by
  refine ⟨rfl, fun h => ?_⟩
  have := h.threeK
  revert this
  decide

end Pirq
