import CobaltRom.Mptable.Table

/-! `common/pirq.c`: the interrupt of a PCI device, looked up in the routing table. -/
namespace Pirq
open Mptable

def pciDevfn (dev fn : UInt8) : UInt8 := ((dev &&& 0x1f) <<< (3 : UInt8)) ||| (fn &&& 7)

def pciSlot (devfn : UInt8) : UInt8 := (devfn >>> (3 : UInt8)) &&& 0x1f

/-- One of the four interrupt pins of a slot. -/
structure PirqLine where
  link : UInt8
  map : UInt16
  deriving DecidableEq

/-- `struct pirq_entry`. -/
structure PirqEntry where
  bus : UInt8
  devfn : UInt8
  irq : Vector PirqLine 4
  slot : UInt8
  deriving DecidableEq

/-- A bus by its number: a host bus, or one behind the bridge `self` of another bus. Buses behind
bridges have larger numbers than the bus of the bridge. -/
inductive PciBus : UInt8 → Type
  | host (num : UInt8) : PciBus num
  | bridged {above : UInt8} (num : UInt8) (parent : PciBus above) (self : UInt8)
      (lower : above < num) : PciBus num

structure PciDev where
  num : UInt8
  bus : PciBus num
  devfn : UInt8

/-- The place in the table of the entry for a slot. -/
def findSlot (pmap : List PirqEntry) (bus devfn : UInt8) : Option Nat :=
  pmap.findIdx? fun e => e.bus = bus ∧ e.devfn = pciDevfn (pciSlot devfn) 0

/-- `while (!b->parent->root) b = b->parent`: the number of the host bus and the bridge on it. -/
def PciBus.top : {num : UInt8} → PciBus num → Option (UInt8 × UInt8)
  | _, host _ => none
  | _, bridged _ (host n) self _ => some (n, self)
  | _, bridged _ (bridged n parent self lower) _ _ => (bridged n parent self lower).top

/-- The element of `intlines` that `pirq_route_pci_3k` takes, or the interrupt it has fixed. -/
def pirqLookup3k (dev : PciDev) (pin : UInt8) : Nat ⊕ UInt8 :=
  if dev.num = 0 then
    if dev.devfn = pciDevfn 0x02 0 then .inr 9
    else if dev.devfn = pciDevfn 0x0e 0 then .inr 12
    else if dev.devfn = pciDevfn 0x0f 0 then .inr 14
    else if dev.devfn = pciDevfn 0x10 0 then .inr 11
    else if dev.devfn = pciDevfn 0x12 0 then .inr 10
    else .inl pin.toNat
  else .inl ((pciSlot dev.devfn % 4).toNat + pin.toNat)

/-- The entry that `pirq_route_pci_5k` takes, by its place, and the element of its `irq`. -/
def pirqLookup5k (pmap : List PirqEntry) (dev : PciDev) (pin : UInt8) : Option (Nat × Nat) :=
  match findSlot pmap dev.num dev.devfn with
  | some i => some (i, pin.toNat)
  | none =>
    match dev.bus.top with
    | none => none
    | some (n, self) =>
      match findSlot pmap n self with
      | none => none
      | some i =>
        let realpin := pciSlot dev.devfn % 4 + pin
        some (i, realpin.toNat)

/-- An access behind an array, or a loop without an end. -/
inductive Fault
  | outside
  | endless
  deriving DecidableEq

/-- What routing an interrupt reads and changes: the table, the last interrupt given out, the
redirection and trigger registers, and the interrupt list. -/
structure Router where
  pmap : List PirqEntry
  io : Ioapic
  last : UInt8
  redirect : UInt8 → UInt8
  elcrLow : UInt8
  elcrHigh : UInt8
  mp : Mp

def pirqRoutePci3k (dev : PciDev) (pin : UInt8) : Except Fault UInt8 :=
  match pirqLookup3k dev pin with
  | .inr irq => .ok irq
  | .inl i =>
    match [9, 10, 11, 12][i]? with
    | none => .error .outside
    | some irq => .ok irq

/-- The next interrupt of the map after `last`. -/
def nextIrq (map : UInt16) : Nat → UInt8 → Option UInt8
  | 0, _ => none
  | fuel + 1, last =>
    let last := if last < 15 then last + 1 else 0
    if map.toNat.testBit last.toNat then some last else nextIrq map fuel last

/-- `pciirq_5k`; after 16 interrupts the search starts over. -/
def pciirq5k (index : UInt8) (map : UInt16) (r : Router) : Except Fault (UInt8 × Router) :=
  match nextIrq map 16 r.last with
  | none => .error .endless
  | some irq => .ok (irq, { r with last := irq, redirect := Function.update r.redirect index irq })

def pciirq5kSetLevel (irq : UInt8) (r : Router) : Router :=
  if irq > 7 then { r with elcrHigh := r.elcrHigh ||| (1 <<< (irq - 8)) }
  else { r with elcrLow := r.elcrLow ||| (1 <<< irq) }

/-- Active low, level triggered, to the second I/O APIC. -/
def pirqInt (io : Ioapic) (dev : PciDev) (pin index : UInt8) : IntEntry where
  entry := .ioInt
  type := 0
  flags := 15
  srcBus := dev.num
  srcIrq := (pin &&& 3) ||| ((pciSlot dev.devfn &&& 0x1f) <<< (2 : UInt8))
  destId := ioapicGetId io 1
  destInput := index &&& 0xf

def pirqRoutePci5k (dev : PciDev) (pin : UInt8) (r : Router) : Except Fault (UInt8 × Router) :=
  match pirqLookup5k r.pmap dev pin with
  | none => .ok (0, r)
  | some (i, j) =>
    match (r.pmap[i]?).bind fun e => e.irq[j]? with
    | none => .error .outside
    | some line =>
      if line.link = 0 then .ok (0, r)
      else
        match pciirq5k line.link line.map r with
        | .error f => .error f
        | .ok (irq, r) =>
          if irq = 0 then .ok (0, r)
          else
            let r := pciirq5kSetLevel irq r
            .ok (irq, { r with mp := mpINTAdd (pirqInt r.io dev pin line.link) r.mp })

end Pirq
