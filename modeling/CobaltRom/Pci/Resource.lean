import CobaltRom.Lib.Forest
import CobaltRom.Pci.Region

/-! `common/pci_resource.c`: addresses for the BARs of a tree of buses behind PCI-PCI bridges. -/
namespace Pci.Resource

/-- `pci_bar_t`. -/
inductive BarType
  | empty
  | io
  | mmio
  | pmmio
  deriving DecidableEq

/-- `pci_bar`; the base is also what stands in the register of the device. -/
structure Bar where
  type : BarType
  size : UInt32
  base : UInt32
  limit : UInt32

/-- An entry of `resource` of a bus. -/
structure Map where
  base : UInt32
  limit : UInt32
  size : UInt32

/-- `pci_bus`: its devices by their BARs and the registers of the bridge to it. For a host bus,
`set_resource_range` leaves the regions alone; for the others it is `pci_resource_bridge`. -/
structure Bus where
  host : Bool
  devices : List (List Bar)
  resource : BarType → Map
  regBase : BarType → UInt32
  regLimit : BarType → UInt32
  command : UInt16

def alignDev : BarType → UInt8
  | .empty => 0
  | .io => 0x3
  | .mmio => 0xf
  | .pmmio => 0xf

def alignBus : BarType → UInt32
  | .empty => 0
  | .io => 0x3
  | .mmio => 0xffff
  | .pmmio => 0xffff

def alignBridge : BarType → UInt32
  | .empty => 0
  | .io => 0xfff
  | .mmio => 0xfffff
  | .pmmio => 0xfffff

/-- The region of the type at hand and the flag `bridge`. -/
structure St where
  region : Region
  bridge : Bool

/-- The registers of a bridge hold the upper bits of the base and limit of a window. -/
def regOf : BarType → UInt32 → UInt32
  | .empty, _ => 0
  | .io, a => (a >>> 8) &&& 0xf0
  | .mmio, a => (a >>> 16) &&& 0xfff0
  | .pmmio, a => (a >>> 16) &&& 0xfff0

/-- The base of a window that lets nothing through; its limit is 0. -/
def closedBase : BarType → UInt32
  | .empty => 0
  | .io => 0xf0
  | .mmio => 0xfff0
  | .pmmio => 0xfff0

def commandBit : BarType → UInt16
  | .empty => 0
  | .io => 1
  | .mmio => 2
  | .pmmio => 2

/-- `pci_resource_bridge`; the upper halves of the registers are set to 0. -/
def pciResourceBridge (type : BarType) (bus : Bus) (st : St) : UInt32 × Bus × St :=
  if type = .empty then (0, bus, st)
  else
    let st := { st with bridge := true }
    let map := bus.resource type
    let (map, size, st) :=
      if map.limit ≤ map.base then (map, 0, st)
      else
        let (base, region) := regionAlign (alignBridge type) st.region
        let map := { map with base := base }
        (map, if map.base < map.limit then map.limit - map.base else 0,
          { st with region := region })
    let bus := { bus with
      resource := Function.update bus.resource type map
      regBase := Function.update bus.regBase type
        (if size ≠ 0 then regOf type map.base else closedBase type)
      regLimit := Function.update bus.regLimit type (if size ≠ 0 then regOf type map.limit else 0) }
    if size = 0 then (0, bus, st)
    else (size + 1, { bus with command := bus.command ||| commandBit type }, st)

/-- The body of the loop over the BARs of a device. -/
def allocBar (type : BarType) (b : Bar) (region : Region) : Bar × Region :=
  if b.type ≠ type then (b, region)
  else
    let (base, region) := regionAllocate b.size region
    if base = 0 then ({ b with base := base }, region)
    else ({ b with base := base, limit := base + b.size - 1 }, region)

def allocBars (type : BarType) : List Bar → Region → List Bar × Region
  | [], region => ([], region)
  | b :: bars, region =>
    let (b, region) := allocBar type b region
    let (bars, region) := allocBars type bars region
    (b :: bars, region)

/-- The loop over the devices of a bus. -/
def allocDevices (type : BarType) : List (List Bar) → Region → List (List Bar) × Region
  | [], region => ([], region)
  | dev :: devices, region =>
    let (dev, region) := allocBars type dev region
    let (devices, region) := allocDevices type devices region
    (dev :: devices, region)

section

variable (hostRange : Bus → BarType → UInt32)

/-- `set_resource_range`. -/
def setResourceRange (type : BarType) (bus : Bus) (st : St) : UInt32 × Bus × St :=
  if bus.host then (hostRange bus type, bus, st) else pciResourceBridge type bus st

/-- `pci_resource_allocate`: the peers of a bus first, then its kids, then its devices. -/
def pciResourceAllocate (type : BarType) : Forest Bus → St → Forest Bus × St
  | .nil, st => (.nil, st)
  | .node bus kids peer, st =>
    let (peer, st) := pciResourceAllocate type peer st
    let (top, region) := regionAlign (alignBus type) st.region
    let limit := top - 1
    let (kids, st) := pciResourceAllocate type kids { st with region := region }
    let (devices, region) := allocDevices type bus.devices st.region
    let map := { bus.resource type with base := region.base, limit := limit }
    let bus := { bus with
      devices := devices
      resource := Function.update bus.resource type map }
    let (size, bus, st) := setResourceRange hostRange type bus { st with region := region }
    let bus := { bus with
      resource := Function.update bus.resource type { bus.resource type with size := size } }
    (.node bus kids peer, st)

/-- What `pci_resource_allocate` returns for the root. -/
def rootBase (type : BarType) : Forest Bus → UInt32
  | .nil => 0
  | .node bus _ _ => (bus.resource type).base

/-- `pci_resource_init`, with the starts of the regions; also whether a region base came down
to 0. -/
def pciResourceInit (ioStart mmioStart : UInt32) (root : Forest Bus) : Forest Bus × Bool :=
  let (root, st₁) := pciResourceAllocate hostRange .io root
    ⟨regionInit (alignDev .io) ioStart, false⟩
  let (root, st₂) := pciResourceAllocate hostRange .mmio root
    ⟨regionInit (alignDev .mmio) mmioStart, st₁.bridge⟩
  let base := rootBase .mmio root
  let aligned := if st₂.bridge then base &&& ~~~alignBridge .pmmio else base
  let base := if st₂.bridge then aligned - 1 else base
  let (root, st₃) := pciResourceAllocate hostRange .pmmio root
    ⟨regionInit (alignDev .pmmio) base, st₂.bridge⟩
  (root, st₁.region.spent || st₂.region.spent || aligned == 0 || st₃.region.spent)

end

end Pci.Resource
