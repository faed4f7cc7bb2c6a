import CobaltRom.Mptable.Sections

/-! `__mptable_build`: one routine both shows the MP tables and builds them. -/
namespace Mptable

open ByteArea ByteBuf

inductive BarType
  | io
  | mmio
  | pmmio

/-- What the tables tell of a PCI bus. -/
structure MpBus where
  busnum : UInt8
  base : BarType → UInt32
  size : BarType → UInt32

/-- What the tables are made from. -/
structure Machine where
  is3k : Bool
  cpus : List CpuInfo
  pciRoot : Forest MpBus
  io : Ioapic

def findBus (num : UInt8) : Forest MpBus → Forest MpBus
  | .nil => .nil
  | .node b kids peer =>
    if b.busnum = num then .node b kids peer
    else
      let r := findBus num kids
      if r.isNil then findBus num peer else r

def pciLookupBus (mach : Machine) (num : UInt8) : Forest MpBus := findBus num mach.pciRoot

/-- A bus entry for each bus, and their number. -/
def mptablePciWalk : Forest MpBus → Mp → Nat × Mp
  | .nil, s => (0, s)
  | .node b kids peer, s =>
    let s := mptableAddBUS b.busnum mptableBusPci s
    let (k, s) := mptablePciWalk kids s
    let (p, s) := mptablePciWalk peer s
    (k + 1 + p, s)

abbrev mpINTTypeInt : UInt8 := 0
abbrev mpINTTypeNmi : UInt8 := 1
abbrev mpINTTypeExt : UInt8 := 3
/-- Active high, edge triggered. -/
abbrev hiEdge : UInt16 := 5

/-- An interrupt of the first I/O APIC on the ISA bus. -/
def isaInt (io : Ioapic) (isa type irq : UInt8) : IntEntry :=
  { entry := .ioInt, type := type, flags := hiEdge, srcBus := isa, srcIrq := irq,
    destId := ioapicGetId io 0, destInput := irq }

def localInt (type bus input : UInt8) : IntEntry :=
  { entry := .localInt, type := type, flags := hiEdge, srcBus := bus, srcIrq := 0,
    destId := 0xff, destInput := input }

/-- `IRQMAP_ISA`: interrupts 1, 3, 4 and 8. The processor takes shift counts modulo 32. -/
def irqmapIsa (j : Nat) : Bool := ([1, 3, 4, 8] : List Nat).contains (j % 32)

/-- The entries of the list that belong to a bus. -/
def addBusInts (j : Nat) (l : List IntEntry) (s : Mp) : Mp :=
  l.foldl (fun s e => if e.srcBus.toNat ≠ j then s else mptableAddINT e s) s

/-- The extra ISA entries: bus 0xff becomes the ISA bus, in the list itself. -/
def addExtraIsa (isa : UInt8) : List IntEntry → Mp → List IntEntry × Mp
  | [], s => ([], s)
  | e :: l, s =>
    if e.srcBus ≠ 0xff then
      let (l, s) := addExtraIsa isa l s
      (e :: l, s)
    else
      let e := { e with srcBus := isa }
      let (l, s) := addExtraIsa isa l (mptableAddINT e s)
      (e :: l, s)

def mpextableAddPCIAddrMap (b : MpBus) (s : Mp) : Mp :=
  let s := mpextableAddSysAddrMap b.busnum 0 (b.base .io) (b.size .io) s
  let s := mpextableAddSysAddrMap b.busnum 1 (b.base .mmio) (b.size .mmio) s
  mpextableAddSysAddrMap b.busnum 2 (b.base .pmmio) (b.size .pmmio) s

/-- `sub = (sub->kids) ? sub->kids : sub->peer`: down while there are kids, else to the peer. -/
def addHierarchy (parent : UInt8) : Forest MpBus → Mp → Mp
  | .nil, s => s
  | .node b kids peer, s =>
    let s := mpextableAddBusTree b.busnum 0 parent s
    let s := mpextableAddBusCompat b.busnum 1 0 s
    if kids.isNil then addHierarchy parent peer s else addHierarchy b.busnum kids s

def addHostBuses : Forest MpBus → Mp → Mp
  | .nil, s => s
  | .node b kids peer, s =>
    let s := mpextableAddPCIAddrMap b s
    let s := mpextableAddBusCompat b.busnum (if b.busnum = 0 then 0 else 1) 0 s
    addHostBuses peer (addHierarchy b.busnum kids s)

/-- `__mptable_build (save)`; `none` when it does not return. -/
def mptableBuild (mach : Machine) (save : Bool) (s : Mp) : Option Mp :=
  if mach.is3k then some s
  else
    let s := { s with saveFlag := save }
    let s := mach.cpus.foldl (fun s info => mptableAddCPU info s) s
    let (n, s) := mptablePciWalk (pciLookupBus mach 0) s
    let s := { s with isaBusid := n }
    let isa := UInt8.ofNat n
    let s := mptableAddBUS isa mptableBusIsa s
    let s := (List.range 2).foldl (fun s j => mptableAddIOAPIC mach.io j s) s
    -- the bus counter has 8 bits: it never gets past 255
    if 255 < n then none
    else
      let s := (List.range n).foldl (fun s j => addBusInts j s.mpINTList s) s
      let s := mptableAddINT (isaInt mach.io isa mpINTTypeExt 0) s
      let s := mptableAddINT (isaInt mach.io isa mpINTTypeInt 0) s
      let s := (List.range (ioapicGetEntries mach.io 0).toNat).foldl (fun s j =>
        if irqmapIsa j then mptableAddINT (isaInt mach.io isa mpINTTypeInt (UInt8.ofNat j)) s
        else s) s
      let (l, s) := addExtraIsa isa s.mpINTList s
      let s := { s with mpINTList := l }
      let s := mptableAddINT (localInt mpINTTypeExt isa 0) s
      let s := mptableAddINT (localInt mpINTTypeNmi 0 1) s
      let s := addHostBuses (pciLookupBus mach 0) s
      let s := mpextableAddBusTree isa 1 0 s
      some (mptableChecksum s)

/-- `mptable_dump ()` a number of times. -/
def mptableDumps (mach : Machine) : Nat → Mp → Option Mp
  | 0, s => some s
  | k + 1, s => (mptableBuild mach false s).bind (mptableDumps mach k)

/-- The bytes of the floating pointer, the header and both sections. -/
def tableBytes (s : Mp) : List UInt8 :=
  s.mpptr.bytes ++ s.mptable.bytes ++ read s.area 0 (s.mpe + s.mptable.extLength.toNat)

end Mptable
