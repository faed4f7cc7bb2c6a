import CobaltRom.Lib.ByteBuf
import CobaltRom.Lib.ByteArea
import CobaltRom.Lib.Forest

/-! `common/mptable.c`: the MP tables in memory and the functions that add entries. -/
namespace Mptable

open ByteArea ByteBuf

/-- Bytes of the floating pointer structure before its address field: "_MP_". -/
def flpointerSig : List UInt8 := [0x5f, 0x4d, 0x50, 0x5f]
/-- "PCMP". -/
def cfheaderSig : List UInt8 := [0x50, 0x43, 0x4d, 0x50]
/-- "COBALT  ". -/
def mpOemId : List UInt8 := [0x43, 0x4f, 0x42, 0x41, 0x4c, 0x54, 0x20, 0x20]
/-- "ISA   " and "PCI   ". -/
def mptableBusIsa : Vector UInt8 6 := #v[0x49, 0x53, 0x41, 0x20, 0x20, 0x20]
def mptableBusPci : Vector UInt8 6 := #v[0x50, 0x43, 0x49, 0x20, 0x20, 0x20]

def mpBaseAddress : Nat := 0xF8200
def mpSpecRev : UInt8 := 4

/-- `struct mptable_flpointer`; its feature bytes are all 0. -/
structure FlPointer where
  address : UInt32
  length : UInt8
  version : UInt8
  checksum : UInt8

def FlPointer.bytes (p : FlPointer) : List UInt8 :=
  flpointerSig ++ leBytes 4 p.address.toNat ++ [p.length, p.version, p.checksum] ++ [0, 0, 0, 0, 0]

/-- `struct mptable_cfheader`; the OEM table and the reserved byte are 0. -/
structure CfHeader where
  length : UInt16
  version : UInt8
  checksum : UInt8
  product : Vector UInt8 12
  count : UInt16
  apic : UInt32
  extLength : UInt16
  extChecksum : UInt8

def CfHeader.bytes (h : CfHeader) : List UInt8 :=
  cfheaderSig ++ leBytes 2 h.length.toNat ++ [h.version, h.checksum] ++ mpOemId ++
    h.product.toList ++ leBytes 4 0 ++ leBytes 2 0 ++ leBytes 2 h.count.toNat ++
    leBytes 4 h.apic.toNat ++ leBytes 2 h.extLength.toNat ++ [h.extChecksum, 0]

abbrev cfheaderSize : Nat := 44

/-- The fields of `struct cpu_info` that go into the table. -/
structure CpuInfo where
  family : UInt8
  model : UInt8
  stepping : UInt8
  featureMask : UInt32
  bsp : UInt8
  apicId : UInt8
  apicVersion : UInt8

/-- The two entry types an interrupt entry may carry. -/
inductive IntKind
  | ioInt
  | localInt

def IntKind.code : IntKind → UInt8
  | .ioInt => 3
  | .localInt => 4

/-- `mptable_INT_t`; polarity and trigger are the low bits of `flags`. -/
structure IntEntry where
  entry : IntKind
  type : UInt8
  flags : UInt16
  srcBus : UInt8
  srcIrq : UInt8
  destId : UInt8
  destInput : UInt8

def IntEntry.bytes (e : IntEntry) : List UInt8 :=
  [e.entry.code, e.type] ++ leBytes 2 e.flags.toNat ++ [e.srcBus, e.srcIrq, e.destId, e.destInput]

/-- The registers of the I/O APICs, as `ioapic_get` reads them. -/
structure Ioapic where
  idReg : Nat → UInt32
  versionReg : Nat → UInt32

def ioapicGetId (io : Ioapic) (num : Nat) : UInt8 := ((io.idReg num >>> 24) &&& 0xf).toUInt8
def ioapicGetVersion (io : Ioapic) (num : Nat) : UInt8 := (io.versionReg num &&& 0xff).toUInt8
def ioapicGetEntries (io : Ioapic) (num : Nat) : UInt8 :=
  (((io.versionReg num >>> 16) &&& 0xff) + 1).toUInt8
def ioapicGetBase (num : Nat) : UInt32 :=
  (0xFEC00000 : UInt32) ||| (UInt32.ofNat num <<< (12 : UInt32))

/-- The globals of `mptable.c`. `area` is the memory behind the configuration header and `mpe`
the offset in it of the entry pointer; the header stands in a record of its own. `mpINTList` is
the list reachable from `mpINT_list`, and `detached` says that `mpINT_list_head` points into an
older one. -/
structure Mp where
  mpptr : FlPointer
  mptable : CfHeader
  area : Area
  mpe : Nat
  mpINTList : List IntEntry
  detached : Bool
  isaBusid : Nat
  saveFlag : Bool

def mptableInit (prodId : Vector UInt8 12) (lapicBase : UInt32) (s : Mp) : Mp :=
  { s with
    mpptr := { address := UInt32.ofNat (mpBaseAddress + 16), length := 1, version := mpSpecRev,
               checksum := 0 }
    mptable := { length := UInt16.ofNat cfheaderSize, version := mpSpecRev, checksum := 0,
                 product := prodId, count := 0, apic := lapicBase, extLength := 0,
                 extChecksum := 0 }
    -- `mpINT_list_head` keeps pointing behind the last entry ever added
    detached := s.detached || !s.mpINTList.isEmpty
    mpINTList := []
    mpe := 0 }

def mpINTAdd (e : IntEntry) (s : Mp) : Mp :=
  if s.detached then s else { s with mpINTList := s.mpINTList ++ [e] }

/-- `length += n`, `count++`, `mpe += n`. -/
def bumpBase (n : Nat) (s : Mp) : Mp :=
  { s with
    mptable := { s.mptable with
      length := s.mptable.length + UInt16.ofNat n, count := s.mptable.count + 1 }
    mpe := s.mpe + n }

/-- What `mptable_add_BUS`, `mptable_add_IOAPIC` and `mptable_add_INT` share: the entry is
written at the entry pointer, over whatever stands there. -/
def addEntry (e : List UInt8) (s : Mp) : Mp :=
  if s.saveFlag then bumpBase e.length { s with area := write s.area s.mpe e } else s

/-- The 20 bytes of a processor entry. -/
def cpuBytes (info : CpuInfo) : List UInt8 :=
  [0, info.apicId, info.apicVersion, (1 : UInt8) ||| ((info.bsp &&& 1) <<< (1 : UInt8)),
    (info.stepping &&& 0xf) ||| ((info.model &&& 0xf) <<< (4 : UInt8)), info.family &&& 0xf,
    0, 0] ++
    leBytes 4 info.featureMask.toNat ++ [0, 0, 0, 0, 0, 0, 0, 0]

def busBytes (id : UInt8) (type : Vector UInt8 6) : List UInt8 := [1, id] ++ type.toList

def ioapicBytes (io : Ioapic) (num : Nat) : List UInt8 :=
  [2, ioapicGetId io num, ioapicGetVersion io num, 1] ++ leBytes 4 (ioapicGetBase num).toNat

/-- Unlike the other base entries, a processor moves the extended entries out of the way. -/
def mptableAddCPU (info : CpuInfo) (s : Mp) : Mp :=
  if s.saveFlag then
    let n := s.mptable.extLength.toNat
    let s := if 0 < n then { s with area := write s.area (s.mpe + 20) (read s.area s.mpe n) } else s
    bumpBase 20 { s with area := write s.area s.mpe (cpuBytes info) }
  else
    s

def mptableAddBUS (id : UInt8) (type : Vector UInt8 6) : Mp → Mp := addEntry (busBytes id type)
def mptableAddIOAPIC (io : Ioapic) (num : Nat) : Mp → Mp := addEntry (ioapicBytes io num)
def mptableAddINT (intr : IntEntry) : Mp → Mp := addEntry intr.bytes

/-- What the extended entries share: written behind those that are there. -/
def addExtEntry (e : List UInt8) (s : Mp) : Mp :=
  if s.saveFlag then
    { s with
      area := write s.area (s.mpe + s.mptable.extLength.toNat) e
      mptable := { s.mptable with extLength := s.mptable.extLength + UInt16.ofNat e.length } }
  else
    s

def sysAddrMapBytes (bus type : UInt8) (base len : UInt32) : List UInt8 :=
  [128, 20, bus, type] ++ leBytes 8 base.toNat ++ leBytes 8 len.toNat

def busTreeBytes (bus decode parent : UInt8) : List UInt8 :=
  [129, 8, bus, decode &&& 1, parent, 0, 0, 0]

def busCompatBytes (bus mod : UInt8) (range : UInt32) : List UInt8 :=
  [130, 8, bus, mod &&& 1] ++ leBytes 4 range.toNat

def mpextableAddSysAddrMap (bus type : UInt8) (base len : UInt32) : Mp → Mp :=
  addExtEntry (sysAddrMapBytes bus type base len)
def mpextableAddBusTree (bus decode parent : UInt8) : Mp → Mp :=
  addExtEntry (busTreeBytes bus decode parent)
def mpextableAddBusCompat (bus mod : UInt8) (range : UInt32) : Mp → Mp :=
  addExtEntry (busCompatBytes bus mod range)

/-- `sum -= memptr[j]` over some bytes. -/
def negSum (l : List UInt8) : UInt8 := l.foldl (· - ·) 0

def mptableChecksum (s : Mp) : Mp :=
  if s.saveFlag then
    let mpptr := { s.mpptr with checksum := negSum s.mpptr.bytes }
    let hdr := { s.mptable with checksum := 0, extChecksum := 0 }
    let hdr := { hdr with extChecksum := negSum (read s.area s.mpe hdr.extLength.toNat) }
    let base := (hdr.bytes ++ read s.area 0 (hdr.length.toNat - cfheaderSize)).take hdr.length.toNat
    { s with mpptr := mpptr, mptable := { hdr with checksum := negSum base } }
  else
    s

end Mptable
