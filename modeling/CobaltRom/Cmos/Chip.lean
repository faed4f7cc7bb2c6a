import Mathlib

/-! The battery-backed memory behind ports 0x70 and 0x71: single bytes, the flags and the
checksum (`cmos_io.c`). -/
namespace Cmos

abbrev Name := List UInt8

inductive Systype where
  | unknown
  | s3000
  | s5000
  deriving DecidableEq, Repr

inductive Boardtype where
  | unknown
  | pacifica
  | carmel
  | monterey
  | alpine
  deriving DecidableEq, Repr

/-- The clock chip: the index last written to port 0x70, the 128 bytes of bank 0 and the
registers from 0x40 on of bank 2. -/
structure Rtc where
  index : UInt8
  ram : Nat → UInt8
  apc : Nat → UInt8

structure CmosFlag where
  name : Name
  flag : Int32
  state : UInt8
  deriving DecidableEq, Repr

/-- The variables of `cmos.c`. -/
structure Globals where
  serialNum : Name
  console : UInt8
  debug : UInt8
  bootMethod : UInt8
  autoPrompt : UInt8
  firstBoot : UInt8
  cleanBoot : UInt8
  showLogo : UInt8
  uniqueRoot : UInt8
  sysfault : UInt8
  btoIp : UInt32
  cmosVersion : UInt8
  bootType : UInt8
  cmosFlags : List CmosFlag
  deriving DecidableEq, Repr

/-- The board, its chip, the other ports and the variables; `version` is what the ROM was
built with. -/
structure Machine where
  systype : Systype
  boardtype : Boardtype
  version : UInt8 × UInt8 × UInt8
  rtc : Rtc
  ports : Nat → UInt8
  glob : Globals

abbrev RomM := StateM Machine

abbrev cmosAddrPort : Nat := 0x70
abbrev cmosDataPort : Nat := 0x71
abbrev cmosInfoMax : Nat := 0x7f
abbrev cmosCksStart : Nat := 0x0e
abbrev cmosCksEnd : Nat := cmosInfoMax
abbrev cmosFlagByte0 : Nat := 0x10
abbrev cmosFlagByte1 : Nat := 0x11
abbrev cmosFlagMin : Int32 := 0x0001
abbrev cmosConsoleFlag : Int32 := 0x0001
abbrev cmosDebugFlag : Int32 := 0x0002
abbrev cmosAutoPromptFlag : Int32 := 0x0004
abbrev cmosCleanBootFlag : Int32 := 0x0008
abbrev cmosSysfaultFlag : Int32 := 0x0020
abbrev cmosNologoFlag : Int32 := 0x0100
abbrev cmosVersionFlag : Int32 := 0x0200
abbrev cmosUniqueFlag : Int32 := 0x0800
abbrev cmosFlagMax : Int32 := 0x0800
abbrev cmosChecksum : Nat := 0x2e
abbrev pnpNsRtcCra : Nat := 0x0a
abbrev pnpNsRtcBank0 : UInt8 := 0x20
abbrev pnpNsRtcBank2 : UInt8 := 0x40
abbrev pnpNsApcr6 : Nat := 0x4c
abbrev natsemiGpe1Port : Nat := 0x530

/-! ### The ports -/

namespace Machine

/-- Register A of a 5000 series board has bank 2 selected. -/
def bank2 (m : Machine) : Bool :=
  m.systype = .s5000 && m.rtc.ram pnpNsRtcCra &&& 0x70 = pnpNsRtcBank2

/-- The register port 0x71 stands for. -/
def reg (m : Machine) : Nat := (m.rtc.index &&& 0x7f).toNat

def inb (m : Machine) (port : Nat) : UInt8 :=
  if port = cmosDataPort then
    if m.bank2 ∧ 0x40 ≤ m.reg then m.rtc.apc m.reg else m.rtc.ram m.reg
  else if port = cmosAddrPort then m.rtc.index
  else m.ports port

def outb (m : Machine) (v : UInt8) (port : Nat) : Machine :=
  if port = cmosDataPort then
    if m.bank2 ∧ 0x40 ≤ m.reg then
      { m with rtc := { m.rtc with apc := Function.update m.rtc.apc m.reg v } }
    else { m with rtc := { m.rtc with ram := Function.update m.rtc.ram m.reg v } }
  else if port = cmosAddrPort then { m with rtc := { m.rtc with index := v } }
  else { m with ports := Function.update m.ports port v }

end Machine

def inb (port : Nat) : RomM UInt8 := do
  let m ← get
  pure (m.inb port)

def outb (v : UInt8) (port : Nat) : RomM Unit := modify fun m => m.outb v port

def systypeIs3k : RomM Bool := do
  let m ← get
  pure (m.systype = .s3000)

def systypeIs5k : RomM Bool := do
  let m ← get
  pure (m.systype = .s5000)

def boardtype : RomM Boardtype := do
  let m ← get
  pure m.boardtype

/-! ### Power settings -/

def cmosSetPowerfail (state : Bool) : RomM Unit := do
  if ← systypeIs5k then
    outb (UInt8.ofNat pnpNsRtcCra) cmosAddrPort
    let bank ← inb cmosDataPort
    outb ((bank &&& 0x8f) ||| pnpNsRtcBank2) cmosDataPort
    outb (UInt8.ofNat pnpNsApcr6) cmosAddrPort
    let apcr6 ← inb cmosDataPort
    let apcr6 := apcr6 &&& ~~~ 0xc0
    let apcr6 := if state then apcr6 else apcr6 ||| 0x80
    outb apcr6 cmosDataPort
    outb (UInt8.ofNat pnpNsRtcCra) cmosAddrPort
    outb bank cmosDataPort

def cmosSetPowerapply (state : Bool) : RomM Unit := do
  if ← systypeIs5k then
    let reg ← inb (natsemiGpe1Port ||| 0x04)
    let reg := reg &&& ~~~ 0x02
    let reg := if state then reg ||| 0x02 else reg
    outb reg (natsemiGpe1Port ||| 0x04)

/-! ### Single bytes -/

/-- "Force bank 0." -/
def forceBank0 : RomM Unit := do
  if (← boardtype) = .monterey then
    outb (UInt8.ofNat pnpNsRtcCra) cmosAddrPort
    let bank ← inb cmosDataPort
    outb ((bank &&& 0x8f) ||| pnpNsRtcBank0) cmosDataPort

def cmosReadByte (index : Nat) : RomM UInt8 := do
  if index > cmosInfoMax then pure 0
  else
    forceBank0
    outb (UInt8.ofNat index) cmosAddrPort
    inb cmosDataPort

def cmosWriteByte (index : Nat) (val : UInt8) : RomM Int := do
  if index > cmosInfoMax then pure (-1)
  else
    forceBank0
    outb (UInt8.ofNat index) cmosAddrPort
    outb val cmosDataPort
    pure 0

/-! ### The checksum -/

/-- The loop both checksum functions share, over the indices that are left. -/
def sumBytes : List Nat → UInt16 → RomM UInt16
  | [], sum => pure sum
  | i :: is, sum =>
    if i = cmosChecksum ∨ i = cmosChecksum + 1 then sumBytes is sum
    else do
      let b ← cmosReadByte i
      sumBytes is (sum + b.toUInt16)

/-- `CMOS_CKS_START` up to `CMOS_CKS_END`. -/
def cksRange : List Nat := List.range' cmosCksStart (cmosCksEnd + 1 - cmosCksStart)

def cmosCheckChecksum : RomM Bool := do
  let sum ← sumBytes cksRange 0
  let hi ← cmosReadByte cmosChecksum
  let lo ← cmosReadByte (cmosChecksum + 1)
  pure (sum.toNat = hi.toNat <<< 8 ||| lo.toNat)

def cmosSetChecksum : RomM Unit := do
  let sum ← sumBytes cksRange 0
  let _ ← cmosWriteByte cmosChecksum (sum >>> 8).toUInt8
  let _ ← cmosWriteByte (cmosChecksum + 1) (sum &&& 0xff).toUInt8

/-! ### Flags -/

/-- The low byte first, as in memory. -/
def cmosReadAllFlags : RomM Int32 := do
  let b1 ← cmosReadByte cmosFlagByte1
  let b0 ← cmosReadByte cmosFlagByte0
  pure (b1.toUInt32 ||| b0.toUInt32 <<< 8).toInt32

def cmosWriteAllFlags (cmosFlags : Int32) : RomM Unit := do
  let _ ← cmosWriteByte cmosFlagByte1 cmosFlags.toUInt32.toUInt8
  let _ ← cmosWriteByte cmosFlagByte0 (cmosFlags.toUInt32 >>> 8).toUInt8
  cmosSetChecksum

def cmosReadFlag (flag : Int32) : RomM Int := do
  if flag < cmosFlagMin ∨ flag > cmosFlagMax then pure (-1)
  else
    let cmosFlags ← cmosReadAllFlags
    pure (if cmosFlags &&& flag ≠ 0 then 1 else 0)

def cmosWriteFlag (flag val : Int32) : RomM Int := do
  if flag < cmosFlagMin ∨ flag > cmosFlagMax then pure (-1)
  else
    let cmosFlags ← cmosReadAllFlags
    cmosWriteAllFlags (if val ≠ 0 then cmosFlags ||| flag else cmosFlags &&& ~~~ flag)
    pure 0

end Cmos
