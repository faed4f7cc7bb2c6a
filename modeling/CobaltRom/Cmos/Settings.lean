import CobaltRom.Cmos.Chip

/-! What the ROM keeps in the CMOS: the settings, their defaults, the serial number and the
flag table (`cmos.c`), and the clock defaults (`rtc.c`). -/
namespace Cmos

abbrev cmosBiosDriveInfo : Nat := 0x12
abbrev cmosVersionByte : Nat := 0x13
abbrev cmosVersionCurrent : UInt8 := 1
abbrev cmosVerBtocode : UInt8 := 1
abbrev cmosBootMethod : Nat := 0x20
abbrev cmosBootMethodDisk : UInt8 := 0
abbrev cmosBootMethodNnet : UInt8 := 3
abbrev cmosBootDevMaj : Nat := 0x21
abbrev cmosBootDevMin : Nat := 0x22
abbrev cmosRootDevMaj : Nat := 0x23
abbrev cmosRootDevMin : Nat := 0x24
abbrev cmosUptime0 : Nat := 0x30
abbrev cmosBootcount0 : Nat := 0x38
abbrev cmosSysSernumLen : Nat := 13
abbrev cmosSysSernum0 : Nat := 0x40
abbrev cmosSysSernumCsum : Nat := 0x4f
abbrev cmosSysSernumOldCsum : Nat := 0xfe
abbrev cmosRomRevMaj : Nat := 0x50
abbrev cmosRomRevMin : Nat := 0x51
abbrev cmosRomRevRev : Nat := 0x52
abbrev cmosBtoCode0 : Nat := 0x53
abbrev cmosBtoIpCsum : Nat := 0x57
abbrev cmosBtoIp0 : Nat := 0x58
abbrev cmosBootType : Nat := 0x5c
abbrev cmosBootTypeDef : UInt8 := 0x11

/-- Consecutive bytes from index `k` on. -/
def writeBytes (k : Nat) : List UInt8 → RomM Unit
  | [] => pure ()
  | v :: vs => do
    let _ ← cmosWriteByte k v
    writeBytes (k + 1) vs

/-- Consecutive bytes from index `k` on, `n` of them. -/
def readBytes (k : Nat) : Nat → RomM (List UInt8)
  | 0 => pure []
  | n + 1 => do
    let b ← cmosReadByte k
    let bs ← readBytes (k + 1) n
    pure (b :: bs)

/-- The flag table before any of it is set: "debug", "console", "prompt", "clean_boot",
"sysfault", "nologo" and "unique_root". -/
def initialFlags : List CmosFlag :=
  [⟨[100, 101, 98, 117, 103], cmosDebugFlag, 0⟩,
    ⟨[99, 111, 110, 115, 111, 108, 101], cmosConsoleFlag, 0⟩,
    ⟨[112, 114, 111, 109, 112, 116], cmosAutoPromptFlag, 0⟩,
    ⟨[99, 108, 101, 97, 110, 95, 98, 111, 111, 116], cmosCleanBootFlag, 0⟩,
    ⟨[115, 121, 115, 102, 97, 117, 108, 116], cmosSysfaultFlag, 0⟩,
    ⟨[110, 111, 108, 111, 103, 111], cmosNologoFlag, 0⟩,
    ⟨[117, 110, 105, 113, 117, 101, 95, 114, 111, 111, 116], cmosUniqueFlag, 0⟩]

/-- One round of `cmos_flags_sync`: from the table to the variable if `dir`, else back. -/
def syncFlag (dir : Bool) (g : Globals) (f : CmosFlag) : Globals × CmosFlag :=
  if f.flag = cmosDebugFlag then
    if dir then ({ g with debug := f.state }, f) else (g, { f with state := g.debug })
  else if f.flag = cmosConsoleFlag then
    if dir then ({ g with console := f.state }, f) else (g, { f with state := g.console })
  else if f.flag = cmosAutoPromptFlag then
    if dir then ({ g with autoPrompt := f.state }, f) else (g, { f with state := g.autoPrompt })
  else if f.flag = cmosCleanBootFlag then
    if dir then ({ g with cleanBoot := f.state }, f) else (g, { f with state := g.cleanBoot })
  else if f.flag = cmosSysfaultFlag then
    if dir then ({ g with sysfault := f.state }, f) else (g, { f with state := g.sysfault })
  else if f.flag = cmosNologoFlag then
    if dir then ({ g with showLogo := f.state }, f) else (g, { f with state := g.showLogo })
  else if f.flag = cmosUniqueFlag then
    if dir then ({ g with uniqueRoot := f.state }, f) else (g, { f with state := g.uniqueRoot })
  else (g, f)

def syncFlags (dir : Bool) : Globals → List CmosFlag → Globals × List CmosFlag
  | g, [] => (g, [])
  | g, f :: fs =>
    let (g, f) := syncFlag dir g f
    let (g, fs) := syncFlags dir g fs
    (g, f :: fs)

def cmosFlagsSync (dir : Bool) : RomM Unit := modify fun m =>
  let (g, fs) := syncFlags dir m.glob m.glob.cmosFlags
  { m with glob := { g with cmosFlags := fs } }

def setGlob (f : Globals → Globals) : RomM Unit := modify fun m => { m with glob := f m.glob }

/-! ### Defaults -/

def cmosSetDefaults : RomM Unit := do
  let _ ← cmosWriteByte cmosFlagByte0 0
  let _ ← cmosWriteByte cmosFlagByte1 0
  let _ ← cmosWriteFlag cmosConsoleFlag 1
  let _ ← cmosWriteFlag cmosDebugFlag 1
  let _ ← cmosWriteFlag cmosCleanBootFlag 1
  let _ ← cmosWriteFlag cmosVersionFlag 1
  let _ ← cmosWriteByte cmosBootMethod cmosBootMethodDisk
  let _ ← cmosWriteByte cmosBootType cmosBootTypeDef
  let maj : UInt8 := if ← systypeIs3k then 0x03 else 0x09
  let min : UInt8 := 0x01
  let _ ← cmosWriteByte cmosBootDevMaj maj
  let _ ← cmosWriteByte cmosBootDevMin min
  let _ ← cmosWriteByte cmosRootDevMaj maj
  let _ ← cmosWriteByte cmosRootDevMin min
  cmosSetPowerapply false
  cmosSetPowerfail false
  writeBytes cmosBtoIp0 [0, 0, 0, 0]
  let _ ← cmosWriteByte cmosBtoIpCsum 0
  cmosSetChecksum

/-- "cNoEbTaWlOtR!" -/
def csumKey : List UInt8 := [99, 78, 111, 69, 98, 84, 97, 87, 108, 79, 116, 82, 33]

/-- Only the low seven bits of the sum are used, so it does not matter that it is an `int`. -/
def cmosGenCsum (str : List UInt8) : UInt8 :=
  let sum := ((List.range cmosSysSernumLen).map fun i => str.getD i 0 ^^^ csumKey.getD i 0).sum
  (sum &&& 0x7f) ^^^ 0xd6

def cmosWriteSerialNum (sn : Name) : RomM Unit := do
  writeBytes cmosSysSernum0 ((List.range cmosSysSernumLen).map fun i => sn.getD i 0)
  let _ ← cmosWriteByte cmosSysSernumCsum (cmosGenCsum sn)
  cmosSetChecksum

/-- "Uninitialized" -/
def uninitialized : Name := [85, 110, 105, 110, 105, 116, 105, 97, 108, 105, 122, 101, 100]

/-- The wake event registers of an Alpine board: an index to 0x500, then 0. -/
def clearWake : List UInt8 → RomM Unit
  | [] => pure ()
  | k :: ks => do
    outb k 0x500
    outb 0 0x501
    clearWake ks

def cmosFirstBootDefaultsOnly (resetSn : Int32) : RomM Unit := do
  writeBytes cmosUptime0 [0, 0, 0, 0]
  writeBytes cmosBootcount0 [0, 0, 0, 0]
  writeBytes cmosBtoCode0 [0, 0, 0, 0]
  if resetSn ≠ 0 then cmosWriteSerialNum uninitialized
  let _ ← cmosWriteByte cmosBootMethod cmosBootMethodNnet
  if (← boardtype) = .alpine then clearWake ((List.range 0x20).map UInt8.ofNat)
  cmosSetChecksum

def cmosSetBtoIp (ip : UInt32) : RomM Unit := do
  let csum := (ip >>> 24).toUInt8 + (ip >>> 16).toUInt8 + (ip >>> 8).toUInt8 + ip.toUInt8
  writeBytes cmosBtoIp0 [(ip >>> 24).toUInt8, (ip >>> 16).toUInt8, (ip >>> 8).toUInt8, ip.toUInt8]
  let _ ← cmosWriteByte cmosBtoIpCsum csum
  cmosSetChecksum
  setGlob fun g => { g with btoIp := ip }

/-! ### The clock -/

abbrev rtcStatusRegA : UInt8 := 0x0a
abbrev rtcStatusRegB : UInt8 := 0x0b
abbrev rtcStatusRegD : UInt8 := 0x0d

def rtcBeginSet : RomM Unit := do
  outb rtcStatusRegB cmosAddrPort
  let tmp ← inb cmosDataPort
  outb (tmp ||| 0x80) cmosDataPort

def rtcEndSet : RomM Unit := do
  outb rtcStatusRegB cmosAddrPort
  let tmp ← inb cmosDataPort
  outb (tmp &&& ~~~ 0x80) cmosDataPort

/-- The registers of time and date in order. -/
def writeRegs (k : UInt8) : List UInt8 → RomM Unit
  | [] => pure ()
  | v :: vs => do
    outb k cmosAddrPort
    outb v cmosDataPort
    writeRegs (k + 1) vs

def rtcSetVals (vals : List UInt8) : RomM Unit := do
  rtcBeginSet
  writeRegs 0 vals
  rtcEndSet

/-- The initial date and time as `rtc_set_defaults` passes them. -/
def defaultVals : List UInt8 := [0, 0, 0x59, 0, 0x10, 0, 0x03, 0x02, 0x03, 0x76]

def rtcSetDefaults : RomM Unit := do
  rtcBeginSet
  rtcSetVals defaultVals
  outb rtcStatusRegA cmosAddrPort
  outb 0x26 cmosDataPort
  outb rtcStatusRegB cmosAddrPort
  outb 0x02 cmosDataPort
  outb rtcStatusRegD cmosAddrPort
  outb 0x26 cmosDataPort
  rtcEndSet

/-! ### Initialisation -/

/-- The monitor's `do_first_boot`. -/
def doFirstBoot : RomM Unit := do
  cmosSetDefaults
  cmosFirstBootDefaultsOnly 1
  rtcSetDefaults

def cmosWriteRomRev : RomM Unit := do
  let m ← get
  let _ ← cmosWriteByte cmosRomRevMaj m.version.1
  let _ ← cmosWriteByte cmosRomRevMin m.version.2.1
  let _ ← cmosWriteByte cmosRomRevRev m.version.2.2
  cmosSetChecksum

def initBtoIp : RomM Unit := do
  let b0 ← cmosReadByte cmosBtoIp0
  let b1 ← cmosReadByte (cmosBtoIp0 + 1)
  let b2 ← cmosReadByte (cmosBtoIp0 + 2)
  let b3 ← cmosReadByte (cmosBtoIp0 + 3)
  let csum ← cmosReadByte cmosBtoIpCsum
  if b0 + b1 + b2 + b3 ≠ csum then
    writeBytes cmosBtoIp0 [0, 0, 0, 0]
    let _ ← cmosWriteByte cmosBtoIpCsum 0
    cmosSetChecksum
    setGlob fun g => { g with btoIp := 0 }
  else
    setGlob fun g => { g with btoIp := b0.toUInt32 <<< 24 ||| b1.toUInt32 <<< 16 |||
      b2.toUInt32 <<< 8 ||| b3.toUInt32 }

/-- "invalid csum!" -/
def invalidCsum : Name := [105, 110, 118, 97, 108, 105, 100, 32, 99, 115, 117, 109, 33]

/-- The serial number as it is left in the caller's buffer. -/
def cmosReadSerialNum : RomM Name := do
  let sernum ← readBytes cmosSysSernum0 cmosSysSernumLen
  let cmosCsum ← cmosReadByte cmosSysSernumCsum
  let readCsum := cmosGenCsum sernum
  if readCsum ≠ cmosCsum then
    if ← systypeIs3k then
      let cmosCsum ← cmosReadByte cmosSysSernumOldCsum
      if readCsum = cmosCsum then
        let _ ← cmosWriteByte cmosSysSernumCsum cmosCsum
        cmosSetChecksum
        pure sernum
      else pure invalidCsum
    else pure invalidCsum
  else pure sernum

/-- The result of `cmos_read_flag` kept in a `char`. -/
def flagChar (r : Int) : UInt8 := UInt8.ofInt r

/-- "If the version valid flag is not set, set it and zero the version." -/
def initVersion : RomM Unit := do
  if (← cmosReadFlag cmosVersionFlag) = 0 then
    let _ ← cmosWriteFlag cmosVersionFlag 1
    let _ ← cmosWriteByte cmosVersionByte 0

def initVariables : RomM Unit := do
  let console ← cmosReadFlag cmosConsoleFlag
  let debug ← cmosReadFlag cmosDebugFlag
  let cleanBoot ← cmosReadFlag cmosCleanBootFlag
  let nologo ← cmosReadFlag cmosNologoFlag
  let autoPrompt ← cmosReadFlag cmosAutoPromptFlag
  let uniqueRoot ← cmosReadFlag cmosUniqueFlag
  let sysfault ← cmosReadFlag cmosSysfaultFlag
  let bootMethod ← cmosReadByte cmosBootMethod
  let version ← cmosReadByte cmosVersionByte
  let bootType ← cmosReadByte cmosBootType
  setGlob fun g => { g with
    console := flagChar console
    debug := if debug ≠ 0 ∧ flagChar console ≠ 0 then 1 else 0
    cleanBoot := flagChar cleanBoot
    showLogo := if nologo = 0 then 1 else 0
    autoPrompt := if autoPrompt ≠ 0 ∧ flagChar console ≠ 0 then 1 else 0
    uniqueRoot := flagChar uniqueRoot
    sysfault := flagChar sysfault
    bootMethod := bootMethod
    cmosVersion := version
    bootType := bootType }

/-- An older version is brought up to date. -/
def updateVersion : RomM Unit := do
  let m ← get
  if m.glob.cmosVersion < cmosVersionCurrent then
    if m.glob.cmosVersion < cmosVerBtocode then writeBytes cmosBtoCode0 [0, 0, 0, 0]
    let _ ← cmosWriteByte cmosVersionByte cmosVersionCurrent
    setGlob fun g => { g with cmosVersion := cmosVersionCurrent }
    cmosSetChecksum

/-- `cmos_init` once the checksum has been dealt with. -/
def initSettings : RomM Int := do
  let _ ← cmosWriteByte cmosBiosDriveInfo 0
  cmosWriteRomRev
  initVersion
  initVariables
  updateVersion
  initBtoIp
  let serialNum ← cmosReadSerialNum
  setGlob fun g => { g with serialNum := serialNum }
  cmosFlagsSync false
  pure 0

def cmosInit : RomM Int := do
  if !(← cmosCheckChecksum) then
    setGlob fun g => { g with firstBoot := 1 }
    doFirstBoot
    cmosSetChecksum
    initSettings
  else
    setGlob fun g => { g with firstBoot := 0 }
    initSettings

end Cmos
