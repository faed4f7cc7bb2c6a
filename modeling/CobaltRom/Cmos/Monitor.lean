import CobaltRom.Console.Numerals
import CobaltRom.Cmos.Settings

/-! The monitor commands that change settings (`monitor/cmos.c`). -/
namespace Cmos
open Console

abbrev ebadnumargs : Int := -11
abbrev ebadnum : Int := -12
abbrev ebadarg : Int := -13

/-- `stoli` on an argument: the number, or nothing for a bad one; `none` if it does not
return. -/
def number (arg : Name) : Option (Option UInt32) :=
  (stoli (cstring arg)).map fun r => if r.1 ≠ 0 then none else some r.2

/-- The arguments converted in turn, up to the first that is bad. -/
def numbers : List Name → Option (Option (List UInt32))
  | [] => some (some [])
  | arg :: args =>
    match number arg with
    | none => none
    | some none => some none
    | some (some n) => (numbers args).map fun r => r.map (n :: ·)

def writeCmosFunc (argv : List Name) : Option (RomM Int) :=
  if argv.length ≠ 3 then some (pure ebadnumargs)
  else
    (numbers argv.tail).map fun r =>
      match r with
      | some [index, value] =>
        if index.toNat > cmosInfoMax then pure ebadarg
        else do
          let _ ← cmosWriteByte index.toNat value.toUInt8
          cmosSetChecksum
          pure 0
      | _ => pure ebadnum

def cmosResetFunc (argv : List Name) : RomM Int := do
  if argv.length ≠ 1 then pure ebadnumargs
  else
    cmosFirstBootDefaultsOnly 0
    cmosSetDefaults
    rtcSetDefaults
    pure 0

/-- `cmos_flags_namefind`: the first flag whose name begins with `name`. -/
def cmosFlagsNamefind (name : Name) : RomM (Option Nat) := do
  let m ← get
  pure (m.glob.cmosFlags.findIdx? fun f => name.isPrefixOf f.name)

/-- "on" and "off", as `strncmp` compares them. -/
def onOff (arg : Name) : Option UInt8 :=
  if [111, 110].isPrefixOf arg then some 1
  else if [111, 102, 102].isPrefixOf arg then some 0
  else none

def setFlagState (k : Nat) (state : UInt8) : RomM Unit :=
  setGlob fun g => { g with
    cmosFlags := g.cmosFlags.modify k fun f => { f with state := state } }

def cmosFlagsFunc (argv : List Name) : RomM Int := do
  match argv with
  | [] => pure 0
  | [_] => pure 0
  | _ :: name :: rest =>
    match ← cmosFlagsNamefind name with
    | none => pure ebadarg
    | some k =>
      match rest with
      | [] => do
        let m ← get
        let _ ← cmosReadFlag ((m.glob.cmosFlags[k]?).elim 0 CmosFlag.flag)
        cmosFlagsSync true
        pure 0
      | [arg] =>
        match onOff arg with
        | none => pure ebadarg
        | some state => do
          setFlagState k state
          let m ← get
          let _ ← cmosWriteFlag ((m.glob.cmosFlags[k]?).elim 0 CmosFlag.flag)
            (if state = 0 then 0 else 1)
          cmosFlagsSync true
          pure 0
      | _ => pure ebadnumargs

/-- Without arguments it only prints. -/
def btoIpFunc (argv : List Name) : Option (RomM Int) :=
  if argv.length = 1 then some (pure 0)
  else if argv.length ≠ 5 then some (pure ebadnumargs)
  else
    (numbers argv.tail).map fun r =>
      match r with
      | some [a, b, c, d] => do
        cmosSetBtoIp ((a &&& 0xff) <<< 24 ||| (b &&& 0xff) <<< 16 ||| (c &&& 0xff) <<< 8 |||
          (d &&& 0xff))
        pure 0
      | _ => pure ebadnum

/-- The bytes of the BTO code, the highest first. -/
def btoCodeBytes (val : UInt32) : List UInt8 :=
  [(val >>> 24).toUInt8, (val >>> 16).toUInt8, (val >>> 8).toUInt8, val.toUInt8]

/-- Without an argument it only reads. -/
def btoCodeFunc (argv : List Name) : Option (RomM Int) :=
  if argv.length = 1 then some do
    let _ ← readBytes cmosBtoCode0 4
    pure 0
  else if argv.length ≠ 2 then some (pure ebadnumargs)
  else
    (numbers argv.tail).map fun r =>
      match r with
      | some [val] => do
        writeBytes cmosBtoCode0 (btoCodeBytes val)
        pure 0
      | _ => pure ebadnum

/-- The monitor commands and library calls that write settings. -/
inductive Op where
  | writeCmos (argv : List Name)
  | cmosReset (argv : List Name)
  | cmosFlags (argv : List Name)
  | btoIp (argv : List Name)
  | btoCode (argv : List Name)
  | writeFlag (flag val : Int32)
  | writeAllFlags (flags : Int32)
  | setBtoIp (ip : UInt32)
  | setDefaults
  | firstBootDefaultsOnly (resetSn : Int32)
  deriving DecidableEq

/-- What an operation does; `none` if it does not return. -/
def Op.prog : Op → Option (RomM Unit)
  | .writeCmos argv => (writeCmosFunc argv).map fun p => p *> pure ()
  | .cmosReset argv => some (cmosResetFunc argv *> pure ())
  | .cmosFlags argv => some (cmosFlagsFunc argv *> pure ())
  | .btoIp argv => (btoIpFunc argv).map fun p => p *> pure ()
  | .btoCode argv => (btoCodeFunc argv).map fun p => p *> pure ()
  | .writeFlag flag val => some (cmosWriteFlag flag val *> pure ())
  | .writeAllFlags flags => some (cmosWriteAllFlags flags)
  | .setBtoIp ip => some (cmosSetBtoIp ip)
  | .setDefaults => some cmosSetDefaults
  | .firstBootDefaultsOnly resetSn => some (cmosFirstBootDefaultsOnly resetSn)

def Op.step (o : Op) (m : Machine) : Option Machine := o.prog.map fun p => (p.run m).2

end Cmos
