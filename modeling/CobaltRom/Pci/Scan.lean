import CobaltRom.Lib.Forest
import CobaltRom.Pci.Hardware

/-! `common/pci.c`: the scan that finds and numbers the buses, with the CNB30LE fixups of
`common/pci_fixup.c`. Cardbus bridges are left out. -/
namespace Pci

/-- `pci_bus`, as far as the scan fills it in. `path` stands for `self` and `parent`, `bridged`
for `parent` being set; bus numbers are bytes. -/
structure Bus where
  busnum : Nat
  pri : Nat
  sub : Nat
  lastKid : Nat
  fbbe : Bool
  bridged : Bool
  path : Path
  devices : List Nat

/-- An entry of `pci_devices`: the function at `devfn` on the bus at `path`. -/
structure Dev where
  path : Path
  busnum : Nat
  devfn : Nat

/-- The machine, `pci_devices`, the peer list of the root bus and the configuration cycles made:
the bus number of each and the buses it reached. -/
structure St where
  hw : Hw
  devices : List Dev
  peers : List (Bus × Forest Bus)
  log : List (Nat × List Path)

/-- Configuration cycles for bus `n` that leave bus number registers alone. -/
def touch (n : Nat) (st : St) : St :=
  { st with log := st.log ++ [(n, (access n st.hw).map Prod.fst)] }

/-- The function that answers at `devfn` of bus `n`, unless its vendor id is invalid. -/
def readFn (n devfn : Nat) (hw : Hw) : Option (FnInfo × Bool) :=
  match ((access n hw).filterMap fun r => r.2.find devfn).head? with
  | none => none
  | some r => if r.1.vendor = 0xffff ∨ r.1.vendor = 0 then none else some r

/-- A write to a bus number register of the bridge at `devfn` of bus `n`. -/
def writeRegs (n devfn : Nat) (f : Regs → Regs) (st : St) : St :=
  let st := touch n st
  { st with hw := atBus n (Phys.setRegs devfn f) st.hw }

/-- A write to the host bridge registers, which are on bus 0. -/
def writeHost (n : Nat) (f : Hw → Hw) (st : St) : St :=
  let st := touch n st
  if n = 0 then { st with hw := f st.hw } else st

def isCnb30le (fn : FnInfo) : Bool := fn.vendor == 0x1166 && fn.device == 0x0009

/-- `pci_fixup_pre`, where SBUSNUM is set high. -/
def pciFixupPre (bus : Bus) (fn : FnInfo) (st : St) : St :=
  if isCnb30le fn then
    writeHost bus.busnum (fun hw =>
      if fn.devfn % 8 = 0 then { hw with sbusnum0 := 0xff }
      else if fn.devfn % 8 = 1 then { hw with sbusnum1 := 0xff }
      else hw) st
  else st

section

variable (scan : Bus → St → Option (Bus × Forest Bus × St))

/-- `pci_fixup_post`: the first host bridge gets its subordinate number, and behind the second
one a peer bus is numbered and scanned. -/
def pciFixupPost (bus : Bus) (fn : FnInfo) (st : St) : Option (Bus × St) :=
  if isCnb30le fn then
    let st := touch bus.busnum st
    if fn.devfn % 8 = 0 then
      some ({ bus with fbbe := true },
        writeHost bus.busnum (fun hw => { hw with sbusnum0 := bus.sub }) st)
    else if fn.devfn % 8 = 1 then
      let num := (bus.lastKid + 1) % 256
      let new : Bus := { busnum := num, pri := 0, sub := 0, lastKid := num, fbbe := true,
                         bridged := false, path := bus.path ++ [fn.devfn], devices := [] }
      let st := writeHost bus.busnum (fun hw => { hw with busnum1 := num }) st
      (scan new st).map fun (new, kids, st) =>
        let new := { new with sub := new.lastKid }
        let st := writeHost bus.busnum (fun hw => { hw with sbusnum1 := new.sub }) st
        (bus, { st with peers := st.peers ++ [(new, kids)] })
    else some (bus, st)
  else some (bus, st)

/-- `pci_bridge_bus_alloc` and `pci_bridge_init`: the parent bus, the new bus and its kids. -/
def pciBridgeInit (bus : Bus) (fn : FnInfo) (st : St) :
    Option (Bus × Bus × Forest Bus × St) :=
  let st := touch bus.busnum st
  let num := (bus.lastKid + 1) % 256
  let new : Bus := { busnum := num, pri := bus.busnum, sub := 0xff, lastKid := num,
                     fbbe := fn.secFbbe, bridged := true, path := bus.path ++ [fn.devfn],
                     devices := [] }
  let bus := { bus with lastKid := num }
  let st := touch bus.busnum st
  let st := writeRegs bus.busnum fn.devfn (fun r => { r with pri := new.pri }) st
  let st := writeRegs bus.busnum fn.devfn (fun r => { r with sec := new.busnum }) st
  let st := writeRegs bus.busnum fn.devfn (fun r => { r with sub := 0xff }) st
  (scan new st).map fun (new, kids, st) =>
    let new := { new with sub := new.lastKid }
    let st := writeRegs bus.busnum fn.devfn (fun r => { r with sub := new.sub }) st
    ({ bus with lastKid := new.lastKid }, new, kids, st)

/-- The loop of `pci_bus_scan` over some `devfn`s; the kids it finds, in order. -/
def scanFns : List Nat → Bool → Bus → St → Option (Bus × Forest Bus × St)
  | [], _, bus, st => some (bus, .nil, st)
  | devfn :: rest, multifunc, bus, st =>
    if !multifunc && decide (devfn % 8 ≠ 0) then scanFns rest multifunc bus st
    else
      let r := readFn bus.busnum devfn st.hw
      let st := touch bus.busnum st
      match r with
      | none => scanFns rest multifunc bus st
      | some (fn, isBridge) =>
        let st := touch bus.busnum
          { st with devices := st.devices ++ [⟨bus.path, bus.busnum, devfn⟩] }
        let bus := { bus with fbbe := fn.fbbe && bus.fbbe, devices := bus.devices ++ [devfn] }
        let multifunc := if devfn % 8 = 0 then fn.multi else multifunc
        let st := pciFixupPre bus fn st
        if isBridge then
          (pciBridgeInit scan bus fn st).bind fun (bus, new, kids, st) =>
          -- `pci_dev_init` also for the bridge
          (pciFixupPost scan bus fn (touch bus.busnum st)).bind fun (bus, st) =>
          (scanFns rest multifunc bus st).map fun (bus, peers, st) =>
            (bus, .node new kids peers, st)
        else
          (pciFixupPost scan bus fn (touch bus.busnum st)).bind fun (bus, st) =>
          scanFns rest multifunc bus st

end

/-- Fast back-to-back transactions, when every device of the bus can do them. -/
def enableFbbe (bus : Bus) (st : St) : St :=
  if bus.fbbe then
    let st := bus.devices.foldl (fun st _ => touch bus.busnum st) st
    if bus.bridged then touch bus.pri st else st
  else st

/-- `pci_bus_scan`, with a bound on the depth of the recursion. -/
def pciBusScan : Nat → Bus → St → Option (Bus × Forest Bus × St)
  | 0, _, _ => none
  | fuel + 1, bus, st =>
    (scanFns (pciBusScan fuel) (List.range' 0 256) false bus st).map fun (bus, kids, st) =>
      (bus, kids, enableFbbe bus st)

/-- `pci_root` after `pci_bus_blank`. -/
def pciRoot : Bus where
  busnum := 0
  pri := 0
  sub := 0
  lastKid := 0
  fbbe := false
  bridged := false
  path := []
  devices := []

/-- `pci_init` up to the resources. -/
def pciInit (fuel : Nat) (hw : Hw) : Option (Bus × Forest Bus × St) :=
  (pciBusScan fuel pciRoot { hw := hw, devices := [], peers := [], log := [] }).map
    fun (bus, kids, st) => ({ bus with sub := bus.lastKid }, kids, st)

end Pci
