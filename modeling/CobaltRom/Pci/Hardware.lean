import Mathlib

/-! PCI hardware as configuration cycles see it: buses with functions and PCI-PCI bridges, and
the two host bridges of the CNB30LE. -/
namespace Pci

/-- A bus by the functions that lead to it, from a host bus down. -/
abbrev Path := List Nat

/-- What the configuration header of a function tells: `fbbe` is the bit in PCI_STATUS, `secFbbe`
the one in the PCI2PCI_STATUS of a bridge, for the bus behind it. -/
structure FnInfo where
  devfn : Nat
  vendor : UInt16
  device : UInt16
  multi : Bool
  fbbe : Bool
  secFbbe : Bool

/-- The bus number registers of a PCI-PCI bridge. -/
structure Regs where
  pri : Nat
  sec : Nat
  sub : Nat

/-- The functions of one bus in the order of their `devfn`; bridges with the bus behind them. A
device with one function may also answer at the other function numbers of its slot, with any
header: that is an `echo`. -/
inductive Phys
  | nil
  | echo (fn : FnInfo) (isBridge : Bool) (next : Phys)
  | dev (fn : FnInfo) (next : Phys)
  | bridge (fn : FnInfo) (regs : Regs) (behind next : Phys)

/-- A bridge forwards a configuration cycle for these bus numbers. -/
def Regs.forwards (r : Regs) (n : Nat) : Prop := r.sec ≤ n ∧ n ≤ r.sub

instance (r : Regs) (n : Nat) : Decidable (r.forwards n) := inferInstanceAs (Decidable (_ ∧ _))

namespace Phys

def append : Phys → Phys → Phys
  | nil, q => q
  | echo fn isBridge next, q => echo fn isBridge (append next q)
  | dev fn next, q => dev fn (append next q)
  | bridge fn regs behind next, q => bridge fn regs behind (append next q)

/-- The function at `devfn` on this bus, and whether it is a bridge. -/
def find (devfn : Nat) : Phys → Option (FnInfo × Bool)
  | nil => none
  | echo fn isBridge next => if fn.devfn = devfn then some (fn, isBridge) else find devfn next
  | dev fn next => if fn.devfn = devfn then some (fn, false) else find devfn next
  | bridge fn _ _ next => if fn.devfn = devfn then some (fn, true) else find devfn next

/-- Change the registers of the bridge at `devfn` on this bus. -/
def setRegs (devfn : Nat) (f : Regs → Regs) : Phys → Phys
  | nil => nil
  | echo fn isBridge next => echo fn isBridge (setRegs devfn f next)
  | dev fn next => dev fn (setRegs devfn f next)
  | bridge fn regs behind next =>
    bridge fn (if fn.devfn = devfn then f regs else regs) behind (setRegs devfn f next)

/-- The buses that a type 1 cycle for bus `n`, seen on this bus, ends at. -/
def reach (n : Nat) : Phys → List (Path × Phys)
  | nil => []
  | echo _ _ next => reach n next
  | dev _ next => reach n next
  | bridge fn regs behind next =>
    (if regs.forwards n then
      if n = regs.sec then [([fn.devfn], behind)]
      else (reach n behind).map fun r => (fn.devfn :: r.1, r.2)
    else []) ++ reach n next

/-- What such a cycle does to the buses it ends at. -/
def route (n : Nat) (g : Phys → Phys) : Phys → Phys
  | nil => nil
  | echo fn isBridge next => echo fn isBridge (route n g next)
  | dev fn next => dev fn (route n g next)
  | bridge fn regs behind next =>
    bridge fn regs
      (if regs.forwards n then if n = regs.sec then g behind else route n g behind else behind)
      (route n g next)

/-- No bridge on this bus forwards cycles for bus `n`. -/
def silent (n : Nat) : Phys → Prop
  | nil => True
  | echo _ _ next => silent n next
  | dev _ next => silent n next
  | bridge _ regs _ next => ¬regs.forwards n ∧ silent n next

end Phys

/-- The machine: bus 0 and the bus of a second host bridge, found at `peerPath` on bus 0, with the
bus number registers of the two host bridges. `gated` says that the first one forwards only up to
its SBUSNUM. -/
structure Hw where
  root : Phys
  peer : Phys
  peerPath : Path
  gated : Bool
  busnum0 : Nat
  sbusnum0 : Nat
  busnum1 : Nat
  sbusnum1 : Nat

/-- The buses that a configuration cycle for bus `n` ends at. -/
def access (n : Nat) (hw : Hw) : List (Path × Phys) :=
  if n = 0 then [([], hw.root)]
  else
    (if hw.gated = true ∧ hw.sbusnum0 < n then [] else hw.root.reach n) ++
      (if hw.busnum1 ≤ n ∧ n ≤ hw.sbusnum1 then
        if n = hw.busnum1 then [(hw.peerPath, hw.peer)]
        else (hw.peer.reach n).map fun r => (hw.peerPath ++ r.1, r.2)
      else [])

/-- What such a cycle does to the buses it ends at. -/
def atBus (n : Nat) (g : Phys → Phys) (hw : Hw) : Hw :=
  if n = 0 then { hw with root := g hw.root }
  else
    { hw with
      root := if hw.gated = true ∧ hw.sbusnum0 < n then hw.root else hw.root.route n g
      peer :=
        if hw.busnum1 ≤ n ∧ n ≤ hw.sbusnum1 then
          if n = hw.busnum1 then g hw.peer else hw.peer.route n g
        else hw.peer }

namespace Phys

variable {n d : Nat} {p q : Phys} {f : Regs → Regs} {g : Phys → Phys}

theorem append_assoc (p q r : Phys) : (p.append q).append r = p.append (q.append r) := by
  induction p with
  | nil => rfl
  | echo fn isBridge next ih => simp only [append, ih]
  | dev fn next ih => simp only [append, ih]
  | bridge fn regs behind next _ ih => simp only [append, ih]

theorem append_nil (p : Phys) : p.append nil = p := by
  induction p with
  | nil => rfl
  | echo fn isBridge next ih => simp only [append, ih]
  | dev fn next ih => simp only [append, ih]
  | bridge fn regs behind next _ ih => simp only [append, ih]

theorem reach_append (n : Nat) (p q : Phys) :
    (p.append q).reach n = p.reach n ++ q.reach n := by
  induction p with
  | nil => rfl
  | echo fn isBridge next ih => simp only [append, reach, ih]
  | dev fn next ih => simp only [append, reach, ih]
  | bridge fn regs behind next _ ih => simp only [append, reach, ih, List.append_assoc]

theorem route_append (n : Nat) (g : Phys → Phys) (p q : Phys) :
    (p.append q).route n g = (p.route n g).append (q.route n g) := by
  induction p with
  | nil => rfl
  | echo fn isBridge next ih => simp only [append, route, ih]
  | dev fn next ih => simp only [append, route, ih]
  | bridge fn regs behind next _ ih => simp only [append, route, ih]

theorem reach_silent (h : p.silent n) : p.reach n = [] := by
  induction p with
  | nil => rfl
  | echo fn isBridge next ih => exact ih h
  | dev fn next ih => exact ih h
  | bridge fn regs behind next _ ih => rw [reach, if_neg h.1, ih h.2, List.append_nil]

theorem route_silent (h : p.silent n) : p.route n g = p := by
  induction p with
  | nil => rfl
  | echo fn isBridge next ih => rw [route, ih h]
  | dev fn next ih => rw [route, ih h]
  | bridge fn regs behind next _ ih => rw [route, if_neg h.1, ih h.2]

theorem silent_append : (p.append q).silent n ↔ p.silent n ∧ q.silent n := by
  induction p with
  | nil => simp [append, silent]
  | echo fn isBridge next ih => exact ih
  | dev fn next ih => exact ih
  | bridge fn regs behind next _ ih =>
    simp only [append, silent, ih]
    tauto

/-- A function is found behind others with smaller numbers. -/
theorem find_append (h : p.find d = none) : (p.append q).find d = q.find d := by
  induction p with
  | nil => rfl
  | echo fn isBridge next ih =>
    by_cases hd : fn.devfn = d
    · simp [find, hd] at h
    · simp only [find, hd, if_false] at h
      simp only [append, find, hd, if_false, ih h]
  | dev fn next ih =>
    by_cases hd : fn.devfn = d
    · simp [find, hd] at h
    · simp only [find, hd, if_false] at h
      simp only [append, find, hd, if_false, ih h]
  | bridge fn regs behind next _ ih =>
    by_cases hd : fn.devfn = d
    · simp [find, hd] at h
    · simp only [find, hd, if_false] at h
      simp only [append, find, hd, if_false, ih h]

theorem setRegs_append (h : p.find d = none) :
    (p.append q).setRegs d f = p.append (q.setRegs d f) := by
  induction p with
  | nil => rfl
  | echo fn isBridge next ih =>
    by_cases hd : fn.devfn = d
    · simp [find, hd] at h
    · simp only [find, hd, if_false] at h
      simp only [append, setRegs, ih h]
  | dev fn next ih =>
    by_cases hd : fn.devfn = d
    · simp [find, hd] at h
    · simp only [find, hd, if_false] at h
      simp only [append, setRegs, ih h]
  | bridge fn regs behind next _ ih =>
    by_cases hd : fn.devfn = d
    · simp [find, hd] at h
    · simp only [find, hd, if_false] at h
      simp only [append, setRegs, hd, if_false, ih h]

theorem setRegs_none (h : p.find d = none) : p.setRegs d f = p := by
  have := setRegs_append (q := nil) (f := f) h
  rwa [append_nil, setRegs, append_nil] at this

end Phys

end Pci
