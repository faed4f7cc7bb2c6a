import Mathlib.Tactic

/-! `common/msr.c`: the model specific registers and what is written to them. -/
namespace Cpu

/-- The registers by their numbers. -/
abbrev Msrs := UInt32 → UInt64

def msrGet (index : UInt32) (m : Msrs) : UInt64 := m index

def msrSet (index : UInt32) (value : UInt64) (m : Msrs) : Msrs :=
  fun a => if a = index then value else m a

def wrmsr (msr lo hi : UInt32) (m : Msrs) : Msrs :=
  msrSet msr (hi.toUInt64 <<< 32 ||| lo.toUInt64) m

/-- Nothing is written if one of the bits is on. -/
def msrSetOn (index : UInt32) (bits : UInt64) (m : Msrs) : Msrs :=
  if m index &&& bits = 0 then msrSet index (m index ||| bits) m else m

def msrSetOff (index : UInt32) (bits : UInt64) (m : Msrs) : Msrs :=
  if m index &&& bits ≠ 0 then msrSet index (m index &&& ~~~bits) m else m

variable {m : Msrs} {a index : UInt32} {value bits : UInt64}

theorem msrSet_self (index : UInt32) (value : UInt64) (m : Msrs) :
    msrSet index value m index = value :=
  if_pos rfl

theorem msrSet_ne (h : a ≠ index) : msrSet index value m a = m a := if_neg h

theorem msrSetOff_ne (h : a ≠ index) : msrSetOff index bits m a = m a := by
  rw [msrSetOff]
  split
  · exact msrSet_ne h
  · rfl

end Cpu
