import CobaltRom.Console.RawRead
import CobaltRom.Console.Numerals

/-! `ctype.h` as the command line uses it, with a signed `char` for index. -/
namespace Console.Ctype

abbrev upper : UInt8 := 0x01
abbrev lower : UInt8 := 0x02
abbrev number : UInt8 := 0x04
abbrev space : UInt8 := 0x08
abbrev punct : UInt8 := 0x10
abbrev control : UInt8 := 0x20
abbrev hex : UInt8 := 0x40
abbrev blank : UInt8 := 0x80

/-- `__ctype`; the second half, which the initialiser leaves out, is 0. -/
def table : List UInt8 :=
  [0] ++
  [control, control, control, control, control, control, control, control,
    control, control ||| space ||| blank, control ||| space, control ||| space, control ||| space,
    control ||| space, control, control] ++
  List.replicate 16 control ++
  [space ||| blank] ++ List.replicate 15 punct ++
  List.replicate 10 number ++ List.replicate 6 punct ++
  [punct] ++ List.replicate 6 (upper ||| hex) ++ List.replicate 20 upper ++
  List.replicate 5 punct ++
  [punct] ++ List.replicate 6 (lower ||| hex) ++ List.replicate 20 lower ++
  List.replicate 4 punct ++
  [control]

/-- The bytes in front of `__ctype`, which a negative index reaches, the nearest first. -/
abbrev Before := Nat → UInt8

/-- `__ctype[i]`. -/
def ctypeAt (before : Before) (i : Int) : UInt8 :=
  if i < 0 then before (-1 - i).toNat else table.getD i.toNat 0

def isChar (before : Before) (c : Int) (type : UInt8) : Bool := ctypeAt before (c + 1) &&& type != 0

/-- A `char` read into an `int`. -/
def schar (c : UInt8) : Int := if c < 128 then c.toNat else (c.toNat : Int) - 256

def isalnum (before : Before) (c : UInt8) : Bool :=
  isChar before (schar c) (upper ||| lower ||| number)
def isalpha (before : Before) (c : UInt8) : Bool := isChar before (schar c) (upper ||| lower)
def isblank (before : Before) (c : UInt8) : Bool := isChar before (schar c) blank
def isdigit (before : Before) (c : UInt8) : Bool := isChar before (schar c) number
def isspace (before : Before) (c : UInt8) : Bool := isChar before (schar c) space
def isxdigit (before : Before) (c : UInt8) : Bool := isChar before (schar c) (number ||| hex)

variable {before : Before} {c : UInt8}

/-- Only the bytes from 128 on, but for the last, look in front of the table. -/
theorem isChar_of_lt (before : Before) (type : UInt8) (h : c < 128) :
    isChar before (schar c) type = (table.getD (c.toNat + 1) 0 &&& type != 0) := by
  rw [isChar, schar, if_pos h, ctypeAt, if_neg (by omega)]
  rfl

theorem isblank_of_lt (h : c < 128) : isblank before c = (c == 32 || c == 9) := by
  rw [isblank, isChar_of_lt before blank h]
  revert c
  decide +kernel

theorem isdigit_of_lt (h : c < 128) : isdigit before c = Console.isdigit c := by
  rw [isdigit, isChar_of_lt before number h]
  revert c
  decide +kernel

theorem isxdigit_of_lt (h : c < 128) : isxdigit before c = Console.isxdigit c := by
  rw [isxdigit, isChar_of_lt before (number ||| hex) h]
  revert c
  decide +kernel

theorem isdigit_nul (before : Before) : isdigit before 0 = false :=
  (isdigit_of_lt (by decide)).trans (by decide)

theorem isalpha_of_lt (h : c < 128) :
    isalpha before c = ((0x41 ≤ c && c ≤ 0x5a) || (0x61 ≤ c && c ≤ 0x7a)) := by
  rw [isalpha, isChar_of_lt before (upper ||| lower) h]
  revert c
  decide +kernel

theorem isalnum_of_lt (h : c < 128) : isalnum before c =
    (Console.isdigit c || (0x41 ≤ c && c ≤ 0x5a) || (0x61 ≤ c && c ≤ 0x7a)) := by
  rw [isalnum, isChar_of_lt before (upper ||| lower ||| number) h]
  revert c
  decide +kernel

end Console.Ctype
