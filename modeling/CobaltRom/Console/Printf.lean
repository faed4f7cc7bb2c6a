import CobaltRom.Console.Ctype
import CobaltRom.Console.StrbufOps

/-! `common/printf.c`: the format scanner, the number formatters and what they append. -/
namespace Console

open Loop HeapBlock

abbrev ch (c : Char) : UInt8 := c.toUInt8

/-- The state of a conversion. -/
structure Conv where
  alt : Nat
  width : Int32
  precis : Int32
  mod : Nat

def newConv : Conv := { alt := 0, width := -1, precis := -1, mod := 0 }

abbrev convAltHash : Nat := 1
abbrev convAltZero : Nat := 2
abbrev convAltMinus : Nat := 4
abbrev convAltPlus : Nat := 8
abbrev convAltSpace : Nat := 16
abbrev convAltUpper : Nat := 128
abbrev convModShort : Nat := 1
abbrev convModLong : Nat := 2
abbrev convModLonglong : Nat := 4
abbrev convModUnsigned : Nat := 128

/-- Some bit of `flag` is set. -/
def hasFlag (word flag : Nat) : Bool := word &&& flag != 0

/-- The address of `nbuf`, in the 32-bit address space. -/
structure NbufAddr where
  addr : Nat
  fits : addr + 128 ≤ 2 ^ 32

/-- `p - k >= nbuf` while `p` is NULL: the pointer wraps to the top of the address space. -/
def nullLess (nbuf : NbufAddr) (k : Nat) : Bool := decide (nbuf.addr ≤ 2 ^ 32 - k)

/-! ### The number formatters -/

/-- What the loops over `nbuf` change; `p` counts from `nbuf`. -/
structure Num where
  nbuf : Block
  p : Int
  n : Nat
  width : Int32
  precis : Int32

/-- `p--; *p = c`; `none` is a store outside `nbuf`. -/
def Num.left (s : Num) (c : UInt8) : Option Num :=
  (copyIn s.nbuf (s.p - 1) [some c]).map fun nbuf => { s with nbuf := nbuf, p := s.p - 1 }

/-- The characters in `nbuf` from `p` up to a NUL; `none` without one, or past an unwritten byte. -/
def stringFrom : Block → Option (List UInt8)
  | [] => none
  | none :: _ => none
  | some c :: b => if c = 0 then some [] else (stringFrom b).map (c :: ·)

/-- No loop over `nbuf` takes more turns: each moves `p` down and needs it at or above `nbuf`. -/
abbrev nbufTurns : Nat := 128

def charset (c : Conv) : List UInt8 :=
  if hasFlag c.alt convAltUpper then "0123456789ABCDEF".toList.map ch
  else "0123456789abcdef".toList.map ch

def digitTurn (chars : List UInt8) (base : Nat) (s : Num) : Option Num :=
  (s.left (chars.getD (s.n % base) 0)).map fun s =>
    { s with n := s.n / base, width := s.width - 1, precis := s.precis - 1 }

def zeroTurn (s : Num) : Option Num :=
  (s.left (ch '0')).map fun s => { s with width := s.width - 1, precis := s.precis - 1 }

def padTurn (pad : UInt8) (s : Num) : Option Num :=
  (s.left pad).map fun s => { s with width := s.width - 1 }

/-- `nbuf` with its NUL, and `p` at it. -/
def numStart (n : Nat) (width precis : Int32) : Num :=
  { nbuf := List.replicate 127 none ++ [some 0], p := 127, n := n, width := width,
    precis := precis }

/-- The digits and the zeros of the precision; the first digit is written without a test. -/
def numDigits (chars : List UInt8) (base n : Nat) (width precis : Int32) : Option Num :=
  (digitTurn chars base (numStart n width precis)).bind fun s =>
    (whileM (fun s => 0 ≤ s.p && s.n != 0) (digitTurn chars base) nbufTurns s).bind fun s =>
      whileM (fun s => 0 ≤ s.p && 0 < s.precis) zeroTurn nbufTurns s

def padChar (c : Conv) : UInt8 :=
  if hasFlag c.alt convAltZero && c.precis < 0 then ch '0' else ch ' '

/-- All that is stored into `nbuf`; `lead` characters have been counted off the width. -/
def numField (c : Conv) (lead n : Nat) (base : Int32) : Option Num :=
  (numDigits (charset c) base.toInt.toNat n (c.width - Int32.ofNat lead) c.precis).bind fun s =>
    if hasFlag c.alt convAltMinus then some s
    else whileM (fun s => 0 ≤ s.p && 0 < s.width) (padTurn (padChar c)) nbufTurns s

/-- The signs and the leading space. -/
def signChars (c : Conv) (isneg : Bool) : List UInt8 :=
  if hasFlag c.mod convModUnsigned then []
  else if isneg then [ch '-']
  else if hasFlag c.alt convAltPlus then [ch '+']
  else if hasFlag c.alt convAltSpace then [ch ' ']
  else []

/-- The `#` form. -/
def altChars (nbuf : NbufAddr) (c : Conv) (base : Int32) : List UInt8 :=
  if hasFlag c.alt convAltHash then
    if base = 16 ∧ nullLess nbuf 2 = true then
      [ch '0', if hasFlag c.alt convAltUpper then ch 'X' else ch 'x']
    else if base = 8 ∧ nullLess nbuf 1 = true then [ch '0']
    else []
  else []

/-- `width--` goes with each of these. -/
def leadChars (nbuf : NbufAddr) (c : Conv) (isneg : Bool) (base : Int32) : List UInt8 :=
  signChars c isneg ++ altChars nbuf c base

/-- `strbuf_appendc` for each of the characters. -/
def appendChars (heap : Heap) : List UInt8 → Strbuf → Option Strbuf
  | [], b => some b
  | c :: cs, b => (strbufAppendc heap b c).bind fun r => appendChars heap cs r.2

/-- `2 <= base <= 16`. -/
def baseOk (base : Int32) : Bool := 2 ≤ base && base ≤ 16

/-- Both formatters once they have the number without its sign: `n`, of 32 or of 64 bits. -/
def appendNum (heap : Heap) (nbuf : NbufAddr) (b : Strbuf) (c : Conv) (isneg : Bool) (n : Nat)
    (base : Int32) : Option (Int × Strbuf) :=
  let lead := leadChars nbuf c isneg base
  (appendChars heap lead b).bind fun b₁ =>
    (numField c lead.length n base).bind fun s =>
      (stringFrom (s.nbuf.drop s.p.toNat)).bind fun str =>
        (strbufAppend heap b₁ str).bind fun r =>
          let spaces := if hasFlag c.alt convAltMinus then s.width.toNatClampNeg else 0
          (appendChars heap (List.replicate spaces (ch ' ')) r.2).map fun b₂ => (b₂.len - b.len, b₂)

/-- `isneg` of `sprintf_num`. -/
def isNeg (c : Conv) (num : UInt32) : Bool := !hasFlag c.mod convModUnsigned && num.toInt32 < 0

/-- `n` of `sprintf_num`. -/
def magnitude (c : Conv) (num : UInt32) : Nat :=
  let num := if isNeg c num then (num.toInt32 * -1).toUInt32 else num
  if hasFlag c.mod convModShort then num.toUInt16.toNat else num.toNat

def sprintfNum (heap : Heap) (nbuf : NbufAddr) (b : Strbuf) (c : Conv) (num : UInt32)
    (base : Int32) : Option (Int × Strbuf) :=
  if baseOk base then appendNum heap nbuf b c (isNeg c num) (magnitude c num) base
  else some (0, b)

/-- `isneg` of `sprintf_ll_num`. -/
def isNegLl (c : Conv) (num : UInt64) : Bool := !hasFlag c.mod convModUnsigned && num.toInt64 < 0

/-- `n` of `sprintf_ll_num`. -/
def magnitudeLl (c : Conv) (num : UInt64) : Nat :=
  (if isNegLl c num then (num.toInt64 * -1).toUInt64 else num).toNat

def sprintfLlNum (heap : Heap) (nbuf : NbufAddr) (b : Strbuf) (c : Conv) (num : UInt64)
    (base : Int32) : Option (Int × Strbuf) :=
  if baseOk base then appendNum heap nbuf b c (isNegLl c num) (magnitudeLl c num) base
  else some (0, b)

/-! ### Strings -/

/-- `str` is `none` for NULL; a copy that gets no memory is written through NULL. -/
def sprintfString (heap : Heap) (b : Strbuf) (c : Conv) (str : Option (List UInt8)) :
    Option (Int × Strbuf) :=
  let put (p : List UInt8) := (strbufAppend heap b p).map fun r => (r.2.len - b.len, r.2)
  match str with
  | none => put ("(NULL)".toList.map ch)
  | some str =>
    if 0 < c.precis then
      (malloc heap (c.precis + 1).toInt).bind fun _ => put (str.take c.precis.toNatClampNeg)
    else put str

/-! ### The format -/

/-- What a call finds around it: the heap, the bytes before the `ctype` table, the place of
`nbuf`, the words of the argument list and the strings they point to. -/
structure PrintEnv where
  heap : Heap
  before : Ctype.Before
  nbuf : NbufAddr
  args : Nat → UInt32
  str : UInt32 → CStr

/-- The buffer, and what `%n` has stored. -/
structure Printed where
  buf : Strbuf
  stored : List (UInt32 × Int)

/-- `p` is the format from `*p` to its NUL, `args` the number of words taken. A store outside
`nbuf` or the buffer leaves no `out`, and the scan goes on. -/
structure Core where
  p : List UInt8
  args : Nat
  out : Option Printed

def convAltVal (c : UInt8) : Nat :=
  if c = ch '#' then convAltHash
  else if c = ch '0' then convAltZero
  else if c = ch '-' then convAltMinus
  else if c = ch '+' then convAltPlus
  else if c = ch ' ' then convAltSpace
  else 0

def isAlt (c : UInt8) : Bool :=
  c == ch '#' || c == ch '0' || c == ch '-' || c == ch '+' || c == ch ' '

/-- First the flags. In all the stages `none` is a read behind the NUL. -/
def scanAlt (alt : Nat) : List UInt8 → Option (Nat × List UInt8)
  | [] => none
  | c :: p => if isAlt c then scanAlt (alt ||| convAltVal c) p else some (alt, c :: p)

/-- An integer string; `isdigit` stops at the NUL. -/
def scanInt (before : Ctype.Before) (n : Int32) : List UInt8 → Option (Int32 × List UInt8)
  | [] => none
  | c :: p =>
    if Ctype.isdigit before c then scanInt before (n * 10 + Int32.ofInt (Ctype.schar c - 0x30)) p
    else some (n, c :: p)

/-- Second the field width, with the number of words taken. -/
def scanWidth (env : PrintEnv) (args : Nat) : List UInt8 → Option (Int32 × Nat × List UInt8)
  | [] => none
  | c :: p =>
    if c = ch '*' then some ((env.args args).toInt32, args + 1, p)
    else if Ctype.isdigit env.before c then
      (scanInt env.before 0 (c :: p)).map fun r => (r.1, args, r.2)
    else some (newConv.width, args, c :: p)

/-- Third the precision. -/
def scanPrecis (env : PrintEnv) (args : Nat) : List UInt8 → Option (Int32 × Nat × List UInt8)
  | [] => none
  | c :: p =>
    if c = ch '.' then
      match p with
      | [] => none
      | d :: q =>
        if d = ch '*' then some ((env.args args).toInt32, args + 1, q)
        else if d = ch '-' then (scanInt env.before 0 q).map fun r => (r.1 * -1, args, r.2)
        else (scanInt env.before 0 (d :: q)).map fun r => (r.1, args, r.2)
    else some (newConv.precis, args, c :: p)

/-- Fourth the length modifier. -/
def scanMod : List UInt8 → Option (Nat × List UInt8)
  | [] => none
  | c :: p =>
    if c = ch 'h' then some (convModShort, p)
    else if c = ch 'L' ∨ c = ch 'q' then some (convModLonglong, p)
    else if c = ch 'l' then
      match p with
      | [] => none
      | d :: q => if d = ch 'l' then some (convModLonglong, q) else some (convModLong, d :: q)
    else some (0, c :: p)

def scanConv (env : PrintEnv) (args : Nat) (p : List UInt8) : Option (Conv × Nat × List UInt8) :=
  (scanAlt newConv.alt p).bind fun alt =>
    (scanWidth env args alt.2).bind fun width =>
      (scanPrecis env width.2.1 width.2.2).bind fun precis =>
        (scanMod precis.2.2).map fun mod =>
          ({ alt := alt.1, width := width.1, precis := precis.1, mod := mod.1 }, precis.2.1, mod.2)

/-- `va_arg (args, long long)`: two words, the low one first. -/
def longlongArg (env : PrintEnv) (args : Nat) : UInt64 :=
  (env.args args).toUInt64 ||| (env.args (args + 1)).toUInt64 <<< 32

def Printed.put (o : Printed) (r : Option (Int × Strbuf)) : Option Printed :=
  r.map fun r => { o with buf := r.2 }

/-- A number of either size. -/
def convertNum (env : PrintEnv) (c : Conv) (base : Int32) (args : Nat) (out : Option Printed) :
    Nat × Option Printed :=
  if hasFlag c.mod convModLonglong then
    (args + 2, out.bind fun o =>
      o.put (sprintfLlNum env.heap env.nbuf o.buf c (longlongArg env args) base))
  else
    (args + 1, out.bind fun o => o.put (sprintfNum env.heap env.nbuf o.buf c (env.args args) base))

def Conv.unsigned (c : Conv) : Conv := { c with mod := c.mod ||| convModUnsigned }

/-- Last the conversion specifier: the words taken and the output after it. -/
def convert (env : PrintEnv) (c : Conv) (spec : UInt8) (args : Nat) (out : Option Printed) :
    Nat × Option Printed :=
  if spec = ch 'd' ∨ spec = ch 'i' then convertNum env c 10 args out
  else if spec = ch 'o' then convertNum env c.unsigned 8 args out
  else if spec = ch 'X' then
    convertNum env { c.unsigned with alt := c.alt ||| convAltUpper } 16 args out
  else if spec = ch 'x' then convertNum env c.unsigned 16 args out
  else if spec = ch 'b' then convertNum env c.unsigned 2 args out
  else if spec = ch 'u' then convertNum env c.unsigned 10 args out
  else if spec = ch 'c' then
    (args + 1, out.bind fun o => o.put (strbufAppendc env.heap o.buf (env.args args).toUInt8))
  else if spec = ch 's' then
    let ptr := env.args args
    (args + 1, out.bind fun o =>
      o.put (sprintfString env.heap o.buf c (if ptr = 0 then none else some (env.str ptr).text)))
  else if spec = ch 'p' then
    let c := { c.unsigned with alt := c.alt ||| (convAltHash ||| convAltZero) }
    (args + 1, out.bind fun o => o.put (sprintfNum env.heap env.nbuf o.buf c (env.args args) 16))
  else if spec = ch 'n' then
    (args + 1, out.map fun o => { o with stored := o.stored ++ [(env.args args, o.buf.len)] })
  else
    -- '%', and the literal of anything else
    (args, out.bind fun o => o.put (strbufAppendc env.heap o.buf spec))

/-- One turn of the loop at the character `c`, with `p` behind it. The character of the
specifier is passed over whatever it is. -/
def coreTurn (env : PrintEnv) (c : UInt8) (p : List UInt8) (s : Core) : Option Core :=
  if c = ch '%' then
    (scanConv env s.args p).bind fun r =>
      match r.2.2 with
      | [] => none
      | spec :: p =>
        let t := convert env r.1 spec r.2.1 s.out
        some { p := p, args := t.1, out := t.2 }
  else
    some { s with p := p, out := s.out.bind fun o => o.put (strbufAppendc env.heap o.buf c) }

/-- `while (*p)`; `none` when it reads behind the NUL or the turns run out. -/
def coreLoop (env : PrintEnv) : Nat → Core → Option Core
  | 0, _ => none
  | fuel + 1, s =>
    match s.p with
    | [] => none
    | c :: p => if c = 0 then some s else (coreTurn env c p s).bind (coreLoop env fuel)

def coreInit (fmt : List UInt8) (b : Strbuf) : Core :=
  { p := fmt ++ [0], args := 0, out := some { buf := b, stored := [] } }

/-- The format is given by the characters before its NUL; every turn passes one of them. -/
def sprintfCore (env : PrintEnv) (fmt : List UInt8) (b : Strbuf) : Option Core :=
  coreLoop env (fmt.length + 1) (coreInit fmt b)

/-- The length that is returned and the buffer; `str` is the block from `str` on. -/
def vsnprintf (env : PrintEnv) (str : Block) (maxlen : Int) (fmt : List UInt8) :
    Option (Int × Strbuf) :=
  (strbufInit env.heap (some str) (if 0 < maxlen then maxlen - 1 else strbufFixed)).bind fun r =>
    (sprintfCore env fmt r.2).bind fun s => s.out.map fun o => (o.buf.len, o.buf)

def sprintf (env : PrintEnv) (str : Block) (fmt : List UInt8) : Option (Int × Strbuf) :=
  vsnprintf env str (-1) fmt

def snprintf (env : PrintEnv) (str : Block) (maxlen : Int) (fmt : List UInt8) :
    Option (Int × Strbuf) :=
  vsnprintf env str maxlen fmt

end Console
