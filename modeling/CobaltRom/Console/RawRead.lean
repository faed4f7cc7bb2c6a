import CobaltRom.Lib.Loop
import CobaltRom.Console.Strbuf

/-! `common/readline.c`: the history ring and the raw line input. -/
namespace Console

open Loop

abbrev histsz : Nat := 128

structure HistEnt where
  hNum : Int32
  hLine : Option (List UInt8)

/-- The history ring: `h_next` of entry `i` is `i + 1`, and of the last one the first. The
numbers are `int`s, and `histnum++` wraps. -/
structure History where
  ent : Fin histsz → HistEnt
  histn : Fin histsz
  hist0 : Fin histsz
  histnum : Int32

/-- The `do … while (h != histn)` of `histlookup_num`, which meets `histn` within one round. -/
def lookupFrom (hist : History) (num : Int32) : Nat → Fin histsz → Option (List UInt8)
  | 0, _ => none
  | k + 1, h =>
    if (hist.ent h).hNum = num then (hist.ent h).hLine
    else if h + 1 = hist.histn then none
    else lookupFrom hist num k (h + 1)

def histlookupNum (hist : History) (num : Int32) : Option (List UInt8) :=
  lookupFrom hist num histsz hist.hist0

/-- The globals of raw input, the keyboard bytes still to come and the bytes echoed. -/
structure Raw where
  rawpos : Int
  overwrite : Bool
  rawbuf : Strbuf
  ups : Nat
  prevs : Nat → Option Block
  done : Bool
  input : List UInt8
  out : List UInt8

abbrev chBell : UInt8 := 7
abbrev chBs : UInt8 := 8
abbrev chTab : UInt8 := 9
abbrev chNl : UInt8 := 10
abbrev chCr : UInt8 := 13
abbrev chEsc : UInt8 := 27
abbrev chSpace : UInt8 := 32
abbrev chEsc2 : UInt8 := 91
abbrev chDel : UInt8 := 127
abbrev arrowUp : UInt8 := 65
abbrev arrowDown : UInt8 := 66
abbrev arrowRight : UInt8 := 67
abbrev arrowLeft : UInt8 := 68
abbrev keyHome : UInt8 := 49
abbrev keyInsert : UInt8 := 50
abbrev keyEnd : UInt8 := 52
abbrev ctrlPad : UInt8 := 126
abbrev chZ : UInt8 := 90

/-- `CTRL (c)`. -/
abbrev ctrl (c : Char) : UInt8 := 1 + (c.toUInt8 - 65)

/-- What `raw_read` runs with: the heap, the history and a bound for its loops. -/
structure Env where
  heap : Heap
  hist : History
  fuel : Nat

/-- `GETC ()`; without input it waits. -/
def getc (s : Raw) : Option (UInt8 × Raw) :=
  match s.input with
  | [] => none
  | c :: rest => some (c, { s with input := rest })

def putc (c : UInt8) (s : Raw) : Raw := { s with out := s.out ++ [c] }
def beep (s : Raw) : Raw := putc chBell s

def rawPutc (c : UInt8) (s : Raw) : Raw :=
  let s := putc c s
  if c = chBs then { s with rawpos := s.rawpos - 1 }
  else if c = chNl ∨ c = chCr then { s with rawpos := 0 }
  else { s with rawpos := s.rawpos + 1 }

/-- `p[i]`; a fault outside the block or where nothing was written yet. -/
def load (p : Option Block) (i : Int) : Option UInt8 :=
  if 0 ≤ i then p.bind fun b => (b[i.toNat]?).join else none

/-- `strlen (p)`. -/
def strlen : Block → Option Nat
  | [] => none
  | none :: _ => none
  | some c :: p => if c = 0 then some 0 else (strlen p).map (· + 1)

inductive Whence
  | set
  | cur
  | fromEnd

/-- The position a `raw_cursor` call asks for. -/
def newpos (s : Raw) (off : Int) : Whence → Int
  | .set => off
  | .cur => s.rawpos + off
  | .fromEnd => s.rawbuf.len - off

def rawCursor (env : Env) (off : Int) (whence : Whence) (s : Raw) : Option (Int × Raw) :=
  let newpos := newpos s off whence
  if newpos < 0 ∨ newpos > s.rawbuf.len then
    some (-1, s)
  else
    (whileM (fun s : Raw => decide (newpos > s.rawpos))
      (fun s => (load s.rawbuf.buf s.rawpos).map fun c => rawPutc c s) env.fuel s).bind fun s =>
    (whileM (fun s : Raw => decide (newpos < s.rawpos))
      (fun s => some (rawPutc chBs s)) env.fuel s).map fun s => (s.rawpos, s)

def rawBackspace (env : Env) (s : Raw) : Option Raw :=
  if s.rawpos ≠ 0 then
    let i := s.rawpos - 1
    (rawCursor env (-1) .cur s).bind fun (_, s) =>
    (strbufDeletec env.heap s.rawbuf s.rawpos).bind fun (_, b) =>
    let s := { s with rawbuf := b }
    if s.rawpos = s.rawbuf.len then
      some (rawPutc chBs (rawPutc chSpace s))
    else
      (rawCursor env 0 .fromEnd s).bind fun (_, s) =>
      (rawCursor env i .set (rawPutc chBs (rawPutc chSpace s))).map Prod.snd
  else
    some (beep s)

/-- `prevs[i]`; a fault outside the array. -/
def prevsAt (s : Raw) (i : Nat) : Option (Option Block) :=
  if i < histsz then some (s.prevs i) else none

/-- `prevs[i] = p`. -/
def setPrevs (s : Raw) (i : Nat) (p : Option Block) : Option Raw :=
  if i < histsz then some { s with prevs := fun j => if j = i then p else s.prevs j } else none

/-- Blank the visible line, then show `p` with the cursor at its end. -/
def showLine (env : Env) (p : Option Block) (s : Raw) : Option Raw :=
  (rawCursor env 0 .set s).bind fun (_, s) =>
  (whileM (fun s : Raw => decide (s.rawpos ≤ s.rawbuf.len))
    (fun s => some (rawPutc chSpace s)) env.fuel s).bind fun s =>
  (rawCursor env 0 .set s).bind fun (_, s) =>
  (p.elim (some 0) strlen).bind fun n =>
  (rawCursor env 0 .fromEnd { s with rawbuf := { s.rawbuf with buf := p, len := n } }).map
    Prod.snd

inductive Arrow
  | up
  | down
  | right
  | left

def rawArrow (env : Env) (which : Arrow) (s : Raw) : Option Raw :=
  match which with
  | .up =>
    match histlookupNum env.hist (env.hist.histnum - Int32.ofNat (s.ups + 1)) with
    | none => some (beep s)
    | some p =>
      (setPrevs s s.ups s.rawbuf.buf).bind fun s =>
      let s := { s with ups := s.ups + 1 }
      (prevsAt s s.ups).bind fun saved =>
      match saved with
      | some b => showLine env (some b) s
      | none =>
        -- `strdup (p)`; `strlen (NULL)` below is a fault
        match malloc env.heap (p.length + 1) with
        | none => none
        | some _ => showLine env (some (cells p)) s
  | .down =>
    if s.ups = 0 then
      some (beep s)
    else
      (setPrevs s s.ups s.rawbuf.buf).bind fun s =>
      let s := { s with ups := s.ups - 1 }
      (prevsAt s s.ups).bind fun saved => showLine env saved s
  | .left =>
    (rawCursor env (-1) .cur s).map fun (r, s) => if r < 0 then beep s else s
  | .right =>
    (rawCursor env 1 .cur s).map fun (r, s) => if r < 0 then beep s else s

/-- The last byte of `ESC [ x ~`. -/
def padded (s : Raw) (act : Raw → Option Raw) : Option Raw :=
  (getc s).bind fun (c, s) => if c = ctrlPad then act s else some (beep s)

/-- The switch after `ESC [`. -/
def csiSwitch (env : Env) (c2 : UInt8) (s : Raw) : Option Raw :=
  if c2 = arrowUp then rawArrow env .up s
  else if c2 = arrowDown then rawArrow env .down s
  else if c2 = arrowRight then rawArrow env .right s
  else if c2 = arrowLeft then rawArrow env .left s
  else if c2 = keyInsert then padded s fun s => some { s with overwrite := !s.overwrite }
  else if c2 = keyHome then padded s fun s => (rawCursor env 0 .set s).map Prod.snd
  else if c2 = keyEnd then padded s fun s => (rawCursor env 0 .fromEnd s).map Prod.snd
  else some (beep s)

def rawEscape (env : Env) (s : Raw) : Option Raw :=
  (getc s).bind fun (c2, s) =>
  if c2 = chEsc2 then
    (getc s).bind fun (c2, s) => csiSwitch env c2 s
  else if c2 = chZ then
    (getc s).bind fun (c3, s) =>
    if c3 = chZ then some { rawPutc chNl s with done := true } else some (beep s)
  else
    some (beep s)

/-- The `default` branch: the character goes into the buffer and the line is echoed again. -/
def rawChar (env : Env) (c : UInt8) (s : Raw) : Option Raw :=
  let i := s.rawpos
  (if s.overwrite && s.rawbuf.buf.isSome then
    (strbufDeletec env.heap s.rawbuf s.rawpos).map fun (_, b) => { s with rawbuf := b }
  else
    some s).bind fun s =>
  (strbufInsertc env.heap s.rawbuf s.rawpos c).bind fun (_, b) =>
  (rawCursor env 0 .fromEnd { s with rawbuf := b }).bind fun (_, s) =>
  (rawCursor env (i + 1) .set s).map Prod.snd

def rawSwitch (env : Env) (c : UInt8) (s : Raw) : Option Raw :=
  if c = chCr ∨ c = chNl then some { s with done := true }
  else if c = chBs ∨ c = chDel then rawBackspace env s
  else if c = chTab then some s
  else if c = chEsc then rawEscape env s
  else if c = ctrl 'A' then (rawCursor env 0 .set s).map Prod.snd
  else if c = ctrl 'E' then (rawCursor env 0 .fromEnd s).map Prod.snd
  else if c = ctrl 'U' ∨ c = ctrl 'W' then
    whileM (fun s : Raw => decide (s.rawpos ≠ 0)) (rawBackspace env) env.fuel s
  else if c = ctrl 'K' then
    let i := s.rawpos
    (rawCursor env 0 .fromEnd s).bind fun (_, s) =>
    whileM (fun s : Raw => decide (s.rawpos > i)) (rawBackspace env) env.fuel s
  else if c = ctrl 'D' then
    if s.rawpos < s.rawbuf.len then (rawArrow env .right s).bind (rawBackspace env) else some s
  else if c = ctrl 'P' then rawArrow env .up s
  else if c = ctrl 'N' then rawArrow env .down s
  else if c = ctrl 'B' then rawArrow env .left s
  else if c = ctrl 'F' then rawArrow env .right s
  else if c = ctrl 'C' then some { s with rawbuf := { s.rawbuf with buf := none }, done := true }
  else if c = ctrl 'L' then some (putc c s)
  else rawChar env c s

/-- One turn of the loop of `raw_read`. -/
def rawTurn (env : Env) (s : Raw) : Option Raw :=
  (getc s).bind fun (c, s) => rawSwitch env c s

/-- What `raw_read` sets up before its loop; `overwrite` is kept from the last line. -/
def rawInit (env : Env) (s : Raw) : Option Raw :=
  (strbufInit env.heap none strbufGrow).map fun (_, b) =>
    { s with rawbuf := b, rawpos := 0, prevs := fun _ => none, ups := 0, done := false }

/-- `while (prevs[c] && c < HISTSZ) c++`, the walk that frees the saved lines. -/
def cleanupFrom (s : Raw) : Nat → Nat → Option Unit
  | 0, _ => some ()
  | k + 1, c =>
    (prevsAt s c).bind fun p => if p.isSome && decide (c < histsz) then cleanupFrom s k (c + 1)
      else some ()

/-- `raw_read`: the line and the state it leaves. -/
def rawRead (env : Env) (s : Raw) : Option (Option Block × Raw) :=
  (rawInit env s).bind fun s =>
  (whileM (fun s : Raw => !s.done) (rawTurn env) env.fuel s).bind fun s =>
  let s := rawPutc chNl s
  (cleanupFrom s (histsz + 1) 0).map fun _ =>
  match s.rawbuf.buf with
  | some b => (some b, s)
  | none =>
    let p := (malloc env.heap 1).map fun _ => cells []
    (p, { s with rawbuf := { s.rawbuf with buf := p } })

/-- The states between the turns of `raw_read`. -/
def rawTurns (env : Env) : Nat → Raw → Option Raw
  | 0, s => some s
  | n + 1, s => (rawTurn env s).bind (rawTurns env n)

end Console
