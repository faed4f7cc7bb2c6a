import CobaltRom.Console.History
import CobaltRom.Console.Ctype

/-! `readline` of `common/readline.c`: history expansion and quoting of the raw line. -/
namespace Console

abbrev chBang : UInt8 := 33
abbrev chBackslash : UInt8 := 92
abbrev chDquote : UInt8 := 34
abbrev chSquote : UInt8 := 39

inductive RlState
  | fail
  | success
  | line
  | bang
  | bangnum
  | bangstr
  | slashesc
  | sqstr
  | dqstr
deriving DecidableEq

abbrev bbufsz : Nat := 128

/-- `char bbuf[128]`. -/
abbrev KeyBuf := { l : List UInt8 // l.length = bbufsz }

/-- What the state machine runs with: the heap, the history, and what lies in memory that it
has not written: in front of the `ctype` table, and above `bbuf` up to a NUL. -/
structure ScanEnv where
  heap : Heap
  hist : History
  before : Ctype.Before
  above : List UInt8

/-- The locals of `readline`, with what it has printed. -/
structure Scan where
  state : RlState
  pushed : RlState
  ptr : Nat
  buf : Strbuf
  bbuf : KeyBuf
  bi : Nat
  bangflag : Bool
  out : List UInt8

/-- An access outside the raw line, outside `bbuf` or outside the result. -/
inductive Fault
  | line
  | key
  | buf
deriving DecidableEq

def chars (s : String) : List UInt8 := s.toList.map fun c => c.toNat.toUInt8

def Scan.printf (s : Scan) (text : List UInt8) : Scan := { s with out := s.out ++ text }

/-- The string in `bbuf`. -/
def bbufKey (env : ScanEnv) (s : Scan) : List UInt8 := (s.bbuf.val ++ env.above).takeWhile (· ≠ 0)

/-- `strbuf_append (&buf, str)`, whatever it returns. -/
def putStr (env : ScanEnv) (str : List UInt8) (s : Scan) : Except Fault Scan :=
  match strbufAppend env.heap s.buf str with
  | none => .error .buf
  | some (_, b) => .ok { s with buf := b }

def putChar (env : ScanEnv) (c : UInt8) (s : Scan) : Except Fault Scan :=
  match strbufAppendc env.heap s.buf c with
  | none => .error .buf
  | some (_, b) => .ok { s with buf := b }

/-- `bbuf[bi++] = c; bbuf[bi] = '\0'`. -/
def putKey (c : UInt8) (s : Scan) : Except Fault Scan :=
  if s.bi + 1 < bbufsz then
    .ok { s with
      bbuf := ⟨(s.bbuf.val.set s.bi c).set (s.bi + 1) 0, by simp [s.bbuf.property]⟩
      bi := s.bi + 1 }
  else
    .error .key

/-- `stoli (bbuf, &n)` with its result ignored. -/
def bangNumber (env : ScanEnv) (s : Scan) : Option Int32 :=
  (stoli (cstring (s.bbuf.val ++ env.above))).map fun r => r.2.toInt32

def lineTurn (env : ScanEnv) (c : UInt8) (s : Scan) : Except Fault Scan :=
  if c = 0 then .ok { s with state := .success }
  else if c = chBang then .ok { s with pushed := s.state, state := .bang }
  else if c = chBackslash then .ok { s with state := .slashesc }
  else if c = chSquote then
    (putChar env c { s with pushed := s.state }).map fun s => { s with state := .sqstr }
  else if c = chDquote then (putChar env c s).map fun s => { s with state := .dqstr }
  else putChar env c s

/-- `ptr` is behind `c`, so pushing back is `ptr--`. -/
def bangTurn (env : ScanEnv) (c : UInt8) (s : Scan) : Except Fault Scan :=
  if c = chBang then
    let s := { s with bangflag := true }
    match histlookupNum env.hist (env.hist.histnum - 1) with
    | some p => (putStr env p s).map fun s => { s with state := .line }
    | none => .ok { s.printf (chars "!!: no such history entry\n") with state := .fail }
  else if Ctype.isdigit env.before c then
    .ok { s with bangflag := true, ptr := s.ptr - 1, state := .bangnum }
  else if Ctype.isalnum env.before c then
    .ok { s with bangflag := true, ptr := s.ptr - 1, state := .bangstr }
  else
    .ok { s.printf (chars "!: syntax error\n") with state := .fail }

def bangnumTurn (env : ScanEnv) (c : UInt8) (s : Scan) : Except Fault Scan :=
  if Ctype.isdigit env.before c then putKey c s
  else
    match bangNumber env s with
    | none => .error .key
    | some n =>
      match histlookupNum env.hist n with
      | some p =>
        (putStr env p s).map fun s => { s with ptr := s.ptr - 1, state := s.pushed, bi := 0 }
      | none =>
        .ok { s.printf (chars "!" ++ chars (toString n.toInt) ++
            chars ": no such history entry\n") with
          state := .fail, bi := 0 }

def bangstrTurn (env : ScanEnv) (c : UInt8) (s : Scan) : Except Fault Scan :=
  if c ≠ 0 ∧ Ctype.isspace env.before c = false then putKey c s
  else
    match histlookupStr env.hist (bbufKey env s) with
    | some p =>
      (putStr env p s).map fun s => { s with ptr := s.ptr - 1, state := s.pushed, bi := 0 }
    | none =>
      .ok { s.printf (chars "!" ++ bbufKey env s ++ chars ": no such history entry\n") with
        state := .fail, bi := 0 }

def sqstrTurn (env : ScanEnv) (c : UInt8) (s : Scan) : Except Fault Scan :=
  if c = chSquote then (putChar env c s).map fun s => { s with state := s.pushed }
  else if c = 0 then .ok { s.printf (chars "unterminated '\n") with state := .fail }
  else putChar env c s

def dqstrTurn (env : ScanEnv) (c : UInt8) (s : Scan) : Except Fault Scan :=
  if c = chDquote then (putChar env c s).map fun s => { s with state := .line }
  else if c = 0 then .ok { s.printf (chars "unterminated \"\n") with state := .fail }
  else if c = chBang then .ok { s with pushed := s.state, state := .bang }
  else if c = chSquote then
    (putChar env c { s with pushed := s.state }).map fun s => { s with state := .sqstr }
  else putChar env c s

/-- One turn of the loop of `readline` on the raw line. -/
def scanTurn (env : ScanEnv) (raw : Option Block) (s : Scan) : Except Fault Scan :=
  match load raw s.ptr with
  | none => .error .line
  | some c =>
    let s := { s with ptr := s.ptr + 1 }
    match s.state with
    | .line => lineTurn env c s
    | .bang => bangTurn env c s
    | .bangnum => bangnumTurn env c s
    | .bangstr => bangstrTurn env c s
    | .slashesc => (putChar env c s).map fun s => { s with state := .line }
    | .sqstr => sqstrTurn env c s
    | .dqstr => dqstrTurn env c s
    | .success => .ok { s.printf (chars "readline: invalid state 0\n") with state := .fail }
    | .fail => .ok { s.printf (chars "readline: invalid state -1\n") with state := .fail }

def Scan.ended (s : Scan) : Bool := s.state = .success ∨ s.state = .fail

/-- `while (state != ST_SUCCESS && state != ST_FAIL)`; `none` when the turns run out. -/
def scanLoop (env : ScanEnv) (raw : Option Block) : Nat → Scan → Option (Except Fault Scan)
  | 0, s => if s.ended then some (.ok s) else none
  | fuel + 1, s =>
    if s.ended then some (.ok s)
    else
      match scanTurn env raw s with
      | .error f => some (.error f)
      | .ok s => scanLoop env raw fuel s

/-- `strbuf_init (&buf, strdup (""), STRBUF_GROW)`, and the other locals; `bbuf` has no initial
value. -/
def scanInit (env : ScanEnv) (bbuf : KeyBuf) : Except Fault Scan :=
  match strbufInit env.heap ((malloc env.heap 1).map fun _ => cells []) strbufGrow with
  | none => .error .buf
  | some (_, b) =>
    .ok { state := .line, pushed := .fail, ptr := 0, buf := b, bbuf := bbuf, bi := 0,
          bangflag := false, out := [] }

/-- The characters before the NUL. -/
def blockText : Block → Option (List UInt8)
  | [] => none
  | none :: _ => none
  | some c :: p => if c = 0 then some [] else (blockText p).map (c :: ·)

/-- The end of `readline`: a line that succeeded is saved, unless the raw line is empty, and
echoed if it was expanded. -/
def scanEnd (env : ScanEnv) (ring : Ring) (raw : Option Block) (s : Scan) :
    Except Fault (Option Block × Ring × List UInt8) :=
  if s.state = .success then
    match load raw 0 with
    | none => .error .line
    | some c =>
      if c = 0 then .ok (s.buf.buf, ring, s.out)
      else
        match s.buf.buf.bind blockText with
        | none => .error .buf
        | some line =>
          .ok (s.buf.buf, (saveline env.heap ring line).2,
            if s.bangflag then s.out ++ line ++ chars "\n" else s.out)
  else
    .ok (s.buf.buf, ring, s.out)

/-- `readline`: the line it returns, the history and the state of the raw input; `none` when
the keyboard or the turns run out. -/
def readline (env : Env) (before : Ctype.Before) (bbuf : KeyBuf) (above : List UInt8) (ring : Ring)
    (s : Raw) : Option (Except Fault (Option Block × Ring × Raw)) :=
  (rawRead { env with hist := ring.hist } s).bind fun r =>
  let scanEnv : ScanEnv :=
    { heap := env.heap, hist := ring.hist, before := before, above := above }
  match scanInit scanEnv bbuf with
  | .error f => some (.error f)
  | .ok t =>
    (scanLoop scanEnv r.1 env.fuel t).map fun t =>
      (t.bind (scanEnd scanEnv ring r.1)).map fun e =>
        (e.1, e.2.1, { r.2 with rawbuf := { r.2.rawbuf with buf := e.1 }, out := r.2.out ++ e.2.2 })

end Console
