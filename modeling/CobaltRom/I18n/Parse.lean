import CobaltRom.Console.Ctype
import CobaltRom.Console.History

/-! `i18n_parse_file` of `common/i18n.c`: a state machine over the characters of a strings file. -/
namespace I18n
open Console (CString Heap stoli strdup)
open Console.Ctype (Before isalpha isblank isspace isxdigit)

abbrev i18nMaxStrings : Nat := 2048
abbrev i18nMaxStrlen : Nat := 2048
abbrev i18nMaxKeylen : Nat := 32
abbrev crfsBlockSize : Nat := 4096

/-- `i18n_strings`, as far as it is filled; `none` is NULL. -/
abbrev Table := List (UInt32 × Option (List UInt8))

def stringNotFound : List UInt8 := "String not found".toList.map fun c => UInt8.ofNat c.toNat

def i18nLookupStr (id : UInt32) (strings : Table) : Option (List UInt8) :=
  match strings.find? (·.1 = id) with
  | some s => s.2
  | none => some stringNotFound

inductive State
  | bol | found0 | foundX | readHex | postHexBlank | foundEq | readString | endString | escape
  | escapedOctal | comment
  deriving DecidableEq

/-- The locals of `i18n_parse_file`, and the table. -/
structure Parser where
  state : State
  tmp : CString
  key : CString
  tmpN : Nat
  keyN : Nat
  tmpVal : UInt32
  chars : Nat
  lineno : Nat
  strings : Table

/-- The parser goes on, or the function returns. -/
inductive Outcome
  | on (p : Parser)
  | ret (r : Int) (strings : Table)

def Parser.goto (p : Parser) (state : State) : Parser := { p with state := state }

/-- `SAVE_VAL_CHAR`: what has no room is dropped. -/
def saveVal (c : UInt8) (p : Parser) : Parser :=
  if p.tmpN < i18nMaxStrlen - 1 then
    { p with tmp := fun i => if i = p.tmpN then c else p.tmp i, tmpN := p.tmpN + 1 }
  else p

/-- `SAVE_KEY_CHAR`. -/
def saveKey (c : UInt8) (p : Parser) : Parser :=
  if p.keyN < i18nMaxKeylen - 1 then
    { p with key := fun i => if i = p.keyN then c else p.key i, keyN := p.keyN + 1 }
  else p

/-- `return -lineno`. -/
def failed (p : Parser) : Option Outcome := some (.ret (-p.lineno) p.strings)

def on (p : Parser) : Option Outcome := some (.on p)

/-- The string at the start of an array of `n` bytes; `none` if no NUL is in it. -/
def textIn (val : CString) (n : Nat) : Option (List UInt8) :=
  if 0 ∈ (List.range n).map val then some (((List.range n).map val).takeWhile (· ≠ 0)) else none

/-- The end of a line: the key is read and the pair goes to the table. `heap n` is what `malloc` has
with `n` strings in the table. `none` is an access behind an array, or a `stoli` without an end.
That `stoli` writes the digits of the key in upper case does not matter to it. -/
def addString (heap : Nat → Heap) (p : Parser) : Option Outcome :=
  match stoli p.key with
  | none => none
  | some (status, tmpVal) =>
    if status ≠ 0 then failed p
    else if p.strings.length < i18nMaxStrings then
      (textIn p.tmp i18nMaxStrlen).map fun text => .on { p with
        state := .bol
        tmpVal := tmpVal
        strings := p.strings ++ [(tmpVal, strdup (heap p.strings.length) text)]
        keyN := 0
        tmpN := 0 }
    else none

/-- The character behind a backslash that is a letter. -/
def escapeChar (c : UInt8) : UInt8 :=
  if c = 0x74 then 0x09      -- t
  else if c = 0x6e then 0x0a -- n
  else if c = 0x62 then 0x08 -- b
  else if c = 0x72 then 0x0d -- r
  else c

def isoctal (c : UInt8) : Bool := 0x30 ≤ c && c ≤ 0x37

def step (before : Before) (heap : Nat → Heap) (p : Parser) (c : UInt8) : Option Outcome :=
  match p.state with
  | .bol =>
    let p := { p with lineno := p.lineno + 1 }
    if p.lineno ≥ i18nMaxStrings then failed p
    else if isspace before c then on p
    else if c = 0x23 then on (p.goto .comment)
    else if c = 0x30 then on ((saveKey c p).goto .found0)
    else failed p
  | .found0 =>
    if c = 0x78 ∨ c = 0x58 then on ((saveKey 0x78 p).goto .foundX)
    else failed p
  | .foundX =>
    if isxdigit before c then on ((saveKey c p).goto .readHex)
    else failed p
  | .readHex =>
    if isxdigit before c then on (saveKey c p)
    else if isblank before c then on ((saveKey 0 p).goto .postHexBlank)
    else if c = 0x3d then on ((saveKey 0 p).goto .foundEq)
    else failed p
  | .postHexBlank =>
    if isblank before c then on p
    else if c = 0x3d then on (p.goto .foundEq)
    else failed p
  | .foundEq =>
    if isblank before c then on p
    else if c = 0x22 then on (p.goto .readString)
    else failed p
  | .readString =>
    if c = 0x22 then on (p.goto .endString)
    else if c = 0x5c then on (p.goto .escape)
    else if c = 0x0a then failed p
    else on (saveVal c p)
  | .endString =>
    if isblank before c then on p
    else if c = 0x0a then addString heap (saveVal 0 p)
    else if c = 0x22 then on (p.goto .readString)
    else failed p
  | .escape =>
    if isoctal c then
      on { p with tmpVal := c.toUInt32 - 0x30, chars := 1, state := .escapedOctal }
    else if isalpha before c then on ((saveVal (escapeChar c) p).goto .readString)
    else on ((saveVal c p).goto .readString)
  | .escapedOctal =>
    if p.chars < 3 ∧ isoctal c then
      on { p with tmpVal := (p.tmpVal <<< 3) + (c.toUInt32 - 0x30), chars := p.chars + 1 }
    else on ((saveVal c (saveVal (p.tmpVal &&& 0xff).toUInt8 p)).goto .readString)
  | .comment =>
    if c = 0x0a then on (p.goto .bol)
    else on p

/-- The characters of one block. -/
def feed (before : Before) (heap : Nat → Heap) : List UInt8 → Parser → Option Outcome
  | [], p => on p
  | c :: cs, p =>
    match step before heap p c with
    | some (.on p) => feed before heap cs p
    | r => r

/-- The blocks that `crfs_read` brings; an empty one, or none, is a result that is not positive. -/
def parseBlocks (before : Before) (heap : Nat → Heap) :
    List (List UInt8) → Parser → Option (Int × Table)
  | [], p => some (0, p.strings)
  | block :: blocks, p =>
    if block = [] then some (0, p.strings)
    else
      match feed before heap block p with
      | some (.on p) => parseBlocks before heap blocks p
      | some (.ret r strings) => some (r, strings)
      | none => none

/-- The buffers and `tmp_val` have no initial value. -/
def Parser.init (tmp key : CString) (tmpVal : UInt32) (strings : Table) : Parser where
  state := .bol
  tmp := tmp
  key := key
  tmpN := 0
  keyN := 0
  tmpVal := tmpVal
  chars := 0
  lineno := 0
  strings := strings

def i18nParseFile (before : Before) (heap : Nat → Heap) (tmp key : CString) (tmpVal : UInt32)
    (blocks : List (List UInt8)) (strings : Table) : Option (Int × Table) :=
  parseBlocks before heap blocks (.init tmp key tmpVal strings)

variable {before : Before} {heap : Nat → Heap} {p q : Parser} {cs cs' : List UInt8} {r : Outcome}
  {blocks : List (List UInt8)}

/-! ### Saving -/

theorem saveVal_goto (c : UInt8) (p : Parser) (state : State) :
    saveVal c (p.goto state) = (saveVal c p).goto state := by
  have hn : (p.goto state).tmpN = p.tmpN := rfl
  rw [saveVal, saveVal, hn]
  split <;> rfl

theorem saveVal_state (c : UInt8) (p : Parser) : (saveVal c p).state = p.state := by
  rw [saveVal]
  split <;> rfl

theorem goto_self {state : State} (h : p.state = state) : p.goto state = p := by
  rw [Parser.goto, ← h]

/-! ### Feeding -/

theorem feed_append (h : feed before heap cs p = on q) :
    feed before heap (cs ++ cs') p = feed before heap cs' q := by
  induction cs generalizing p with
  | nil =>
    cases h
    rfl
  | cons c cs ih =>
    rw [feed] at h
    rw [List.cons_append, feed]
    split at h
    case h_1 next hstep => exact ih h
    case h_2 hno => exact absurd h (hno q)

theorem feed_cons {c : UInt8} (h : step before heap p c = on q) :
    feed before heap (c :: cs) p = feed before heap cs q := by
  rw [feed, h]
  rfl

/-- A run to the end of a text goes through the end of each part. -/
theorem feed_split (h : feed before heap (cs ++ cs') p = on q) :
    ∃ p', feed before heap cs p = on p' ∧ feed before heap cs' p' = on q := by
  induction cs generalizing p with
  | nil => exact ⟨p, rfl, h⟩
  | cons c cs ih =>
    rw [List.cons_append, feed] at h
    split at h
    case h_1 next hstep =>
      obtain ⟨p', hfirst, hrest⟩ := ih h
      refine ⟨p', ?_, hrest⟩
      rw [feed, hstep]
      exact hfirst
    case h_2 hno => exact absurd h (hno q)

/-- How the file is cut into blocks does not matter. -/
theorem parseBlocks_flatten (hblocks : ∀ block ∈ blocks, block ≠ [])
    (h : feed before heap blocks.flatten p = on q) :
    parseBlocks before heap blocks p = some (0, q.strings) := by
  induction blocks generalizing p with
  | nil =>
    cases h
    rfl
  | cons block blocks ih =>
    rw [List.flatten_cons] at h
    obtain ⟨p', hfirst, hrest⟩ := feed_split h
    rw [parseBlocks, if_neg (hblocks block List.mem_cons_self), hfirst]
    exact ih (fun b hb => hblocks b (List.mem_cons_of_mem block hb)) hrest

end I18n
