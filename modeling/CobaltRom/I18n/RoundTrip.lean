import CobaltRom.Console.Stoli
import CobaltRom.I18n.Parse

/-! A strings file that is written line by line is read back, however it is cut into blocks. -/
namespace I18n
open Console (CString Heap HexDigits numValue stoli strdup)
open Console.Ctype (Before)

/-! ### Strings files -/

/-- A character of a text between the quotes: as it is, or escaped. -/
inductive Rendered : UInt8 → List UInt8 → Prop
  | plain {c : UInt8} (h : c ≠ 0x0a ∧ c ≠ 0x22 ∧ c ≠ 0x5c) : Rendered c [c]
  | newline : Rendered 0x0a [0x5c, 0x6e]
  | quote : Rendered 0x22 [0x5c, 0x22]
  | backslash : Rendered 0x5c [0x5c, 0x5c]
  | tab : Rendered 0x09 [0x5c, 0x74]
  | backspace : Rendered 0x08 [0x5c, 0x62]
  | ret : Rendered 0x0d [0x5c, 0x72]

def Blanks (l : List UInt8) : Prop := ∀ c ∈ l, c = 0x20 ∨ c = 0x09

/-- `0x`, hex digits, blanks, `=`, blanks, the text in quotes, blanks and a newline. -/
def RenderedLine (id : UInt32) (text line : List UInt8) : Prop :=
  ∃ ds b₁ b₂ pieces b₃, HexDigits ds ∧ numValue 16 ds = id.toNat ∧ Blanks b₁ ∧
  Blanks b₂ ∧ Blanks b₃ ∧
    List.Forall₂ Rendered text pieces ∧
    line = [0x30, 0x78] ++ (ds ++ (b₁ ++ [0x3d] ++ (b₂ ++ [0x22] ++ (pieces.flatten ++
      ([0x22] ++ (b₃ ++ [0x0a]))))))

def RenderedFile (pairs : List (UInt32 × List UInt8)) (file : List UInt8) : Prop :=
  ∃ lines, List.Forall₂ (fun x line => RenderedLine x.1 x.2 line) pairs lines ∧ file = lines.flatten

/-! ### Where the parser is -/

/-- The first characters of an array, as many as have been saved. -/
def Holds (buf : CString) (n : Nat) (l : List UInt8) : Prop :=
  n = l.length ∧ ∀ i < l.length, buf i = l.getD i 0

/-- The state, what has been saved of the line, and what has been read before it. -/
structure At (p : Parser) (state : State) (key val : List UInt8) (lineno : Nat) (strings : Table) :
    Prop where
  state : p.state = state
  key : Holds p.key p.keyN key
  val : Holds p.tmp p.tmpN val
  lineno : p.lineno = lineno
  strings : p.strings = strings

/-- The parser gets through the characters. -/
def Goes (before : Before) (heap : Nat → Heap) (cs : List UInt8) (p : Parser) (state : State)
    (key val : List UInt8) (lineno : Nat) (strings : Table) : Prop :=
  ∃ q, feed before heap cs p = on q ∧ At q state key val lineno strings

variable {before : Before} {heap : Nat → Heap} {p : Parser} {state state' : State}
  {key val key' val' cs cs' ds b text : List UInt8} {lineno lineno' : Nat}
  {strings strings' : Table}
  {buf : CString} {n : Nat} {c : UInt8} {id : UInt32}

theorem Goes.trans (h : Goes before heap cs p state key val lineno strings)
    (hrest : ∀ q, At q state key val lineno strings →
      Goes before heap cs' q state' key' val' lineno' strings') :
    Goes before heap (cs ++ cs') p state' key' val' lineno' strings' := by
  obtain ⟨q, hfeed, hq⟩ := h
  obtain ⟨q', hfeed', hq'⟩ := hrest q hq
  exact ⟨q', (feed_append hfeed).trans hfeed', hq'⟩

theorem goes_nil (h : At p state key val lineno strings) :
    Goes before heap [] p state key val lineno strings := ⟨p, rfl, h⟩

theorem goes_step {q : Parser} (hstep : step before heap p c = on q)
    (h : At q state key val lineno strings) : Goes before heap [c] p state key val lineno strings :=
  ⟨q, feed_cons hstep, h⟩

theorem At.goto (h : At p state key val lineno strings) (state' : State) :
    At (p.goto state') state' key val lineno strings :=
  ⟨rfl, h.key, h.val, h.lineno, h.strings⟩

theorem Holds.snoc (h : Holds buf n val) (c : UInt8) :
    Holds (fun i => if i = n then c else buf i) (n + 1) (val ++ [c]) := by
  obtain ⟨rfl, hbuf⟩ := h
  refine ⟨by simp, fun i hi => ?_⟩
  rw [List.length_append, List.length_singleton] at hi
  dsimp only
  split
  case isTrue hlast =>
    subst hlast
    simp
  case isFalse hne =>
    rw [hbuf i (by omega), List.getD_append _ _ _ _ (by omega)]

theorem At.saveVal (h : At p state key val lineno strings) (hroom : val.length < 2047) (c : UInt8) :
    At (saveVal c p) state key (val ++ [c]) lineno strings := by
  have hlt : p.tmpN < i18nMaxStrlen - 1 := h.val.1.trans_lt hroom
  rw [I18n.saveVal, if_pos hlt]
  exact ⟨h.state, h.key, h.val.snoc c, h.lineno, h.strings⟩

theorem At.saveKey (h : At p state key val lineno strings) (hroom : key.length < 31) (c : UInt8) :
    At (saveKey c p) state (key ++ [c]) val lineno strings := by
  have hlt : p.keyN < i18nMaxKeylen - 1 := h.key.1.trans_lt hroom
  rw [I18n.saveKey, if_pos hlt]
  exact ⟨h.state, h.key.snoc c, h.val, h.lineno, h.strings⟩

/-! ### The id -/

theorem isspace_zero (before : Before) : Console.Ctype.isspace before 0x30 = false :=
  (Console.Ctype.isChar_of_lt before Console.Ctype.space (by decide)).trans (by decide)

theorem goes_zero (h : At p .bol [] [] lineno strings) (hline : lineno + 1 < 2048) :
    Goes before heap [0x30] p .found0 [0x30] [] (lineno + 1) strings := by
  have hcount : ¬ p.lineno + 1 ≥ i18nMaxStrings := by
    rw [h.lineno]
    exact Nat.not_le.mpr hline
  have hat : At { p with lineno := p.lineno + 1 } .bol [] [] (lineno + 1) strings :=
    ⟨h.state, h.key, h.val, congrArg (· + 1) h.lineno, h.strings⟩
  refine goes_step ?_ ((hat.saveKey (by decide) 0x30).goto .found0)
  rw [step, h.state]
  dsimp only
  rw [if_neg hcount, isspace_zero]
  rfl

theorem goes_mark (h : At p .found0 key val lineno strings) (hroom : key.length < 31) :
    Goes before heap [0x78] p .foundX (key ++ [0x78]) val lineno strings := by
  refine goes_step ?_ ((h.saveKey hroom 0x78).goto .foundX)
  rw [step, h.state]
  rfl

theorem isxdigit_true (hc : Console.isxdigit c = true) :
    Console.Ctype.isxdigit before c = true := by
  have hlt : ∀ c, Console.isxdigit c = true → c < 128 := by decide +kernel
  rw [Console.Ctype.isxdigit_of_lt (hlt c hc), hc]

theorem goes_digits (hds : ∀ c ∈ ds, Console.isxdigit c = true) : ∀ {p : Parser} {key : List UInt8},
    At p .readHex key val lineno strings → key.length + ds.length < 31 →
      Goes before heap ds p .readHex (key ++ ds) val lineno strings := by
  induction ds with
  | nil =>
    intro p key h _
    rw [List.append_nil]
    exact goes_nil h
  | cons c ds ih =>
    intro p key h hroom
    rw [List.length_cons] at hroom
    have hfirst : Goes before heap [c] p .readHex (key ++ [c]) val lineno strings := by
      refine goes_step ?_ (h.saveKey (by omega) c)
      rw [step, h.state]
      dsimp only
      rw [if_pos (isxdigit_true (hds c List.mem_cons_self))]
    have hkey : key ++ c :: ds = key ++ [c] ++ ds := by simp
    rw [hkey]
    refine hfirst.trans fun q hq => ih (fun d hd => hds d (List.mem_cons_of_mem c hd)) hq ?_
    rw [List.length_append, List.length_singleton]
    omega

theorem goes_hex (h : At p .foundX key val lineno strings) (hds : HexDigits ds)
    (hroom : key.length < 20) : Goes before heap ds p .readHex (key ++ ds) val lineno strings := by
  obtain ⟨hpos, hle, hdig⟩ := hds
  cases ds with
  | nil => exact absurd hpos (by decide)
  | cons c ds =>
    rw [List.length_cons] at hle
    have hfirst : Goes before heap [c] p .readHex (key ++ [c]) val lineno strings := by
      refine goes_step ?_ ((h.saveKey (by omega) c).goto .readHex)
      rw [step, h.state]
      dsimp only
      rw [if_pos (isxdigit_true (hdig c List.mem_cons_self))]
    have hkey : key ++ c :: ds = key ++ [c] ++ ds := by simp
    rw [hkey]
    refine hfirst.trans fun q hq =>
      goes_digits (fun d hd => hdig d (List.mem_cons_of_mem c hd)) hq ?_
    rw [List.length_append, List.length_singleton]
    omega

/-! ### Blanks -/

theorem isblank_true (hc : c = 0x20 ∨ c = 0x09) : Console.Ctype.isblank before c = true := by
  rcases hc with rfl | rfl
  · exact (Console.Ctype.isblank_of_lt (by decide)).trans (by decide)
  · exact (Console.Ctype.isblank_of_lt (by decide)).trans (by decide)

theorem isxdigit_blank (hc : c = 0x20 ∨ c = 0x09) : Console.Ctype.isxdigit before c = false := by
  rcases hc with rfl | rfl
  · exact (Console.Ctype.isxdigit_of_lt (by decide)).trans (by decide)
  · exact (Console.Ctype.isxdigit_of_lt (by decide)).trans (by decide)

/-- The states in which blanks are passed over. -/
theorem goes_blanks (hstate : state = .postHexBlank ∨ state = .foundEq ∨ state = .endString)
    (hb : Blanks b) (h : At p state key val lineno strings) :
    Goes before heap b p state key val lineno strings := by
  induction b with
  | nil => exact goes_nil h
  | cons c b ih =>
    obtain ⟨q, hfeed, hq⟩ := ih fun d hd => hb d (List.mem_cons_of_mem c hd)
    refine ⟨q, (feed_cons ?_).trans hfeed, hq⟩
    have hblank : Console.Ctype.isblank before c = true := isblank_true (hb c List.mem_cons_self)
    rw [step, h.state]
    rcases hstate with rfl | rfl | rfl <;> exact if_pos hblank

theorem goes_equals (h : At p .readHex key val lineno strings) (hroom : key.length < 31)
    (hb : Blanks b) :
    Goes before heap (b ++ [0x3d]) p .foundEq (key ++ [0]) val lineno strings := by
  cases b with
  | nil =>
    have hx : Console.Ctype.isxdigit before 0x3d = false :=
      (Console.Ctype.isxdigit_of_lt (by decide)).trans (by decide)
    have hblank : Console.Ctype.isblank before 0x3d = false :=
      (Console.Ctype.isblank_of_lt (by decide)).trans (by decide)
    refine goes_step ?_ ((h.saveKey hroom 0).goto .foundEq)
    rw [step, h.state]
    dsimp only
    rw [hx, hblank]
    rfl
  | cons c b =>
    have hc := hb c List.mem_cons_self
    have hfirst : Goes before heap [c] p .postHexBlank (key ++ [0]) val lineno strings := by
      refine goes_step ?_ ((h.saveKey hroom 0).goto .postHexBlank)
      rw [step, h.state]
      dsimp only
      rw [isxdigit_blank hc, isblank_true hc]
      rfl
    have hrest : ∀ q, At q .postHexBlank (key ++ [0]) val lineno strings →
        Goes before heap [0x3d] q .foundEq (key ++ [0]) val lineno strings := by
      intro q hq
      have hblank : Console.Ctype.isblank before 0x3d = false :=
        (Console.Ctype.isblank_of_lt (by decide)).trans (by decide)
      refine goes_step ?_ (hq.goto .foundEq)
      rw [step, hq.state]
      dsimp only
      rw [hblank]
      rfl
    refine hfirst.trans fun q hq => ?_
    exact (goes_blanks (Or.inl rfl) (fun d hd => hb d (List.mem_cons_of_mem c hd)) hq).trans hrest

theorem goes_quote (h : At p .foundEq key val lineno strings) (hb : Blanks b) :
    Goes before heap (b ++ [0x22]) p .readString key val lineno strings := by
  refine (goes_blanks (Or.inr (Or.inl rfl)) hb h).trans fun q hq =>
    goes_step ?_ (hq.goto .readString)
  have hblank : Console.Ctype.isblank before 0x22 = false :=
    (Console.Ctype.isblank_of_lt (by decide)).trans (by decide)
  rw [step, hq.state]
  dsimp only
  rw [hblank]
  rfl

/-! ### The text -/

/-- A backslash and a character that is no octal digit. -/
theorem goes_escape (h : At p .readString key val lineno strings) (hroom : val.length < 2047)
    (hoctal : isoctal c = false) : Goes before heap [0x5c, c] p .readString key
      (val ++ [if Console.Ctype.isalpha before c then escapeChar c else c]) lineno strings := by
  have hback : Goes before heap [0x5c] p .escape key val lineno strings := by
    refine goes_step ?_ (h.goto .escape)
    rw [step, h.state]
    rfl
  refine hback.trans fun q hq => ?_
  by_cases halpha : Console.Ctype.isalpha before c = true
  · rw [if_pos halpha]
    refine goes_step ?_ ((hq.saveVal hroom (escapeChar c)).goto .readString)
    rw [step, hq.state]
    dsimp only
    rw [hoctal, if_neg (by decide), if_pos halpha]
  · rw [if_neg halpha]
    refine goes_step ?_ ((hq.saveVal hroom c).goto .readString)
    rw [step, hq.state]
    dsimp only
    rw [hoctal, if_neg (by decide), if_neg halpha]

theorem goes_char {piece : List UInt8} (hpiece : Rendered c piece)
    (h : At p .readString key val lineno strings) (hroom : val.length < 2047) :
    Goes before heap piece p .readString key (val ++ [c]) lineno strings := by
  have hescape : ∀ d : UInt8, isoctal d = false → d < 128 →
      (if (0x41 ≤ d && d ≤ 0x5a) || (0x61 ≤ d && d ≤ 0x7a) then escapeChar d else d) = c →
      Goes before heap [0x5c, d] p .readString key (val ++ [c]) lineno strings := by
    intro d hoctal hlt hd
    rw [← Console.Ctype.isalpha_of_lt hlt] at hd
    rw [← hd]
    exact goes_escape h hroom hoctal
  cases hpiece with
  | plain hc =>
    obtain ⟨hnewline, hquote, hback⟩ := hc
    refine goes_step ?_ (h.saveVal hroom c)
    rw [step, h.state]
    dsimp only
    rw [if_neg hquote, if_neg hback, if_neg hnewline]
  | newline => exact hescape 0x6e (by decide) (by decide) (by decide)
  | quote => exact hescape 0x22 (by decide) (by decide) (by decide)
  | backslash => exact hescape 0x5c (by decide) (by decide) (by decide)
  | tab => exact hescape 0x74 (by decide) (by decide) (by decide)
  | backspace => exact hescape 0x62 (by decide) (by decide) (by decide)
  | ret => exact hescape 0x72 (by decide) (by decide) (by decide)

theorem goes_text {pieces : List (List UInt8)} (hpieces : List.Forall₂ Rendered text pieces) :
    ∀ {p : Parser} {val : List UInt8}, At p .readString key val lineno strings →
      val.length + text.length < 2047 →
      Goes before heap pieces.flatten p .readString key (val ++ text) lineno strings := by
  induction hpieces with
  | nil =>
    intro p val h _
    rw [List.append_nil]
    exact goes_nil h
  | @cons c piece text pieces hpiece _ ih =>
    intro p val h hroom
    rw [List.length_cons] at hroom
    have hval : val ++ c :: text = val ++ [c] ++ text := by simp
    rw [List.flatten_cons, hval]
    refine (goes_char hpiece h (by omega)).trans fun q hq => ih hq ?_
    rw [List.length_append, List.length_singleton]
    omega

/-! ### The end of a line -/

/-- The text saved is what the array holds up to its NUL. -/
theorem textIn_holds (h : Holds buf n (text ++ [0])) (hlen : text.length < 2048)
    (hnul : (0 : UInt8) ∉ text) : textIn buf 2048 = some text := by
  obtain ⟨-, hbuf⟩ := h
  rw [List.length_append, List.length_singleton] at hbuf
  obtain ⟨left, hleft⟩ : ∃ left, 2048 = text.length + (left + 1) := ⟨2047 - text.length, by omega⟩
  have htext : (List.range text.length).map buf = text := by
    refine List.ext_getElem (by simp) fun i hi hi' => ?_
    rw [List.getElem_map, List.getElem_range, hbuf i (by omega), List.getD_append _ _ _ _ hi',
      List.getD_eq_getElem text 0 hi']
  have hzero : buf text.length = 0 := by
    rw [hbuf _ (Nat.lt_succ_self _), List.getD_append_right _ _ _ _ le_rfl, Nat.sub_self]
    rfl
  have harray : ∃ rest, (List.range 2048).map buf = text ++ 0 :: rest := by
    rw [hleft, List.range_add, List.map_append, htext, List.range_succ_eq_map, List.map_cons,
      List.map_cons, Nat.add_zero, hzero]
    exact ⟨_, rfl⟩
  obtain ⟨rest, hrest⟩ := harray
  have hpos : ∀ c ∈ text, decide (c ≠ 0) = true := by
    intro c hc
    rw [decide_eq_true_eq]
    rintro rfl
    exact hnul hc
  rw [textIn, hrest, if_pos (by simp), List.takeWhile_append_of_pos hpos, List.takeWhile_cons]
  simp

theorem stoli_key (h : Holds buf n ([0x30, 0x78] ++ ds ++ [0])) (hds : HexDigits ds)
    (hid : numValue 16 ds = id.toNat) : stoli buf = some (0, id) := by
  obtain ⟨-, hbuf⟩ := h
  have hlen : ([0x30, 0x78] ++ ds ++ [(0 : UInt8)]).length = ds.length + 3 := by simp
  rw [hlen] at hbuf
  have hnul : ∀ c ∈ ds, c ≠ 0 := by
    rintro _ hc rfl
    exact absurd (hds.2.2 0 hc) (by decide)
  have hhex : Console.Hex buf 0x30 0x78 ds := by
    refine ⟨?_, Or.inl rfl, hbuf 0 (by omega), hbuf 1 (by omega), fun i hi => ?_⟩
    · simp only [List.mem_cons, not_or]
      exact ⟨by decide, by decide, fun hmem => hnul 0 hmem rfl⟩
    · have hlist : [0x30, 0x78] ++ ds ++ [(0 : UInt8)] = 0x30 :: 0x78 :: (ds ++ [0]) := rfl
      rw [hbuf (2 + i) (by omega), hlist, Nat.add_comm 2 i, List.getD_cons_succ,
        List.getD_cons_succ]
      rcases hi.lt_or_eq with hlt | rfl
      · exact List.getD_append _ _ _ _ hlt
      · rw [List.getD_append_right _ _ _ _ le_rfl, Nat.sub_self, List.getD_eq_default _ _ le_rfl]
        rfl
  have hval : Console.accumulate 16 0 ds = id := by
    refine UInt32.toNat_inj.mp ((Console.accumulate_numValue 16 ds).trans ?_)
    rw [← hid]
    exact Nat.mod_eq_of_lt (Console.numValue_hex_lt hds)
  rw [Console.stoli_hex hhex hds, hval]

/-- The closing quote, blanks and the newline: the pair is in the table. -/
theorem goes_end (h : At p .readString ([0x30, 0x78] ++ ds ++ [0]) text lineno strings)
    (hb : Blanks b) (hds : HexDigits ds) (hid : numValue 16 ds = id.toNat)
    (hlen : text.length ≤ 2046)
    (hnul : (0 : UInt8) ∉ text) (htable : strings.length < 2048) :
    Goes before heap ([0x22] ++ (b ++ [0x0a])) p .bol [] [] lineno
      (strings ++ [(id, strdup (heap strings.length) text)]) := by
  have hquote : Goes before heap [0x22] p .endString ([0x30, 0x78] ++ ds ++ [0]) text
      lineno strings := by
    refine goes_step ?_ (h.goto .endString)
    rw [step, h.state]
    rfl
  refine hquote.trans fun q hq => (goes_blanks (Or.inr (Or.inr rfl)) hb hq).trans fun q hq => ?_
  have hsaved := hq.saveVal (by omega) 0
  have hblank : Console.Ctype.isblank before 0x0a = false :=
    (Console.Ctype.isblank_of_lt (by decide)).trans (by decide)
  refine goes_step (q := { saveVal 0 q with
    state := .bol
    tmpVal := id
    strings := strings ++ [(id, strdup (heap strings.length) text)]
    keyN := 0
    tmpN := 0 }) ?_ ⟨rfl, ⟨rfl, fun i hi => absurd hi (Nat.not_lt_zero i)⟩,
      ⟨rfl, fun i hi => absurd hi (Nat.not_lt_zero i)⟩, hsaved.lineno, rfl⟩
  rw [step, hq.state]
  dsimp only
  rw [hblank, if_neg (by decide), if_pos rfl, addString, stoli_key hsaved.key hds hid]
  dsimp only
  rw [if_neg (by decide), hsaved.strings, if_pos htable, textIn_holds hsaved.val (by omega) hnul]
  rfl

/-! ### Lines and files -/

theorem goes_line {line : List UInt8} (hline : RenderedLine id text line)
    (h : At p .bol [] [] lineno strings) (hcount : lineno + 1 < 2048) (hlen : text.length ≤ 2046)
    (hnul : (0 : UInt8) ∉ text) (htable : strings.length < 2048) :
    Goes before heap line p .bol [] [] (lineno + 1)
      (strings ++ [(id, strdup (heap strings.length) text)]) := by
  obtain ⟨ds, b₁, b₂, pieces, b₃, hds, hid, hb₁, hb₂, hb₃, hpieces, rfl⟩ := hline
  have hmark : Goes before heap [0x30, 0x78] p .foundX [0x30, 0x78] [] (lineno + 1) strings :=
    (goes_zero h hcount).trans fun q hq => goes_mark hq (by decide)
  have hdslen := hds.2.1
  refine hmark.trans fun q hq => (goes_hex hq hds (by decide)).trans fun q hq => ?_
  refine (goes_equals hq ?_ hb₁).trans fun q hq => (goes_quote hq hb₂).trans fun q hq => ?_
  · rw [List.length_append]
    change 2 + ds.length < 31
    omega
  · have hroom : ([] : List UInt8).length + text.length < 2047 := by
      rw [List.length_nil]
      omega
    refine (goes_text hpieces hq hroom).trans fun q hq => ?_
    exact goes_end hq hb₃ hds hid hlen hnul htable

/-- The table after a list of pairs, with what `strdup` has made of the texts. -/
def tableFrom (heap : Nat → Heap) (n : Nat) (pairs : List (UInt32 × List UInt8)) : Table :=
  pairs.mapIdx fun i x => (x.1, strdup (heap (n + i)) x.2)

theorem goes_file {pairs : List (UInt32 × List UInt8)} {lines : List (List UInt8)}
    (hlines : List.Forall₂ (fun x line => RenderedLine x.1 x.2 line) pairs lines) :
    ∀ {p : Parser} {lineno : Nat} {strings : Table}, At p .bol [] [] lineno strings →
      lineno + pairs.length < 2048 → strings.length ≤ lineno →
      (∀ x ∈ pairs, (0 : UInt8) ∉ x.2 ∧ x.2.length ≤ 2046) →
      Goes before heap lines.flatten p .bol [] [] (lineno + pairs.length)
        (strings ++ tableFrom heap strings.length pairs) := by
  induction hlines with
  | nil =>
    intro p lineno strings h _ _ _
    rw [tableFrom, List.mapIdx_nil, List.append_nil]
    exact goes_nil h
  | @cons x line pairs lines hline _ ih =>
    intro p lineno strings h hcount htable htexts
    obtain ⟨hnul, hlen⟩ := htexts x List.mem_cons_self
    rw [List.length_cons] at hcount
    have htableFrom : strings ++ tableFrom heap strings.length (x :: pairs) =
        strings ++ [(x.1, strdup (heap strings.length) x.2)] ++
          tableFrom heap (strings.length + 1) pairs := by
      simp [tableFrom, List.mapIdx_cons, Nat.add_assoc, Nat.add_comm 1]
    have hcount' : lineno + (x :: pairs).length = lineno + 1 + pairs.length := by
      rw [List.length_cons]
      omega
    rw [List.flatten_cons, htableFrom, hcount']
    refine (goes_line hline h (by omega) hlen hnul (by omega)).trans fun q hq => ?_
    have hrest := ih hq (by omega) ?_ fun y hy => htexts y (List.mem_cons_of_mem x hy)
    · rwa [List.length_append, List.length_singleton] at hrest
    · rw [List.length_append, List.length_singleton]
      omega

/-- Where `malloc` has memory for every text, the table has the texts. -/
theorem tableFrom_served {pairs : List (UInt32 × List UInt8)}
    (hheap : ∀ i x, pairs[i]? = some x → heap i (x.2.length + 1) = true) :
    tableFrom heap 0 pairs = pairs.map fun x => (x.1, some x.2) := by
  refine List.ext_getElem? fun i => ?_
  rw [tableFrom, List.getElem?_mapIdx, List.getElem?_map]
  cases hi : pairs[i]? with
  | none => rfl
  | some x =>
    rw [Option.map_some, Option.map_some, Nat.zero_add, Console.strdup_served (hheap i x hi)]

theorem lookup_map (id : UInt32) (pairs : List (UInt32 × List UInt8)) :
    i18nLookupStr id (pairs.map fun x => (x.1, some x.2)) =
      some (((pairs.find? (·.1 = id)).map (·.2)).getD stringNotFound) := by
  have hfind : ((fun s : UInt32 × Option (List UInt8) => decide (s.1 = id)) ∘
      fun x : UInt32 × List UInt8 => (x.1, some x.2)) = fun x => decide (x.1 = id) := rfl
  rw [i18nLookupStr, List.find?_map, hfind]
  cases pairs.find? (·.1 = id) with
  | none => rfl
  | some x => rfl

/-- The file is read without an error, and every line has its entry in the table, with the copy that
`strdup` has made of its text. If there is memory for the copies, these are the pairs, and the first
text with an id is found. -/
theorem parse_round_trip (before : Before) (heap : Nat → Heap) (tmp key : CString) (tmpVal : UInt32)
    (pairs : List (UInt32 × List UInt8)) (file : List UInt8) (blocks : List (List UInt8))
    (hcount : pairs.length ≤ 2047) (htexts : ∀ x ∈ pairs, (0 : UInt8) ∉ x.2 ∧ x.2.length ≤ 2046)
    (hfile : RenderedFile pairs file)
    (hblocks : ∀ block ∈ blocks, block ≠ [] ∧ block.length ≤ crfsBlockSize)
    (hcut : blocks.flatten = file) :
    i18nParseFile before heap tmp key tmpVal blocks [] = some (0, tableFrom heap 0 pairs) ∧
    ((∀ i x, pairs[i]? = some x → heap i (x.2.length + 1) = true) →
      tableFrom heap 0 pairs = pairs.map (fun x => (x.1, some x.2)) ∧
      ∀ id, i18nLookupStr id (tableFrom heap 0 pairs) =
        some (((pairs.find? (·.1 = id)).map (·.2)).getD stringNotFound)) := by
  obtain ⟨lines, hlines, rfl⟩ := hfile
  constructor
  · have hstart : At (.init tmp key tmpVal []) .bol [] [] 0 [] :=
      ⟨rfl, ⟨rfl, fun i hi => absurd hi (Nat.not_lt_zero i)⟩,
        ⟨rfl, fun i hi => absurd hi (Nat.not_lt_zero i)⟩, rfl, rfl⟩
    have hgoes : Goes before heap lines.flatten (.init tmp key tmpVal []) .bol [] []
        (0 + pairs.length) (tableFrom heap 0 pairs) :=
      goes_file hlines hstart (by omega) le_rfl htexts
    obtain ⟨q, hfeed, hq⟩ := hgoes
    rw [← hcut] at hfeed
    rw [i18nParseFile, parseBlocks_flatten (fun b hb => (hblocks b hb).1) hfeed, hq.strings]
  · intro hheap
    rw [tableFrom_served hheap]
    exact ⟨rfl, fun id => lookup_map id pairs⟩

/-- `0x1F = "a\"\n"`, cut in the middle of the id and of an escape. -/
theorem parse_one : i18nParseFile (fun _ => 0) (fun _ _ => true) (fun _ => 0xff) (fun _ => 0xff) 0
    [[0x30, 0x78, 0x31], [0x46, 0x20, 0x3d, 0x09, 0x22, 0x61, 0x5c], [0x22, 0x5c, 0x6e, 0x22, 0x0a]]
    [] =
      some (0, [(0x1f, some [0x61, 0x22, 0x0a])]) := by
  have hds : HexDigits [0x31, 0x46] := ⟨by decide, by decide, by decide +kernel⟩
  have hid : numValue 16 [0x31, 0x46] = (0x1f : UInt32).toNat := by
    simp [numValue, Console.digitsFrom, Console.hexatoi, Console.toupper]
  have hspace : Blanks [0x20] := fun c hc => Or.inl (List.mem_singleton.mp hc)
  have htab : Blanks [0x09] := fun c hc => Or.inr (List.mem_singleton.mp hc)
  have hnone : Blanks [] := fun c hc => absurd hc List.not_mem_nil
  have hline : RenderedLine 0x1f [0x61, 0x22, 0x0a] [0x30, 0x78, 0x31, 0x46, 0x20, 0x3d, 0x09, 0x22,
      0x61, 0x5c, 0x22, 0x5c, 0x6e, 0x22, 0x0a] :=
    ⟨[0x31, 0x46], [0x20], [0x09], [[0x61], [0x5c, 0x22], [0x5c, 0x6e]], [], hds, hid, hspace, htab,
      hnone, .cons (.plain (by decide)) (.cons .quote (.cons .newline .nil)), rfl⟩
  obtain ⟨hparse, htable⟩ := parse_round_trip (fun _ => 0) (fun _ _ => true) (fun _ => 0xff)
    (fun _ => 0xff) 0 [(0x1f, [0x61, 0x22, 0x0a])] _
    [[0x30, 0x78, 0x31], [0x46, 0x20, 0x3d, 0x09, 0x22, 0x61, 0x5c], [0x22, 0x5c, 0x6e, 0x22, 0x0a]]
    (by decide) (by decide) ⟨_, .cons hline .nil, rfl⟩ (by decide) rfl
  rw [hparse, (htable fun _ _ _ => rfl).1]
  rfl

end I18n
