import CobaltRom.Console.ScanSafety

/-! The quoting of the raw line: balanced lines and what the state machine of `readline` accepts. -/
namespace Console

/-- Balanced quoting, outside of double quotes (`false`) or inside (`true`). Single quotes stand
in both places and quote everything, a backslash escapes outside only, and an expansion is a
word. -/
inductive Balanced (before : Ctype.Before) : Bool → List UInt8 → Prop
  | nil : Balanced before false []
  | char {q : Bool} {c : UInt8} {rest : List UInt8}
    (hc : c ≠ chBang ∧ c ≠ chSquote ∧ c ≠ chDquote ∧ (q = false → c ≠ chBackslash))
    (h : Balanced before q rest) : Balanced before q (c :: rest)
  | escaped {c : UInt8} {rest : List UInt8} (h : Balanced before false rest) :
    Balanced before false (chBackslash :: c :: rest)
  | single {q : Bool} {quoted rest : List UInt8} (hq : chSquote ∉ quoted)
    (h : Balanced before q rest) : Balanced before q (chSquote :: (quoted ++ chSquote :: rest))
  | opens {rest : List UInt8} (h : Balanced before true rest) :
    Balanced before false (chDquote :: rest)
  | closes {rest : List UInt8} (h : Balanced before false rest) :
    Balanced before true (chDquote :: rest)
  | word {q : Bool} {w rest : List UInt8} (hw : expansionKey before (w ++ rest) = some w)
    (h : Balanced before q rest) : Balanced before q (chBang :: (w ++ rest))

variable {env : ScanEnv} {before : Ctype.Before} {bbuf : KeyBuf} {text rest l : List UInt8}
  {s s' t : Scan} {c : UInt8} {q : Bool}

theorem balanced_nil : Balanced before q [] ↔ q = false := by
  constructor
  · intro h
    cases h
    rfl
  · rintro rfl
    exact .nil

theorem balanced_char
    (hc : c ≠ chBang ∧ c ≠ chSquote ∧ c ≠ chDquote ∧ (q = false → c ≠ chBackslash)) :
    Balanced before q (c :: rest) ↔ Balanced before q rest := by
  constructor
  · intro h
    cases h with
    | char _ h => exact h
    | escaped => exact absurd rfl (hc.2.2.2 rfl)
    | single => exact absurd rfl hc.2.1
    | opens | closes => exact absurd rfl hc.2.2.1
    | word => exact absurd rfl hc.1
  · exact .char hc

theorem balanced_escaped : Balanced before false (chBackslash :: l) ↔
    ∃ c rest, l = c :: rest ∧ Balanced before false rest := by
  constructor
  · intro h
    cases h with
    | char hc => exact absurd rfl (hc.2.2.2 rfl)
    | escaped h => exact ⟨_, _, rfl, h⟩
  · rintro ⟨c, rest, rfl, h⟩
    exact .escaped h

theorem balanced_single : Balanced before q (chSquote :: l) ↔
    ∃ quoted rest, l = quoted ++ chSquote :: rest ∧ chSquote ∉ quoted ∧ Balanced before q rest := by
  constructor
  · intro h
    cases h with
    | char hc => exact absurd rfl hc.2.1
    | single hq h => exact ⟨_, _, rfl, hq, h⟩
  · rintro ⟨quoted, rest, rfl, hq, h⟩
    exact .single hq h

theorem balanced_double : Balanced before q (chDquote :: l) ↔ Balanced before (!q) l := by
  constructor
  · intro h
    cases h with
    | char hc => exact absurd rfl hc.2.2.1
    | opens h | closes h => exact h
  · intro h
    cases q with
    | false => exact .opens h
    | true => exact .closes h

theorem balanced_word : Balanced before q (chBang :: l) ↔
    ∃ w rest, l = w ++ rest ∧ expansionKey before l = some w ∧ Balanced before q rest := by
  constructor
  · intro h
    cases h with
    | char hc => exact absurd rfl hc.1
    | word hw h => exact ⟨_, _, rfl, hw, h⟩
  · rintro ⟨w, rest, rfl, hw, h⟩
    exact .word hw h

/-! ### What a state still accepts -/

/-- The rest of the line is balanced, seen from this state. -/
def Remains (env : ScanEnv) (text : List UInt8) (s : Scan) : Prop :=
  match s.state with
  | .line => Balanced env.before false (text.drop s.ptr)
  | .dqstr => Balanced env.before true (text.drop s.ptr)
  | .slashesc => ∃ c rest, text.drop s.ptr = c :: rest ∧ Balanced env.before false rest
  | .sqstr => ∃ quoted rest, text.drop s.ptr = quoted ++ chSquote :: rest ∧ chSquote ∉ quoted ∧
      Balanced env.before (s.pushed = .dqstr) rest
  | .bang => ∃ w rest, text.drop s.ptr = w ++ rest ∧
      expansionKey env.before (text.drop s.ptr) = some w ∧
      Balanced env.before (s.pushed = .dqstr) rest
  | .bangnum => Balanced env.before (s.pushed = .dqstr)
      ((text.drop s.ptr).dropWhile (inKey env.before .bangnum))
  | .bangstr => Balanced env.before (s.pushed = .dqstr)
      ((text.drop s.ptr).dropWhile (inKey env.before .bangstr))
  | .success => True
  | .fail => False

/-- In these two states the rest of the line is to be balanced. -/
theorem remains_outside (hs : s.state = .line ∨ s.state = .dqstr) :
    Remains env text s ↔ Balanced env.before (s.state = .dqstr) (text.drop s.ptr) := by
  rcases hs with hs | hs <;> simp [Remains, hs]

theorem drop_of_load_nul (hnul : (0 : UInt8) ∉ text) {i : Nat}
    (hc : load (some (cells text)) i = some 0) : text.drop i = [] := by
  rcases load_some hc with ⟨rest, hrest⟩ | ⟨hend, -⟩
  · exact absurd (List.mem_of_mem_drop (hrest ▸ List.mem_cons_self)) hnul
  · exact List.drop_of_length_le (by omega)

theorem single_cons (hc : c ≠ chSquote) :
    (∃ quoted rest, c :: l = quoted ++ chSquote :: rest ∧ chSquote ∉ quoted ∧
      Balanced before q rest) ↔
    ∃ quoted rest, l = quoted ++ chSquote :: rest ∧ chSquote ∉ quoted ∧ Balanced before q rest := by
  constructor
  · rintro ⟨quoted, rest, he, hq, h⟩
    cases quoted with
    | nil =>
      cases he
      exact absurd rfl hc
    | cons x quoted =>
      cases he
      exact ⟨quoted, rest, rfl, fun hm => hq (List.mem_cons_of_mem _ hm), h⟩
  · rintro ⟨quoted, rest, rfl, hq, h⟩
    refine ⟨c :: quoted, rest, rfl, ?_, h⟩
    rw [List.mem_cons, not_or]
    exact ⟨hc.symm, hq⟩

theorem single_closed :
    (∃ quoted rest, chSquote :: l = quoted ++ chSquote :: rest ∧ chSquote ∉ quoted ∧
      Balanced before q rest) ↔ Balanced before q l := by
  constructor
  · rintro ⟨quoted, rest, he, hq, h⟩
    cases quoted with
    | nil =>
      cases he
      exact h
    | cons x quoted =>
      cases he
      exact absurd List.mem_cons_self hq
  · intro h
    exact ⟨[], l, rfl, List.not_mem_nil, h⟩

theorem word_of_key {w tail : List UInt8} (hw : expansionKey before l = some w)
    (hl : l = w ++ tail) :
    (∃ w' rest, l = w' ++ rest ∧ expansionKey before l = some w' ∧ Balanced before q rest) ↔
      Balanced before q tail := by
  constructor
  · rintro ⟨w', rest, he, hw', h⟩
    rw [hw, Option.some.injEq] at hw'
    subst hw'
    rw [List.append_cancel_left (hl.symm.trans he)]
    exact h
  · intro h
    exact ⟨w, tail, hl, hw, h⟩

theorem dropWhile_of_load {P : UInt8 → Bool} (hnul : (0 : UInt8) ∉ text) {i : Nat}
    (hc : load (some (cells text)) i = some c) (h : c = 0 ∨ P c = false) :
    (text.drop i).dropWhile P = text.drop i := by
  by_cases h0 : c = 0
  · rw [drop_of_load_nul hnul (h0 ▸ hc)]
    rfl
  · rw [drop_of_load hc h0]
    exact List.dropWhile_cons_of_neg (by simp [h.resolve_left h0])

theorem expansionKey_bang (l : List UInt8) :
    expansionKey before (chBang :: l) = some [chBang] := by
  rw [expansionKey, if_pos rfl]

/-- A turn keeps it, unless an expansion fails or leaves for another context than it came from. -/
theorem Move.remains (hnul : (0 : UInt8) ∉ text) (hc : load (some (cells text)) s.ptr = some c)
    (hsound : Sound s) (hprev : s.state = .bang → c = chBang →
      histlookupNum env.hist (env.hist.histnum - 1) ≠ none → s.pushed = .line)
    (hesc : s.state = .slashesc → t.ptr ≤ text.length) (hfound : InBang s → t.state ≠ .fail)
    (h : Move env c s t) : Remains env text s ↔ Remains env text t := by
  have hdrop : c ≠ 0 → text.drop s.ptr = c :: text.drop (s.ptr + 1) := drop_of_load hc
  cases h with
  | ends hs h0 =>
    rw [h0] at hc
    simp only [Remains, hs, drop_of_load_nul hnul hc, iff_true]
    exact .nil
  | char _ hs =>
    rcases hs with ⟨hs, h0, hb, he, hsq, hdq⟩ | ⟨hs, hsq, h0⟩ | ⟨hs, hdq, h0, hb, hsq⟩
    · simp only [Remains, hs, hdrop h0]
      exact balanced_char ⟨hb, hsq, hdq, fun _ => he⟩
    · simp only [Remains, hs, hdrop h0]
      exact single_cons hsq
    · simp only [Remains, hs, hdrop h0]
      exact balanced_char ⟨hb, hsq, hdq, nofun⟩
  | meets hs hb =>
    rw [remains_outside hs, hdrop (by rw [hb]; decide), hb, balanced_word]
    rfl
  | slash hs he =>
    simp only [Remains, hs, hdrop (by rw [he]; decide), he]
    exact balanced_escaped
  | escaped _ hs =>
    have h0 : c ≠ 0 := by
      rintro rfl
      have hlen := congrArg List.length (drop_of_load_nul hnul hc)
      have : s.ptr + 1 ≤ text.length := hesc hs
      rw [List.length_drop, List.length_nil] at hlen
      omega
    simp only [Remains, hs, hdrop h0, List.cons.injEq]
    constructor
    · rintro ⟨c', rest, ⟨-, rfl⟩, h⟩
      exact h
    · intro h
      exact ⟨c, _, ⟨rfl, rfl⟩, h⟩
  | opensSingle _ hs hsq =>
    rw [remains_outside hs, hdrop (by rw [hsq]; decide), hsq, balanced_single]
    rfl
  | @closesSingle r b _ hs hsq =>
    have hp := hsound.pushed (Or.inl hs)
    rw [remains_outside (s := { s with ptr := s.ptr + 1, buf := b, state := s.pushed }) hp]
    simp only [Remains, hs, hdrop (by rw [hsq]; decide), hsq]
    exact single_closed
  | opensDouble _ hs hdq | closesDouble _ hs hdq =>
    simp only [Remains, hs, hdrop (by rw [hdq]; decide), hdq]
    exact balanced_double
  | unterminated hs h0 =>
    rw [h0] at hc
    rcases hs with hs | hs
    · simp [Remains, hs, drop_of_load_nul hnul hc]
    · simp [Remains, hs, drop_of_load_nul hnul hc, balanced_nil]
  | previous _ hs hb hp =>
    have hp := hprev hs hb (by simp [hp])
    simp only [Remains, hs, hdrop (by rw [hb]; decide), hb, hp]
    exact word_of_key (expansionKey_bang _) rfl
  | number hs hb hd =>
    simp only [Remains, hs]
    refine word_of_key ?_ List.takeWhile_append_dropWhile.symm
    rw [hdrop (ne_zero_of_isdigit hd), expansionKey, if_neg hb, if_pos hd]
    rfl
  | string hs hb hd ha =>
    simp only [Remains, hs]
    refine word_of_key ?_ List.takeWhile_append_dropWhile.symm
    rw [hdrop (ne_zero_of_isalnum ha), expansionKey, if_neg hb, if_neg (by simp [hd]), if_pos ha]
    rfl
  | noBang hs => exact absurd rfl (hfound (Or.inl hs))
  | notFound hs => exact absurd rfl (hfound (inBang_of_key hs))
  | key hs =>
    rcases hs with ⟨hs, hd⟩ | ⟨hs, h0, hsp⟩
    · simp only [Remains, hs, hdrop (ne_zero_of_isdigit hd)]
      rw [List.dropWhile_cons_of_pos (by exact hd)]
    · simp only [Remains, hs, hdrop h0]
      rw [List.dropWhile_cons_of_pos (by rw [inKey, hsp]; rfl)]
  | @found r b _ _ hs =>
    have hin : InBang s := inBang_of_key hs
    have hp := hsound.pushed (Or.inr hin)
    rw [remains_outside (s := { s with buf := b, state := s.pushed, bi := 0 }) hp]
    rcases hs with ⟨hs, hd⟩ | ⟨hs, hend⟩
    · simp only [Remains, hs]
      rw [dropWhile_of_load (P := inKey env.before .bangnum) hnul hc (Or.inr hd)]
    · simp only [Remains, hs]
      rw [dropWhile_of_load hnul hc (hend.imp_right fun hsp => by rw [inKey, hsp]; rfl)]

/-! ### Expansions and quotes -/

/-- An expansion that is found goes on in the state that its `!` was met in. -/
def ResumesWhereMet (env : ScanEnv) (bbuf : KeyBuf) (text : List UInt8) : Prop :=
  ∀ s' s t, Scans env bbuf text s' → Expanding env text s' s →
    scanTurn env (some (cells text)) s = .ok t → ¬ InBang t → t.state ≠ .fail → t.state = s'.state

/-- When no expansion fails, the machine succeeds on balanced lines and fails on the others. -/
def QuotingDecides (env : ScanEnv) (bbuf : KeyBuf) (text : List UInt8) : Prop :=
  ∀ s t, Scans env bbuf text s → s.ended = false → ¬ InBang s →
    scanTurn env (some (cells text)) s = .ok t → t.ended = true →
    (t.state = .success ↔ Balanced env.before false text)

/-- No `!!` is met inside double quotes, unless there is no last line. -/
def PreviousUnquoted (env : ScanEnv) (bbuf : KeyBuf) (text : List UInt8) : Prop :=
  ∀ s rest, Scans env bbuf text s → s.state = .dqstr → text.drop s.ptr = chBang :: chBang :: rest →
    histlookupNum env.hist (env.hist.histnum - 1) = none

/-- Where an expansion goes on. -/
theorem Origin.resumes (h : Origin env text s' s) (hin : InBang s) (hmove : Move env c s t)
    (hout : ¬ InBang t) (hok : t.state ≠ .fail) :
    t.state = s'.state ∨ s.state = .bang ∧ c = chBang ∧ t.state = .line ∧
      histlookupNum env.hist (env.hist.histnum - 1) ≠ none := by
  cases hmove with
  | ends hs | slash hs | escaped _ hs | closesSingle _ hs | opensDouble _ hs | closesDouble _ hs =>
    simp [InBang, hs] at hin
  | meets hs | opensSingle _ hs | unterminated hs =>
    rcases hs with hs | hs <;> simp [InBang, hs] at hin
  | char _ hs => rcases hs with hs | hs | hs <;> simp [InBang, hs.1] at hin
  | previous _ hs hb hp => exact Or.inr ⟨hs, hb, rfl, by simp [hp]⟩
  | number | string => simp [InBang] at hout
  | key => exact absurd hin hout
  | noBang | notFound => exact absurd rfl hok
  | found => exact Or.inl h.pushed

/-- The `!!` that is being read was met in the unquoted line. -/
theorem PreviousUnquoted.pushed (h : PreviousUnquoted env bbuf text) (hs' : Scans env bbuf text s')
    (hexp : Expanding env text s' s) (hs : s.state = .bang)
    (hc : load (some (cells text)) s.ptr = some chBang)
    (hp : histlookupNum env.hist (env.hist.histnum - 1) ≠ none) : s'.state = .line := by
  have horig := hexp.origin hs'.sound
  refine horig.outside.resolve_right fun hdq => hp ?_
  have hptr : s.ptr = s'.ptr + 1 := by rw [horig.ptr, horig.start hs]
  have hdrop := drop_of_load hc (by decide)
  rw [hptr] at hdrop
  exact h s' _ hs' hdq (horig.bang.trans (by rw [hdrop]))

theorem PreviousUnquoted.resumes (h : PreviousUnquoted env bbuf text) :
    ResumesWhereMet env bbuf text := by
  intro s' s t hs' hexp ht hout hok
  obtain ⟨c, hc, hmove⟩ := scanTurn_cases hexp.inBang.running ht
  rcases (hexp.origin hs'.sound).resumes hexp.inBang hmove hout hok with he | ⟨hs, rfl, hline, hp⟩
  · exact he
  · rw [hline, h.pushed hs' hexp hs hc hp]

theorem Move.ptr_le (h : Move env c s t) : s.ptr ≤ t.ptr := by
  cases h with
  | ends | char | meets | slash | escaped | opensSingle | closesSingle | opensDouble | closesDouble
  | unterminated | previous | noBang | key | notFound => exact Nat.le_succ _
  | number | string | found => exact le_refl _

theorem load_le (hc : load (some (cells text)) s.ptr = some c) : s.ptr ≤ text.length := by
  by_contra hgt
  rw [load_cells, List.getElem?_eq_none
    (by rw [List.length_append, List.length_singleton]; omega)] at hc
  cases hc

theorem Move.line_of_slashesc (h : Move env c s t) (hs : s.state = .slashesc) :
    t.state = .line := by
  cases h with
  | escaped => rfl
  | ends hq | slash hq | closesSingle _ hq | opensDouble _ hq | closesDouble _ hq | previous _ hq
  | number hq | string hq | noBang hq => cases hs.symm.trans hq
  | meets hq | opensSingle _ hq | unterminated hq =>
    rcases hq with hq | hq <;> rw [hs] at hq <;> cases hq
  | char _ hq => rcases hq with hq | hq | hq <;> rw [hs] at hq <;> cases hq.1
  | key hq | found _ hq | notFound hq => rcases hq with hq | hq <;> rw [hs] at hq <;> cases hq.1

theorem PreviousUnquoted.turn (h : PreviousUnquoted env bbuf text) (hnul : (0 : UInt8) ∉ text)
    (hs : Scans env bbuf text s) (hrun : s.ended = false)
    (ht : scanTurn env (some (cells text)) s = .ok t)
    (hesc : s.state = .slashesc → t.ptr ≤ text.length) (hfound : InBang s → t.state ≠ .fail) :
    Remains env text s ↔ Remains env text t := by
  obtain ⟨c, hc, hmove⟩ := scanTurn_cases hrun ht
  refine hmove.remains hnul hc hs.sound (fun hb hbang hp => ?_) hesc hfound
  obtain ⟨s', hs', hexp⟩ := hs.expanding (Or.inl hb)
  rw [(hexp.origin hs'.sound).pushed]
  exact h.pushed hs' hexp hb (hbang ▸ hc) hp

/-- As long as the machine stands in the line, what remains decides. -/
theorem PreviousUnquoted.remains (h : PreviousUnquoted env bbuf text) (hnul : (0 : UInt8) ∉ text)
    (hs : Scans env bbuf text s) (hrun : s.ended = false) (hle : s.ptr ≤ text.length) :
    Remains env text s ↔ Balanced env.before false text := by
  induction hs with
  | start hs =>
    obtain ⟨-, hline, hptr, -⟩ := scanInit_start hs
    simp only [Remains, hline, hptr, List.drop_zero]
  | turn hs hrun' ht ih =>
    obtain ⟨c, -, hmove⟩ := scanTurn_cases hrun' ht
    rw [← h.turn hnul hs hrun' ht (fun _ => hle) fun _ => (not_ended hrun).2]
    exact ih hrun' (hmove.ptr_le.trans hle)

theorem PreviousUnquoted.decides (h : PreviousUnquoted env bbuf text) (hnul : (0 : UInt8) ∉ text) :
    QuotingDecides env bbuf text := by
  intro s t hs hrun hout ht hend
  obtain ⟨c, hc, hmove⟩ := scanTurn_cases hrun ht
  have hesc : s.state = .slashesc → t.ptr ≤ text.length := by
    intro hq
    rw [Scan.ended, hmove.line_of_slashesc hq] at hend
    cases hend
  have hstate : t.state = .success ∨ t.state = .fail := by simpa [Scan.ended] using hend
  rw [← h.remains hnul hs hrun (load_le hc), h.turn hnul hs hrun ht hesc fun hin => absurd hin hout]
  rcases hstate with hq | hq <;> simp [Remains, hq]

/-- `!!` inside double quotes goes on outside of them. -/
theorem previous_leaves {p : List UInt8} (hs : Scans env bbuf text s) (hdq : s.state = .dqstr)
    (h : text.drop s.ptr = chBang :: chBang :: rest)
    (hp : histlookupNum env.hist (env.hist.histnum - 1) = some p) :
    ∃ u t, Scans env bbuf text u ∧ Expanding env text s u ∧
      scanTurn env (some (cells text)) u = .ok t ∧ t.state = .line := by
  have hmeets := scanTurn_meets env (Or.inr hdq) h
  have hu := Scans.turn hs (outside_running (Or.inr hdq)) hmeets
  obtain ⟨out, hout⟩ := hu.holds
  obtain ⟨b, hb⟩ := putStr_total (s := { s with
    ptr := s.ptr + 2, pushed := s.state, state := .bang, bangflag := true }) env hout p
  refine ⟨_, { s with
    ptr := s.ptr + 2, pushed := s.state, state := .line, bangflag := true, buf := b }, hu,
    .meets (Or.inr hdq) hmeets rfl, ?_, rfl⟩
  rw [scanTurn, load_of_drop (drop_succ h)]
  simp only [bangTurn, hp]
  rw [if_pos trivial]
  simp only [Nat.add_assoc, Nat.reduceAdd]
  rw [hb]
  rfl

/-- Expansions keep the quoting exactly on the lines where no `!!` with a last line is met inside
double quotes. -/
theorem expansion_keeps_quoting (env : ScanEnv) (bbuf : KeyBuf) (text : CStr) :
    ResumesWhereMet env bbuf text.text ∧ QuotingDecides env bbuf text.text ↔
      PreviousUnquoted env bbuf text.text := by
  constructor
  · rintro ⟨h, -⟩ s rest hs hdq hdrop
    cases hp : histlookupNum env.hist (env.hist.histnum - 1) with
    | none => rfl
    | some p =>
      obtain ⟨u, t, -, hexp, ht, hline⟩ := previous_leaves hs hdq hdrop hp
      have he := h s u t hs hexp ht (by simp [InBang, hline]) (by simp [hline])
      rw [hline, hdq] at he
      cases he
  · intro h
    exact ⟨h.resumes, h.decides text.nul⟩

/-- One line is saved, `a`. -/
def savedEnv : ScanEnv :=
  { blankEnv with hist := (saveAll (fun _ => true) [⟨[0x61], by decide⟩]).hist }

/-- The line `"!!"`. -/
theorem quoted_previous_leaves :
    ¬ (ResumesWhereMet savedEnv blankKey [chDquote, chBang, chBang, chDquote] ∧
      QuotingDecides savedEnv blankKey [chDquote, chBang, chBang, chDquote]) := by
  rintro ⟨h, -⟩
  obtain ⟨s, hs, hout, hline, hptr, -⟩ := scanInit_ok savedEnv blankKey
  obtain ⟨b, hb⟩ := putChar_total (s := { s with ptr := 1 }) savedEnv hout chDquote
  have hopen : scanTurn savedEnv (some (cells [chDquote, chBang, chBang, chDquote])) s =
      .ok { s with ptr := 1, buf := b, state := .dqstr } := by
    have hdrop : [chDquote, chBang, chBang, chDquote].drop s.ptr =
        chDquote :: [chBang, chBang, chDquote] := by
      rw [hptr]
      rfl
    rw [scanTurn, load_of_drop hdrop]
    simp only [hline, hptr, lineTurn]
    rw [if_neg (by decide), if_neg (by decide), if_neg (by decide), if_neg (by decide),
      if_pos trivial, Nat.zero_add, ← hline, hb]
    rfl
  have hdq := Scans.turn (.start hs) (outside_running (Or.inl hline)) hopen
  have hdrop : [chDquote, chBang, chBang, chDquote].drop 1 = chBang :: chBang :: [chDquote] := rfl
  obtain ⟨u, t, -, hexp, ht, hend⟩ := previous_leaves (p := [0x61]) hdq rfl hdrop (by rfl)
  have he := h _ u t hdq hexp ht (by simp [InBang, hend]) (by simp [hend])
  rw [hend] at he
  cases he

end Console
