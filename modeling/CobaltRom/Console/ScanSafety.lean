import CobaltRom.Console.Expansion

/-! What the state machine of `readline` reads of the raw line and writes into `bbuf`. -/
namespace Console

/-- Whenever a `!` is met, the key behind it and a NUL fit in `bbuf`. -/
def KeysFit (env : ScanEnv) (bbuf : KeyBuf) (text : List UInt8) : Prop :=
  ∀ s rest w, Scans env bbuf text s → s.state = .line ∨ s.state = .dqstr →
    text.drop s.ptr = chBang :: rest → expansionKey env.before rest = some w → w.length < bbufsz

/-- No unquoted backslash is the last character of the line. -/
def SlashesEscape (env : ScanEnv) (bbuf : KeyBuf) (text : List UInt8) : Prop :=
  ∀ s, Scans env bbuf text s → s.state = .line → text.drop s.ptr ≠ [chBackslash]

/-- The machine reads nothing behind the NUL of the line, and stops. -/
def StopsInLine (env : ScanEnv) (bbuf : KeyBuf) (text : List UInt8) : Prop :=
  (∀ s, Scans env bbuf text s → s.ended = false → s.ptr ≤ text.length) ∧
    ∃ s fuel t, scanInit env bbuf = .ok s ∧ scanLoop env (some (cells text)) fuel s = some (.ok t)

variable {env : ScanEnv} {bbuf : KeyBuf} {text rest w : List UInt8} {s s' t : Scan} {c : UInt8}
  {fuel : Nat}

/-! ### Keys -/

theorem Origin.next (h : Origin env text s' s) (hne : s.state ≠ .bang) (hnul : (0 : UInt8) ∉ text)
    (hc : load (some (cells text)) s.ptr = some c) :
    (c ≠ 0 ∧ inKey env.before s.state c = true) ↔
      s.bi < ((text.drop (s'.ptr + 1)).takeWhile (inKey env.before s.state)).length := by
  obtain ⟨w, -, hweq, hle, -⟩ := h.key hne
  rw [hweq] at hle
  have hdrop : (text.drop (s'.ptr + 1)).drop s.bi = text.drop s.ptr := by rw [h.ptr, List.drop_drop]
  rcases load_some hc with ⟨rest, hrest⟩ | ⟨hend, rfl⟩
  · have h0 : c ≠ 0 := by
      rintro rfl
      exact hnul (List.mem_of_mem_drop (hrest ▸ List.mem_cons_self))
    rw [← takeWhile_next (hdrop.trans hrest) hle]
    exact ⟨fun hk => hk.2, fun hk => ⟨h0, hk⟩⟩
  · have hlen := (List.takeWhile_prefix (inKey env.before s.state)
      (l := text.drop (s'.ptr + 1))).length_le
    have hptr := h.ptr
    rw [List.length_drop] at hlen
    constructor
    · rintro ⟨h0, -⟩
      exact absurd rfl h0
    · intro hlt
      omega

theorem collects_iff (hin : InBang s) (hne : s.state ≠ .bang) :
    Collects env s c ↔ (inKey env.before s.state c = true ∧ (s.state = .bangstr → c ≠ 0)) := by
  rcases hin with hs | hs | hs
  · exact absurd hs hne
  · simp [Collects, hs, inKey]
  · simp [Collects, hs, inKey, and_comm]

/-- The number that ends is looked up. -/
theorem Origin.bangNumber (h : Origin env text s' s) (hs : s.state = .bangnum)
    (hnul : (0 : UInt8) ∉ text) (hc : load (some (cells text)) s.ptr = some c)
    (hd : Ctype.isdigit env.before c = false) : bangNumber env s ≠ none := by
  have hne : s.state ≠ .bang := by rw [hs]; decide
  obtain ⟨w, -, hweq, hle, hpos⟩ := h.key hne
  have hnext : ¬ s.bi < w.length := by
    rw [hweq, ← h.next hne hnul hc, hs]
    rintro ⟨-, hk⟩
    rw [inKey, hd] at hk
    cases hk
  have hbi : 0 < s.bi := by
    have := hpos hs
    omega
  have hroom := h.room
  have hz : cstring (s.bbuf.val ++ env.above) s.bi = 0 := by
    rw [cstring, List.getD_eq_getElem?_getD,
      List.getElem?_append_left (by rw [s.bbuf.property]; exact hroom), h.nul hbi]
    rfl
  have hret := stoli_returns hz hbi (by rw [bbufsz] at hroom; omega)
  intro hnone
  rw [Console.bangNumber, Option.map_eq_none_iff] at hnone
  rw [hnone] at hret
  cases hret

/-- A key that fits is collected without a fault, and its number is converted. -/
theorem KeysFit.turn (h : KeysFit env bbuf text) (hnul : (0 : UInt8) ∉ text)
    (hs : Scans env bbuf text s) : scanTurn env (some (cells text)) s ≠ .error .key := by
  intro herr
  obtain ⟨out, hout⟩ := hs.holds
  rcases scanTurn_error hout herr with ⟨-, hf⟩ | ⟨c, hc, -, ⟨hcol, hbi⟩ | ⟨hst, hd, hnum⟩⟩
  · cases hf
  · have hne : s.state ≠ .bang := by rcases hcol with hk | hk <;> simp [hk.1]
    have hin : InBang s := inBang_of_key hcol
    obtain ⟨s', hs', hexp⟩ := hs.expanding hin
    have horig := hexp.origin hs'.sound
    obtain ⟨w, hw, hweq, hle, -⟩ := horig.key hne
    have hfit := h s' _ w hs' horig.outside horig.bang hw
    have h0 : c ≠ 0 := by
      rcases hcol with hk | hk
      · exact ne_zero_of_isdigit hk.2
      · exact hk.2.1
    have hlt := (horig.next hne hnul hc).mp ⟨h0, ((collects_iff hin hne).mp hcol).1⟩
    rw [← hweq] at hlt
    omega
  · obtain ⟨s', hs', hexp⟩ := hs.expanding (Or.inr (Or.inl hst))
    exact (hexp.origin hs'.sound).bangNumber hst hnul hc hd hnum

theorem outside_running (hs : s.state = .line ∨ s.state = .dqstr) : s.ended = false := by
  rcases hs with hs | hs <;> simp [Scan.ended, hs]

theorem scanTurn_meets (env : ScanEnv) (hs : s.state = .line ∨ s.state = .dqstr)
    (h : text.drop s.ptr = chBang :: rest) : scanTurn env (some (cells text)) s =
      .ok { s with ptr := s.ptr + 1, pushed := s.state, state := .bang } := by
  rw [scanTurn, load_of_drop h]
  rcases hs with hs | hs
  · simp only [hs, lineTurn]
    rw [if_neg (by decide), if_pos trivial]
  · simp only [hs, dqstrTurn]
    rw [if_neg (by decide), if_neg (by decide), if_pos trivial]

/-- A `!` with a key of more than one character leads into the key. -/
theorem scanTurn_enters (hs : s.state = .bang) (h : text.drop s.ptr = rest)
    (hw : expansionKey env.before rest = some w) (hlen : 1 < w.length) :
    ∃ t, scanTurn env (some (cells text)) s = .ok t ∧ InBang t ∧ t.state ≠ .bang ∧
      t.bi = s.bi := by
  cases rest with
  | nil => cases hw
  | cons c rest =>
    rw [scanTurn, load_of_drop h]
    simp only [hs, bangTurn]
    rw [expansionKey] at hw
    by_cases hb : c = chBang
    · rw [if_pos hb] at hw
      cases hw
      simp at hlen
    rw [if_neg hb] at hw ⊢
    by_cases hd : Ctype.isdigit env.before c = true
    · rw [if_pos hd]
      exact ⟨_, rfl, Or.inr (Or.inl rfl), by simp, rfl⟩
    rw [if_neg hd] at hw ⊢
    by_cases ha : Ctype.isalnum env.before c = true
    · rw [if_pos ha]
      exact ⟨_, rfl, Or.inr (Or.inr rfl), by simp, rfl⟩
    · rw [if_neg ha] at hw
      cases hw

/-- As long as the key goes on, its next character is put into `bbuf`. -/
theorem Origin.scanTurn (h : Origin env text s' s) (hin : InBang s) (hne : s.state ≠ .bang)
    (hnul : (0 : UInt8) ∉ text)
    (hlt : s.bi < ((text.drop (s'.ptr + 1)).takeWhile (inKey env.before s.state)).length) :
    ∃ c, scanTurn env (some (cells text)) s = putKey c { s with ptr := s.ptr + 1 } := by
  have hlen := (List.takeWhile_prefix (inKey env.before s.state)
    (l := text.drop (s'.ptr + 1))).length_le
  have hptr : s.ptr < text.length := by
    have := h.ptr
    rw [List.length_drop] at hlen
    omega
  have hc := load_of_drop (List.drop_eq_getElem_cons hptr)
  obtain ⟨h0, hk⟩ := (h.next hne hnul hc).mpr hlt
  refine ⟨text[s.ptr], ?_⟩
  rw [Console.scanTurn, hc]
  rcases hin with hs | hs | hs
  · exact absurd hs hne
  · rw [hs, inKey] at hk
    simp only [hs, bangnumTurn]
    rw [if_pos hk]
  · rw [hs, inKey, Bool.not_eq_true'] at hk
    simp only [hs, bangstrTurn]
    rw [if_pos ⟨h0, hk⟩]

/-- A key that is too long is collected up to the end of `bbuf`. -/
theorem key_run (hs' : Scans env bbuf text s') (hnul : (0 : UInt8) ∉ text) {st : RlState}
    (hlong : bbufsz ≤ ((text.drop (s'.ptr + 1)).takeWhile (inKey env.before st)).length)
    (hs : Scans env bbuf text s) (hexp : Expanding env text s' s) (hst : s.state = st)
    (hne : st ≠ .bang) (hbi : s.bi = 0) (k : Nat) (hk : k < bbufsz) :
    ∃ t, Scans env bbuf text t ∧ Expanding env text s' t ∧ t.state = st ∧ t.bi = k := by
  induction k with
  | zero => exact ⟨s, hs, hexp, hst, hbi⟩
  | succ k ih =>
    obtain ⟨t, ht, hexpt, hstt, hbit⟩ := ih (by omega)
    obtain ⟨c, hturn⟩ := (hexpt.origin hs'.sound).scanTurn hexpt.inBang (hstt ▸ hne) hnul
      (by rw [hstt]; omega)
    rw [putKey, if_pos (by show t.bi + 1 < bbufsz; omega)] at hturn
    have hin : InBang { t with ptr := t.ptr + 1, bi := t.bi + 1 } := hexpt.inBang
    exact ⟨_, .turn ht hexpt.inBang.running hturn, .goes hexpt hturn hin, hstt, by rw [hbit]⟩

/-- A key that is too long is written behind `bbuf`. -/
theorem key_overruns (hs' : Scans env bbuf text s') (hnul : (0 : UInt8) ∉ text)
    (hout : s'.state = .line ∨ s'.state = .dqstr) (hbang : text.drop s'.ptr = chBang :: rest)
    (hw : expansionKey env.before rest = some w) (hlong : bbufsz ≤ w.length) :
    ∃ t, Scans env bbuf text t ∧ t.ended = false ∧
      scanTurn env (some (cells text)) t = .error .key := by
  have hmeets := scanTurn_meets env hout hbang
  have hs := Scans.turn hs' (outside_running hout) hmeets
  have hexp : Expanding env text s' _ := .meets hout hmeets rfl
  have hrest := drop_succ hbang
  obtain ⟨t, ht, hin, hne, hbi⟩ := scanTurn_enters (s := { s' with
    ptr := s'.ptr + 1, pushed := s'.state, state := .bang }) rfl hrest hw
    (by rw [bbufsz] at hlong; omega)
  rw [(hexp.origin hs'.sound).start rfl] at hbi
  have hst := Scans.turn hs hexp.inBang.running ht
  have hexpt : Expanding env text s' t := .goes hexp ht hin
  have horig := hexpt.origin hs'.sound
  obtain ⟨w', hw', hweq, -⟩ := horig.key hne
  rw [hrest, hw, Option.some.injEq] at hw'
  subst hw'
  rw [hweq] at hlong
  obtain ⟨u, hu, hexpu, hstu, hbiu⟩ := key_run hs' hnul hlong hst hexpt rfl hne hbi (bbufsz - 1)
    (by decide)
  obtain ⟨c, hturn⟩ := (hexpu.origin hs'.sound).scanTurn hexpu.inBang (hstu ▸ hne) hnul
    (by rw [hstu, hbiu]; exact lt_of_lt_of_le (by decide) hlong)
  refine ⟨u, hu, hexpu.inBang.running, ?_⟩
  rw [hturn, putKey, if_neg (by show ¬ u.bi + 1 < bbufsz; rw [hbiu]; decide)]

/-- Exactly the keys of 128 characters and more run over `bbuf`. -/
theorem bbuf_in_bounds (env : ScanEnv) (bbuf : KeyBuf) (text : CStr) :
    (∀ s, Scans env bbuf text.text s → s.ended = false →
      scanTurn env (some (cells text.text)) s ≠ .error .key) ↔ KeysFit env bbuf text.text := by
  constructor
  · intro h s rest w hs hout hbang hw
    by_contra hlong
    obtain ⟨t, ht, hrun, hturn⟩ := key_overruns hs text.nul hout hbang hw (by omega)
    exact h t ht hrun hturn
  · intro h s hs _
    exact h.turn text.nul hs

/-- Nothing saved, and NULs wherever nothing has been written. -/
def blankEnv : ScanEnv where
  heap := fun _ => true
  hist := readlineInit.hist
  before := fun _ => 0
  above := []

def blankKey : KeyBuf := ⟨List.replicate bbufsz 0, List.length_replicate⟩

/-- `!` and 128 ones. -/
theorem bbuf_overrun : ¬ ∀ s, Scans blankEnv blankKey (chBang :: List.replicate 128 0x31) s →
    s.ended = false →
    scanTurn blankEnv (some (cells (chBang :: List.replicate 128 0x31))) s ≠ .error .key := by
  intro h
  obtain ⟨s, hs, -, hline, hptr, -⟩ := scanInit_ok blankEnv blankKey
  have hone : Ctype.isdigit blankEnv.before 0x31 = true := by decide
  have hw : expansionKey blankEnv.before (List.replicate 128 0x31) =
      some (List.replicate 128 0x31) := by
    rw [show (128 : Nat) = 127 + 1 from rfl, List.replicate_succ, expansionKey, if_neg (by decide),
      if_pos hone, ← List.replicate_succ, List.takeWhile_replicate, if_pos hone]
  have hstart : Scans blankEnv blankKey (chBang :: List.replicate 128 0x31) s := .start hs
  obtain ⟨t, ht, hrun, hturn⟩ := key_overruns hstart (by simp [chBang]) (Or.inl hline)
    (by rw [hptr]; rfl) hw (by simp)
  exact h t ht hrun hturn

/-! ### The end of the line -/

/-- Where a running machine may stand. -/
def Within (text : List UInt8) (s : Scan) : Prop :=
  s.ended = false → s.ptr ≤ text.length ∧ (s.state = .slashesc → s.ptr < text.length)

theorem Move.within (hc : load (some (cells text)) s.ptr = some c)
    (hesc : s.state = .line → text.drop s.ptr ≠ [chBackslash]) (hs : Within text s)
    (hrun : s.ended = false) (hsound : Sound s) (h : Move env c s t) : Within text t := by
  have hle := (hs hrun).1
  have hsucc : c ≠ 0 → s.ptr + 1 ≤ text.length := by
    intro h0
    have hlen := congrArg List.length (drop_of_load hc h0)
    rw [List.length_drop, List.length_cons] at hlen
    omega
  intro ht
  cases h with
  | ends | unterminated | noBang | notFound => simp [Scan.ended] at ht
  | char _ hk =>
    rcases hk with ⟨hs', h0, -⟩ | ⟨hs', -, h0⟩ | ⟨hs', -, h0, -⟩
    all_goals exact ⟨hsucc h0, fun hq => by rw [hs'] at hq; cases hq⟩
  | meets _ hk | opensSingle _ _ hk | opensDouble _ _ hk | closesDouble _ _ hk =>
    exact ⟨hsucc (by rw [hk]; decide), fun hq => by cases hq⟩
  | closesSingle _ hs' hk =>
    refine ⟨hsucc (by rw [hk]; decide), fun hq => ?_⟩
    rcases hsound.pushed (Or.inl hs') with hp | hp <;> rw [hp] at hq <;> cases hq
  | slash hs' hk =>
    have hdrop := drop_of_load hc (by rw [hk]; decide)
    refine ⟨hsucc (by rw [hk]; decide), fun _ => ?_⟩
    by_contra hge
    rw [List.drop_of_length_le (i := s.ptr + 1) (Nat.le_of_not_lt hge), hk] at hdrop
    exact hesc hs' hdrop
  | escaped _ hs' => exact ⟨(hs hrun).2 hs', fun hq => by cases hq⟩
  | previous _ hs' hk => exact ⟨hsucc (by rw [hk]; decide), fun hq => by cases hq⟩
  | number | string => exact ⟨hle, fun hq => by cases hq⟩
  | key hk =>
    rcases hk with ⟨hs', hd⟩ | ⟨hs', h0, -⟩
    · exact ⟨hsucc (ne_zero_of_isdigit hd), fun hq => by rw [hs'] at hq; cases hq⟩
    · exact ⟨hsucc h0, fun hq => by rw [hs'] at hq; cases hq⟩
  | found _ hk =>
    refine ⟨hle, fun hq => ?_⟩
    have hin : InBang s := inBang_of_key hk
    rcases hsound.pushed (Or.inr hin) with hp | hp <;> rw [hp] at hq <;> cases hq

theorem SlashesEscape.within (h : SlashesEscape env bbuf text) (hs : Scans env bbuf text s) :
    Within text s := by
  induction hs with
  | start hs =>
    obtain ⟨-, hline, hptr, -⟩ := scanInit_start hs
    exact fun _ => ⟨hptr ▸ Nat.zero_le _, fun hq => by rw [hline] at hq; cases hq⟩
  | turn hs hrun ht ih =>
    obtain ⟨c, hc, hmove⟩ := scanTurn_cases hrun ht
    exact hmove.within hc (h _ hs) ih hrun hs.sound

/-- An expansion is entered and left without going on in the line. -/
def rank (s : Scan) : Nat :=
  match s.state with
  | .bang => 2
  | .bangnum => 1
  | .bangstr => 1
  | _ => 0

def turnsLeft (text : List UInt8) (s : Scan) : Nat := 3 * (text.length + 1 - s.ptr) + rank s

theorem Move.turnsLeft (hle : s.ptr ≤ text.length) (hsound : Sound s) (h : Move env c s t) :
    turnsLeft text t < turnsLeft text s := by
  have hrank : ∀ u : Scan, rank u ≤ 2 := by
    intro u
    unfold rank
    split <;> omega
  have hgo : t.ptr = s.ptr + 1 → Console.turnsLeft text t < Console.turnsLeft text s := by
    intro hptr
    have := hrank t
    unfold Console.turnsLeft
    omega
  cases h with
  | ends | char | meets | slash | escaped | opensSingle | closesSingle | opensDouble | closesDouble
  | unterminated | previous | noBang | key | notFound => exact hgo rfl
  | number hs | string hs =>
    unfold Console.turnsLeft
    have : rank s = 2 := by rw [rank, hs]
    show 3 * (text.length + 1 - s.ptr) + 1 < 3 * (text.length + 1 - s.ptr) + rank s
    omega
  | found _ hk =>
    have hin : InBang s := inBang_of_key hk
    have hrank : rank s = 1 := by
      rcases hk with hk | hk <;> rw [rank, hk.1]
    unfold Console.turnsLeft
    rw [hrank]
    rcases hsound.pushed (Or.inr hin) with hp | hp
    all_goals
      simp only [rank, hp]
      omega

theorem scanLoop_succ (hrun : s.ended = false) (h : scanTurn env (some (cells text)) s = .ok t) :
    scanLoop env (some (cells text)) (fuel + 1) s = scanLoop env (some (cells text)) fuel t := by
  rw [scanLoop, if_neg (by rw [hrun]; decide), h]

/-- A machine that keeps inside the line and its keys inside `bbuf` stops. -/
theorem scanLoop_stops (hfit : KeysFit env bbuf text) (hesc : SlashesEscape env bbuf text)
    (hnul : (0 : UInt8) ∉ text) (n : Nat) (hs : Scans env bbuf text s) (hn : turnsLeft text s < n) :
    ∃ fuel t, scanLoop env (some (cells text)) fuel s = some (.ok t) := by
  induction n generalizing s with
  | zero => omega
  | succ n ih =>
    cases hend : s.ended with
    | true => exact ⟨0, s, by rw [scanLoop, if_pos hend]⟩
    | false =>
      have hle := (hesc.within hs hend).1
      cases hturn : scanTurn env (some (cells text)) s with
      | error f =>
        obtain ⟨out, hout⟩ := hs.holds
        rcases scanTurn_error hout hturn with ⟨hnone, -⟩ | ⟨c, -, rfl, -⟩
        · have := load_none hnone
          omega
        · exact absurd hturn (hfit.turn hnul hs)
      | ok t =>
        obtain ⟨c, -, hmove⟩ := scanTurn_cases hend hturn
        have hless := hmove.turnsLeft hle hs.sound
        obtain ⟨fuel, u, hu⟩ := ih (.turn hs hend hturn) (by omega)
        exact ⟨fuel + 1, u, by rw [scanLoop_succ hend hturn, hu]⟩

/-- A run that stops without a fault had none on the way. -/
theorem scanLoop_scans {s₀ : Scan} (hinit : scanInit env bbuf = .ok s₀)
    (h : scanLoop env (some (cells text)) fuel s₀ = some (.ok t)) (hs : Scans env bbuf text s) :
    ∃ fuel, scanLoop env (some (cells text)) fuel s = some (.ok t) := by
  induction hs with
  | start hs =>
    rw [hinit] at hs
    cases hs
    exact ⟨fuel, h⟩
  | @turn s u hs hrun ht ih =>
    obtain ⟨fuel, hfuel⟩ := ih
    cases fuel with
    | zero =>
      rw [scanLoop, if_neg (by rw [hrun]; decide)] at hfuel
      cases hfuel
    | succ fuel =>
      rw [scanLoop_succ hrun ht] at hfuel
      exact ⟨fuel, hfuel⟩

theorem scanLoop_fault {f : Fault} (hrun : s.ended = false)
    (h : scanTurn env (some (cells text)) s = .error f) :
    scanLoop env (some (cells text)) fuel s ≠ some (.ok t) := by
  cases fuel with
  | zero =>
    rw [scanLoop, if_neg (by rw [hrun]; decide)]
    nofun
  | succ fuel =>
    rw [scanLoop, if_neg (by rw [hrun]; decide), h]
    nofun

/-- The NUL behind an unquoted backslash is put into the result, and the scan goes on. -/
theorem slash_overruns (hs : Scans env bbuf text s) (hline : s.state = .line)
    (h : text.drop s.ptr = [chBackslash]) :
    ∃ t, Scans env bbuf text t ∧ t.ended = false ∧ t.ptr = text.length + 1 := by
  have hlen := congrArg List.length h
  rw [List.length_drop, List.length_singleton] at hlen
  have hslash : scanTurn env (some (cells text)) s =
      .ok { s with ptr := s.ptr + 1, state := .slashesc } := by
    rw [scanTurn, load_of_drop h]
    simp only [hline, lineTurn]
    rw [if_neg (by decide), if_neg (by decide), if_pos trivial]
  have hu := Scans.turn hs (outside_running (Or.inl hline)) hslash
  obtain ⟨out, hout⟩ := hu.holds
  obtain ⟨b, hb⟩ := putChar_total
    (s := { s with ptr := s.ptr + 2, state := .slashesc }) env hout 0
  have hnul : scanTurn env (some (cells text)) { s with ptr := s.ptr + 1, state := .slashesc } =
      .ok { s with ptr := s.ptr + 2, buf := b, state := .line } := by
    rw [scanTurn, show s.ptr + 1 = text.length by omega, load_end]
    simp only [show text.length + 1 = s.ptr + 2 by omega]
    rw [hb]
    rfl
  exact ⟨_, .turn hu rfl hnul, rfl, by show s.ptr + 2 = _; omega⟩

/-- The machine stops in the line exactly when every backslash that it meets unquoted has a
character to escape and every key fits in `bbuf`. -/
theorem readline_stops (env : ScanEnv) (bbuf : KeyBuf) (text : CStr) :
    StopsInLine env bbuf text.text ↔
      SlashesEscape env bbuf text.text ∧ KeysFit env bbuf text.text := by
  constructor
  · rintro ⟨hin, s₀, fuel, t, hinit, hloop⟩
    constructor
    · intro s hs hline hdrop
      obtain ⟨u, hu, hrun, hptr⟩ := slash_overruns hs hline hdrop
      have := hin u hu hrun
      omega
    · intro s rest w hs hout hbang hw
      by_contra hlong
      obtain ⟨u, hu, hrun, hturn⟩ := key_overruns hs text.nul hout hbang hw (by omega)
      obtain ⟨fuel', hfuel'⟩ := scanLoop_scans hinit hloop hu
      exact scanLoop_fault hrun hturn hfuel'
  · rintro ⟨hesc, hfit⟩
    obtain ⟨s, hs, -⟩ := scanInit_ok env bbuf
    obtain ⟨fuel, t, hloop⟩ :=
      scanLoop_stops hfit hesc text.nul (turnsLeft text.text s + 1) (.start hs) (by omega)
    exact ⟨fun s hs hrun => (hesc.within hs hrun).1, s, fuel, t, hs, hloop⟩

/-- A backslash alone. -/
theorem readline_overrun : ¬ StopsInLine blankEnv blankKey [chBackslash] := by
  rintro ⟨hin, -⟩
  obtain ⟨s, hs, -, hline, hptr, -⟩ := scanInit_ok blankEnv blankKey
  have hstart : Scans blankEnv blankKey [chBackslash] s := .start hs
  obtain ⟨t, ht, hrun, hend⟩ := slash_overruns hstart hline (by rw [hptr]; rfl)
  have := hin t ht hrun
  omega

end Console
