import CobaltRom.Console.LineEdit
import CobaltRom.Console.History

/-! UP and DOWN walk through the history and back. -/
namespace Console

open Loop

/-- The saved lines and their number have not changed. -/
structure Keeps (s t : Raw) : Prop where
  ups : t.ups = s.ups
  prevs : t.prevs = s.prevs

variable {env : Env} {s t u : Raw} {x : UInt8} {r : Int}

theorem Keeps.refl (s : Raw) : Keeps s s := ⟨rfl, rfl⟩

theorem Keeps.trans (h : Keeps s t) (h' : Keeps t u) : Keeps s u :=
  ⟨h'.ups.trans h.ups, h'.prevs.trans h.prevs⟩

theorem keeps_rawPutc (x : UInt8) (s : Raw) : Keeps s (rawPutc x s) := by
  unfold rawPutc putc
  simp only
  split
  · exact ⟨rfl, rfl⟩
  · split <;> exact ⟨rfl, rfl⟩

theorem keeps_rawCursor {off : Int} {whence : Whence}
    (h : rawCursor env off whence s = some (r, t)) :
    Keeps s t := by
  unfold rawCursor at h
  simp only at h
  split at h
  · cases h
    exact Keeps.refl s
  · obtain ⟨u, hu, h⟩ := Option.bind_eq_some_iff.mp h
    obtain ⟨v, hv, h⟩ := Option.map_eq_some_iff.mp h
    cases h
    have h₁ : Keeps s u := whileM_rel Keeps.refl Keeps.trans (fun hb => by
      obtain ⟨c, -, rfl⟩ := Option.map_eq_some_iff.mp hb
      exact keeps_rawPutc c _) hu
    exact h₁.trans (whileM_rel Keeps.refl Keeps.trans (fun hb => by
      cases hb
      exact keeps_rawPutc chBs _) hv)

theorem keeps_cursor_snd {off : Int} {whence : Whence}
    (h : (rawCursor env off whence s).map Prod.snd = some t) : Keeps s t := by
  obtain ⟨⟨r, u⟩, hu, rfl⟩ := Option.map_eq_some_iff.mp h
  exact keeps_rawCursor hu

theorem keeps_rawBackspace (h : rawBackspace env s = some t) : Keeps s t := by
  unfold rawBackspace at h
  split at h
  · obtain ⟨⟨r, u⟩, hu, h⟩ := Option.bind_eq_some_iff.mp h
    obtain ⟨⟨n, b⟩, -, h⟩ := Option.bind_eq_some_iff.mp h
    have h₁ : Keeps s { u with rawbuf := b } :=
      ⟨(keeps_rawCursor hu).ups, (keeps_rawCursor hu).prevs⟩
    simp only at h
    split at h
    · cases h
      exact h₁.trans ((keeps_rawPutc _ _).trans (keeps_rawPutc _ _))
    · obtain ⟨⟨m, v⟩, hv, h⟩ := Option.bind_eq_some_iff.mp h
      exact h₁.trans ((keeps_rawCursor hv).trans ((keeps_rawPutc _ _).trans
        ((keeps_rawPutc _ _).trans (keeps_cursor_snd h))))
  · cases h
    exact ⟨rfl, rfl⟩

theorem keeps_rawChar (h : rawChar env x s = some t) : Keeps s t := by
  unfold rawChar at h
  simp only at h
  obtain ⟨u, hu, h⟩ := Option.bind_eq_some_iff.mp h
  obtain ⟨⟨n, b⟩, -, h⟩ := Option.bind_eq_some_iff.mp h
  obtain ⟨⟨m, v⟩, hv, h⟩ := Option.bind_eq_some_iff.mp h
  have h₁ : Keeps s u := by
    split at hu
    · obtain ⟨⟨k, b'⟩, -, rfl⟩ := Option.map_eq_some_iff.mp hu
      exact ⟨rfl, rfl⟩
    · cases hu
      exact Keeps.refl s
  have h₂ : Keeps s { u with rawbuf := b } := ⟨h₁.ups, h₁.prevs⟩
  exact h₂.trans ((keeps_rawCursor hv).trans (keeps_cursor_snd h))

theorem keeps_showLine {p : Option Block} (h : showLine env p s = some t) : Keeps s t := by
  unfold showLine at h
  obtain ⟨⟨r, u⟩, hu, h⟩ := Option.bind_eq_some_iff.mp h
  obtain ⟨v, hv, h⟩ := Option.bind_eq_some_iff.mp h
  obtain ⟨⟨m, w⟩, hw, h⟩ := Option.bind_eq_some_iff.mp h
  obtain ⟨n, -, h⟩ := Option.bind_eq_some_iff.mp h
  have h₁ : Keeps u v := whileM_rel Keeps.refl Keeps.trans (fun hb => by
    cases hb
    exact keeps_rawPutc chSpace _) hv
  have h₂ := (keeps_rawCursor hu).trans (h₁.trans (keeps_rawCursor hw))
  have h₃ := keeps_cursor_snd h
  exact ⟨h₃.ups.trans h₂.ups, h₃.prevs.trans h₂.prevs⟩

/-- LEFT and RIGHT. -/
theorem keeps_rawArrow {which : Arrow} (hw : which = .left ∨ which = .right)
    (h : rawArrow env which s = some t) : Keeps s t := by
  rcases hw with rfl | rfl
  all_goals
    obtain ⟨⟨r, u⟩, hu, rfl⟩ := Option.map_eq_some_iff.mp h
    have h₁ := keeps_rawCursor hu
    simp only
    split
    · exact ⟨h₁.ups, h₁.prevs⟩
    · exact h₁

/-! ### The keys -/

/-- The arrow key up or down that a turn reads, and the state it goes on with. -/
def turnArrow (s : Raw) : Option (Arrow × Raw) :=
  match s.input with
  | [] => none
  | c :: rest =>
    if c = ctrl 'P' then some (.up, { s with input := rest })
    else if c = ctrl 'N' then some (.down, { s with input := rest })
    else if c = chEsc then
      match rest with
      | c2 :: c3 :: rest =>
        if c2 = chEsc2 ∧ c3 = arrowUp then some (.up, { s with input := rest })
        else if c2 = chEsc2 ∧ c3 = arrowDown then some (.down, { s with input := rest })
        else none
      | _ => none
    else none

theorem keeps_padded {act : Raw → Option Raw} (hact : ∀ {s t}, act s = some t → Keeps s t)
    (h : padded s act = some t) : Keeps s t := by
  unfold padded at h
  obtain ⟨⟨c, u⟩, hu, h⟩ := Option.bind_eq_some_iff.mp h
  have h₁ : Keeps s u := by
    unfold getc at hu
    split at hu
    · cases hu
    · cases hu
      exact ⟨rfl, rfl⟩
  simp only at h
  split at h
  · exact h₁.trans (hact h)
  · cases h
    exact ⟨h₁.ups, h₁.prevs⟩

theorem keeps_csiSwitch (hu : x ≠ arrowUp) (hd : x ≠ arrowDown) (h : csiSwitch env x s = some t) :
    Keeps s t := by
  unfold csiSwitch at h
  rw [if_neg hu, if_neg hd] at h
  split at h
  · exact keeps_rawArrow (Or.inr rfl) h
  split at h
  · exact keeps_rawArrow (Or.inl rfl) h
  split at h
  · exact keeps_padded (fun hb => by cases hb; exact ⟨rfl, rfl⟩) h
  split at h
  · exact keeps_padded keeps_cursor_snd h
  split at h
  · exact keeps_padded keeps_cursor_snd h
  · cases h
    exact ⟨rfl, rfl⟩

theorem keeps_input (l : List UInt8) (s : Raw) : Keeps s { s with input := l } := ⟨rfl, rfl⟩

theorem getc_some (h : getc s = some (x, t)) : ∃ rest, s.input = x :: rest ∧
    t = { s with input := rest } := by
  unfold getc at h
  split at h
  · cases h
  · rename_i c rest hin
    cases h
    exact ⟨rest, hin, rfl⟩

/-- Apart from the arrows, no byte of a switch touches the saved lines. -/
theorem keeps_rawSwitch (hp : x ≠ ctrl 'P') (hn : x ≠ ctrl 'N') (he : x ≠ chEsc)
    (h : rawSwitch env x s = some t) : Keeps s t := by
  unfold rawSwitch at h
  rw [if_neg he, if_neg hp, if_neg hn] at h
  by_cases hret : x = chCr ∨ x = chNl
  · rw [if_pos hret] at h
    cases h
    exact ⟨rfl, rfl⟩
  by_cases hbs : x = chBs ∨ x = chDel
  · rw [if_neg hret, if_pos hbs] at h
    exact keeps_rawBackspace h
  by_cases htab : x = chTab
  · rw [if_neg hret, if_neg hbs, if_pos htab] at h
    cases h
    exact Keeps.refl s
  rw [if_neg hret, if_neg hbs, if_neg htab] at h
  by_cases hA : x = ctrl 'A'
  · rw [if_pos hA] at h
    exact keeps_cursor_snd h
  by_cases hE : x = ctrl 'E'
  · rw [if_neg hA, if_pos hE] at h
    exact keeps_cursor_snd h
  by_cases hU : x = ctrl 'U' ∨ x = ctrl 'W'
  · rw [if_neg hA, if_neg hE, if_pos hU] at h
    exact whileM_rel Keeps.refl Keeps.trans keeps_rawBackspace h
  rw [if_neg hA, if_neg hE, if_neg hU] at h
  by_cases hK : x = ctrl 'K'
  · rw [if_pos hK] at h
    obtain ⟨⟨r, u⟩, hu, h⟩ := Option.bind_eq_some_iff.mp h
    exact (keeps_rawCursor hu).trans (whileM_rel Keeps.refl Keeps.trans keeps_rawBackspace h)
  by_cases hD : x = ctrl 'D'
  · rw [if_neg hK, if_pos hD] at h
    split at h
    · obtain ⟨u, hu, h⟩ := Option.bind_eq_some_iff.mp h
      exact (keeps_rawArrow (Or.inr rfl) hu).trans (keeps_rawBackspace h)
    · cases h
      exact Keeps.refl s
  rw [if_neg hK, if_neg hD] at h
  by_cases hB : x = ctrl 'B'
  · rw [if_pos hB] at h
    exact keeps_rawArrow (Or.inl rfl) h
  by_cases hF : x = ctrl 'F'
  · rw [if_neg hB, if_pos hF] at h
    exact keeps_rawArrow (Or.inr rfl) h
  by_cases hC : x = ctrl 'C'
  · rw [if_neg hB, if_neg hF, if_pos hC] at h
    cases h
    exact ⟨rfl, rfl⟩
  by_cases hL : x = ctrl 'L'
  · rw [if_neg hB, if_neg hF, if_neg hC, if_pos hL] at h
    cases h
    exact ⟨rfl, rfl⟩
  rw [if_neg hB, if_neg hF, if_neg hC, if_neg hL] at h
  exact keeps_rawChar h

theorem keeps_rawEscape (h : rawEscape env s = some t)
    (harrow : ∀ l, s.input ≠ chEsc2 :: arrowUp :: l ∧ s.input ≠ chEsc2 :: arrowDown :: l) :
    Keeps s t := by
  unfold rawEscape at h
  obtain ⟨⟨c2, u⟩, hu, h⟩ := Option.bind_eq_some_iff.mp h
  obtain ⟨rest, hin, rfl⟩ := getc_some hu
  simp only at h
  by_cases hc : c2 = chEsc2
  · rw [if_pos hc] at h
    obtain ⟨⟨c3, v⟩, hv, h⟩ := Option.bind_eq_some_iff.mp h
    obtain ⟨rest', hin', rfl⟩ := getc_some hv
    simp only at hin' h
    have hne := harrow rest'
    rw [hin, hc, hin'] at hne
    have h₁ := keeps_csiSwitch (fun he => hne.1 (by rw [he])) (fun he => hne.2 (by rw [he])) h
    exact ⟨h₁.ups, h₁.prevs⟩
  · rw [if_neg hc] at h
    by_cases hz : c2 = chZ
    · rw [if_pos hz] at h
      obtain ⟨⟨c3, v⟩, hv, h⟩ := Option.bind_eq_some_iff.mp h
      obtain ⟨rest', -, rfl⟩ := getc_some hv
      simp only at h
      split at h
      · cases h
        exact ⟨(keeps_rawPutc chNl _).ups, (keeps_rawPutc chNl _).prevs⟩
      · cases h
        exact ⟨rfl, rfl⟩
    · rw [if_neg hz] at h
      cases h
      exact ⟨rfl, rfl⟩

/-- A turn is an arrow, or it keeps the saved lines. -/
theorem rawTurn_cases (h : rawTurn env s = some t) :
    (∃ which s', turnArrow s = some (which, s') ∧ Keeps s s' ∧ rawArrow env which s' = some t) ∨
      turnArrow s = none ∧ Keeps s t := by
  unfold turnArrow
  cases hin : s.input with
  | nil =>
    rw [rawTurn, getc, hin] at h
    cases h
  | cons c rest =>
    rw [rawTurn_cons hin] at h
    simp only
    by_cases hp : c = ctrl 'P'
    · rw [if_pos hp]
      subst hp
      exact Or.inl ⟨.up, _, rfl, keeps_input rest s, h⟩
    by_cases hn : c = ctrl 'N'
    · rw [if_neg hp, if_pos hn]
      subst hn
      exact Or.inl ⟨.down, _, rfl, keeps_input rest s, h⟩
    rw [if_neg hp, if_neg hn]
    by_cases he : c = chEsc
    · rw [if_pos he]
      subst he
      have hesc : rawEscape env { s with input := rest } = some t := h
      split
      · rename_i c2 c3 rest'
        by_cases hup : c2 = chEsc2 ∧ c3 = arrowUp
        · rw [if_pos hup]
          obtain ⟨rfl, rfl⟩ := hup
          exact Or.inl ⟨.up, _, rfl, keeps_input rest' s, h⟩
        by_cases hdown : c2 = chEsc2 ∧ c3 = arrowDown
        · rw [if_neg hup, if_pos hdown]
          obtain ⟨rfl, rfl⟩ := hdown
          exact Or.inl ⟨.down, _, rfl, keeps_input rest' s, h⟩
        rw [if_neg hup, if_neg hdown]
        refine Or.inr ⟨rfl, (keeps_input _ s).trans (keeps_rawEscape hesc fun l => ⟨?_, ?_⟩)⟩
        · intro he
          cases he
          exact hup ⟨rfl, rfl⟩
        · intro he
          cases he
          exact hdown ⟨rfl, rfl⟩
      · rename_i hshort
        refine Or.inr ⟨rfl, (keeps_input _ s).trans (keeps_rawEscape hesc fun l => ⟨?_, ?_⟩)⟩
        · exact fun he => hshort _ _ _ he
        · exact fun he => hshort _ _ _ he
    · rw [if_neg he]
      exact Or.inr ⟨rfl, (keeps_input rest s).trans (keeps_rawSwitch hp hn he h)⟩

/-! ### Showing another line -/

theorem rawPutc_plain (h : Plain x) (s : Raw) :
    rawPutc x s = { s with rawpos := s.rawpos + 1, out := s.out ++ [x] } := by
  obtain ⟨h1, h2, h3, -⟩ := h
  simp only [rawPutc, putc, h1, h2, h3, if_false, or_self]

theorem rawPutc_bs (s : Raw) :
    rawPutc chBs s = { s with rawpos := s.rawpos - 1, out := s.out ++ [chBs] } := by
  simp only [rawPutc, putc, if_true]

/-- The backspace loop with its echo. -/
theorem cursorLeft_echo (p : Int) : ∀ (k n : Nat) (s : Raw), k ≤ n → s.rawpos = p + k →
    whileM (fun s : Raw => decide (p < s.rawpos)) (fun s => some (rawPutc chBs s)) n s =
      some { s with rawpos := p, out := s.out ++ List.replicate k chBs } := by
  intro k
  induction k with
  | zero =>
    intro n s _ h
    obtain rfl : p = s.rawpos := by simpa using h.symm
    rw [whileM_stop (by simp), List.replicate_zero, List.append_nil]
  | succ k ih =>
    intro n s hn h
    obtain ⟨m, rfl⟩ : ∃ m, n = m + 1 := ⟨n - 1, by omega⟩
    have hcond : decide (p < s.rawpos) = true := by
      rw [h]
      simp
    rw [whileM, if_pos hcond, Option.bind_some, rawPutc_bs, ih m _ (by omega) (by
      simp only [h]
      push_cast
      ring)]
    simp [List.replicate_succ]

/-- The loop that blanks the line. -/
theorem blank_echo : ∀ (k n : Nat) (s : Raw), k ≤ n → s.rawpos + k = s.rawbuf.len + 1 →
    whileM (fun s : Raw => decide (s.rawpos ≤ s.rawbuf.len))
      (fun s => some (rawPutc chSpace s)) n s =
      some { s with rawpos := s.rawbuf.len + 1, out := s.out ++ List.replicate k chSpace } := by
  intro k
  induction k with
  | zero =>
    intro n s _ h
    have hpos : s.rawbuf.len + 1 = s.rawpos := by simpa using h.symm
    rw [whileM_stop (by simp [← hpos]), List.replicate_zero, List.append_nil, hpos]
  | succ k ih =>
    intro n s hn h
    obtain ⟨m, rfl⟩ : ∃ m, n = m + 1 := ⟨n - 1, by omega⟩
    have hcond : decide (s.rawpos ≤ s.rawbuf.len) = true := by
      rw [decide_eq_true_iff]
      push_cast at h
      omega
    rw [whileM, if_pos hcond, Option.bind_some, rawPutc_plain Plain.space, ih m _ (by omega) (by
      simp only
      push_cast at h
      omega)]
    simp [List.replicate_succ]

/-- The echo loop over the rest `m` of the line. -/
theorem cursorRight_echo : ∀ (m : List UInt8) (n : Nat) (s : Raw) (a : List UInt8),
    m.length ≤ n → s.rawpos = a.length → s.rawbuf.buf = some (cells (a ++ m)) →
    (∀ y ∈ m, Plain y) →
    whileM (fun s : Raw => decide (((a ++ m).length : Int) > s.rawpos))
      (fun s => (load s.rawbuf.buf s.rawpos).map fun c => rawPutc c s) n s =
      some { s with rawpos := (a ++ m).length, out := s.out ++ m } := by
  intro m
  induction m with
  | nil =>
    intro n s a _ h _ _
    have hpos : (((a ++ []).length : Nat) : Int) = s.rawpos := by rw [List.append_nil, h]
    rw [hpos, whileM_stop (by simp), List.append_nil]
  | cons y m ih =>
    intro n s a hn h hb hp
    obtain ⟨k, rfl⟩ : ∃ k, n = k + 1 := ⟨n - 1, by rw [List.length_cons] at hn; omega⟩
    have hload : load s.rawbuf.buf s.rawpos = some y := by
      rw [h, hb]
      simp [load, cells]
    have hrest := ih k { s with rawpos := s.rawpos + 1, out := s.out ++ [y] } (a ++ [y])
      (by simpa using hn) (by simp [h]) (by simpa using hb)
      fun z hz => hp z (List.mem_cons_of_mem y hz)
    simp only [List.append_assoc, List.singleton_append] at hrest
    have hcond : decide (((a ++ y :: m).length : Int) > s.rawpos) = true := by
      rw [h]
      simp
    rw [whileM, if_pos hcond, hload, Option.map_some, Option.bind_some,
      rawPutc_plain (hp y List.mem_cons_self), hrest]

/-- A block, or NULL, that holds `text`. -/
def Shown (p : Option Block) (text : List UInt8) : Prop :=
  p = some (cells text) ∨ p = none ∧ text = []

theorem strlen_cells : ∀ text : List UInt8, (0 : UInt8) ∉ text →
    strlen (cells text) = some text.length
  | [], _ => rfl
  | x :: text, h => by
    rw [List.mem_cons, not_or] at h
    have hx : x ≠ 0 := fun he => h.1 he.symm
    have ih := strlen_cells text h.2
    rw [cells] at ih
    simp [cells, strlen, hx, ih]

/-- What `raw_arrow` sends to the terminal to replace a line of `n` characters, with the
cursor at `pos`. -/
def replaceEcho (pos n : Nat) (text : List UInt8) : List UInt8 :=
  List.replicate pos chBs ++ List.replicate (n + 1) chSpace ++ List.replicate (n + 1) chBs ++ text

theorem showLine_eq {p : Option Block} {text : List UInt8} {pos n : Nat} (env : Env) (s : Raw)
    (hpos : s.rawpos = pos) (hlen : s.rawbuf.len = n) (hle : pos ≤ n) (hp : Shown p text)
    (hplain : ∀ y ∈ text, Plain y) (hn : n + 1 ≤ env.fuel) (htext : text.length ≤ env.fuel) :
    showLine env p s = some { s with
      rawpos := text.length
      rawbuf := { s.rawbuf with buf := p, len := text.length }
      out := s.out ++ replaceEcho pos n text } := by
  have hstrlen : p.elim (some 0) strlen = some text.length := by
    rcases hp with rfl | ⟨rfl, rfl⟩
    · exact strlen_cells text fun h0 => (hplain 0 h0).2.2.2 rfl
    · rfl
  have hset : ∀ (u : Raw) (k : Nat), u.rawpos = k → u.rawbuf.len = n → k ≤ env.fuel →
      rawCursor env 0 .set u = some (0, { u with
        rawpos := 0, out := u.out ++ List.replicate k chBs }) := by
    intro u k hk hu hfuel
    have hnew : newpos u 0 .set = 0 := rfl
    have hin : ¬ ((0 : Int) < 0 ∨ (0 : Int) > u.rawbuf.len) := by
      rw [hu]
      omega
    simp only [rawCursor, hnew, if_neg hin]
    rw [whileM_stop (by simp [hk]), Option.bind_some,
      cursorLeft_echo 0 k env.fuel u hfuel (by rw [hk, zero_add]), Option.map_some]
  have hend : ∀ u : Raw, u.rawpos = 0 → u.rawbuf.buf = p → u.rawbuf.len = text.length →
      rawCursor env 0 .fromEnd u = some ((text.length : Int), { u with
        rawpos := text.length, out := u.out ++ text }) := by
    intro u hu hb hl
    have hnew : newpos u 0 .fromEnd = text.length := by
      rw [newpos, hl, sub_zero]
    have hin : ¬ ((text.length : Int) < 0 ∨ (text.length : Int) > u.rawbuf.len) := by
      rw [hl]
      omega
    simp only [rawCursor, hnew, if_neg hin]
    rcases hp with rfl | ⟨rfl, rfl⟩
    · have hecho := cursorRight_echo text env.fuel u [] htext hu hb hplain
      rw [List.nil_append] at hecho
      rw [hecho, Option.bind_some, whileM_stop (by simp), Option.map_some]
    · rw [whileM_stop (by simp [hu]), Option.bind_some, whileM_stop (by simp [hu]), Option.map_some,
        List.append_nil, hu]
      simp [← hu]
  rw [showLine, hset s pos hpos hlen (by omega), Option.bind_some]
  simp only
  rw [blank_echo (n + 1) env.fuel _ hn (by simp [hlen]), Option.bind_some,
    hset _ (n + 1) (by simp [hlen]) (by exact hlen) (by omega), Option.bind_some, hstrlen,
    Option.bind_some]
  simp only
  rw [hend _ (by rfl) (by rfl) (by rfl), Option.map_some]
  simp [replaceEcho]

/-! ### The terminal -/

/-- The row of the terminal behind the prompt. -/
structure Term where
  row : Nat → UInt8
  col : Nat

def Term.feed (T : Term) (x : UInt8) : Term :=
  if x = chBs then { T with col := T.col - 1 }
  else { row := Function.update T.row T.col x, col := T.col + 1 }

/-- The row reads `text` and is blank behind it, with the cursor at `pos`. -/
structure Term.Displays (T : Term) (text : List UInt8) (pos : Nat) : Prop where
  col : T.col = pos
  row : ∀ i, T.row i = text.getD i chSpace

theorem feed_bs (k : Nat) : ∀ T : Term, (List.replicate k chBs).foldl Term.feed T =
    { T with col := T.col - k } := by
  induction k with
  | zero => exact fun _ => rfl
  | succ k ih =>
    intro T
    rw [List.replicate_succ, List.foldl_cons, ih, Term.feed, if_pos rfl]
    simp only [Nat.sub_sub, Nat.add_comm 1]

theorem feed_plain (l : List UInt8) : (∀ y ∈ l, Plain y) → ∀ T : Term, l.foldl Term.feed T =
    { row := fun i => if i < T.col then T.row i else (l[i - T.col]?).getD (T.row i)
      col := T.col + l.length } := by
  induction l with
  | nil => simp
  | cons y l ih =>
    intro hl T
    have hy : y ≠ chBs := (hl y List.mem_cons_self).1
    rw [List.foldl_cons, ih fun z hz => hl z (List.mem_cons_of_mem y hz), Term.feed, if_neg hy]
    simp only [List.length_cons, Term.mk.injEq]
    refine ⟨funext fun i => ?_, by omega⟩
    rcases Nat.lt_trichotomy i T.col with hlt | rfl | hgt
    · rw [if_pos (by omega), if_pos hlt, Function.update_of_ne (by omega)]
    · rw [if_pos (by omega), if_neg (by omega), Function.update_self]
      simp
    · obtain ⟨k, hk⟩ : ∃ k, i = T.col + 1 + k := ⟨i - (T.col + 1), by omega⟩
      rw [if_neg (by omega), if_neg (by omega), Function.update_of_ne (by omega),
        show i - T.col = (i - (T.col + 1)) + 1 by omega, List.getElem?_cons_succ]

theorem displays_replaceEcho {T : Term} {text text' : List UInt8} {pos : Nat}
    (h : T.Displays text pos) (hplain : ∀ y ∈ text', Plain y) :
    ((replaceEcho pos text.length text').foldl Term.feed T).Displays text' text'.length := by
  have hsp : ∀ y ∈ List.replicate (text.length + 1) chSpace, Plain y := fun y hy =>
    List.eq_of_mem_replicate hy ▸ Plain.space
  rw [replaceEcho, List.foldl_append, List.foldl_append, List.foldl_append, feed_bs, feed_bs,
    feed_plain _ hsp, feed_plain _ hplain]
  refine ⟨by simp [h.col], fun i => ?_⟩
  simp only [h.col, Nat.sub_self, List.length_replicate, Nat.zero_add, Nat.not_lt_zero, if_false,
    Nat.sub_zero, List.getElem?_replicate, h.row]
  by_cases hi : i < text'.length
  · simp [hi]
  · have hend : text'.getD i chSpace = chSpace := List.getD_eq_default _ _ (by omega)
    rw [List.getElem?_eq_none (by omega), Option.getD_none, hend]
    by_cases hin : i < text.length + 1
    · rw [if_pos hin, Option.getD_some]
    · rw [if_neg hin, Option.getD_none, List.getD_eq_default _ _ (by omega)]

/-- What is sent to the terminal from `s` to `t` replaces `text` on it by `text'`. -/
def Redraws (s t : Raw) (text : List UInt8) (pos : Nat) (text' : List UInt8) (pos' : Nat) : Prop :=
  ∃ echo, t.out = s.out ++ echo ∧
    ∀ T : Term, T.Displays text pos → (echo.foldl Term.feed T).Displays text' pos'

theorem Redraws.refl (s : Raw) (text : List UInt8) (pos : Nat) : Redraws s s text pos text pos :=
  ⟨[], (List.append_nil _).symm, fun _ h => h⟩

theorem Redraws.trans {text text' text'' : List UInt8} {pos pos' pos'' : Nat}
    (h : Redraws s t text pos text' pos') (h' : Redraws t u text' pos' text'' pos'') :
    Redraws s u text pos text'' pos'' := by
  obtain ⟨e, he, hT⟩ := h
  obtain ⟨e', he', hT'⟩ := h'
  refine ⟨e ++ e', by rw [he', he, List.append_assoc], fun T hd => ?_⟩
  rw [List.foldl_append]
  exact hT' _ (hT T hd)

/-! ### Levels of the history -/

/-- The buffer `j` lines back: the one that was edited at 0, copies of saved lines behind it. -/
def level (lines : List CStr) (buf : Option Block) : Nat → Option Block
  | 0 => buf
  | j + 1 => (lines.reverse[j]?).map fun l => cells l.text

def levelText (lines : List CStr) (text : List UInt8) : Nat → List UInt8
  | 0 => text
  | j + 1 => ((lines.reverse[j]?).map CStr.text).getD []

/-- `raw_read` shows the line at level `j`; the levels it has left are saved. -/
structure At (lines : List CStr) (buf : Option Block) (text : List UInt8) (s : Raw) (j pos : Nat) :
    Prop where
  ups : s.ups = j
  cursor : s.rawpos = pos
  inside : pos ≤ (levelText lines text j).length
  holds : Holds s.rawbuf (levelText lines text j)
  block : s.rawbuf.buf = level lines buf j
  below : ∀ i < j, s.prevs i = level lines buf i
  above : ∀ i, j < i → s.prevs i = none ∨ s.prevs i = level lines buf i

section Arrows

variable {lines : List CStr} {buf : Option Block} {text : List UInt8} {ring : Ring} {j pos : Nat}
  (hsaved : Saved ring lines) (hhist : env.hist = ring.hist)
  (hplain : ∀ i, ∀ y ∈ levelText lines text i, Plain y) (hbuf : Shown buf text)
  (hheap : ∀ l ∈ lines, env.heap (l.text.length + 1) = true)
  (hfuel : ∀ i, (levelText lines text i).length + 1 ≤ env.fuel)

include hbuf in
theorem shown_level (j : Nat) : Shown (level lines buf j) (levelText lines text j) := by
  cases j with
  | zero => exact hbuf
  | succ j =>
    rw [level, levelText]
    cases lines.reverse[j]? with
    | none => exact Or.inr ⟨rfl, rfl⟩
    | some l => exact Or.inl rfl

include hplain hbuf hfuel in
/-- Going from level `j` to level `i`, once the other buffer is saved. -/
theorem At.show {i : Nat} (h : At lines buf text s j pos) {v : Raw}
    (hv : v = { s with ups := i, prevs := fun n => if n = j then s.rawbuf.buf else s.prevs n })
    (hi : i = j + 1 ∨ j = i + 1) :
    ∃ t, showLine env (level lines buf i) v = some t ∧
      At lines buf text t i (levelText lines text i).length ∧ t.input = s.input ∧ t.done = s.done ∧
      Redraws s t (levelText lines text j) pos (levelText lines text i)
        (levelText lines text i).length := by
  subst hv
  have hshow := showLine_eq env { s with
    ups := i, prevs := fun n => if n = j then s.rawbuf.buf else s.prevs n } h.cursor h.holds.len
    h.inside (shown_level hbuf i) (hplain i) (hfuel j) (Nat.le_of_succ_le (hfuel i))
  refine ⟨_, hshow, ⟨rfl, rfl, le_refl _, ⟨h.holds.grow, rfl, ?_⟩, rfl, ?_, ?_⟩, rfl, rfl,
    _, rfl, fun T hT => displays_replaceEcho hT (hplain i)⟩
  · exact shown_level hbuf i
  · intro n hn
    simp only
    by_cases hnj : n = j
    · rw [if_pos hnj, hnj, h.block]
    · rw [if_neg hnj]
      exact h.below n (by omega)
  · intro n hn
    simp only
    by_cases hnj : n = j
    · rw [if_pos hnj, hnj, h.block]
      exact Or.inr rfl
    · rw [if_neg hnj]
      exact h.above n (by omega)

include hsaved hhist hplain hbuf hheap hfuel in
theorem At.up (h : At lines buf text s j pos) (hj : j + 1 < histsz) (hlen : j < lines.length) :
    ∃ t, rawArrow env .up s = some t ∧
      At lines buf text t (j + 1) (levelText lines text (j + 1)).length ∧ t.input = s.input ∧
      t.done = s.done ∧ Redraws s t (levelText lines text j) pos (levelText lines text (j + 1))
        (levelText lines text (j + 1)).length := by
  obtain ⟨l, hl⟩ : ∃ l, lines.reverse[j]? = some l :=
    ⟨_, List.getElem?_eq_getElem (by rw [List.length_reverse]; exact hlen)⟩
  have hmem : l ∈ lines := List.mem_reverse.mp (List.mem_of_getElem? hl)
  have hlookup : histlookupNum env.hist (env.hist.histnum - Int32.ofNat (j + 1)) =
      some l.text := by
    rw [hhist, hsaved.lookupNum_back hlen (by omega), ← List.getElem?_reverse hlen, hl,
      Option.map_some]
  have hlevel : level lines buf (j + 1) = some (cells l.text) := by rw [level, hl, Option.map_some]
  obtain ⟨t, ht, hat⟩ := h.show hplain hbuf hfuel rfl (Or.inl rfl)
  refine ⟨t, ?_, hat⟩
  rw [hlevel] at ht
  have hset : setPrevs s j s.rawbuf.buf = some { s with
      prevs := fun n => if n = j then s.rawbuf.buf else s.prevs n } := by
    rw [setPrevs, if_pos (by omega)]
  have hsaved' : s.prevs (j + 1) = none ∨ s.prevs (j + 1) = some (cells l.text) := by
    rw [← hlevel]
    exact h.above (j + 1) (by omega)
  have hat' : prevsAt { s with
      ups := j + 1, prevs := fun n => if n = j then s.rawbuf.buf else s.prevs n } (j + 1) =
      some (s.prevs (j + 1)) := by
    rw [prevsAt, if_pos hj]
    simp
  have hm : malloc env.heap (l.text.length + 1) =
      some (List.replicate (l.text.length + 1) none) := by
    rw [malloc, if_pos ⟨by omega, hheap l hmem⟩]
    rfl
  simp only [rawArrow, h.ups, hlookup, hset, Option.bind_some, hat', hm]
  rcases hsaved' with hp | hp
  · rw [hp]
    exact ht
  · rw [hp]
    exact ht

include hplain hbuf hfuel in
theorem At.down (h : At lines buf text s (j + 1) pos) (hj : j + 1 < histsz) :
    ∃ t, rawArrow env .down s = some t ∧
      At lines buf text t j (levelText lines text j).length ∧ t.input = s.input ∧
      t.done = s.done ∧ Redraws s t (levelText lines text (j + 1)) pos (levelText lines text j)
        (levelText lines text j).length := by
  obtain ⟨t, ht, hat⟩ := h.show hplain hbuf hfuel rfl (Or.inr rfl)
  refine ⟨t, ?_, hat⟩
  have hset : setPrevs s (j + 1) s.rawbuf.buf = some { s with
      prevs := fun n => if n = j + 1 then s.rawbuf.buf else s.prevs n } := by
    rw [setPrevs, if_pos hj]
  have hat' : prevsAt { s with
      ups := j, prevs := fun n => if n = j + 1 then s.rawbuf.buf else s.prevs n } j =
      some (level lines buf j) := by
    rw [prevsAt, if_pos (by omega)]
    simp [h.below j (by omega)]
  simp only [rawArrow, h.ups, if_neg (Nat.succ_ne_zero j), hset, Option.bind_some,
    Nat.add_sub_cancel, hat']
  exact ht

/-! ### Sequences of keys -/

/-- An arrow key, or its control code. -/
inductive Spelling
  | control
  | escape

def upBytes : Spelling → List UInt8
  | .control => [ctrl 'P']
  | .escape => [chEsc, chEsc2, arrowUp]

def downBytes : Spelling → List UInt8
  | .control => [ctrl 'N']
  | .escape => [chEsc, chEsc2, arrowDown]

theorem rawTurn_up {l : List UInt8} (k : Spelling) (h : s.input = upBytes k ++ l) :
    rawTurn env s = rawArrow env .up { s with input := l } := by
  cases k with
  | control => exact rawTurn_cons h
  | escape => exact rawTurn_csi h

theorem rawTurn_down {l : List UInt8} (k : Spelling) (h : s.input = downBytes k ++ l) :
    rawTurn env s = rawArrow env .down { s with input := l } := by
  cases k with
  | control => exact rawTurn_cons h
  | escape => exact rawTurn_csi h

theorem At.input (h : At lines buf text s j pos) (l : List UInt8) :
    At lines buf text { s with input := l } j pos :=
  ⟨h.ups, h.cursor, h.inside, h.holds, h.block, h.below, h.above⟩

theorem At.line (hplain : ∀ i, ∀ y ∈ levelText lines text i, Plain y)
    (h : At lines buf text s j (levelText lines text j).length) :
    Line s (levelText lines text j) [] := by
  refine ⟨h.cursor, ?_, ?_⟩
  · rw [List.append_nil]
    exact h.holds
  · rw [List.append_nil]
    exact hplain j

theorem rawTurns_add (n m : Nat) : ∀ s, rawTurns env (n + m) s =
    (rawTurns env n s).bind (rawTurns env m) := by
  induction n with
  | zero =>
    intro s
    rw [Nat.zero_add, rawTurns, Option.bind_some]
  | succ n ih =>
    intro s
    rw [Nat.add_right_comm, rawTurns, rawTurns, Option.bind_assoc]
    congr 1
    exact funext ih

include hsaved hhist hplain hbuf hheap hfuel in
theorem At.ups_run {l : List UInt8} (ks : List Spelling) : ∀ {s : Raw} {j pos : Nat},
    At lines buf text s j pos → s.input = ks.flatMap upBytes ++ l → j + ks.length < histsz →
    j + ks.length ≤ lines.length →
    ∃ t pos', rawTurns env ks.length s = some t ∧ At lines buf text t (j + ks.length) pos' ∧
      (pos' = if ks = [] then pos else (levelText lines text (j + ks.length)).length) ∧
      t.input = l ∧ t.done = s.done ∧
      Redraws s t (levelText lines text j) pos (levelText lines text (j + ks.length)) pos' := by
  induction ks with
  | nil => exact fun h hin _ _ => ⟨_, _, rfl, h, rfl, hin, rfl, Redraws.refl _ _ _⟩
  | cons k ks ih =>
    intro s j pos h hin hj hlen
    rw [List.length_cons] at hj hlen
    rw [List.flatMap_cons, List.append_assoc] at hin
    obtain ⟨t, ht, hat, hti, htd, hred⟩ :=
      (h.input (ks.flatMap upBytes ++ l)).up hsaved hhist hplain
      hbuf hheap hfuel (by omega) (by omega)
    have hnext : j + 1 + ks.length = j + (k :: ks).length := by
      rw [List.length_cons]
      omega
    obtain ⟨u, pos', hu, hau, hpos, hui, hud, hred'⟩ := ih hat hti (by omega) (by omega)
    rw [hnext] at hau hpos hred'
    refine ⟨u, pos', ?_, hau, ?_, hui, hud.trans htd, hred.trans hred'⟩
    · rw [List.length_cons, rawTurns, rawTurn_up k hin, ht, Option.bind_some, hu]
    · rw [hpos, if_neg (List.cons_ne_nil k ks)]
      split
      · rename_i hnil
        rw [hnil]
        rfl
      · rfl

include hplain hbuf hfuel in
theorem At.downs_run {l : List UInt8} (ks : List Spelling) : ∀ {s : Raw} {j pos : Nat},
    At lines buf text s (j + ks.length) pos → s.input = ks.flatMap downBytes ++ l →
    j + ks.length < histsz →
    ∃ t pos', rawTurns env ks.length s = some t ∧ At lines buf text t j pos' ∧
      (pos' = if ks = [] then pos else (levelText lines text j).length) ∧
      t.input = l ∧ t.done = s.done ∧
      Redraws s t (levelText lines text (j + ks.length)) pos (levelText lines text j) pos' := by
  induction ks with
  | nil => exact fun h hin _ => ⟨_, _, rfl, h, rfl, hin, rfl, Redraws.refl _ _ _⟩
  | cons k ks ih =>
    intro s j pos h hin hj
    have hnext : j + (k :: ks).length = j + ks.length + 1 := by
      rw [List.length_cons]
      omega
    rw [hnext] at h hj ⊢
    rw [List.flatMap_cons, List.append_assoc] at hin
    obtain ⟨t, ht, hat, hti, htd, hred⟩ :=
      (h.input (ks.flatMap downBytes ++ l)).down hplain hbuf hfuel
      hj
    obtain ⟨u, pos', hu, hau, hpos, hui, hud, hred'⟩ := ih hat hti (by omega)
    refine ⟨u, pos', ?_, hau, ?_, hui, hud.trans htd, hred.trans hred'⟩
    · rw [List.length_cons, rawTurns, rawTurn_down k hin, ht, Option.bind_some, hu]
    · rw [hpos, if_neg (List.cons_ne_nil k ks)]
      split
      · rename_i hnil
        rw [hnil]
        rfl
      · rfl

end Arrows

theorem levelText_forall {P : List UInt8 → Prop} {lines : List CStr} {text : List UInt8}
    (h0 : P text) (hl : ∀ l ∈ lines, P l.text) (hnil : P []) (j : Nat) :
    P (levelText lines text j) := by
  cases j with
  | zero => exact h0
  | succ j =>
    rw [levelText]
    cases hj : lines.reverse[j]? with
    | none => exact hnil
    | some l => exact hl l (List.mem_reverse.mp (List.mem_of_getElem? hj))

/-- UP goes back line by line, and as many DOWN return to the line that was being edited, in
the buffer and on the terminal. -/
theorem up_down_inverse (heap : Heap) (lines : List CStr)
    (hsave : ∀ l ∈ lines, heap (l.text.length + 1) = true)
    (hplain : ∀ l ∈ lines, ∀ y ∈ l.text, Plain y) (env : Env)
    (hhist : env.hist = (saveAll heap lines).hist)
    (hheap : ∀ l ∈ lines, env.heap (l.text.length + 1) = true)
    (hfuel : ∀ l ∈ lines, l.text.length < env.fuel) {s : Raw} {a c rest : List UInt8}
    (hline : Line s a c) (hups : s.ups = 0) (hprevs : ∀ i, s.prevs i = none)
    (hedit : (a ++ c).length < env.fuel) (ups downs : List Spelling)
    (hlen : downs.length = ups.length) (hk : ups.length ≤ lines.length) (hk' : ups.length ≤ 127)
    (hin : s.input = ups.flatMap upBytes ++ (downs.flatMap downBytes ++ rest)) :
    (∃ t a' c', rawTurns env (ups.length + downs.length) s = some t ∧ Line t a' c' ∧
      a' ++ c' = a ++ c ∧ (ups ≠ [] → c' = []) ∧ t.ups = 0 ∧ t.rawbuf.buf = s.rawbuf.buf ∧
      t.input = rest ∧ Redraws s t (a ++ c) a.length (a ++ c) a'.length) ∧
    ∀ j, 0 < j → j ≤ ups.length → ∃ t l, rawTurns env j s = some t ∧
      lines[lines.length - j]? = some l ∧ Line t l.text [] ∧ t.ups = j ∧
      Redraws s t (a ++ c) a.length l.text l.text.length := by
  have hsaved := saved_saveAll heap lines hsave
  have hp : ∀ i, ∀ y ∈ levelText lines (a ++ c) i, Plain y :=
    levelText_forall (P := fun l => ∀ y ∈ l, Plain y) hline.plain hplain (by simp)
  have hf : ∀ i, (levelText lines (a ++ c) i).length + 1 ≤ env.fuel :=
    levelText_forall (P := fun l => l.length + 1 ≤ env.fuel) hedit hfuel
      (by rw [List.length_nil]; omega)
  have hstart : At lines s.rawbuf.buf (a ++ c) s 0 a.length :=
    ⟨hups, hline.pos,
      by simp [levelText], hline.buf, rfl, fun i hi => absurd hi (Nat.not_lt_zero i),
      fun i _ => Or.inl (hprevs i)⟩
  have hbuf : Shown s.rawbuf.buf (a ++ c) := hline.buf.buf
  refine ⟨?_, fun j hj hjk => ?_⟩
  · obtain ⟨t, pos, ht, hat, hpos, hti, -, hred⟩ := hstart.ups_run hsaved hhist hp hbuf hheap hf ups
      hin (by simp only [histsz]; omega) (by omega)
    rw [Nat.zero_add, ← hlen, ← Nat.zero_add downs.length] at hat hred
    obtain ⟨u, pos', hu, hau, hpos', hui, -, hred'⟩ := hat.downs_run hp hbuf hf downs hti (by
      simp only [histsz]
      omega)
    have hrun : rawTurns env (ups.length + downs.length) s = some u := by
      rw [rawTurns_add, ht, Option.bind_some, hu]
    by_cases hnil : ups = []
    · have hdnil : downs = [] := List.eq_nil_of_length_eq_zero (by rw [hlen, hnil]; rfl)
      rw [if_pos hnil] at hpos
      rw [if_pos hdnil, hpos] at hpos'
      rw [hpos'] at hau hred'
      refine ⟨u, a, c, hrun, ⟨hau.cursor, hau.holds, hline.plain⟩, rfl, fun h => absurd hnil h,
        hau.ups, hau.block, hui, hred.trans hred'⟩
    · have hdnil : downs ≠ [] := by
        rintro rfl
        exact hnil (List.eq_nil_of_length_eq_zero hlen.symm)
      rw [if_neg hdnil] at hpos'
      rw [hpos'] at hau hred'
      exact ⟨u, a ++ c, [], hrun, hau.line hp, List.append_nil _, fun _ => rfl, hau.ups, hau.block,
        hui, hred.trans hred'⟩
  · have htake : (ups.take j).length = j := List.length_take_of_le hjk
    obtain ⟨t, pos, ht, hat, hpos, -, -, hred⟩ := hstart.ups_run hsaved hhist hp hbuf hheap hf
      (ups.take j) (l := (ups.drop j).flatMap upBytes ++ (downs.flatMap downBytes ++ rest))
      (by rw [hin, ← List.append_assoc (List.flatMap _ (List.take _ _)), ← List.flatMap_append,
        List.take_append_drop])
      (by rw [htake]; simp only [histsz]; omega) (by rw [htake]; omega)
    have hne : ups.take j ≠ [] := by
      intro he
      rw [he] at htake
      exact absurd htake.symm (by simp only [List.length_nil]; omega)
    rw [if_neg hne] at hpos
    rw [htake] at ht
    rw [htake, Nat.zero_add] at hat hpos hred
    rw [hpos] at hat hred
    obtain ⟨l, hl⟩ : ∃ l, lines[lines.length - j]? = some l :=
      ⟨_, List.getElem?_eq_getElem (by omega)⟩
    have htext : levelText lines (a ++ c) j = l.text := by
      obtain ⟨i, rfl⟩ : ∃ i, j = i + 1 := ⟨j - 1, by omega⟩
      rw [levelText, List.getElem?_reverse (by omega),
        show lines.length - 1 - i = lines.length - (i + 1) by
        omega, hl, Option.map_some, Option.getD_some]
    have hlt := hat.line hp
    rw [htext] at hlt hred
    exact ⟨t, l, ht, hl, hlt, hat.ups, hred⟩

/-- Two saved lines, and `x` typed: up twice and down twice. -/
theorem up_down_inverse_two : ∃ t, rawTurns
      { heap := fun _ => true,
        hist := (saveAll (fun _ => true) [⟨[97], by decide⟩, ⟨[98], by decide⟩]).hist,
        fuel := 9 } 4
      { rawpos := 1, overwrite := false,
        rawbuf := { len := 1, max := strbufGrow, buf := some (cells [120]) },
        ups := 0, prevs := fun _ => none, done := false,
        input := [16, 27, 91, 65, 14, 14], out := [] } = some t ∧
    t.ups = 0 ∧ t.rawbuf.buf = some (cells [120]) := by
  obtain ⟨⟨t, -, -, ht, -, -, -, hups, hbuf, -, -⟩, -⟩ := up_down_inverse (fun _ => true)
    [⟨[97], by decide⟩, ⟨[98], by decide⟩] (fun _ _ => rfl) (by simp [Plain, chBs, chNl, chCr])
    { heap := fun _ => true, hist := _, fuel := 9 } rfl (fun _ _ => rfl) (by decide)
    (s := { rawpos := 1, overwrite := false,
            rawbuf := { len := 1, max := strbufGrow, buf := some (cells [120]) }, ups := 0,
            prevs := fun _ => none, done := false, input := [16, 27, 91, 65, 14, 14], out := [] })
    (a := [120]) (c := []) ⟨rfl, ⟨rfl, rfl, Or.inl rfl⟩, by simp [Plain, chBs, chNl, chCr]⟩ rfl
    (fun _ => rfl) (by decide) [.control, .escape] [.control, .control] rfl (by decide) (by decide)
    (show [16, 27, 91, 65, 14, 14] = [Spelling.control, .escape].flatMap upBytes ++
      ([Spelling.control, .control].flatMap downBytes ++ []) from rfl)
  exact ⟨t, ht, hups, hbuf⟩

end Console
