import CobaltRom.Console.Quoting

/-! `readline` on lines without expansions: quotes, escapes and the history. -/
namespace Console

/-- What a character stands in: nothing, behind a backslash, single quotes, which may be inside
double quotes, or double quotes. -/
inductive QuoteCtx
  | plain
  | escape
  | single (inside : Bool)
  | double
deriving DecidableEq

def quoteStep : QuoteCtx → UInt8 → QuoteCtx
  | .plain, c =>
    if c = chBackslash then .escape
    else if c = chSquote then .single false
    else if c = chDquote then .double
    else .plain
  | .escape, _ => .plain
  | .single inside, c =>
    if c = chSquote then (if inside then .double else .plain) else .single inside
  | .double, c =>
    if c = chDquote then .plain else if c = chSquote then .single true else .double

/-- What stands behind `l` stands in this. -/
def quoteCtx (x : QuoteCtx) (l : List UInt8) : QuoteCtx := l.foldl quoteStep x

/-- The line without its unquoted backslashes. -/
def stripSlashes : QuoteCtx → List UInt8 → List UInt8
  | _, [] => []
  | x, c :: rest =>
    if x = .plain ∧ c = chBackslash then stripSlashes .escape rest
    else c :: stripSlashes (quoteStep x c) rest

/-- No `!` outside of single quotes. -/
def Unexpanded (x : QuoteCtx) (l : List UInt8) : Prop :=
  ∀ a rest, l = a ++ chBang :: rest → ∃ inside, quoteCtx x a = .single inside

variable {env : ScanEnv} {bbuf : KeyBuf} {text rest out : List UInt8} {s t : Scan} {c : UInt8}
  {x : QuoteCtx} {n : Nat}

theorem Unexpanded.head (h : Unexpanded x (c :: rest)) (hc : c = chBang) :
    ∃ inside, x = .single inside := by
  obtain ⟨inside, hx⟩ := h [] rest (by rw [hc]; rfl)
  exact ⟨inside, hx⟩

theorem Unexpanded.tail (h : Unexpanded x (c :: rest)) : Unexpanded (quoteStep x c) rest := by
  intro a rest' he
  exact h (c :: a) rest' (by rw [he]; rfl)

theorem unexpanded_cons : Unexpanded x (c :: rest) ↔
    (c = chBang → x = .single false ∨ x = .single true) ∧ Unexpanded (quoteStep x c) rest := by
  constructor
  · intro h
    refine ⟨fun hc => ?_, h.tail⟩
    obtain ⟨inside, rfl⟩ := h.head hc
    cases inside
    · exact Or.inl rfl
    · exact Or.inr rfl
  · rintro ⟨hc, h⟩ a rest' he
    cases a with
    | nil =>
      cases he
      rcases hc rfl with hx | hx <;> exact ⟨_, hx⟩
    | cons y a =>
      cases he
      exact h a rest' rfl

instance decidableUnexpanded : (x : QuoteCtx) → (l : List UInt8) → Decidable (Unexpanded x l)
  | _, [] => .isTrue fun _ _ he => by simp at he
  | x, c :: rest =>
    have := decidableUnexpanded (quoteStep x c) rest
    decidable_of_iff ((c = chBang → x = .single false ∨ x = .single true) ∧
      Unexpanded (quoteStep x c) rest) unexpanded_cons.symm

theorem stripSlashes_sublist (x : QuoteCtx) (l : List UInt8) : (stripSlashes x l).Sublist l := by
  induction l generalizing x with
  | nil => exact List.Sublist.slnil
  | cons c rest ih =>
    rw [stripSlashes]
    split
    · exact (ih .escape).cons c
    · exact (ih (quoteStep x c)).cons_cons c

/-- The state that reads in this context. -/
def ctxState : QuoteCtx → RlState
  | .plain => .line
  | .escape => .slashesc
  | .single _ => .sqstr
  | .double => .dqstr

/-- The heap serves the sizes up to `n`. -/
def Serves (env : ScanEnv) (n : Nat) : Prop := ∀ m, m ≤ n → env.heap m = true

/-- The machine stands in `x`, with `out` in the result unless memory ran out. -/
structure Reads (env : ScanEnv) (n : Nat) (s : Scan) (x : QuoteCtx) (out : List UInt8) : Prop where
  state : s.state = ctxState x
  pushed : ∀ inside, x = .single inside → s.pushed = if inside then .dqstr else .line
  holds : ∃ out', Holds s.buf out'
  text : Serves env n → Holds s.buf out ∧ s.buf.buf = some (cells out)

theorem Reads.running (h : Reads env n s x out) : s.ended = false := by
  cases x <;> simp [Scan.ended, h.state, ctxState]

theorem Reads.not_inBang (h : Reads env n s x out) : ¬ InBang s := by
  cases x <;> simp [InBang, h.state, ctxState]

theorem Reads.putChar (h : Reads env n s x out) (h0 : c ≠ 0) (hn : out.length + 2 ≤ n) :
    ∃ b, (∃ out', Holds b out') ∧
      (Serves env n → Holds b (out ++ [c]) ∧ b.buf = some (cells (out ++ [c]))) ∧
      ∀ u : Scan, u.buf = s.buf → putChar env c u = .ok { u with buf := b } := by
  obtain ⟨out', hout'⟩ := h.holds
  obtain ⟨r, b, out'', hb, hholds⟩ := strbufAppend_any env.heap [c] hout'
  refine ⟨b, ⟨out'', hholds⟩, fun hserve => ?_, fun u hu => ?_⟩
  · obtain ⟨b', hb', hholds'⟩ := strbufAppend_grow env.heap [c] (h.text hserve).1
      (by rw [List.length_append]; exact hserve _ hn)
    rw [hb, Option.some.injEq, Prod.mk.injEq] at hb'
    rw [hb'.2]
    exact ⟨hholds', hholds'.buf.resolve_right fun hnil => by simp at hnil⟩
  · rw [Console.putChar, hu, strbufAppendc, charStr, if_neg h0, hb]

theorem stripSlashes_cons (x : QuoteCtx) (c : UInt8) (rest : List UInt8) :
    stripSlashes x (c :: rest) = stripSlashes x [c] ++ stripSlashes (quoteStep x c) rest := by
  rw [stripSlashes, stripSlashes]
  split
  · rename_i h
    rw [h.1, h.2]
    rfl
  · rfl

theorem stripSlashes_keep (h : x = .plain → c ≠ chBackslash) : stripSlashes x [c] = [c] := by
  rw [stripSlashes, if_neg fun hn => h hn.1 hn.2, stripSlashes]

/-- One character of such a line. -/
theorem Reads.turn (h : Reads env n s x out) (hdrop : text.drop s.ptr = c :: rest) (h0 : c ≠ 0)
    (hbang : c = chBang → ∃ inside, x = .single inside) (hn : out.length + 2 ≤ n) :
    ∃ t, scanTurn env (some (cells text)) s = .ok t ∧ t.ptr = s.ptr + 1 ∧
      Reads env n t (quoteStep x c) (out ++ stripSlashes x [c]) := by
  obtain ⟨b, hholds, hbuf, hput⟩ := h.putChar h0 hn
  rw [scanTurn, load_of_drop hdrop]
  cases x with
  | plain =>
    have hb : c ≠ chBang := fun he => by
      obtain ⟨inside, hx⟩ := hbang he
      cases hx
    simp only [show s.state = .line from h.state, lineTurn, if_neg h0, if_neg hb]
    by_cases hslash : c = chBackslash
    · rw [if_pos hslash]
      refine ⟨_, rfl, rfl, ?_⟩
      rw [quoteStep, if_pos hslash, stripSlashes, if_pos ⟨rfl, hslash⟩, stripSlashes,
        List.append_nil]
      exact ⟨rfl, by rintro _ ⟨⟩, h.holds, h.text⟩
    rw [stripSlashes_keep fun _ => hslash, quoteStep, if_neg hslash, if_neg hslash]
    by_cases hsq : c = chSquote
    · rw [if_pos hsq, if_pos hsq, hput _ (by rfl)]
      exact ⟨_, rfl, rfl, rfl, fun inside hi => by cases hi; rfl, hholds, hbuf⟩
    rw [if_neg hsq, if_neg hsq]
    by_cases hdq : c = chDquote
    · rw [if_pos hdq, if_pos hdq, hput _ (by rfl)]
      exact ⟨_, rfl, rfl, rfl, by rintro _ ⟨⟩, hholds, hbuf⟩
    · rw [if_neg hdq, if_neg hdq, hput _ (by rfl)]
      exact ⟨_, rfl, rfl, rfl, by rintro _ ⟨⟩, hholds, hbuf⟩
  | escape =>
    simp only [show s.state = .slashesc from h.state]
    rw [hput _ (by rfl), stripSlashes_keep (x := .escape) (by rintro ⟨⟩), quoteStep]
    exact ⟨_, rfl, rfl, rfl, by rintro _ ⟨⟩, hholds, hbuf⟩
  | single inside =>
    simp only [show s.state = .sqstr from h.state, sqstrTurn, if_neg h0]
    rw [stripSlashes_keep (x := .single inside) (by rintro ⟨⟩), quoteStep]
    by_cases hsq : c = chSquote
    · rw [if_pos hsq, if_pos hsq, hput _ (by rfl)]
      refine ⟨_, rfl, rfl, ?_, ?_, hholds, hbuf⟩
      · show s.pushed = _
        rw [h.pushed inside rfl]
        cases inside <;> rfl
      · intro inside' hi
        cases inside <;> cases hi
    · rw [if_neg hsq, if_neg hsq, hput _ (by rfl)]
      exact ⟨_, rfl, rfl, rfl, fun inside' hi => h.pushed inside' hi, hholds, hbuf⟩
  | double =>
    have hb : c ≠ chBang := fun he => by
      obtain ⟨inside, hx⟩ := hbang he
      cases hx
    simp only [show s.state = .dqstr from h.state, dqstrTurn, if_neg h0, if_neg hb]
    rw [stripSlashes_keep (x := .double) (by rintro ⟨⟩), quoteStep]
    by_cases hdq : c = chDquote
    · rw [if_pos hdq, if_pos hdq, hput _ (by rfl)]
      exact ⟨_, rfl, rfl, rfl, by rintro _ ⟨⟩, hholds, hbuf⟩
    rw [if_neg hdq, if_neg hdq]
    by_cases hsq : c = chSquote
    · rw [if_pos hsq, if_pos hsq, hput _ (by rfl)]
      exact ⟨_, rfl, rfl, rfl, fun inside hi => by cases hi; rfl, hholds, hbuf⟩
    · rw [if_neg hsq, if_neg hsq, hput _ (by rfl)]
      exact ⟨_, rfl, rfl, rfl, by rintro _ ⟨⟩, hholds, hbuf⟩

/-- The NUL of such a line. -/
theorem Reads.end (h : Reads env n s x out) (hptr : s.ptr = text.length) (hx : x ≠ .escape) :
    ∃ t, scanTurn env (some (cells text)) s = .ok t ∧ t.ended = true ∧ t.buf = s.buf := by
  rw [scanTurn, hptr, load_end]
  cases x with
  | plain =>
    simp only [show s.state = .line from h.state, lineTurn]
    exact ⟨_, rfl, rfl, rfl⟩
  | escape => exact absurd rfl hx
  | single inside =>
    simp only [show s.state = .sqstr from h.state, sqstrTurn]
    exact ⟨_, rfl, rfl, rfl⟩
  | double =>
    simp only [show s.state = .dqstr from h.state, dqstrTurn]
    exact ⟨_, rfl, rfl, rfl⟩

theorem Reads.remains (h : Reads env n s x out) (hnul : (0 : UInt8) ∉ text)
    (hs : Scans env bbuf text s) (ht : scanTurn env (some (cells text)) s = .ok t)
    (hesc : x = .escape → t.ptr ≤ text.length) : Remains env text s ↔ Remains env text t := by
  obtain ⟨c, hc, hmove⟩ := scanTurn_cases h.running ht
  refine hmove.remains hnul hc hs.sound (fun hb _ _ => absurd (Or.inl hb) h.not_inBang)
    (fun hst => hesc ?_) fun hin => absurd hin h.not_inBang
  rw [h.state] at hst
  cases x <;> first | rfl | cases hst

theorem scanLoop_ended {raw : Option Block} {fuel : Nat} (h : s.ended = true) :
    scanLoop env raw fuel s = some (.ok s) := by
  cases fuel <;> rw [scanLoop, if_pos h]

/-- The machine stops on such a line; it succeeds if the quotes are closed, and the result is the
line without its unquoted backslashes. -/
theorem Reads.run (hnul : (0 : UInt8) ∉ text) (hs : Scans env bbuf text s)
    (h : Reads env n s x out) (hrest : text.drop s.ptr = rest)
    (hptr : s.ptr + rest.length = text.length) (hbang : Unexpanded x rest)
    (hslash : quoteCtx x rest ≠ .escape)
    (hn : out.length + rest.length + 1 ≤ n) (fuel : Nat) (hfuel : rest.length < fuel) :
    ∃ t, scanLoop env (some (cells text)) fuel s = some (.ok t) ∧ t.ended = true ∧
      (t.state = .success ↔ Remains env text s) ∧
      (Serves env n → t.buf.buf = some (cells (out ++ stripSlashes x rest))) := by
  obtain ⟨fuel, rfl⟩ : ∃ k, fuel = k + 1 := ⟨fuel - 1, by omega⟩
  induction rest generalizing s x out fuel with
  | nil =>
    obtain ⟨t, ht, hend, hbuf⟩ := h.end (by simpa using hptr) hslash
    refine ⟨t, by rw [scanLoop_succ h.running ht, scanLoop_ended hend], hend, ?_, ?_⟩
    · rw [h.remains hnul hs ht fun hx => absurd hx hslash]
      have hstate : t.state = .success ∨ t.state = .fail := by simpa [Scan.ended] using hend
      rcases hstate with hq | hq <;> simp [Remains, hq]
    · intro hserve
      rw [hbuf, (h.text hserve).2, stripSlashes, List.append_nil]
  | cons c rest ih =>
    rw [List.length_cons] at hptr hfuel hn
    have h0 : c ≠ 0 := by
      rintro rfl
      exact hnul (List.mem_of_mem_drop (hrest ▸ List.mem_cons_self))
    obtain ⟨t, ht, hptr', h'⟩ := h.turn hrest h0 hbang.head (by omega)
    have hlen : (out ++ stripSlashes x [c]).length ≤ out.length + 1 := by
      have := (stripSlashes_sublist x [c]).length_le
      rw [List.length_singleton] at this
      rw [List.length_append]
      omega
    obtain ⟨k, rfl⟩ : ∃ k, fuel = k + 1 := ⟨fuel - 1, by omega⟩
    obtain ⟨u, hu, hend, hiff, hbuf⟩ := ih (.turn hs h.running ht) h'
      (by rw [hptr']; exact drop_succ hrest) (by omega) hbang.tail hslash
      (by omega) k (by omega)
    refine ⟨u, by rw [scanLoop_succ h.running ht, hu], hend, ?_, ?_⟩
    · rw [hiff, h.remains hnul hs ht fun _ => by omega]
    · intro hserve
      rw [hbuf hserve, stripSlashes_cons x c rest, List.append_assoc]

theorem scanInit_reads (env : ScanEnv) (bbuf : KeyBuf) (hn : 1 ≤ n) : ∃ s,
    scanInit env bbuf = .ok s ∧ s.ptr = 0 ∧ Reads env n s .plain [] := by
  by_cases h : env.heap 1 = true
  · refine ⟨_, by rw [scanInit, malloc, if_pos ⟨by decide, h⟩]; rfl, rfl, rfl,
      by rintro _ ⟨⟩, ?_, fun _ => ?_⟩
    · exact ⟨[], rfl, rfl, Or.inl rfl⟩
    · exact ⟨⟨rfl, rfl, Or.inl rfl⟩, rfl⟩
  · refine ⟨_, by rw [scanInit, malloc, if_neg fun hm => h hm.2]; rfl, rfl, rfl,
      by rintro _ ⟨⟩, ?_, fun hserve => absurd (hserve 1 hn) h⟩
    exact ⟨[], rfl, rfl, Or.inr ⟨rfl, rfl⟩⟩

theorem blockText_cells {l : List UInt8} (h : (0 : UInt8) ∉ l) : blockText (cells l) = some l := by
  induction l with
  | nil => rfl
  | cons c l ih =>
    rw [List.mem_cons, not_or] at h
    show (if c = 0 then some [] else (blockText (cells l)).map (c :: ·)) = _
    rw [if_neg (Ne.symm h.1), ih h.2]
    rfl

theorem scanEnd_line {line : List UInt8} (env : ScanEnv) (ring : Ring) (hnul : (0 : UInt8) ∉ text)
    (hline : (0 : UInt8) ∉ line) (hbuf : s.buf.buf = some (cells line)) :
    ∃ out, scanEnd env ring (some (cells text)) s = .ok (some (cells line),
      if s.state = .success ∧ text ≠ [] then (saveline env.heap ring line).2 else ring, out) := by
  rw [scanEnd, hbuf]
  by_cases hs : s.state = .success
  · rw [if_pos hs]
    cases text with
    | nil =>
      rw [if_neg (by simp)]
      exact ⟨_, rfl⟩
    | cons c text =>
      have h0 : c ≠ 0 := fun he => hnul (he ▸ List.mem_cons_self)
      have hload : load (some (cells (c :: text))) 0 = some c := rfl
      rw [hload]
      simp only [if_neg h0, Option.bind_some, blockText_cells hline]
      have hsave : s.state = .success ∧ c :: text ≠ [] := ⟨hs, List.cons_ne_nil c text⟩
      rw [if_pos hsave]
      exact ⟨_, rfl⟩
  · rw [if_neg hs, if_neg fun hn => hs hn.1]
    exact ⟨_, rfl⟩

/-- What `readline` scans with. -/
def scanEnvOf (env : Env) (before : Ctype.Before) (above : List UInt8) (ring : Ring) : ScanEnv where
  heap := env.heap
  hist := ring.hist
  before := before
  above := above

/-- On a line without expansions `readline` succeeds exactly if the quotes are balanced. As long
as memory is served, it returns the line without its unquoted backslashes, and it saves that
if it succeeds and the raw line is not empty. -/
theorem readline_quotes (env : Env) (before : Ctype.Before) (bbuf : KeyBuf) (above : List UInt8)
    (ring : Ring) (text : CStr) (hbang : Unexpanded .plain text.text)
    (hslash : quoteCtx .plain text.text ≠ .escape) (hfuel : text.text.length < env.fuel) :
    ∃ s t, scanInit (scanEnvOf env before above ring) bbuf = .ok s ∧
      scanLoop (scanEnvOf env before above ring) (some (cells text.text)) env.fuel s =
      some (.ok t) ∧
      t.ended = true ∧ (t.state = .success ↔ Balanced before false text.text) ∧
      ((∀ n, n ≤ text.text.length + 1 → env.heap n = true) →
        ∀ u r, rawRead { env with hist := ring.hist } u = some (some (cells text.text), r) →
          ∃ r', readline env before bbuf above ring u =
            some (.ok (some (cells (stripSlashes .plain text.text)),
              if t.state = .success ∧ text.text ≠ [] then
                (saveline env.heap ring (stripSlashes .plain text.text)).2
              else ring, r'))) := by
  obtain ⟨s, hs, hptr, hreads⟩ := scanInit_reads (n := text.text.length + 1)
    (scanEnvOf env before above ring) bbuf (by omega)
  obtain ⟨t, hloop, hend, hiff, hbuf⟩ := hreads.run text.nul (.start hs) (by rw [hptr]; rfl)
    (by rw [hptr]; simp) hbang hslash (by simp) env.fuel hfuel
  refine ⟨s, t, hs, hloop, hend, ?_, fun hheap u r hraw => ?_⟩
  · rw [hiff, Remains, hreads.state, hptr]
    rfl
  · have hstrip : (0 : UInt8) ∉ stripSlashes .plain text.text :=
      fun hm => text.nul ((stripSlashes_sublist _ _).subset hm)
    obtain ⟨out, hout⟩ := scanEnd_line (scanEnvOf env before above ring) ring text.nul hstrip
      (hbuf hheap)
    refine ⟨{ r with
      rawbuf := { r.rawbuf with buf := some (cells (stripSlashes .plain text.text)) }
      out := r.out ++ out }, ?_⟩
    unfold scanEnvOf at hs hloop hout
    unfold readline
    rw [hraw]
    simp only [Option.bind_some]
    rw [hs]
    simp only
    rw [hloop, Option.map_some]
    simp only [Except.bind]
    rw [hout]
    rfl

def plainEnv : Env where
  heap := fun _ => true
  hist := readlineInit.hist
  fuel := 8

/-- The line `"'!'"\'`. -/
theorem readline_quotes_escaped : ∃ s t,
    scanInit (scanEnvOf plainEnv (fun _ => 0) [] readlineInit) blankKey = .ok s ∧
    scanLoop (scanEnvOf plainEnv (fun _ => 0) [] readlineInit)
      (some (cells [34, 39, 33, 39, 34, 92, 39])) 8 s = some (.ok t) ∧ t.state = .success ∧
    ∀ u r, rawRead plainEnv u = some (some (cells [34, 39, 33, 39, 34, 92, 39]), r) →
      ∃ r', readline plainEnv (fun _ => 0) blankKey [] readlineInit u =
        some (.ok (some (cells [34, 39, 33, 39, 34, 39]),
          (saveline plainEnv.heap readlineInit [34, 39, 33, 39, 34, 39]).2, r')) := by
  obtain ⟨s, t, hs, hloop, -, hiff, hline⟩ := readline_quotes plainEnv (fun _ => 0) blankKey []
    readlineInit ⟨[34, 39, 33, 39, 34, 92, 39], by decide⟩ (by decide) (by decide) (by decide)
  have hok : t.state = .success :=
    hiff.mpr (.opens (@Balanced.single _ _ [33] _ (by decide) (.closes (.escaped .nil))))
  refine ⟨s, t, hs, hloop, hok, fun u r hraw => ?_⟩
  obtain ⟨r', hr'⟩ := hline (fun _ _ => rfl) u r hraw
  rw [if_pos ⟨hok, by simp⟩] at hr'
  exact ⟨r', hr'⟩

end Console
