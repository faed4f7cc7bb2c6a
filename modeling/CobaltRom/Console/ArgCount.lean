import CobaltRom.Console.SplitBuffer

/-! How many arguments a command line has, and the room for them in `argv`. -/
namespace Console

open Ctype

/-- The quote that is open behind a character. -/
def quoteAfter (q : Option UInt8) (c : UInt8) : Option UInt8 :=
  match q with
  | none => if c = dquote ∨ c = squote then some c else none
  | some q => if c = q then none else some q

/-- A blank outside quotes. -/
def gapAt (before : Before) (q : Option UInt8) (c : UInt8) : Bool := q.isNone && isblank before c

/-- An argument begins at a character outside quotes that is no blank and has the start of
the line or a blank outside quotes in front of it. -/
def begins (before : Before) (start : Bool) (q : Option UInt8) (c : UInt8) : Bool :=
  start && q.isNone && !isblank before c

/-- The arguments that begin in the rest of a line. -/
def argCount (before : Before) : Bool → Option UInt8 → List UInt8 → Nat
  | _, _, [] => 0
  | start, q, c :: line =>
    (begins before start q c).toNat + argCount before (gapAt before q c) (quoteAfter q c) line

/-- The state of `split_buffer` in front of `c`; behind a closing quote it has already seen
the blank that comes next. -/
def Follows (before : Before) (s : Split) (start : Bool) (q : Option UInt8) (c : UInt8) : Prop :=
  match s.state with
  | .blank => q = none ∧ (start = true ∨ isblank before c = true)
  | .token => q = none ∧ start = false
  | .qstr => q = some s.qchar

variable {before : Before} {s : Split} {start : Bool} {q : Option UInt8} {c : UInt8}
  {front line : List UInt8}

theorem not_quote_of_blank (h : isblank before c = true) : ¬ (c = dquote ∨ c = squote) := by
  rintro (rfl | rfl)
  · exact absurd h (Bool.eq_false_iff.mp (isblank_quote before .double))
  · exact absurd h (Bool.eq_false_iff.mp (isblank_quote before .single))

theorem pushArg_some {argv : List Nat} (h : argv.length + 1 ≤ menuMaxArgs) (p : Nat) :
    pushArg argv p = some (argv ++ [p]) := if_pos h

theorem splitTurn_some (h : Follows before s start q c) (p : Nat) (next : UInt8)
    (hroom : s.argv.length + (begins before start q c).toNat ≤ menuMaxArgs) :
    ∃ c' s', splitTurn before p c (some next) s = some (c', s') ∧
      s'.argv.length = s.argv.length + (begins before start q c).toNat ∧
      Follows before s' (gapAt before q c) (quoteAfter q c) next := by
  obtain ⟨state, qchar, argv⟩ := s
  cases state with
  | blank =>
    obtain ⟨rfl, hstart⟩ := h
    by_cases hb : isblank before c = true
    · have hc := not_quote_of_blank hb
      refine ⟨c, ⟨.blank, qchar, argv⟩, ?_, by simp [begins, hb], ?_⟩
      · rw [splitTurn]
        simp only [hb, if_true]
      · exact ⟨if_neg hc, Or.inl (by simp [gapAt, hb])⟩
    · obtain rfl : start = true := hstart.resolve_right hb
      have hone : (begins before true none c).toNat = 1 := by simp [begins, hb]
      rw [hone] at hroom ⊢
      by_cases hc : c = dquote ∨ c = squote
      · refine ⟨c, ⟨.qstr, c, argv ++ [p + 1]⟩, ?_, by simp, if_pos hc⟩
        rw [splitTurn]
        simp only [hb, hc, if_true, Bool.false_eq_true, if_false, pushArg_some hroom,
          Option.map_some]
      · refine ⟨c, ⟨.token, qchar, argv ++ [p]⟩, ?_, by simp, if_neg hc, by simp [gapAt, hb]⟩
        rw [splitTurn]
        simp only [hb, hc, Bool.false_eq_true, if_false, pushArg_some hroom, Option.map_some]
  | token =>
    obtain ⟨rfl, rfl⟩ := h
    have hzero : (begins before false none c).toNat = 0 := by simp [begins]
    rw [hzero, Nat.add_zero] at hroom ⊢
    by_cases hb : isblank before c = true
    · have hc := not_quote_of_blank hb
      refine ⟨0, ⟨.blank, qchar, argv⟩, ?_, rfl, if_neg hc, Or.inl (by simp [gapAt, hb])⟩
      rw [splitTurn]
      simp only [hb, if_true]
    · by_cases hc : c = dquote ∨ c = squote
      · refine ⟨c, ⟨.qstr, c, argv⟩, ?_, rfl, if_pos hc⟩
        rw [splitTurn]
        simp only [hb, hc, if_true, Bool.false_eq_true, if_false]
      · refine ⟨c, ⟨.token, qchar, argv⟩, ?_, rfl, if_neg hc, by simp [gapAt, hb]⟩
        rw [splitTurn]
        simp only [hb, hc, Bool.false_eq_true, if_false]
  | qstr =>
    obtain rfl : q = some qchar := h
    have hzero : (begins before start (some qchar) c).toNat = 0 := by simp [begins]
    rw [hzero, Nat.add_zero] at hroom ⊢
    by_cases hc : c = qchar
    · refine ⟨0, ⟨if isblank before next then .blank else .token, 0, argv⟩, ?_, rfl, ?_⟩
      · rw [splitTurn]
        simp only [hc, if_true, Option.map_some]
      · by_cases hn : isblank before next = true
        · simp [Follows, quoteAfter, hc, hn]
        · simp [Follows, quoteAfter, hc, hn, gapAt]
    · refine ⟨c, ⟨.qstr, qchar, argv⟩, ?_, rfl, if_neg hc⟩
      rw [splitTurn]
      simp only [hc, if_false]

/-- Where an argument begins and `argv` is full, the store is outside of it. -/
theorem splitTurn_none (h : Follows before s start q c) (p : Nat) (next : UInt8)
    (hb : begins before start q c = true) (hfull : s.argv.length = menuMaxArgs) :
    splitTurn before p c (some next) s = none := by
  have hpush : ∀ p, pushArg s.argv p = none := fun p => if_neg (by omega)
  simp only [begins, Bool.and_eq_true, Option.isNone_iff_eq_none, Bool.not_eq_true'] at hb
  obtain ⟨⟨rfl, rfl⟩, hb⟩ := hb
  obtain ⟨state, qchar, argv⟩ := s
  cases state with
  | blank =>
    rw [splitTurn]
    simp only [hb, Bool.false_eq_true, if_false, hpush, Option.map_none, ite_self]
  | token => exact absurd h.2 (by simp)
  | qstr => cases h

/-- The rest of a line, from a state that fits it. -/
theorem splitLoop_argCount (before : Before) (rest line : List UInt8) (hline : (0 : UInt8) ∉ line) :
    ∀ (front : List UInt8) (s : Split) (start : Bool) (q : Option UInt8),
      Follows before s start q (line.headD 0) → s.argv.length ≤ menuMaxArgs →
      ((∃ mem s', splitLoop before front (line ++ 0 :: rest) s = some (mem, s') ∧
        s'.argv.length ≤ menuMaxArgs) ↔
        s.argv.length + argCount before start q line ≤ menuMaxArgs) := by
  induction line with
  | nil =>
    intro front s start q _ hle
    exact iff_of_true ⟨front ++ 0 :: rest, s, if_pos rfl, hle⟩ hle
  | cons c line ih =>
    intro front s start q hf hle
    rw [List.headD_cons] at hf
    have hc : c ≠ 0 := fun he => hline (he ▸ List.mem_cons_self)
    have hhead : (line ++ 0 :: rest).head? = some (line.headD 0) := by cases line <;> rfl
    rw [argCount, ← Nat.add_assoc]
    by_cases hroom : s.argv.length + (begins before start q c).toNat ≤ menuMaxArgs
    · obtain ⟨c', s', hturn, hlen, hf'⟩ := splitTurn_some hf front.length (line.headD 0) hroom
      rw [List.cons_append, splitLoop_cons hc (by rw [hhead]; exact hturn), ← hlen]
      exact ih (fun hm => hline (List.mem_cons_of_mem c hm)) _ s' _ _ hf' (hlen ▸ hroom)
    · have hb : begins before start q c = true := by
        cases hb : begins before start q c with
        | true => rfl
        | false => exact absurd hle (by rw [hb] at hroom; exact hroom)
      have hfull : s.argv.length = menuMaxArgs := by
        rw [hb, Bool.toNat_true] at hroom
        omega
      refine iff_of_false ?_ (by omega)
      rintro ⟨mem, s', hrun, -⟩
      rw [List.cons_append, splitLoop, if_neg hc, hhead, splitTurn_none hf _ _ hb hfull] at hrun
      cases hrun

/-- `split_buffer` keeps within `argv` exactly on the lines of at most `MENU_MAX_ARGS`
arguments. -/
theorem splitBuffer_within_iff (before : Before) (line rest : List UInt8)
    (hline : (0 : UInt8) ∉ line) :
    (∃ mem argv, splitBuffer before (line ++ 0 :: rest) = some (mem, argv) ∧
      argv.length ≤ menuMaxArgs) ↔ argCount before true none line ≤ menuMaxArgs := by
  have h := splitLoop_argCount before rest line hline [] ⟨.blank, 0, []⟩ true none
    ⟨rfl, Or.inl rfl⟩ (Nat.zero_le _)
  rw [List.length_nil, Nat.zero_add] at h
  rw [← h]
  constructor
  · rintro ⟨mem, argv, hrun, hle⟩
    rw [splitBuffer, Option.map_eq_some_iff] at hrun
    obtain ⟨⟨mem', s'⟩, hloop, he⟩ := hrun
    cases he
    exact ⟨mem', s', hloop, hle⟩
  · rintro ⟨mem, s', hloop, hle⟩
    exact ⟨mem, s'.argv, by rw [splitBuffer, hloop]; rfl, hle⟩

/-- ` a "b c"`. -/
theorem splitBuffer_within_two : ∃ mem argv,
    splitBuffer (fun _ => 0) ([32, 97, 32, 34, 98, 32, 99, 34] ++ 0 :: []) = some (mem, argv) ∧
      argv.length ≤ menuMaxArgs :=
  (splitBuffer_within_iff (fun _ => 0) [32, 97, 32, 34, 98, 32, 99, 34] [] (by decide)).mpr
    (by decide +kernel)

/-- Seventeen letters with blanks between them: the last store is at `argv[16]`. -/
theorem splitBuffer_seventeen : (0 : UInt8) ∉ (List.replicate 17 [97, 32]).flatten ∧
    ¬ ∃ mem argv, splitBuffer (fun _ => 0) ((List.replicate 17 [97, 32]).flatten ++ 0 :: []) =
      some (mem, argv) ∧ argv.length ≤ menuMaxArgs := by
  have hnone :
      splitBuffer (fun _ => 0) ((List.replicate 17 [97, 32]).flatten ++ 0 :: []) = none := by
    decide +kernel
  refine ⟨by decide +kernel, ?_⟩
  rintro ⟨mem, argv, hrun, -⟩
  rw [hnone] at hrun
  cases hrun

end Console
