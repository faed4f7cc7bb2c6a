import CobaltRom.Console.Ctype

/-! `split_buffer` of `common/menu.c` against the command line it takes apart. -/
namespace Console

open Ctype

abbrev menuMaxArgs : Nat := 16

abbrev dquote : UInt8 := 34
abbrev squote : UInt8 := 39

inductive BufState
  | blank
  | qstr
  | token

/-- The locals of `split_buffer`; `argv` is given by its `argc` entries, as offsets into the
buffer. -/
structure Split where
  state : BufState
  qchar : UInt8
  argv : List Nat

/-- `argv[argc++] = p`; the caller has room for `MENU_MAX_ARGS`. -/
def pushArg (argv : List Nat) (p : Nat) : Option (List Nat) :=
  if argv.length < menuMaxArgs then some (argv ++ [p]) else none

/-- One turn, at offset `p` with the bytes `c` and `next` there and behind: the byte it leaves
at `p`, and the locals. -/
def splitTurn (before : Before) (p : Nat) (c : UInt8) (next : Option UInt8) (s : Split) :
    Option (UInt8 × Split) :=
  match s.state with
  | .blank =>
    if isblank before c then some (c, s)
    else if c = dquote ∨ c = squote then
      (pushArg s.argv (p + 1)).map fun argv => (c, { state := .qstr, qchar := c, argv := argv })
    else
      (pushArg s.argv p).map fun argv => (c, { s with state := .token, argv := argv })
  | .token =>
    if isblank before c then some (0, { s with state := .blank })
    else if c = dquote ∨ c = squote then some (c, { s with state := .qstr, qchar := c })
    else some (c, s)
  | .qstr =>
    if c = s.qchar then
      next.map fun next =>
        (0, { s with state := if isblank before next then .blank else .token, qchar := 0 })
    else
      some (c, s)

/-- `while (*buffer)`, with the bytes in front of `buffer` and from there on; without a NUL
it runs out of the buffer. -/
def splitLoop (before : Before) : List UInt8 → List UInt8 → Split → Option (List UInt8 × Split)
  | _, [], _ => none
  | front, c :: rest, s =>
    if c = 0 then some (front ++ c :: rest, s)
    else
      match splitTurn before front.length c rest.head? s with
      | none => none
      | some (c, s) => splitLoop before (front ++ [c]) rest s

/-- The buffer it leaves and `argv`, whose length is the result. -/
def splitBuffer (before : Before) (buffer : List UInt8) : Option (List UInt8 × List Nat) :=
  (splitLoop before [] buffer { state := .blank, qchar := 0, argv := [] }).map fun r =>
    (r.1, r.2.argv)

/-- Any number of blanks. -/
structure Gap (before : Before) where
  bytes : List UInt8
  blank : ∀ c ∈ bytes, isblank before c = true

inductive Quote
  | single
  | double

def Quote.char : Quote → UInt8
  | .single => squote
  | .double => dquote

/-- An argument as it is typed. -/
inductive Arg (before : Before)
  | bare (text : List UInt8) (ne : text ≠ [])
      (plain : ∀ c ∈ text, c ≠ 0 ∧ isblank before c = false ∧ c ≠ dquote ∧ c ≠ squote)
  | quoted (q : Quote) (text : List UInt8) (plain : ∀ c ∈ text, c ≠ 0 ∧ c ≠ q.char)

namespace Arg

variable {before : Before}

def text : Arg before → List UInt8
  | bare text _ _ => text
  | quoted _ text _ => text

def render : Arg before → List UInt8
  | bare text _ _ => text
  | quoted q text _ => q.char :: text ++ [q.char]

end Arg

/-- The arguments, each with the blanks behind it. -/
def renderArgs {before : Before} (gap : Nat → Gap before) : Nat → List (Arg before) → List UInt8
  | _, [] => []
  | i, a :: args => a.render ++ (gap i).bytes ++ renderArgs gap (i + 1) args

/-- The string at offset `p` of the buffer is `text`. -/
def PointsTo (mem : List UInt8) (p : Nat) (text : List UInt8) : Prop :=
  (0 : UInt8) ∉ text ∧ ∃ pre post, mem = pre ++ text ++ 0 :: post ∧ pre.length = p

variable {before : Before} {front rest g : List UInt8} {s : Split} {q c : UInt8} {argv : List Nat}

theorem isblank_zero (before : Before) : isblank before 0 = false := by
  rw [isblank_of_lt (by decide)]
  decide

theorem isblank_quote (before : Before) (q : Quote) : isblank before q.char = false := by
  cases q <;> (rw [Quote.char, isblank_of_lt (by decide)]; decide)

theorem ne_zero_of_blank (h : isblank before c = true) : c ≠ 0 := by
  rintro rfl
  rw [isblank_zero] at h
  cases h

/-! ### Stretches of the line -/

theorem splitLoop_cons (hc : c ≠ 0) {c' : UInt8} {s' : Split}
    (h : splitTurn before front.length c rest.head? s = some (c', s')) :
    splitLoop before front (c :: rest) s = splitLoop before (front ++ [c']) rest s' := by
  rw [splitLoop, if_neg hc, h]

/-- Characters that a state leaves alone. -/
theorem splitLoop_skip (s : Split) (rest : List UInt8) : ∀ (l front : List UInt8),
    (∀ c ∈ l, c ≠ 0 ∧ ∀ p next, splitTurn before p c next s = some (c, s)) →
    splitLoop before front (l ++ rest) s = splitLoop before (front ++ l) rest s := by
  intro l
  induction l with
  | nil => intro front _; rw [List.nil_append, List.append_nil]
  | cons c l ih =>
    intro front h
    obtain ⟨hc, hturn⟩ := h c List.mem_cons_self
    rw [List.cons_append, splitLoop_cons hc (hturn _ _),
      ih _ fun d hd => h d (List.mem_cons_of_mem c hd), List.append_assoc]
    rfl

theorem splitLoop_blanks (hg : ∀ c ∈ g, isblank before c = true) :
    splitLoop before front (g ++ rest) ⟨.blank, q, argv⟩ =
      splitLoop before (front ++ g) rest ⟨.blank, q, argv⟩ :=
  splitLoop_skip _ _ _ _ fun c hc => ⟨ne_zero_of_blank (hg c hc), fun p next => by
    rw [splitTurn, if_pos (hg c hc)]⟩

/-- A bare argument up to its end. -/
theorem splitLoop_bare {text : List UInt8} (ne : text ≠ [])
    (plain : ∀ c ∈ text, c ≠ 0 ∧ isblank before c = false ∧ c ≠ dquote ∧ c ≠ squote)
    (hroom : argv.length < menuMaxArgs) :
    splitLoop before front (text ++ rest) ⟨.blank, q, argv⟩ =
      splitLoop before (front ++ text) rest ⟨.token, q, argv ++ [front.length]⟩ := by
  cases text with
  | nil => exact absurd rfl ne
  | cons c text =>
    obtain ⟨h0, hb, hd, hs⟩ := plain c List.mem_cons_self
    have hturn : splitTurn before front.length c (text ++ rest).head? ⟨.blank, q, argv⟩ =
        some (c, ⟨.token, q, argv ++ [front.length]⟩) := by
      rw [splitTurn]
      simp only [hb, Bool.false_eq_true, if_false]
      rw [if_neg (by simp [hd, hs]), pushArg, if_pos hroom, Option.map_some]
    rw [List.cons_append, splitLoop_cons h0 hturn, splitLoop_skip _ _ _ _ fun d hd => ?_,
      List.append_assoc]
    · rfl
    · obtain ⟨h0, hb, hdq, hsq⟩ := plain d (List.mem_cons_of_mem c hd)
      refine ⟨h0, fun p next => ?_⟩
      rw [splitTurn]
      simp only [hb, Bool.false_eq_true, if_false]
      rw [if_neg (by simp [hdq, hsq])]

/-- A quoted argument with its closing quote, which is overwritten. -/
theorem splitLoop_quoted (quote : Quote) {text : List UInt8}
    (plain : ∀ c ∈ text, c ≠ 0 ∧ c ≠ quote.char) (hroom : argv.length < menuMaxArgs)
    (next : UInt8) :
    splitLoop before front (quote.char :: text ++ [quote.char] ++ next :: rest) ⟨.blank, q, argv⟩ =
      splitLoop before (front ++ quote.char :: text ++ [0]) (next :: rest)
        ⟨if isblank before next then .blank else .token, 0, argv ++ [front.length + 1]⟩ := by
  have hq0 : quote.char ≠ 0 := by cases quote <;> decide
  have hopen : ∀ next', splitTurn before front.length quote.char next' ⟨.blank, q, argv⟩ =
      some (quote.char, ⟨.qstr, quote.char, argv ++ [front.length + 1]⟩) := by
    intro next'
    rw [splitTurn]
    simp only [isblank_quote, Bool.false_eq_true, if_false]
    rw [if_pos (by cases quote <;> simp [Quote.char]), pushArg, if_pos hroom, Option.map_some]
  have hclose : ∀ p, splitTurn before p quote.char (some next)
      ⟨.qstr, quote.char, argv ++ [front.length + 1]⟩ = some (0,
        ⟨if isblank before next then .blank else .token, 0, argv ++ [front.length + 1]⟩) := by
    intro p
    rw [splitTurn]
    simp only [if_true, Option.map_some]
  rw [List.append_assoc, List.cons_append, splitLoop_cons hq0 (hopen _),
    splitLoop_skip _ _ _ _ fun c hc => ⟨(plain c hc).1, fun p next' => by
      rw [splitTurn]
      simp only [if_neg (plain c hc).2]⟩]
  rw [List.singleton_append, splitLoop_cons hq0 (hclose _)]
  simp only [List.append_assoc, List.cons_append, List.nil_append]

theorem PointsTo.append {mem text : List UInt8} {p : Nat} (h : PointsTo mem p text)
    (l : List UInt8) : PointsTo (mem ++ l) p text := by
  obtain ⟨h0, pre, post, rfl, hp⟩ := h
  exact ⟨h0, pre, post ++ l, by simp, hp⟩

theorem Arg.text_nul (a : Arg before) : (0 : UInt8) ∉ a.text := by
  cases a with
  | bare text ne plain => exact fun h => (plain 0 h).1 rfl
  | quoted q text plain => exact fun h => (plain 0 h).1 rfl

/-! ### Arguments -/

/-- An argument with blanks behind it: the first blank or the closing quote becomes its NUL. -/
theorem splitLoop_arg (front rest : List UInt8) (q : UInt8) (a : Arg before)
    (hg : ∀ c ∈ g, isblank before c = true) (hne : g ≠ [])
    (hroom : argv.length < menuMaxArgs) :
    ∃ l g' q' p, splitLoop before front (a.render ++ (g ++ rest)) ⟨.blank, q, argv⟩ =
        splitLoop before (front ++ l) (g' ++ rest) ⟨.blank, q', argv ++ [p]⟩ ∧
      (∀ c ∈ g', isblank before c = true) ∧ PointsTo (front ++ l) p a.text := by
  obtain ⟨b, g, rfl⟩ := List.exists_cons_of_ne_nil hne
  have hb := hg b List.mem_cons_self
  cases a with
  | bare text ne plain =>
    have hturn : ∀ p next, splitTurn before p b next ⟨.token, q, argv ++ [front.length]⟩ =
        some (0, ⟨.blank, q, argv ++ [front.length]⟩) := by
      intro p next
      rw [splitTurn]
      simp only [hb, if_true]
    refine ⟨text ++ [0], g, q, front.length, ?_, fun c hc => hg c (List.mem_cons_of_mem b hc),
      (Arg.bare text ne plain).text_nul, front, [], by simp [Arg.text], rfl⟩
    rw [Arg.render, splitLoop_bare ne plain hroom, List.cons_append,
      splitLoop_cons (ne_zero_of_blank hb) (hturn _ _), List.append_assoc]
  | quoted quote text plain =>
    refine ⟨quote.char :: text ++ [0], b :: g, 0, front.length + 1, ?_, hg,
      (Arg.quoted quote text plain).text_nul, front ++ [quote.char], [],
      by simp [Arg.text], by simp⟩
    have hcons : b :: g ++ rest = b :: (g ++ rest) := rfl
    rw [Arg.render, hcons, splitLoop_quoted quote plain hroom, if_pos hb]
    simp only [List.append_assoc, List.cons_append]

/-- The last argument, with nothing behind it. -/
theorem splitLoop_last (front : List UInt8) (q : UInt8) (a : Arg before)
    (hroom : argv.length < menuMaxArgs) :
    ∃ l s' p, splitLoop before front (a.render ++ [0]) ⟨.blank, q, argv⟩ = some (front ++ l, s') ∧
      s'.argv = argv ++ [p] ∧ PointsTo (front ++ l) p a.text := by
  have hend : ∀ (front : List UInt8) s, splitLoop before front [0] s = some (front ++ [0], s) :=
    fun _ _ => if_pos rfl
  cases a with
  | bare text ne plain =>
    refine ⟨text ++ [0], ⟨.token, q, argv ++ [front.length]⟩, front.length, ?_, rfl,
      (Arg.bare text ne plain).text_nul, front, [], by simp [Arg.text], rfl⟩
    rw [Arg.render, splitLoop_bare ne plain hroom, hend, List.append_assoc]
  | quoted quote text plain =>
    refine ⟨quote.char :: text ++ [0, 0], ⟨if isblank before 0 then .blank else .token, 0,
      argv ++ [front.length + 1]⟩, front.length + 1, ?_, rfl,
      (Arg.quoted quote text plain).text_nul,
      front ++ [quote.char], [0], by simp [Arg.text], by simp⟩
    rw [Arg.render, splitLoop_quoted quote plain hroom, hend]
    simp

theorem splitLoop_args (gap : Nat → Gap before) (args : List (Arg before)) :
    ∀ (i : Nat) (front : List UInt8) (q : UInt8) (argv : List Nat) (g : List UInt8),
    (∀ c ∈ g, isblank before c = true) → argv.length + args.length ≤ menuMaxArgs →
    (∀ j, j + 1 < args.length → (gap (i + j)).bytes ≠ []) →
    ∃ l s' ps, splitLoop before front (g ++ (renderArgs gap i args ++ [0])) ⟨.blank, q, argv⟩ =
        some (front ++ l, s') ∧ s'.argv = argv ++ ps ∧
      List.Forall₂ (fun p a => PointsTo (front ++ l) p a.text) ps args := by
  induction args with
  | nil =>
    intro i front q argv g hg _ _
    refine ⟨g ++ [0], ⟨.blank, q, argv⟩, [], ?_, (List.append_nil argv).symm, List.Forall₂.nil⟩
    rw [splitLoop_blanks hg, renderArgs, List.nil_append, splitLoop, if_pos rfl, List.append_assoc]
  | cons a args ih =>
    intro i front q argv g hg hlen hgap
    rw [List.length_cons] at hlen
    have hroom : argv.length < menuMaxArgs := by omega
    rw [splitLoop_blanks hg, renderArgs, List.append_assoc, List.append_assoc]
    by_cases hne : (gap i).bytes = []
    · -- only the last argument can end the line
      have hargs : args = [] := by
        cases args with
        | nil => rfl
        | cons b args => exact absurd hne (hgap 0 (by simp))
      subst hargs
      obtain ⟨l, s', p, hrun, hargv, hp⟩ := splitLoop_last (front ++ g) q a hroom
      refine ⟨g ++ l, s', [p], ?_, hargv, ?_⟩
      · rw [hne, renderArgs, List.nil_append, List.nil_append, hrun, List.append_assoc]
      · rw [← List.append_assoc]
        exact List.Forall₂.cons hp List.Forall₂.nil
    · obtain ⟨l₁, g', q', p, hrun, hg', hp⟩ := splitLoop_arg (front ++ g)
        (renderArgs gap (i + 1) args ++ [0]) q a (gap i).blank hne hroom
      obtain ⟨l₂, s', ps, hrun', hargv, hps⟩ :=
        ih (i + 1) (front ++ g ++ l₁) q' (argv ++ [p]) g' hg'
        (by rw [List.length_append, List.length_singleton]; omega) (fun j hj => by
          rw [show i + 1 + j = i + (j + 1) by omega]
          exact hgap (j + 1) (by rw [List.length_cons]; omega))
      have hfront : front ++ (g ++ l₁ ++ l₂) = front ++ g ++ l₁ ++ l₂ := by
        simp only [List.append_assoc]
      refine ⟨g ++ l₁ ++ l₂, s', p :: ps, ?_, ?_, ?_⟩
      · rw [hrun, hrun', hfront]
      · rw [hargv, List.append_assoc]
        rfl
      · rw [hfront]
        exact List.Forall₂.cons (hp.append l₂) hps

/-- Arguments that are typed with blanks between them are found again. -/
theorem splitBuffer_renderArgs (before : Before) (lead : Gap before) (gap : Nat → Gap before)
    (args : List (Arg before)) (hlen : args.length ≤ menuMaxArgs)
    (hgap : ∀ i, i + 1 < args.length → (gap i).bytes ≠ []) :
    ∃ mem argv, splitBuffer before (lead.bytes ++ renderArgs gap 0 args ++ [0]) = some (mem, argv) ∧
      argv.length = args.length ∧ List.Forall₂ (fun p a => PointsTo mem p a.text) argv args := by
  obtain ⟨mem, s', ps, hrun, hargv, hps⟩ := splitLoop_args gap args 0 [] 0 [] lead.bytes lead.blank
    (by simpa using hlen) (fun j hj => by rw [Nat.zero_add]; exact hgap j hj)
  rw [List.nil_append] at hargv hrun hps
  refine ⟨mem, ps, ?_, hps.length_eq, hps⟩
  rw [splitBuffer, List.append_assoc, hrun, Option.map_some, hargv]

/-- ` a "b c"`. -/
theorem splitBuffer_renderArgs_two : ∃ mem argv,
    splitBuffer (fun _ => 0) [32, 97, 32, 34, 98, 32, 99, 34, 0] = some (mem, argv) ∧
      argv.length = 2 ∧ List.Forall₂ (fun p l => PointsTo mem p l) argv [[97], [98, 32, 99]] := by
  obtain ⟨mem, argv, hrun, hlen, hall⟩ :=
    splitBuffer_renderArgs (fun _ => 0) ⟨[32], by decide +kernel⟩
    (fun i => if i = 0 then ⟨[32], by decide +kernel⟩ else ⟨[], by decide +kernel⟩)
    [.bare [97] (by decide) (by decide +kernel),
      .quoted .double [98, 32, 99] (by decide +kernel)] (by decide)
    (fun i hi => by
      obtain rfl : i = 0 := by simpa using hi
      exact List.cons_ne_nil _ _)
  cases hall with
  | cons h₁ hall =>
    cases hall with
    | cons h₂ hall =>
      cases hall
      exact ⟨mem, _, hrun, hlen, .cons h₁ (.cons h₂ .nil)⟩

end Console
