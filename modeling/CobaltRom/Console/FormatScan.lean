import CobaltRom.Console.Printf

/-! Which formats the loop of `sprintf_core` scans without passing their NUL. -/
namespace Console

open Ctype (Before)

def afterAlt (l : List UInt8) : List UInt8 := l.dropWhile isAlt

def afterInt (before : Before) (l : List UInt8) : List UInt8 := l.dropWhile (Ctype.isdigit before)

def afterWidth (before : Before) : List UInt8 → List UInt8
  | [] => []
  | c :: l => if c = ch '*' then l else afterInt before (c :: l)

def afterPrecis (before : Before) : List UInt8 → List UInt8
  | [] => []
  | c :: l =>
    if c = ch '.' then
      match l with
      | [] => []
      | d :: k => if d = ch '*' then k else if d = ch '-' then afterInt before k
        else afterInt before (d :: k)
    else c :: l

def afterMod : List UInt8 → List UInt8
  | [] => []
  | c :: l =>
    if c = ch 'h' ∨ c = ch 'L' ∨ c = ch 'q' then l
    else if c = ch 'l' then
      match l with
      | [] => []
      | d :: k => if d = ch 'l' then k else d :: k
    else c :: l

/-- What is left of a format after the flags, the width, the precision and the length modifier,
each as long as it can be. -/
def afterHead (before : Before) (l : List UInt8) : List UInt8 :=
  afterMod (afterPrecis before (afterWidth before (afterAlt l)))

/-- Every conversion has its specifier. -/
inductive Complete (before : Before) : List UInt8 → Prop
  | nil : Complete before []
  | char {c : UInt8} {l : List UInt8} (hc : c ≠ ch '%') (hl : Complete before l) :
    Complete before (c :: l)
  | conv {l k : List UInt8} {spec : UInt8} (hl : afterHead before l = spec :: k)
    (hk : Complete before k) : Complete before (ch '%' :: l)

/-- The loop ends, and no read on the way was behind the NUL of the format. -/
def ScansInside (env : PrintEnv) (fmt : List UInt8) (b : Strbuf) : Prop :=
  ∃ fuel s, coreLoop env fuel (coreInit fmt b) = some s

variable {env : PrintEnv} {before : Before} {l k : List UInt8} {s t : Core} {b : Strbuf}
  {fuel args alt : Nat} {n : Int32} {c spec : UInt8}

/-! ### The stages -/

theorem scanAlt_rest (l : List UInt8) :
    ∀ alt, ∃ v, scanAlt alt (l ++ [0]) = some (v, afterAlt l ++ [0]) := by
  induction l with
  | nil => exact fun alt => ⟨alt, rfl⟩
  | cons c l ih =>
    intro alt
    by_cases hc : isAlt c = true
    · obtain ⟨v, hv⟩ := ih (alt ||| convAltVal c)
      refine ⟨v, ?_⟩
      rw [List.cons_append, scanAlt, if_pos hc, hv, afterAlt, afterAlt,
        List.dropWhile_cons_of_pos hc]
    · refine ⟨alt, ?_⟩
      rw [List.cons_append, scanAlt, if_neg hc, afterAlt, List.dropWhile_cons_of_neg hc,
        List.cons_append]

theorem scanInt_rest (before : Before) (l : List UInt8) :
    ∀ n, ∃ v, scanInt before n (l ++ [0]) = some (v, afterInt before l ++ [0]) := by
  induction l with
  | nil =>
    intro n
    refine ⟨n, ?_⟩
    rw [List.nil_append, scanInt, Ctype.isdigit_nul, if_neg (by decide)]
    rfl
  | cons c l ih =>
    intro n
    by_cases hc : Ctype.isdigit before c = true
    · obtain ⟨v, hv⟩ := ih (n * 10 + Int32.ofInt (Ctype.schar c - 0x30))
      refine ⟨v, ?_⟩
      rw [List.cons_append, scanInt, if_pos hc, hv, afterInt, afterInt,
        List.dropWhile_cons_of_pos hc]
    · refine ⟨n, ?_⟩
      rw [List.cons_append, scanInt, if_neg hc, afterInt, List.dropWhile_cons_of_neg hc,
        List.cons_append]

theorem scanWidth_rest (env : PrintEnv) (args : Nat) (l : List UInt8) :
    ∃ v a, scanWidth env args (l ++ [0]) = some (v, a, afterWidth env.before l ++ [0]) := by
  cases l with
  | nil =>
    refine ⟨newConv.width, args, ?_⟩
    rw [List.nil_append, scanWidth, if_neg (by decide), Ctype.isdigit_nul, if_neg (by decide)]
    rfl
  | cons c l =>
    rw [List.cons_append, scanWidth, afterWidth]
    by_cases hstar : c = ch '*'
    · rw [if_pos hstar, if_pos hstar]
      exact ⟨_, _, rfl⟩
    · rw [if_neg hstar, if_neg hstar]
      by_cases hc : Ctype.isdigit env.before c = true
      · obtain ⟨v, hv⟩ := scanInt_rest env.before (c :: l) 0
        rw [List.cons_append] at hv
        rw [if_pos hc, hv]
        exact ⟨_, _, rfl⟩
      · rw [if_neg hc, afterInt, List.dropWhile_cons_of_neg hc]
        exact ⟨_, _, rfl⟩

theorem scanPrecis_rest (env : PrintEnv) (args : Nat) (l : List UInt8) :
    ∃ v a, scanPrecis env args (l ++ [0]) = some (v, a, afterPrecis env.before l ++ [0]) := by
  cases l with
  | nil => exact ⟨newConv.precis, args, rfl⟩
  | cons c l =>
    rw [List.cons_append]
    unfold scanPrecis afterPrecis
    simp only
    by_cases hdot : c = ch '.'
    · rw [if_pos hdot, if_pos hdot]
      cases l with
      | nil =>
        -- a '.' at the end of the format
        obtain ⟨v, hv⟩ := scanInt_rest env.before [] 0
        rw [List.nil_append] at hv ⊢
        simp only [if_neg (show (0 : UInt8) ≠ ch '*' by decide),
          if_neg (show (0 : UInt8) ≠ ch '-' by decide), hv]
        exact ⟨_, _, rfl⟩
      | cons d k =>
        simp only [List.cons_append]
        by_cases hstar : d = ch '*'
        · rw [if_pos hstar, if_pos hstar]
          exact ⟨_, _, rfl⟩
        · rw [if_neg hstar, if_neg hstar]
          by_cases hneg : d = ch '-'
          · obtain ⟨v, hv⟩ := scanInt_rest env.before k 0
            rw [if_pos hneg, if_pos hneg, hv]
            exact ⟨_, _, rfl⟩
          · obtain ⟨v, hv⟩ := scanInt_rest env.before (d :: k) 0
            rw [List.cons_append] at hv
            rw [if_neg hneg, if_neg hneg, hv]
            exact ⟨_, _, rfl⟩
    · rw [if_neg hdot, if_neg hdot]
      exact ⟨_, _, rfl⟩

theorem scanMod_rest (l : List UInt8) : ∃ v, scanMod (l ++ [0]) = some (v, afterMod l ++ [0]) := by
  cases l with
  | nil => exact ⟨0, rfl⟩
  | cons c l =>
    rw [List.cons_append]
    unfold scanMod afterMod
    simp only
    by_cases hh : c = ch 'h'
    · rw [if_pos hh, if_pos (Or.inl hh)]
      exact ⟨_, rfl⟩
    · rw [if_neg hh]
      by_cases hL : c = ch 'L' ∨ c = ch 'q'
      · rw [if_pos hL, if_pos (Or.inr hL)]
        exact ⟨_, rfl⟩
      · rw [if_neg hL, if_neg (not_or.mpr ⟨hh, hL⟩)]
        by_cases hl : c = ch 'l'
        · rw [if_pos hl, if_pos hl]
          cases l with
          | nil =>
            simp only [List.nil_append, if_neg (show (0 : UInt8) ≠ ch 'l' by decide)]
            exact ⟨_, rfl⟩
          | cons d k =>
            simp only [List.cons_append]
            by_cases hd : d = ch 'l'
            · rw [if_pos hd, if_pos hd]
              exact ⟨_, rfl⟩
            · rw [if_neg hd, if_neg hd]
              exact ⟨_, rfl⟩
        · rw [if_neg hl, if_neg hl]
          exact ⟨_, rfl⟩

/-- The stages together stop at the NUL at the latest, whatever the arguments are. -/
theorem scanConv_rest (env : PrintEnv) (args : Nat) (l : List UInt8) :
    ∃ c a, scanConv env args (l ++ [0]) = some (c, a, afterHead env.before l ++ [0]) := by
  obtain ⟨alt, halt⟩ := scanAlt_rest l newConv.alt
  obtain ⟨width, a, hwidth⟩ := scanWidth_rest env args (afterAlt l)
  obtain ⟨precis, a', hprecis⟩ := scanPrecis_rest env a (afterWidth env.before (afterAlt l))
  obtain ⟨mod, hmod⟩ := scanMod_rest (afterPrecis env.before (afterWidth env.before (afterAlt l)))
  refine ⟨{ alt := alt, width := width, precis := precis, mod := mod }, a', ?_⟩
  simp only [scanConv, halt, Option.bind_some, hwidth, hprecis, hmod, Option.map_some]
  rfl

/-! ### The loop -/

/-- Where a turn leaves the format; with no specifier the NUL is taken for one. -/
theorem coreTurn_rest (env : PrintEnv) (c : UInt8) (l : List UInt8) (s : Core) :
    ∃ t, coreTurn env c (l ++ [0]) s = some t ∧
      t.p = if c = ch '%' then (afterHead env.before l ++ [0]).tail else l ++ [0] := by
  by_cases hc : c = ch '%'
  · obtain ⟨conv, a, hconv⟩ := scanConv_rest env s.args l
    rw [coreTurn, if_pos hc, if_pos hc, hconv, Option.bind_some]
    cases hhead : afterHead env.before l with
    | nil => exact ⟨_, rfl, rfl⟩
    | cons spec k => exact ⟨_, rfl, rfl⟩
  · rw [coreTurn, if_neg hc, if_neg hc]
    exact ⟨_, rfl, rfl⟩

theorem afterInt_suffix (before : Before) (l : List UInt8) : afterInt before l <:+ l :=
  List.dropWhile_suffix _

theorem afterWidth_suffix (before : Before) (l : List UInt8) : afterWidth before l <:+ l := by
  cases l with
  | nil => exact List.suffix_rfl
  | cons c l =>
    rw [afterWidth]
    by_cases hc : c = ch '*'
    · rw [if_pos hc]
      exact List.suffix_cons c l
    · rw [if_neg hc]
      exact afterInt_suffix before (c :: l)

theorem afterPrecis_suffix (before : Before) (l : List UInt8) : afterPrecis before l <:+ l := by
  cases l with
  | nil => exact List.suffix_rfl
  | cons c l =>
    unfold afterPrecis
    simp only
    by_cases hc : c = ch '.'
    · rw [if_pos hc]
      refine List.IsSuffix.trans ?_ (List.suffix_cons c l)
      cases l with
      | nil => exact List.suffix_rfl
      | cons d k =>
        by_cases hstar : d = ch '*'
        · simp only [if_pos hstar]
          exact List.suffix_cons d k
        · by_cases hneg : d = ch '-'
          · simp only [if_neg hstar, if_pos hneg]
            exact (afterInt_suffix before k).trans (List.suffix_cons d k)
          · simp only [if_neg hstar, if_neg hneg]
            exact afterInt_suffix before (d :: k)
    · rw [if_neg hc]

theorem afterMod_suffix (l : List UInt8) : afterMod l <:+ l := by
  cases l with
  | nil => exact List.suffix_rfl
  | cons c l =>
    unfold afterMod
    simp only
    by_cases hc : c = ch 'h' ∨ c = ch 'L' ∨ c = ch 'q'
    · rw [if_pos hc]
      exact List.suffix_cons c l
    · rw [if_neg hc]
      by_cases hl : c = ch 'l'
      · rw [if_pos hl]
        refine List.IsSuffix.trans ?_ (List.suffix_cons c l)
        cases l with
        | nil => exact List.suffix_rfl
        | cons d k =>
          by_cases hd : d = ch 'l'
          · simp only [if_pos hd]
            exact List.suffix_cons d k
          · simp only [if_neg hd]
            exact List.suffix_rfl
      · rw [if_neg hl]

theorem afterHead_suffix (before : Before) (l : List UInt8) : afterHead before l <:+ l :=
  (afterMod_suffix _).trans ((afterPrecis_suffix before _).trans
    ((afterWidth_suffix before _).trans (List.dropWhile_suffix isAlt)))

/-- A complete format is scanned to its NUL with a turn to spare. -/
theorem coreLoop_complete (h : Complete env.before l) (hl : (0 : UInt8) ∉ l) : ∀ fuel s,
    s.p = l ++ [0] → l.length < fuel → ∃ t, coreLoop env fuel s = some t ∧ t.p = [0] := by
  induction h with
  | nil =>
    intro fuel s hp hfuel
    obtain ⟨fuel, rfl⟩ : ∃ k, fuel = k + 1 := ⟨fuel - 1, by omega⟩
    refine ⟨s, ?_, hp⟩
    rw [coreLoop, hp]
    rfl
  | @char c l hc _ ih =>
    intro fuel s hp hfuel
    obtain ⟨fuel, rfl⟩ : ∃ k, fuel = k + 1 := ⟨fuel - 1, by omega⟩
    obtain ⟨h0, hl⟩ := not_or.mp (mt List.mem_cons.mpr hl)
    obtain ⟨t, ht, htp⟩ := coreTurn_rest env c l s
    rw [if_neg hc] at htp
    rw [coreLoop, hp, List.cons_append]
    simp only [if_neg (Ne.symm h0), ht, Option.bind_some]
    exact ih hl fuel t htp (Nat.lt_of_succ_lt_succ hfuel)
  | @conv l k spec hhead _ ih =>
    intro fuel s hp hfuel
    obtain ⟨fuel, rfl⟩ : ∃ k, fuel = k + 1 := ⟨fuel - 1, by omega⟩
    obtain ⟨t, ht, htp⟩ := coreTurn_rest env (ch '%') l s
    rw [if_pos rfl, hhead] at htp
    have hsuf : k <:+ ch '%' :: l := ((List.suffix_cons spec k).trans
      (hhead ▸ afterHead_suffix env.before l)).trans (List.suffix_cons _ l)
    have hlen : k.length < (ch '%' :: l).length := by
      have := (afterHead_suffix env.before l).length_le
      rw [hhead] at this
      simp only [List.length_cons] at this ⊢
      omega
    rw [coreLoop, hp, List.cons_append]
    simp only [if_neg (show ch '%' ≠ 0 by decide), ht, Option.bind_some]
    exact ih (fun h0 => hl (hsuf.subset h0)) fuel t htp (by omega)

/-- A run that ends was over a complete format. -/
theorem complete_of_coreLoop : ∀ fuel (l : List UInt8) s, (0 : UInt8) ∉ l → s.p = l ++ [0] →
    coreLoop env fuel s = some t → Complete env.before l := by
  intro fuel
  induction fuel with
  | zero =>
    intro l s _ _ hrun
    cases hrun
  | succ fuel ih =>
    intro l s hl hp hrun
    cases l with
    | nil => exact .nil
    | cons c l =>
      obtain ⟨h0, hl⟩ := not_or.mp (mt List.mem_cons.mpr hl)
      obtain ⟨u, hu, hup⟩ := coreTurn_rest env c l s
      rw [coreLoop, hp, List.cons_append] at hrun
      simp only [if_neg (Ne.symm h0), hu, Option.bind_some] at hrun
      by_cases hc : c = ch '%'
      · subst hc
        rw [if_pos rfl] at hup
        cases hhead : afterHead env.before l with
        | nil =>
          -- the NUL has been passed over, and the next turn reads behind it
          rw [hhead] at hup
          cases fuel with
          | zero => cases hrun
          | succ fuel =>
            rw [coreLoop, hup] at hrun
            cases hrun
        | cons spec k =>
          rw [hhead] at hup
          have hsub := (afterHead_suffix env.before l).subset
          rw [hhead] at hsub
          exact .conv hhead (ih k u (fun hm =>
            hl (List.mem_cons_of_mem _ (hsub (List.mem_cons_of_mem spec hm)))) hup hrun)
      · rw [if_neg hc] at hup
        exact .char hc (ih l u hl hup hrun)

/-- The turns that `sprintf_core` is given are enough. -/
theorem sprintfCore_complete (env : PrintEnv) (fmt : CStr) (b : Strbuf)
    (h : Complete env.before fmt.text) : ∃ t, sprintfCore env fmt.text b = some t ∧ t.p = [0] :=
  coreLoop_complete h fmt.nul _ _ rfl (Nat.lt_succ_self _)

/-- For any arguments the scan ends without a read behind the NUL of the format if and only if
every conversion in it is complete. -/
theorem scansInside_iff (env : PrintEnv) (fmt : CStr) (b : Strbuf) :
    ScansInside env fmt.text b ↔ Complete env.before fmt.text := by
  constructor
  · rintro ⟨fuel, t, hrun⟩
    exact complete_of_coreLoop fuel fmt.text _ fmt.nul rfl hrun
  · intro h
    obtain ⟨t, hrun, -⟩ := sprintfCore_complete env fmt b h
    exact ⟨_, t, hrun⟩

def openFormat : CStr := ⟨"%-08.3l".toList.map ch, by decide⟩

def zeroEnv : PrintEnv where
  heap := fun _ => true
  before := fun _ => 0
  nbuf := ⟨0x1000, by decide⟩
  args := fun _ => 0
  str := fun _ => ⟨[], List.not_mem_nil⟩

def emptyBuf : Strbuf := { len := 0, max := strbufGrow, buf := none }

/-- The specifier is missing, its NUL is taken for one, and the loop goes on behind it. -/
theorem scansInside_open : ¬ ScansInside zeroEnv openFormat.text emptyBuf := by
  rintro ⟨fuel, t, hrun⟩
  cases complete_of_coreLoop fuel openFormat.text _ openFormat.nul rfl hrun with
  | char hc _ => exact hc rfl
  | conv hl _ =>
    have hnil : afterHead zeroEnv.before ("-08.3l".toList.map ch) = [] := by decide
    cases hnil.symm.trans hl

end Console
