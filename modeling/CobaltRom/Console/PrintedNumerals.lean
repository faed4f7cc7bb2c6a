import CobaltRom.Console.NumText
import CobaltRom.Console.Stoli

/-! Numerals in formats and in what they print. -/
namespace Console

open Ctype (Before)

/-- The decimal numeral of `n`. -/
def decimal (n : Nat) : List UInt8 := numeral (charset newConv) 10 n

/-- Whenever the first argument is `num`, `sprintf_core` appends `out` to any growing buffer that
gets its memory. -/
def Prints (fmt : List UInt8) (num : UInt32) (out : List UInt8) : Prop :=
  ∀ (env : PrintEnv) (b : Strbuf) (text : List UInt8), env.args 0 = num → Holds b text →
    ServesUpTo env.heap (text ++ out).length →
    ∃ s o, sprintfCore env fmt b = some s ∧ s.out = some o ∧ Holds o.buf (text ++ out)

variable {env : PrintEnv} {before : Before} {chars ds l rest text out out' : List UInt8}
  {base n w k fuel args a : Nat} {c spec : UInt8} {num : UInt32} {b : Strbuf} {conv : Conv}
  {o : Option Printed}

/-! ### Their digits -/

theorem digitsFrom_append (base n : Nat) (ds ds' : List UInt8) :
    digitsFrom base n (ds ++ ds') = digitsFrom base (digitsFrom base n ds) ds' := List.foldl_append

theorem digitText_value (hb : 1 < base) (hchars : ∀ d < base, (hexatoi (chars.getD d 0)).toNat = d)
    (n : Nat) : numValue base (digitText chars base n) = n := by
  induction n using Nat.strong_induction_on with
  | _ n ih =>
    by_cases hn : n = 0
    · subst hn
      simp [digitText, numValue, digitsFrom]
    · have hlast := hchars (n % base) (Nat.mod_lt n (by omega))
      rw [digitText_pos chars hb hn, numValue, digitsFrom_append]
      show numValue base (digitText chars base (n / base)) * base + _ = n
      rw [ih (n / base) (Nat.div_lt_self (Nat.pos_of_ne_zero hn) hb), hlast]
      exact Nat.div_add_mod' n base

/-- A numeral has the value that it was made from. -/
theorem numeral_value (hb : 1 < base) (hchars : ∀ d < base, (hexatoi (chars.getD d 0)).toNat = d)
    (n : Nat) : numValue base (numeral chars base n) = n := by
  have hlast := hchars (n % base) (Nat.mod_lt n (by omega))
  rw [numeral, numValue, digitsFrom_append]
  show numValue base (digitText chars base (n / base)) * base + _ = n
  rw [digitText_value hb hchars, hlast]
  exact Nat.div_add_mod' n base

theorem numeral_all {P : UInt8 → Prop} (hb : 1 < base)
    (h : ∀ d < base, P (chars.getD d 0)) (n : Nat) :
    ∀ c ∈ numeral chars base n, P c := by
  intro c hc
  rw [numeral, List.mem_append, digitText, List.mem_reverse, List.mem_map, List.mem_singleton] at hc
  rcases hc with ⟨d, hd, rfl⟩ | rfl
  · exact h d (Nat.digits_lt_base hb hd)
  · exact h _ (Nat.mod_lt n (by omega))

theorem charset_value (c : Conv) : ∀ d < 16, (hexatoi ((charset c).getD d 0)).toNat = d := by
  rw [charset]
  split_ifs <;> decide

theorem charset_isdigit (c : Conv) : ∀ d < 10, isdigit ((charset c).getD d 0) = true := by
  rw [charset]
  split_ifs <;> decide

theorem charset_isxdigit (c : Conv) : ∀ d < 16, isxdigit ((charset c).getD d 0) = true := by
  rw [charset]
  split_ifs <;> decide

/-- The ten digits are the same in both character sets. -/
theorem numeral_charset (c : Conv) (n : Nat) : numeral (charset c) 10 n = decimal n := by
  have hsame : ∀ d < 10, (charset c).getD d 0 = (charset newConv).getD d 0 := by
    rw [charset]
    split_ifs <;> decide
  rw [decimal, numeral, numeral, hsame _ (Nat.mod_lt n (by decide)), digitText, digitText]
  congr 2
  exact List.map_congr_left fun d hd => hsame d (Nat.digits_lt_base (by decide) hd)

theorem decimal_isdigit (n : Nat) : ∀ c ∈ decimal n, isdigit c = true :=
  numeral_all (by decide) (charset_isdigit newConv) n

theorem decimal_value (n : Nat) : numValue 10 (decimal n) = n :=
  numeral_value (by decide) (fun d hd => charset_value newConv d (by omega)) n

theorem decimal_length (n : Nat) : (decimal n).length = digitCount 10 n :=
  numeral_length _ (by decide) n

theorem decimal_ne_nil (n : Nat) : decimal n ≠ [] := by
  rw [decimal, numeral]
  exact List.append_ne_nil_of_right_ne_nil _ (List.cons_ne_nil _ [])

/-- No numeral but that of 0 starts with a zero. -/
theorem decimal_head (hn : n ≠ 0) :
    ∃ c ds, decimal n = c :: ds ∧ isdigit c = true ∧ c ≠ ch '0' := by
  induction n using Nat.strong_induction_on with
  | _ n ih =>
    by_cases hlt : n < 10
    · refine ⟨(charset newConv).getD n 0, [], ?_, charset_isdigit newConv n hlt, ?_⟩
      · rw [decimal, numeral, Nat.mod_eq_of_lt hlt, Nat.div_eq_of_lt hlt]
        simp [digitText]
      · clear ih
        interval_cases n
        · exact absurd rfl hn
        all_goals decide
    · obtain ⟨c, ds, heq, hdig, hne⟩ := ih (n / 10) (by omega) (by omega)
      refine ⟨c, ds ++ [(charset newConv).getD (n % 10) 0], ?_, hdig, hne⟩
      rw [decimal, numeral, digitText_pos _ (by decide) (by omega : n / 10 ≠ 0)]
      rw [decimal, numeral] at heq
      rw [heq, List.cons_append]

/-! ### Without width and precision -/

/-- A countdown from -1 leaves nothing. -/
theorem countDown_unset (hk : k < 2 ^ 31) : ((-1 : Int32) - Int32.ofNat k).toNatClampNeg = 0 := by
  have hm1 : (-1 : Int32).toInt = -1 := rfl
  have hsub := countDown_toInt (-1) hk
  rw [hm1] at hsub
  rw [Int32.toNatClampNeg, hsub]
  split_ifs with hlow <;> omega

theorem paddedDigits_unset (hp : conv.precis = -1) (hb : 1 < base) (hd : digitCount base n ≤ 64) :
    paddedDigits conv base n = numeral (charset conv) base n := by
  have hzero : zeroCount conv (numeral (charset conv) base n).length = 0 := by
    rw [zeroCount, hp]
    exact countDown_unset (by rw [numeral_length _ hb]; omega)
  rw [paddedDigits, hzero, List.replicate_zero, List.nil_append]

/-! ### In a format -/

theorem isdigit_ctype (before : Before) (h : isdigit c = true) : Ctype.isdigit before c = true := by
  have hlt : c < 128 := by
    revert c
    decide +kernel
  rwa [Ctype.isdigit_of_lt hlt]

theorem schar_digit (h : isdigit c = true) : Ctype.schar c - 0x30 = (hexatoi c).toNat := by
  revert c
  decide +kernel

/-- An integer string is read for its value. -/
theorem scanInt_digits (before : Before) (ds rest : List UInt8)
    (hc : Ctype.isdigit before c = false) :
    ∀ n, (∀ d ∈ ds, isdigit d = true) →
      scanInt before (Int32.ofNat n) (ds ++ c :: rest) =
        some (Int32.ofNat (digitsFrom 10 n ds), c :: rest) := by
  induction ds with
  | nil =>
    intro n _
    rw [List.nil_append, scanInt, hc, if_neg (by decide)]
    rfl
  | cons d ds ih =>
    intro n hds
    have hd := hds d List.mem_cons_self
    have hstep : Int32.ofNat n * 10 + Int32.ofInt (Ctype.schar d - 0x30) =
        Int32.ofNat (n * 10 + (hexatoi d).toNat) := by
      rw [schar_digit hd, Int32.ofNat_add, Int32.ofNat_mul]
      rfl
    rw [List.cons_append, scanInt, if_pos (isdigit_ctype before hd), hstep,
      ih _ fun c hc => hds c (List.mem_cons_of_mem d hc)]
    rfl

theorem isAlt_digit (h : isdigit c = true) (h0 : c ≠ ch '0') : isAlt c = false := by
  revert c
  decide +kernel

theorem scanAlt_stop (alt : Nat) (h : isAlt c = false) :
    scanAlt alt (c :: l) = some (alt, c :: l) := by
  rw [scanAlt, h, if_neg (by decide)]

theorem scanPrecis_letter (env : PrintEnv) (args : Nat) (h : c ≠ ch '.') :
    scanPrecis env args (c :: l) = some (-1, args, c :: l) := by
  unfold scanPrecis
  simp only [if_neg h]
  rfl

/-- Flags, a width and the specifier. -/
theorem scanConv_width (env : PrintEnv) (args : Nat) {flag : List UInt8} {alt : Nat} (hw : w ≠ 0)
    (hflag : ∀ c l, isAlt c = false → scanAlt 0 (flag ++ c :: l) = some (alt, c :: l)) :
    scanConv env args (flag ++ (decimal w ++ ch 'd' :: l)) =
      some ({ alt := alt, width := Int32.ofNat w, precis := -1, mod := 0 }, args, ch 'd' :: l) := by
  obtain ⟨c, ds, heq, hdig, hne⟩ := decimal_head hw
  have halt : scanAlt newConv.alt (flag ++ (decimal w ++ ch 'd' :: l)) =
      some (alt, decimal w ++ ch 'd' :: l) := by
    rw [heq]
    exact hflag c _ (isAlt_digit hdig hne)
  have hstop : Ctype.isdigit env.before (ch 'd') = false :=
    (Ctype.isdigit_of_lt (by decide)).trans rfl
  have hint := scanInt_digits env.before (decimal w) l hstop 0 (decimal_isdigit w)
  have hwidth : scanWidth env args (decimal w ++ ch 'd' :: l) =
      some (Int32.ofNat w, args, ch 'd' :: l) := by
    have hval : digitsFrom 10 0 (decimal w) = w := decimal_value w
    rw [hval] at hint
    rw [heq, List.cons_append] at hint ⊢
    have hstar : c ≠ ch '*' := by
      rintro rfl
      cases hdig
    rw [scanWidth, if_neg hstar, if_pos (isdigit_ctype env.before hdig)]
    exact congrArg (Option.map _) hint
  simp only [scanConv, halt, Option.bind_some, hwidth,
    scanPrecis_letter env args (by decide : ch 'd' ≠ ch '.')]
  rfl

/-- A bare specifier. -/
theorem scanConv_bare (env : PrintEnv) (args : Nat) (hspec : c = ch 'u' ∨ c = ch 'x') :
    scanConv env args (c :: l) = some (newConv, args, c :: l) := by
  have hdig : Ctype.isdigit env.before c = false := by
    rcases hspec with rfl | rfl
    · exact (Ctype.isdigit_of_lt (by decide)).trans rfl
    · exact (Ctype.isdigit_of_lt (by decide)).trans rfl
  have halt : isAlt c = false := by rcases hspec with rfl | rfl <;> decide
  have hstar : c ≠ ch '*' := by rcases hspec with rfl | rfl <;> decide
  have hdot : c ≠ ch '.' := by rcases hspec with rfl | rfl <;> decide
  have hwidth : scanWidth env args (c :: l) = some (newConv.width, args, c :: l) := by
    rw [scanWidth, if_neg hstar, hdig, if_neg (by decide)]
  have hmod : scanMod (c :: l) = some (0, c :: l) := by
    unfold scanMod
    rcases hspec with rfl | rfl <;> rfl
  simp only [scanConv, scanAlt_stop _ halt, Option.bind_some, hwidth,
    scanPrecis_letter env args hdot, hmod]
  rfl

/-! ### Turns of the loop -/

theorem coreLoop_conv (hscan : scanConv env args ds = some (conv, a, spec :: l)) :
    coreLoop env (fuel + 1) { p := ch '%' :: ds, args := args, out := o } = coreLoop env fuel
      { p := l, args := (convert env conv spec a o).1, out := (convert env conv spec a o).2 } := by
  simp only [coreLoop, if_neg (show ch '%' ≠ 0 by decide), coreTurn, if_true, hscan,
    Option.bind_some]

theorem coreLoop_char (h0 : c ≠ 0) (hc : c ≠ ch '%') :
    coreLoop env (fuel + 1) { p := c :: l, args := args, out := o } = coreLoop env fuel
      { p := l, args := args, out := o.bind fun o => o.put (strbufAppendc env.heap o.buf c) } := by
  simp only [coreLoop, if_neg h0, coreTurn, if_neg hc, Option.bind_some]

theorem coreLoop_nul : coreLoop env (fuel + 1) { p := 0 :: l, args := args, out := o } =
    some { p := 0 :: l, args := args, out := o } := by
  simp only [coreLoop, if_true]

/-- One number of 32 bits, into a growing buffer. -/
theorem convertNum_grow (env : PrintEnv) (conv : Conv) (args : Nat) (base : Int32) {p : Printed}
    (h : Holds p.buf text)
    (hmod : hasFlag conv.mod convModLonglong = false) (hbase : baseOk base = true)
    (hfit : BufferFits conv (leadChars env.nbuf conv (isNeg conv (env.args args)) base).length
      (digitCount base.toInt.toNat (magnitude conv (env.args args))))
    (hheap : ServesUpTo env.heap (text ++ numText env.nbuf conv (isNeg conv (env.args args))
      (magnitude conv (env.args args)) base).length) :
    ∃ p', convertNum env conv base args (some p) = (args + 1, some p') ∧
      Holds p'.buf (text ++ numText env.nbuf conv (isNeg conv (env.args args))
        (magnitude conv (env.args args)) base) := by
  obtain ⟨hb, -⟩ := baseOk_toNat hbase
  have htext :=
    (textFits_iff hb (digitCount_le hb (magnitude_lt _ _)) (leadChars_length _ _ _ _)).mpr hfit
  have hemits := emits_appendNum env.heap env.nbuf (isNeg conv (env.args args)) hbase htext
  obtain ⟨p', hp', hold⟩ := hemits.put.2 Holds _ (accepts_grow env.heap) p text h hheap
  refine ⟨p', ?_, hold⟩
  rw [convertNum, hmod, if_neg (by decide), Option.bind_some, sprintfNum, if_pos hbase]
  exact congrArg (Prod.mk _) hp'

/-! ### Only one text is printed -/

theorem Holds.unique (h : Holds b out) (h' : Holds b out') : out = out' := by
  have hinj : ∀ {l l' : List UInt8}, cells l = cells l' → l = l' := fun he =>
    List.map_injective_iff.mpr (Option.some_injective _) (List.append_cancel_right he)
  rcases h.buf with hb | ⟨hb, rfl⟩
  · rcases h'.buf with hb' | ⟨hb', -⟩
    · exact hinj (Option.some_injective _ (hb.symm.trans hb'))
    · rw [hb] at hb'
      cases hb'
  · rcases h'.buf with hb' | ⟨-, rfl⟩
    · rw [hb] at hb'
      cases hb'
    · rfl

theorem emptyBuf_holds : Holds emptyBuf [] := ⟨rfl, rfl, Or.inr ⟨rfl, rfl⟩⟩

theorem Prints.unique {fmt : List UInt8} (h : Prints fmt num out) (h' : Prints fmt num out') :
    out = out' := by
  have hserves : ∀ n, ServesUpTo zeroEnv.heap n := fun n k _ => rfl
  obtain ⟨s, o, hs, ho, hold⟩ := h { zeroEnv with args := fun _ => num } emptyBuf [] rfl
    emptyBuf_holds (hserves _)
  obtain ⟨s', o', hs', ho', hold'⟩ := h' { zeroEnv with args := fun _ => num } emptyBuf [] rfl
    emptyBuf_holds (hserves _)
  cases hs.symm.trans hs'
  cases ho.symm.trans ho'
  exact hold.unique hold'

end Console
