import CobaltRom.Console.PrintedNumerals

/-! `stoli` reads back what "%u" and "0x%x" print. -/
namespace Console

def unsignedFormat : List UInt8 := [ch '%', ch 'u']

def hexFormat : List UInt8 := [ch '0', ch 'x', ch '%', ch 'x']

/-- The hexadecimal numeral of `n`. -/
def hexadecimal (n : Nat) : List UInt8 := numeral (charset newConv) 16 n

/-- Wherever `out` lies with a NUL behind it, `stoli` returns status 0 and stores `num`. -/
def ReadsBack (out : List UInt8) (num : UInt32) : Prop :=
  ∃ s : CStr, s.text = out ∧ ∀ val, s.At val → stoli val = some (0, num)

variable {num : UInt32} {n base : Nat} {env : PrintEnv} {text : List UInt8}

/-! ### Printing -/

/-- With no flags, width and precision the text is the numeral alone. -/
theorem numText_bare (nbuf : NbufAddr) (base : Int32) (hbase : baseOk base = true) (num : UInt32) :
    numText nbuf newConv.unsigned (isNeg newConv.unsigned num)
    (magnitude newConv.unsigned num) base =
      numeral (charset newConv) base.toInt.toNat num.toNat := by
  obtain ⟨hb, -⟩ := baseOk_toNat hbase
  have hd := digitCount_le hb (n := num.toNat) (num.toNat_lt.trans (by decide))
  have hlead : leadChars nbuf newConv.unsigned (isNeg newConv.unsigned num) base = [] := rfl
  have hmag : magnitude newConv.unsigned num = num.toNat := magnitude_unsigned rfl rfl
  have hpadded : paddedDigits newConv.unsigned base.toInt.toNat num.toNat =
      numeral (charset newConv) base.toInt.toNat num.toNat := paddedDigits_unset rfl hb hd
  have hleft : (widthLeft newConv.unsigned
      (numeral (charset newConv) base.toInt.toNat num.toNat).length).toNatClampNeg = 0 :=
    countDown_unset (by rw [numeral_length _ hb]; omega)
  have hminus : hasFlag newConv.unsigned.alt convAltMinus = false := rfl
  simp only [numText, hlead, hmag, fieldText, fieldPad, trailingText, hpadded, List.length_nil,
    Nat.zero_add, hleft, hminus, Bool.false_eq_true, if_false, List.replicate_zero, List.nil_append,
    List.append_nil]

/-- A last conversion without flags, width or precision appends the numeral. -/
theorem bare_turns {o : Printed} (spec : UInt8) (base : Int32) (fuel : Nat)
    (hspec : spec = ch 'u' ∧ base = 10 ∨ spec = ch 'x' ∧ base = 16) (harg : env.args 0 = num)
    (hold : Holds o.buf text)
    (hheap : ServesUpTo env.heap
      (text ++ numeral (charset newConv) base.toInt.toNat num.toNat).length) :
    ∃ o', coreLoop env (fuel + 2) { p := [ch '%', spec, 0], args := 0, out := some o } =
        some { p := [0], args := 1, out := some o' } ∧
      Holds o'.buf (text ++ numeral (charset newConv) base.toInt.toNat num.toNat) := by
  have hbase : baseOk base = true := by
    rcases hspec with ⟨-, rfl⟩ | ⟨-, rfl⟩ <;> decide
  have hfit : ∀ lead ≤ 3, ∀ d ≤ 64, BufferFits newConv.unsigned lead d := fun lead hlead d hd =>
    bufferFits_small _ hlead hd (by decide) (by decide)
  have htext := numText_bare env.nbuf base hbase num
  obtain ⟨o', ho', hold'⟩ := convertNum_grow env newConv.unsigned 0 base hold (by decide) hbase
    (hfit _ (leadChars_length _ _ _ _) _ (digitCount_le (baseOk_toNat hbase).1 (magnitude_lt _ _)))
    (by rw [harg, htext]; exact hheap)
  rw [harg, htext] at hold'
  have hconv : convert env newConv spec 0 (some o) = (1, some o') := by
    rcases hspec with ⟨rfl, rfl⟩ | ⟨rfl, rfl⟩
    · exact ho'
    · exact ho'
  have hscan := scanConv_bare env 0 (l := [0]) (hspec.imp And.left And.left)
  refine ⟨o', ?_, hold'⟩
  rw [coreLoop_conv hscan, hconv]
  exact coreLoop_nul

theorem prints_unsigned (num : UInt32) : Prints unsignedFormat num (decimal num.toNat) := by
  intro env b text harg hold hheap
  obtain ⟨o', hrun, hold'⟩ :=
    bare_turns (o := { buf := b, stored := [] }) (ch 'u') 10 1 (Or.inl ⟨rfl, rfl⟩) harg
    hold hheap
  exact ⟨_, o', hrun, rfl, hold'⟩

/-- A literal character of the format. -/
theorem char_turn {o : Printed} {p : List UInt8} {c : UInt8} (fuel args : Nat) (h0 : c ≠ 0)
    (hc : c ≠ ch '%') (hold : Holds o.buf text)
    (hheap : env.heap ((text ++ [c]).length + 1) = true) :
    ∃ o', coreLoop env (fuel + 1) { p := c :: p, args := args, out := some o } =
        coreLoop env fuel { p := p, args := args, out := some o' } ∧
        Holds o'.buf (text ++ [c]) := by
  obtain ⟨b', hb', hold'⟩ := strbufAppend_grow env.heap [c] hold hheap
  refine ⟨{ o with buf := b' }, ?_, hold'⟩
  rw [coreLoop_char h0 hc, Option.bind_some, strbufAppendc, charStr, if_neg h0, hb']
  rfl

theorem prints_hex (num : UInt32) :
    Prints hexFormat num (ch '0' :: ch 'x' :: hexadecimal num.toNat) := by
  intro env b text harg hold hheap
  have htext : text ++ ch '0' :: ch 'x' :: hexadecimal num.toNat =
      text ++ [ch '0'] ++ [ch 'x'] ++ hexadecimal num.toNat := by simp
  rw [htext] at hheap ⊢
  obtain ⟨o₁, hrun₁, hold₁⟩ := char_turn (o := { buf := b, stored := [] }) (c := ch '0')
    (p := [ch 'x', ch '%', ch 'x', 0]) 4 0 (by decide) (by decide) hold
    (hheap _ (by simp only [List.length_append]; omega))
  obtain ⟨o₂, hrun₂, hold₂⟩ := char_turn (c := ch 'x') (p := [ch '%', ch 'x', 0]) 3 0 (by decide)
    (by decide) hold₁ (hheap _ (by simp only [List.length_append]; omega))
  obtain ⟨o₃, hrun₃, hold₃⟩ := bare_turns (ch 'x') 16 1 (Or.inr ⟨rfl, rfl⟩) harg hold₂ hheap
  exact ⟨_, o₃, hrun₁.trans (hrun₂.trans hrun₃), rfl, hold₃⟩

/-! ### Reading -/

theorem decimal_count (num : UInt32) : (decimal num.toNat).length ≤ 10 := by
  rw [decimal_length]
  exact max_le (by decide) ((Nat.digits_length_le_iff (by decide) _).mpr
    (num.toNat_lt.trans (by decide)))

theorem decimal_notMarked (n : Nat) : ¬ Marked (decimal n) := by
  have hmem : ∀ c, (decimal n)[1]? = some c → isdigit c = true := fun c hc =>
    decimal_isdigit n c (List.mem_of_getElem? hc)
  rintro (h | h)
  · exact absurd (hmem _ h) (by decide)
  · exact absurd (hmem _ h) (by decide)

theorem decimal_readsBack (num : UInt32) : ReadsBack (decimal num.toNat) num := by
  have hnul : (0 : UInt8) ∉ decimal num.toNat := fun h0 =>
    absurd (decimal_isdigit _ 0 h0) (by decide)
  refine ⟨⟨decimal num.toNat, hnul⟩, rfl, fun val hval => ?_⟩
  have hmark := fun h => decimal_notMarked num.toNat ((hval.marked_iff (decimal_ne_nil _)).mpr h)
  have htake : (decimal num.toNat).takeWhile isdigit = decimal num.toNat :=
    List.takeWhile_eq_self_iff.mpr (decimal_isdigit _)
  have hlen := decimal_count num
  have hvalue : accumulate 10 0 (decimal num.toNat) = num := by
    have hten : (10 : UInt32).toNat = 10 := rfl
    rw [← UInt32.toNat_inj, accumulate_numValue, hten, decimal_value]
    exact Nat.mod_eq_of_lt num.toNat_lt
  rw [stoli_decimal hval hmark (by simp only [htake]; omega)]
  simp only [htake, hvalue]
  rw [if_pos ⟨decimal_isdigit _, by omega⟩]

theorem hexadecimal_digits (num : UInt32) : HexDigits (hexadecimal num.toNat) := by
  have hlen : (hexadecimal num.toNat).length = digitCount 16 num.toNat :=
    numeral_length _ (by decide) _
  refine ⟨?_, ?_, numeral_all (by decide) (charset_isxdigit newConv) _⟩
  · rw [hlen]
    exact le_max_left _ _
  · rw [hlen]
    exact max_le (by decide) ((Nat.digits_length_le_iff (by decide) _).mpr
      (num.toNat_lt.trans_le (by decide)))

theorem hexadecimal_readsBack (num : UInt32) :
    ReadsBack (ch '0' :: ch 'x' :: hexadecimal num.toNat) num := by
  have hds := hexadecimal_digits num
  have hnul : (0 : UInt8) ∉ ch '0' :: ch 'x' :: hexadecimal num.toNat := by
    simp only [List.mem_cons, not_or]
    exact ⟨by decide, by decide, fun h0 => absurd (hds.2.2 0 h0) (by decide)⟩
  refine ⟨⟨_, hnul⟩, rfl, fun val hval => ?_⟩
  have hvalue : accumulate 16 0 (hexadecimal num.toNat) = num := by
    have hsixteen : (16 : UInt32).toNat = 16 := rfl
    rw [← UInt32.toNat_inj, accumulate_numValue, hsixteen, hexadecimal,
      numeral_value (by decide) (charset_value newConv)]
    exact Nat.mod_eq_of_lt num.toNat_lt
  rw [stoli_hex (hval.hex rfl (Or.inl rfl)) hds, hvalue]

/-- Every 32-bit number is read back from either of its printed forms. -/
theorem print_stoli (num : UInt32) :
    (∃ out, Prints unsignedFormat num out ∧ ReadsBack out num) ∧
      ∃ out, Prints hexFormat num out ∧ ReadsBack out num :=
  ⟨⟨_, prints_unsigned num, decimal_readsBack num⟩, ⟨_, prints_hex num, hexadecimal_readsBack num⟩⟩

end Console
