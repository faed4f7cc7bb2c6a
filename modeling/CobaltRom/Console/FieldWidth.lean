import CobaltRom.Console.PrintedNumerals

/-! Integers in a field of a given width. -/
namespace Console

def signText (n : Int32) : List UInt8 := if n.toInt < 0 then [ch '-'] else []

def intDigits (n : Int32) : List UInt8 := decimal n.toInt.natAbs

def intNumeral (n : Int32) : List UInt8 := signText n ++ intDigits n

/-- As many of `c` as the numeral of `n` is shorter than `w`. -/
def fill (n : Int32) (w : Nat) (c : UInt8) : List UInt8 :=
  List.replicate (w - (intNumeral n).length) c

/-- "%wd", with a flag. -/
def widthFormat (flag : List UInt8) (w : Nat) : List UInt8 :=
  ch '%' :: (flag ++ (decimal w ++ [ch 'd']))

/-- The numeral at the right of the field, with zeros between sign and digits, or at the left. -/
structure FieldWidth (n : Int32) (w : Nat) : Prop where
  plain : Prints (widthFormat [] w) n.toUInt32 (fill n w (ch ' ') ++ intNumeral n)
  zero : Prints (widthFormat [ch '0'] w) n.toUInt32 (signText n ++ fill n w (ch '0') ++ intDigits n)
  minus : Prints (widthFormat [ch '-'] w) n.toUInt32 (intNumeral n ++ fill n w (ch ' '))

/-- The conversion that is scanned from such a format. -/
def widthConv (alt w : Nat) : Conv := { alt := alt, width := Int32.ofNat w, precis := -1, mod := 0 }

variable {alt w used m : Nat} {n : Int32} {nbuf : NbufAddr}

theorem widthConv_width (hw : w ≤ 127) : (widthConv alt w).width.toInt = w :=
  Int32.toInt_ofNat_of_lt (by omega)

theorem widthConv_left (hw : w ≤ 127) (hused : used < 2 ^ 31) :
    (widthLeft (widthConv alt w) used).toNatClampNeg = w - used := by
  have hwidth : (Int32.ofNat w).toInt = w := Int32.toInt_ofNat_of_lt (by omega)
  have hsub := countDown_toInt (Int32.ofNat w) hused
  rw [hwidth, if_pos (by omega)] at hsub
  rw [widthLeft, Int32.toNatClampNeg]
  show (Int32.ofNat w - Int32.ofNat used).toInt.toNat = _
  rw [hsub]
  omega

/-- Without a precision no zeros are added. -/
theorem widthConv_digits (hm : digitCount 10 m ≤ 64) :
    paddedDigits (widthConv alt w) 10 m = decimal m := by
  rw [paddedDigits_unset rfl (by decide) hm, numeral_charset]

theorem widthConv_mod (alt w flag : Nat) : hasFlag (widthConv alt w).mod flag = false := by
  rw [hasFlag, widthConv, Nat.zero_and]
  rfl

theorem widthConv_pad :
    padChar (widthConv alt w) = if hasFlag alt convAltZero then ch '0' else ch ' ' := by
  have hprecis : (widthConv alt w).precis < 0 := show (-1 : Int32) < 0 by decide
  rw [padChar, decide_eq_true hprecis, Bool.and_true]
  rfl

theorem widthConv_lead (nbuf : NbufAddr) (hplus : hasFlag alt convAltPlus = false)
    (hspace : hasFlag alt convAltSpace = false) (hhash : hasFlag alt convAltHash = false) :
    leadChars nbuf (widthConv alt w) (isNeg (widthConv alt w) n.toUInt32) 10 = signText n := by
  have hmod := widthConv_mod alt w convModUnsigned
  have hsigns : signChars (widthConv alt w) (isNeg (widthConv alt w) n.toUInt32) = signText n := by
    rw [signChars, isNeg_signed hmod, hmod, if_neg (by decide), Int32.toInt32_toUInt32, signText]
    by_cases hneg : n.toInt < 0
    · rw [if_pos (decide_eq_true hneg), if_pos hneg]
    · rw [if_neg (by simpa using hneg), if_neg hneg]
      simp only [widthConv, hplus, hspace, if_neg Bool.false_ne_true]
  have halt : altChars nbuf (widthConv alt w) 10 = [] := by
    rw [altChars]
    exact if_neg (by rw [widthConv, hhash]; decide)
  rw [leadChars, hsigns, halt, List.append_nil]

theorem signText_length (n : Int32) : (signText n).length ≤ 1 := by
  rw [signText]
  split_ifs <;> decide

theorem natAbs_digits (n : Int32) : digitCount 10 n.toInt.natAbs ≤ 64 := by
  have hlow := n.le_toInt
  have hhigh := n.toInt_lt
  exact digitCount_le (by decide) (by omega)

theorem intNumeral_length (n : Int32) :
    (intNumeral n).length = (signText n).length + digitCount 10 n.toInt.natAbs := by
  rw [intNumeral, List.length_append, intDigits, decimal_length]

/-- What is printed for such a format: the sign, then the field, then the spaces behind it. -/
def widthText (alt w : Nat) (n : Int32) : List UInt8 :=
  signText n ++
    ((if hasFlag alt convAltMinus then [] else fill n w (padChar (widthConv alt w))) ++
      intDigits n) ++
    if hasFlag alt convAltMinus then fill n w (ch ' ') else []

theorem numText_width (nbuf : NbufAddr) (hw : w ≤ 127) (hplus : hasFlag alt convAltPlus = false)
    (hspace : hasFlag alt convAltSpace = false) (hhash : hasFlag alt convAltHash = false) :
    numText nbuf (widthConv alt w) (isNeg (widthConv alt w) n.toUInt32)
      (magnitude (widthConv alt w) n.toUInt32) 10 = widthText alt w n := by
  have hdigits := natAbs_digits n
  have hsign := signText_length n
  have hlen := intNumeral_length n
  have hmag : magnitude (widthConv alt w) n.toUInt32 = n.toInt.natAbs := by
    rw [magnitude_signed (widthConv_mod _ _ _) (widthConv_mod _ _ _), Int32.toInt32_toUInt32]
  have hused : (widthLeft (widthConv alt w)
      ((signText n).length + (decimal n.toInt.natAbs).length)).toNatClampNeg =
      w - (intNumeral n).length := by
    rw [widthConv_left hw (by rw [decimal_length]; omega), hlen, decimal_length]
  have hbase : (10 : Int32).toInt.toNat = 10 := rfl
  have halt : (widthConv alt w).alt = alt := rfl
  simp only [numText, widthConv_lead nbuf hplus hspace hhash, hmag, hbase, fieldText, fieldPad,
    trailingText, widthConv_digits hdigits, hused, halt]
  rfl

/-- The format of one conversion is scanned and its number printed. -/
theorem widthFormat_prints (flag : List UInt8) (alt : Nat) (n : Int32) (hw : 1 ≤ w) (hw' : w ≤ 127)
    (hflag : ∀ c l, isAlt c = false → scanAlt 0 (flag ++ c :: l) = some (alt, c :: l))
    (hplus : hasFlag alt convAltPlus = false) (hspace : hasFlag alt convAltSpace = false)
    (hhash : hasFlag alt convAltHash = false) :
    Prints (widthFormat flag w) n.toUInt32 (widthText alt w n) := by
  intro env b text harg hold hheap
  have hwidth : (widthConv alt w).width.toInt = w := widthConv_width hw'
  have hprecis : -1 ≤ (widthConv alt w).precis.toInt ∧ (widthConv alt w).precis.toInt ≤ 127 :=
    show -1 ≤ (-1 : Int32).toInt ∧ (-1 : Int32).toInt ≤ 127 by decide
  have hfit : ∀ lead ≤ 3, ∀ d ≤ 64, BufferFits (widthConv alt w) lead d := fun lead hlead d hd =>
    bufferFits_small _ hlead hd (by rw [hwidth]; omega) hprecis
  have htext := numText_width env.nbuf hw' hplus hspace hhash (n := n)
  obtain ⟨p', hp', hold'⟩ := convertNum_grow env (widthConv alt w) 0 10
    (p := { buf := b, stored := [] }) hold (widthConv_mod _ _ _) rfl
    (hfit _ (leadChars_length _ _ _ _) _ (digitCount_le (by decide) (magnitude_lt _ _)))
    (by rw [harg, htext]; exact hheap)
  rw [harg, htext] at hold'
  have hscan : scanConv env 0 (flag ++ (decimal w ++ [ch 'd', 0])) =
      some (widthConv alt w, 0, [ch 'd', 0]) := scanConv_width env 0 (by omega) hflag
  have hconv : convert env (widthConv alt w) (ch 'd') 0 (some { buf := b, stored := [] }) =
      (1, some p') := hp'
  have hrun : sprintfCore env (widthFormat flag w) b =
      some { p := [0], args := 1, out := some p' } := by
    have hfmt : widthFormat flag w ++ [0] = ch '%' :: (flag ++ (decimal w ++ [ch 'd', 0])) := by
      simp [widthFormat]
    have hlen : (widthFormat flag w).length = (flag ++ (decimal w ++ [ch 'd'])).length + 1 := rfl
    rw [sprintfCore, coreInit, hfmt, hlen, coreLoop_conv hscan, hconv, List.length_append,
      List.length_append, ← Nat.add_assoc]
    exact coreLoop_nul
  exact ⟨_, p', hrun, rfl, hold'⟩

/-- The sign comes before the padding here. -/
theorem prints_plain (n : Int32) (hw : 1 ≤ w) (hw' : w ≤ 127) :
    Prints (widthFormat [] w) n.toUInt32 (signText n ++ (fill n w (ch ' ') ++ intDigits n)) := by
  have h := widthFormat_prints [] 0 n hw hw'
    (fun c l hc => scanAlt_stop 0 hc) rfl rfl rfl
  rwa [widthText, widthConv_pad, if_neg (show ¬ hasFlag 0 convAltZero = true by decide),
    if_neg (by decide), if_neg (by decide), List.append_nil] at h

theorem prints_zero (n : Int32) (hw : 1 ≤ w) (hw' : w ≤ 127) :
    Prints (widthFormat [ch '0'] w) n.toUInt32
    (signText n ++ fill n w (ch '0') ++ intDigits n) := by
  have h := widthFormat_prints [ch '0'] convAltZero n hw hw'
    (fun c l hc => scanAlt_stop convAltZero hc) rfl rfl rfl
  rwa [widthText, widthConv_pad, if_pos (show hasFlag convAltZero convAltZero = true by decide),
    if_neg (by decide), if_neg (by decide), List.append_nil, ← List.append_assoc] at h

theorem prints_minus (n : Int32) (hw : 1 ≤ w) (hw' : w ≤ 127) :
    Prints (widthFormat [ch '-'] w) n.toUInt32 (intNumeral n ++ fill n w (ch ' ')) := by
  have h := widthFormat_prints [ch '-'] convAltMinus n hw hw'
    (fun c l hc => scanAlt_stop convAltMinus hc) rfl rfl rfl
  rwa [widthText, if_pos (by decide), if_pos (by decide), List.nil_append] at h

/-- Sign and padding can be exchanged when one of them is empty only. -/
theorem sign_fill_comm (n : Int32) (w : Nat) :
    signText n ++ fill n w (ch ' ') = fill n w (ch ' ') ++ signText n ↔
      0 ≤ n.toInt ∨ w ≤ (intNumeral n).length := by
  rw [signText, fill]
  by_cases hneg : n.toInt < 0
  · rw [if_pos hneg]
    cases hk : w - (intNumeral n).length with
    | zero => exact iff_of_true rfl (Or.inr (by omega))
    | succ k =>
      refine iff_of_false ?_ (by omega)
      rw [List.replicate_succ, List.cons_append]
      intro h
      exact absurd (List.cons.inj h).1 (by decide)
  · rw [if_neg hneg]
    exact iff_of_true (List.append_nil _).symm (Or.inl (by omega))

/-- With the flags an integer is printed as it should be; without one, if and only if it has
no sign or fills the field. -/
theorem fieldWidth_iff (n : Int32) (w : Nat) (hw : 1 ≤ w) (hw' : w ≤ 127) :
    FieldWidth n w ↔ 0 ≤ n.toInt ∨ w ≤ (intNumeral n).length := by
  have hplain := prints_plain n hw hw'
  rw [← List.append_assoc] at hplain
  rw [← sign_fill_comm]
  constructor
  · intro h
    have heq := h.plain.unique hplain
    rw [intNumeral, ← List.append_assoc] at heq
    exact (List.append_cancel_right heq).symm
  · intro h
    refine ⟨?_, prints_zero n hw hw', prints_minus n hw hw'⟩
    rwa [intNumeral, ← List.append_assoc, ← h]

theorem fieldWidth_five : FieldWidth 5 5 ↔ (0 : Int) ≤ Int32.toInt 5 ∨ 5 ≤ (intNumeral 5).length :=
  fieldWidth_iff 5 5 (by decide) (by decide)

/-- -5 in a field of five: "-   5". -/
theorem fieldWidth_negative : ¬ FieldWidth (-5) 5 := by
  intro h
  have heq := h.plain.unique (prints_plain (-5) (by decide) (by decide))
  have hne : fill (-5) 5 (ch ' ') ++ intNumeral (-5) ≠
      signText (-5) ++ (fill (-5) 5 (ch ' ') ++ intDigits (-5)) := by decide +kernel
  exact hne heq

end Console
