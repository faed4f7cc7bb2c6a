import CobaltRom.Console.Printf
import Mathlib.Data.Nat.Digits.Lemmas

/-! What the number formatters store into `nbuf`, and when that stays inside it. -/
namespace Console

open Loop HeapBlock

/-- The digits of `n`, the highest first; none for 0. -/
def digitText (chars : List UInt8) (base n : Nat) : List UInt8 :=
  ((Nat.digits base n).map fun d => chars.getD d 0).reverse

/-- The same with at least one digit. -/
def numeral (chars : List UInt8) (base n : Nat) : List UInt8 :=
  digitText chars base (n / base) ++ [chars.getD (n % base) 0]

def digitCount (base n : Nat) : Nat := max 1 (Nat.digits base n).length

/-- The zeros that a precision adds to `d` digits; the countdown wraps. -/
def zeroCount (c : Conv) (d : Nat) : Nat := (c.precis - Int32.ofNat d).toNatClampNeg

/-- What is left of the width for `used` characters. -/
def widthLeft (c : Conv) (used : Nat) : Int32 := c.width - Int32.ofNat used

/-- The digits with their zeros. -/
def paddedDigits (c : Conv) (base n : Nat) : List UInt8 :=
  List.replicate (zeroCount c (numeral (charset c) base n).length) (ch '0') ++
    numeral (charset c) base n

/-- The padding in front, unless it comes behind. -/
def fieldPad (c : Conv) (used : Nat) : List UInt8 :=
  if hasFlag c.alt convAltMinus then []
  else List.replicate (widthLeft c used).toNatClampNeg (padChar c)

/-- What `nbuf` holds in the end, if it fits. -/
def fieldText (c : Conv) (lead base n : Nat) : List UInt8 :=
  fieldPad c (lead + (paddedDigits c base n).length) ++ paddedDigits c base n

/-- All of `nbuf` below the text is unwritten. -/
structure Num.At (s : Num) (text : List UInt8) : Prop where
  nbuf : s.nbuf = List.replicate (127 - text.length) none ++ cells text
  p : s.p = 127 - text.length
  le : text.length ≤ 127

/-- No store was outside `nbuf`, and `p` is at a string inside it that ends with its last byte. -/
def InNbuf (field : Option Num) : Prop :=
  ∃ s text, field = some s ∧ (0 : UInt8) ∉ text ∧ 0 ≤ s.p ∧ s.p + text.length = 127 ∧
    s.nbuf.length = 128 ∧ s.nbuf.drop s.p.toNat = cells text

variable {s t : Num} {text : List UInt8} {c : UInt8} {w : Int32} {k n base fuel lead : Nat}
  {conv : Conv}

/-! ### Counting down -/

theorem countDown_succ (w : Int32) (k : Nat) : w - 1 - Int32.ofNat k = w - Int32.ofNat (k + 1) := by
  rw [Int32.sub_sub, Nat.add_comm k 1, Int32.ofNat_add]
  rfl

theorem countDown_add (w : Int32) (j k : Nat) :
    w - Int32.ofNat j - Int32.ofNat k = w - Int32.ofNat (j + k) := by
  rw [Int32.sub_sub, Int32.ofNat_add]

theorem countDown_toInt (w : Int32) (hk : k < 2 ^ 31) : (w - Int32.ofNat k).toInt =
    if -2 ^ 31 + (k : Int) ≤ w.toInt then w.toInt - k else w.toInt - k + 2 ^ 32 := by
  have h1 := w.le_toInt
  have h2 := w.toInt_lt
  rw [Int32.toInt_sub, Int32.toInt_ofNat_of_lt hk, Int.bmod]
  split_ifs <;> omega

theorem pos_iff (w : Int32) : 0 < w ↔ 0 < w.toNatClampNeg := by
  rw [Int32.lt_iff_toInt_lt, Int32.toNatClampNeg]
  show 0 < w.toInt ↔ _
  omega

theorem pred_toNat (h : w.toNatClampNeg = k + 1) : (w - 1).toNatClampNeg = k := by
  have hk : w.toInt.toNat = k + 1 := h
  have hsub := countDown_toInt w (k := 1) (by decide)
  have hw := w.le_toInt
  rw [if_pos (by omega)] at hsub
  show (w - Int32.ofNat 1).toInt.toNat = k
  rw [hsub]
  omega

/-! ### One store -/

theorem Num.At.left (h : s.At text) (hlt : text.length < 127) (c : UInt8) :
    ∃ t, s.left c = some t ∧ t.At (c :: text) ∧ t.n = s.n ∧ t.width = s.width ∧
      t.precis = s.precis := by
  have hlen : (126 - text.length : Nat) = s.p - 1 := by
    rw [h.p]
    omega
  have hcopy := copyIn_mid (List.replicate (126 - text.length) (none : Cell)) [none] [some c]
    (cells text) rfl
  rw [List.length_replicate, hlen, ← List.replicate_succ', show 126 - text.length + 1 =
    127 - text.length by omega, ← h.nbuf] at hcopy
  refine ⟨{ s with nbuf := _, p := s.p - 1 },
    by rw [Num.left, hcopy]; rfl, ⟨?_, ?_, hlt⟩, rfl, rfl, rfl⟩
  · simp [cells, show 127 - (text.length + 1) = 126 - text.length by omega]
  · rw [h.p, List.length_cons]
    push_cast
    omega

/-- With the whole buffer in use the next store is to `nbuf[-1]`. -/
theorem Num.At.left_full (h : s.At text) (hfull : text.length = 127) (c : UInt8) :
    s.left c = none := by
  rw [Num.left, copyIn, if_neg (by rw [h.p]; omega)]
  rfl

theorem Num.At.p_nonneg (h : s.At text) : 0 ≤ s.p := by
  have := h.le
  rw [h.p]
  omega

theorem numStart_at (n : Nat) (width precis : Int32) : (numStart n width precis).At [] :=
  ⟨rfl, rfl, Nat.zero_le _⟩

/-! ### The digits -/

theorem digitText_pos (chars : List UInt8) (hb : 1 < base) (hn : n ≠ 0) :
    digitText chars base n = digitText chars base (n / base) ++ [chars.getD (n % base) 0] := by
  rw [digitText, Nat.digits_def' hb (Nat.pos_of_ne_zero hn), List.map_cons, List.reverse_cons]
  rfl

theorem digitText_length (chars : List UInt8) (base n : Nat) :
    (digitText chars base n).length = (Nat.digits base n).length := by
  simp [digitText]

theorem numeral_length (chars : List UInt8) (hb : 1 < base) (n : Nat) :
    (numeral chars base n).length = digitCount base n := by
  rw [numeral, List.length_append, digitText_length, List.length_singleton, digitCount]
  by_cases hn : n = 0
  · subst hn
    simp
  · rw [Nat.digits_def' hb (Nat.pos_of_ne_zero hn), List.length_cons]
    omega

/-- A turn puts one digit before the text. -/
theorem Num.At.digitTurn (h : s.At text) (hlt : text.length < 127) (chars : List UInt8)
    (base : Nat) :
    ∃ t, digitTurn chars base s = some t ∧ t.At (chars.getD (s.n % base) 0 :: text) ∧
      t.n = s.n / base ∧ t.width = s.width - 1 ∧ t.precis = s.precis - 1 := by
  obtain ⟨t, ht, hat, hn, hw, hp⟩ := h.left hlt (chars.getD (s.n % base) 0)
  refine ⟨{ t with n := t.n / base, width := t.width - 1, precis := t.precis - 1 }, ?_,
    ⟨hat.nbuf, hat.p, hat.le⟩, congrArg (· / base) hn, congrArg (· - 1) hw, congrArg (· - 1) hp⟩
  rw [Console.digitTurn, ht, Option.map_some]

/-- The loop puts all the digits of `n` before the text. -/
theorem Num.At.digitLoop (chars : List UInt8) (hb : 1 < base) (n : Nat) :
    ∀ (s : Num) (text : List UInt8)
    (fuel : Nat), s.At text → s.n = n → (digitText chars base n).length + text.length ≤ 127 →
    (digitText chars base n).length ≤ fuel →
    ∃ t, whileM (fun s => 0 ≤ s.p && s.n != 0) (Console.digitTurn chars base) fuel s = some t ∧
      t.At (digitText chars base n ++ text) ∧
      t.width = s.width - Int32.ofNat (digitText chars base n).length ∧
      t.precis = s.precis - Int32.ofNat (digitText chars base n).length := by
  induction n using Nat.strong_induction_on with
  | _ n ih =>
    intro s text fuel hat hsn hle hfuel
    by_cases hn : n = 0
    · have hnil : digitText chars base n = [] := by
        subst hn
        simp [digitText]
      rw [hnil]
      exact ⟨s, whileM_stop (by simp [hsn, hn]), hat, (Int32.sub_zero _).symm,
        (Int32.sub_zero _).symm⟩
    · have htext := digitText_pos chars hb hn
      have hlen := congrArg List.length htext
      rw [List.length_append, List.length_singleton] at hlen
      obtain ⟨fuel, rfl⟩ : ∃ k, fuel = k + 1 := ⟨fuel - 1, by omega⟩
      obtain ⟨u, hu, huat, hun, huw, hup⟩ := hat.digitTurn (by omega) chars base
      rw [hsn] at huat hun
      obtain ⟨t, ht, htat, htw, htp⟩ :=
        ih (n / base) (Nat.div_lt_self (Nat.pos_of_ne_zero hn) hb) u _
        fuel huat hun (by rw [List.length_cons]; omega) (by omega)
      refine ⟨t, ?_, ?_, ?_, ?_⟩
      · rw [whileM_turn (by simp [hsn, hn, hat.p_nonneg]) hu, ht]
      · rwa [htext, List.append_assoc]
      · rw [htw, huw, countDown_succ, hlen]
      · rw [htp, hup, countDown_succ, hlen]

/-! ### The fills -/

/-- A turn of a loop that stores `c` and counts `count` down, and the width with it. -/
structure Fills (count : Num → Int32) (c : UInt8) (turn : Num → Option Num) : Prop where
  step : ∀ {s : Num} {text : List UInt8}, s.At text → text.length < 127 → ∃ t, turn s = some t ∧
    t.At (c :: text) ∧ count t = count s - 1 ∧ t.width = s.width - 1
  full : ∀ {s : Num} {text : List UInt8}, s.At text → text.length = 127 → turn s = none

/-- One store and an update of the counters. -/
theorem fills_of (count : Num → Int32) (next : Num → Num) {turn : Num → Option Num}
    (hturn : ∀ s, turn s = (s.left c).map next)
    (hplace : ∀ s, (next s).nbuf = s.nbuf ∧ (next s).p = s.p ∧ (next s).width = s.width - 1)
    (hcount : ∀ s t, t.width = s.width → t.precis = s.precis → count (next t) = count s - 1) :
    Fills count c turn := by
  refine ⟨fun {s text} hat hlt => ?_, fun {s text} hat hfull => ?_⟩
  · obtain ⟨t, ht, htat, -, hw, hp⟩ := hat.left hlt c
    obtain ⟨hnbuf, hpos, hwidth⟩ := hplace t
    refine ⟨next t, ?_, ⟨hnbuf.trans htat.nbuf, hpos.trans htat.p, htat.le⟩, hcount s t hw hp, ?_⟩
    · rw [hturn, ht, Option.map_some]
    · rw [hwidth, hw]
  · rw [hturn, hat.left_full hfull]
    rfl

theorem zeroTurn_fills : Fills Num.precis (ch '0') zeroTurn :=
  fills_of Num.precis (fun s => { s with width := s.width - 1, precis := s.precis - 1 })
    (fun _ => rfl) (fun _ => ⟨rfl, rfl, rfl⟩) fun _ _ _ hp => congrArg (· - 1) hp

theorem padTurn_fills (pad : UInt8) : Fills Num.width pad (padTurn pad) :=
  fills_of Num.width (fun s => { s with width := s.width - 1 })
    (fun _ => rfl) (fun _ => ⟨rfl, rfl, rfl⟩) fun _ _ hw _ => congrArg (· - 1) hw

section Fills
variable {count : Num → Int32} {turn : Num → Option Num} (hfill : Fills count c turn)
include hfill

/-- As many characters as the count says, where they fit. -/
theorem Fills.loop (k : Nat) : ∀ (s : Num) (text : List UInt8) (fuel : Nat), s.At text →
    (count s).toNatClampNeg = k → k + text.length ≤ 127 → k ≤ fuel →
    ∃ t, whileM (fun s => 0 ≤ s.p && 0 < count s) turn fuel s = some t ∧
      t.At (List.replicate k c ++ text) ∧ t.width = s.width - Int32.ofNat k := by
  induction k with
  | zero =>
    intro s text fuel hat hk _ _
    have hstop : ¬ 0 < count s := fun h => by
      have := (pos_iff _).mp h
      omega
    exact ⟨s, whileM_stop (by simp [hstop]), hat, (Int32.sub_zero _).symm⟩
  | succ k ih =>
    intro s text fuel hat hk hle hfuel
    obtain ⟨fuel, rfl⟩ : ∃ j, fuel = j + 1 := ⟨fuel - 1, by omega⟩
    obtain ⟨u, hu, huat, huc, huw⟩ := hfill.step hat (by omega)
    obtain ⟨t, ht, htat, htw⟩ := ih u (c :: text) fuel huat (by rw [huc]; exact pred_toNat hk)
      (by rw [List.length_cons]; omega) (by omega)
    have hpos : 0 < count s := (pos_iff _).mpr (by omega)
    refine ⟨t, ?_, ?_, ?_⟩
    · rw [whileM_turn (by simp [hpos, hat.p_nonneg]) hu, ht]
    · rwa [List.replicate_succ', List.append_assoc, List.singleton_append]
    · rw [htw, huw, countDown_succ]

/-- Otherwise the loop goes on to a store below `nbuf`. -/
theorem Fills.overrun (fuel : Nat) : ∀ (s : Num) (text : List UInt8), s.At text →
    127 < (count s).toNatClampNeg + text.length →
    whileM (fun s => 0 ≤ s.p && 0 < count s) turn fuel s = none := by
  induction fuel with
  | zero =>
    intro s text hat hlt
    have hpos : 0 < count s := (pos_iff _).mpr (by have := hat.le; omega)
    rw [whileM, if_pos (by simp [hpos, hat.p_nonneg])]
  | succ fuel ih =>
    intro s text hat hlt
    have hle := hat.le
    obtain ⟨k, hk⟩ : ∃ k, (count s).toNatClampNeg = k + 1 := ⟨(count s).toNatClampNeg - 1, by omega⟩
    have hpos : 0 < count s := (pos_iff _).mpr (by omega)
    rw [whileM, if_pos (by simp [hpos, hat.p_nonneg])]
    by_cases hfull : text.length = 127
    · rw [hfill.full hat hfull]
      rfl
    · obtain ⟨u, hu, huat, huc, -⟩ := hfill.step hat (by omega)
      rw [hu, Option.bind_some]
      refine ih u (c :: text) huat ?_
      rw [huc, pred_toNat hk, List.length_cons]
      omega

end Fills

/-! ### The field -/

theorem digitCount_le (hb : 1 < base) (hn : n < 2 ^ 64) : digitCount base n ≤ 64 := by
  have hpow : n < base ^ 64 := hn.trans_le (Nat.pow_le_pow_left hb 64)
  exact max_le (by decide) ((Nat.digits_length_le_iff hb n).mpr hpow)

theorem numDigits_start (chars : List UInt8) (hb : 1 < base) (hd : digitCount base n ≤ 127)
    (width precis : Int32) :
    ∃ s, (digitTurn chars base (numStart n width precis)).bind (fun s =>
        whileM (fun s => 0 ≤ s.p && s.n != 0) (digitTurn chars base) nbufTurns s) = some s ∧
      s.At (numeral chars base n) ∧
      s.width = width - Int32.ofNat (numeral chars base n).length ∧
      s.precis = precis - Int32.ofNat (numeral chars base n).length := by
  have hlen := numeral_length chars hb n
  have hcount : (numeral chars base n).length = (digitText chars base (n / base)).length + 1 := by
    rw [numeral, List.length_append, List.length_singleton]
  obtain ⟨u, hu, huat, hun, huw, hup⟩ :=
    (numStart_at n width precis).digitTurn (by decide) chars base
  obtain ⟨s, hs, hat, hw, hp⟩ := huat.digitLoop chars hb (n / base) u _ nbufTurns hun
    (by rw [List.length_singleton]; omega) (by rw [nbufTurns]; omega)
  refine ⟨s, ?_, hat, ?_, ?_⟩
  · rw [hu, Option.bind_some, hs]
  · rw [hw, huw, countDown_succ, hcount]
    rfl
  · rw [hp, hup, countDown_succ, hcount]
    rfl

theorem numDigits_some (chars : List UInt8) (hb : 1 < base) (width precis : Int32) {z : Nat}
    (hz : (precis - Int32.ofNat (numeral chars base n).length).toNatClampNeg = z)
    (hle : z + (numeral chars base n).length ≤ 127) :
    ∃ s, numDigits chars base n width precis = some s ∧
      s.At (List.replicate z (ch '0') ++ numeral chars base n) ∧
      s.width = width - Int32.ofNat (z + (numeral chars base n).length) := by
  obtain ⟨u, hu, huat, huw, hup⟩ := numDigits_start chars hb (n := n)
    (by rw [← numeral_length chars hb]; omega) width precis
  obtain ⟨s, hs, hat, hw⟩ := zeroTurn_fills.loop z u _ nbufTurns huat (by rw [hup, hz]) hle
    (by rw [nbufTurns]; omega)
  refine ⟨s, ?_, hat, ?_⟩
  · rw [numDigits, ← Option.bind_assoc, hu, Option.bind_some, hs]
  · rw [hw, huw, countDown_add, Nat.add_comm]

theorem numDigits_none (chars : List UInt8) (hb : 1 < base) (hd : digitCount base n ≤ 127)
    (width : Int32)
    {precis : Int32}
    (hlt : 127 < (precis - Int32.ofNat (numeral chars base n).length).toNatClampNeg +
      (numeral chars base n).length) : numDigits chars base n width precis = none := by
  obtain ⟨u, hu, huat, -, hup⟩ := numDigits_start chars hb hd width precis
  rw [numDigits, ← Option.bind_assoc, hu, Option.bind_some]
  exact zeroTurn_fills.overrun nbufTurns u _ huat (by rwa [hup])

theorem paddedDigits_length (c : Conv) (base n : Nat) : (paddedDigits c base n).length =
    zeroCount c (numeral (charset c) base n).length + (numeral (charset c) base n).length := by
  rw [paddedDigits, List.length_append, List.length_replicate]

/-- The digits with their zeros fit, and the field does, unless it is filled up behind. -/
def TextFits (c : Conv) (lead base n : Nat) : Prop :=
  (paddedDigits c base n).length ≤ 127 ∧ (fieldText c lead base n).length ≤ 127

theorem numDigits_field {base : Int32} (hb : 1 < base.toInt.toNat)
    (hle : (paddedDigits conv base.toInt.toNat n).length ≤ 127) (lead : Nat) :
    ∃ s, numDigits (charset conv) base.toInt.toNat n (conv.width - Int32.ofNat lead) conv.precis =
        some s ∧
      s.At (paddedDigits conv base.toInt.toNat n) ∧
      s.width = widthLeft conv (lead + (paddedDigits conv base.toInt.toNat n).length) := by
  rw [paddedDigits_length] at hle
  obtain ⟨s, hs, hat, hw⟩ := numDigits_some (charset conv) hb (conv.width - Int32.ofNat lead)
    conv.precis rfl hle
  refine ⟨s, hs, hat, ?_⟩
  rw [hw, countDown_add, paddedDigits_length]
  rfl

theorem numField_some {base : Int32} (hb : 1 < base.toInt.toNat)
    (h : TextFits conv lead base.toInt.toNat n) :
    ∃ s, numField conv lead n base = some s ∧ s.At (fieldText conv lead base.toInt.toNat n) ∧
      (hasFlag conv.alt convAltMinus = true →
        s.width = widthLeft conv (lead + (paddedDigits conv base.toInt.toNat n).length)) := by
  obtain ⟨hdigits, hfield⟩ := h
  obtain ⟨u, hu, huat, huw⟩ := numDigits_field hb hdigits lead
  rw [numField, hu, Option.bind_some]
  by_cases hminus : hasFlag conv.alt convAltMinus = true
  · rw [if_pos hminus, fieldText, fieldPad, if_pos hminus]
    exact ⟨u, rfl, huat, fun _ => huw⟩
  · rw [fieldText, fieldPad, if_neg hminus, List.length_append, List.length_replicate] at hfield
    rw [if_neg hminus, fieldText, fieldPad, if_neg hminus]
    obtain ⟨s, hs, hat, -⟩ := (padTurn_fills (padChar conv)).loop _ u _ nbufTurns huat
      (by rw [huw]) hfield (by rw [nbufTurns]; omega)
    exact ⟨s, hs, hat, fun hm => absurd hm hminus⟩

theorem numField_none {base : Int32} (hb : 1 < base.toInt.toNat) (hn : n < 2 ^ 64)
    (h : ¬ TextFits conv lead base.toInt.toNat n) : numField conv lead n base = none := by
  by_cases hdigits : (paddedDigits conv base.toInt.toNat n).length ≤ 127
  · have hfield : ¬ (fieldText conv lead base.toInt.toNat n).length ≤ 127 :=
      fun hf => h ⟨hdigits, hf⟩
    obtain ⟨u, hu, huat, huw⟩ := numDigits_field hb hdigits lead
    rw [numField, hu, Option.bind_some]
    by_cases hminus : hasFlag conv.alt convAltMinus = true
    · rw [fieldText, fieldPad, if_pos hminus] at hfield
      exact absurd hdigits hfield
    · rw [fieldText, fieldPad, if_neg hminus, List.length_append, List.length_replicate,
        Nat.not_le] at hfield
      rw [if_neg hminus]
      exact (padTurn_fills (padChar conv)).overrun nbufTurns u _ huat (by rwa [huw])
  · rw [paddedDigits_length, Nat.not_le] at hdigits
    rw [numField, numDigits_none (charset conv) hb
      ((digitCount_le hb hn).trans (by decide)) _ hdigits]
    rfl

/-! ### When it fits -/

/-- With `d` digits and `lead` characters in front of `nbuf`. -/
def BufferFits (c : Conv) (lead d : Nat) : Prop :=
  -2 ^ 31 + (d : Int) ≤ c.precis.toInt ∧ c.precis.toInt ≤ 127 ∧
    (hasFlag c.alt convAltMinus = true ∨
      -2 ^ 31 + (lead : Int) + max (d : Int) c.precis.toInt ≤ c.width.toInt ∧
        c.width.toInt ≤ 127 + lead)

/-- With the lower bound the countdown of the precision does not wrap. -/
theorem paddedDigits_le (hb : 1 < base) (hd : digitCount base n ≤ 64) :
    (paddedDigits conv base n).length ≤ 127 ↔
      -2 ^ 31 + (digitCount base n : Int) ≤ conv.precis.toInt ∧ conv.precis.toInt ≤ 127 := by
  have hp := conv.precis.toInt_lt
  have hp' := conv.precis.le_toInt
  have hsub := countDown_toInt conv.precis (k := digitCount base n) (by omega)
  rw [paddedDigits_length, numeral_length _ hb, zeroCount, Int32.toNatClampNeg, hsub]
  split_ifs with hlow
  · omega
  · omega

theorem paddedDigits_max (hb : 1 < base) (hd : digitCount base n ≤ 64)
    (hlow : -2 ^ 31 + (digitCount base n : Int) ≤ conv.precis.toInt) :
    ((paddedDigits conv base n).length : Int) =
      max (digitCount base n : Int) conv.precis.toInt := by
  have hsub := countDown_toInt conv.precis (k := digitCount base n) (by omega)
  rw [if_pos hlow] at hsub
  rw [paddedDigits_length, numeral_length _ hb, zeroCount, Int32.toNatClampNeg, hsub]
  omega

theorem fieldText_le (hle : (paddedDigits conv base n).length ≤ 127) (hlead : lead ≤ 3) :
    (fieldText conv lead base n).length ≤ 127 ↔ hasFlag conv.alt convAltMinus = true ∨
      -2 ^ 31 + (lead : Int) + (paddedDigits conv base n).length ≤ conv.width.toInt ∧
        conv.width.toInt ≤ 127 + lead := by
  have hw := conv.width.toInt_lt
  have hw' := conv.width.le_toInt
  have hsub := countDown_toInt conv.width (k := lead + (paddedDigits conv base n).length) (by omega)
  by_cases hminus : hasFlag conv.alt convAltMinus = true
  · rw [fieldText, fieldPad, if_pos hminus]
    exact iff_of_true hle (Or.inl hminus)
  · rw [fieldText, fieldPad, if_neg hminus, List.length_append, List.length_replicate, widthLeft,
      Int32.toNatClampNeg, hsub, or_iff_right hminus]
    split_ifs with hlow
    · omega
    · omega

theorem textFits_iff (hb : 1 < base) (hd : digitCount base n ≤ 64) (hlead : lead ≤ 3) :
    TextFits conv lead base n ↔ BufferFits conv lead (digitCount base n) := by
  constructor
  · rintro ⟨hdigits, hfield⟩
    obtain ⟨hlow, hhigh⟩ := (paddedDigits_le hb hd).mp hdigits
    rw [fieldText_le hdigits hlead, paddedDigits_max hb hd hlow] at hfield
    exact ⟨hlow, hhigh, hfield⟩
  · rintro ⟨hlow, hhigh, hfield⟩
    have hdigits := (paddedDigits_le hb hd).mpr ⟨hlow, hhigh⟩
    rw [← paddedDigits_max hb hd hlow] at hfield
    exact ⟨hdigits, (fieldText_le hdigits hlead).mpr hfield⟩

/-! ### The string -/

theorem charset_nul (c : Conv) : ∀ d < 16, (charset c).getD d 0 ≠ 0 := by
  rw [charset]
  split_ifs <;> decide

theorem digitText_nul (c : Conv) (hb : 1 < base) (hb' : base ≤ 16) (n : Nat) :
    (0 : UInt8) ∉ digitText (charset c) base n := by
  simp only [digitText, List.mem_reverse, List.mem_map, not_exists, not_and]
  exact fun d hd => charset_nul c d ((Nat.digits_lt_base hb hd).trans_le hb')

theorem paddedDigits_nul (c : Conv) (hb : 1 < base) (hb' : base ≤ 16) (n : Nat) :
    (0 : UInt8) ∉ paddedDigits c base n := by
  rw [paddedDigits, numeral]
  simp only [List.mem_append, List.mem_replicate, List.mem_singleton, not_or, not_and]
  exact ⟨fun _ => by decide, digitText_nul c hb hb' _,
    (charset_nul c _ ((Nat.mod_lt n (by omega)).trans_le hb')).symm⟩

theorem fieldText_nul (c : Conv) (lead : Nat) (hb : 1 < base) (hb' : base ≤ 16) (n : Nat) :
    (0 : UInt8) ∉ fieldText c lead base n := by
  rw [fieldText, List.mem_append, not_or]
  refine ⟨?_, paddedDigits_nul c hb hb' n⟩
  rw [fieldPad, padChar]
  split_ifs
  · exact List.not_mem_nil
  · exact fun h => absurd (List.eq_of_mem_replicate h) (by decide)
  · exact fun h => absurd (List.eq_of_mem_replicate h) (by decide)

theorem baseOk_toNat {base : Int32} (h : baseOk base = true) :
    1 < base.toInt.toNat ∧ base.toInt.toNat ≤ 16 := by
  obtain ⟨hlow, hhigh⟩ := Bool.and_eq_true_iff.mp h
  have h2 : (2 : Int32).toInt ≤ base.toInt := Int32.le_iff_toInt_le.mp (of_decide_eq_true hlow)
  have h16 : base.toInt ≤ (16 : Int32).toInt := Int32.le_iff_toInt_le.mp (of_decide_eq_true hhigh)
  have e2 : (2 : Int32).toInt = 2 := rfl
  have e16 : (16 : Int32).toInt = 16 := rfl
  omega

theorem Num.At.inNbuf (h : s.At text) (hnul : (0 : UInt8) ∉ text) : InNbuf (some s) := by
  have hle := h.le
  refine ⟨s, text, rfl, hnul, h.p_nonneg, by rw [h.p]; omega, ?_, ?_⟩
  · rw [h.nbuf, List.length_append, List.length_replicate, cells_length]
    omega
  · rw [h.p, h.nbuf, List.drop_left' (by rw [List.length_replicate]; omega)]

theorem numField_inNbuf_iff {base : Int32} (hbase : baseOk base = true) (hn : n < 2 ^ 64)
    (hlead : lead ≤ 3) :
    InNbuf (numField conv lead n base) ↔ BufferFits conv lead (digitCount base.toInt.toNat n) := by
  obtain ⟨hb, hb'⟩ := baseOk_toNat hbase
  rw [← textFits_iff hb (digitCount_le hb hn) hlead]
  by_cases hfit : TextFits conv lead base.toInt.toNat n
  · obtain ⟨s, hs, hat, -⟩ := numField_some hb hfit
    rw [hs]
    exact iff_of_true (hat.inNbuf (fieldText_nul conv lead hb hb' n)) hfit
  · rw [numField_none hb hn hfit]
    refine iff_of_false ?_ hfit
    rintro ⟨s, text, hs, -⟩
    cases hs

theorem leadChars_length (nbuf : NbufAddr) (c : Conv) (isneg : Bool) (base : Int32) :
    (leadChars nbuf c isneg base).length ≤ 3 := by
  have hsign : (signChars c isneg).length ≤ 1 := by
    rw [signChars]
    split_ifs <;> decide
  have halt : (altChars nbuf c base).length ≤ 2 := by
    rw [altChars]
    split_ifs <;> simp
  rw [leadChars, List.length_append]
  omega

theorem magnitude_lt (c : Conv) (num : UInt32) : magnitude c num < 2 ^ 64 := by
  rw [magnitude]
  split_ifs
  · exact (UInt16.toNat_lt _).trans (by decide)
  · exact (UInt16.toNat_lt _).trans (by decide)
  · exact (UInt32.toNat_lt _).trans (by decide)
  · exact (UInt32.toNat_lt _).trans (by decide)

/-- What `sprintf_num` stores into `nbuf`. -/
def numBuffer (nbuf : NbufAddr) (c : Conv) (num : UInt32) (base : Int32) : Option Num :=
  numField c (leadChars nbuf c (isNeg c num) base).length (magnitude c num) base

/-- What `sprintf_ll_num` stores into `nbuf`. -/
def numBufferLl (nbuf : NbufAddr) (c : Conv) (num : UInt64) (base : Int32) : Option Num :=
  numField c (leadChars nbuf c (isNegLl c num) base).length (magnitudeLl c num) base

/-- Both formatters stay inside `nbuf` exactly for the precisions and widths that fit; with
a base that they turn down they do not touch it. -/
theorem nbuf_inside_iff (nbuf : NbufAddr) (c : Conv) (base : Int32) :
    (∀ num : UInt32, (baseOk base = true → InNbuf (numBuffer nbuf c num base)) ↔
      (baseOk base = true → BufferFits c (leadChars nbuf c (isNeg c num) base).length
        (digitCount base.toInt.toNat (magnitude c num)))) ∧
    ∀ num : UInt64, (baseOk base = true → InNbuf (numBufferLl nbuf c num base)) ↔
      (baseOk base = true → BufferFits c (leadChars nbuf c (isNegLl c num) base).length
        (digitCount base.toInt.toNat (magnitudeLl c num))) := by
  constructor
  · intro num
    exact imp_congr_right fun hbase => numField_inNbuf_iff hbase (magnitude_lt c num)
      (leadChars_length nbuf c _ base)
  · intro num
    exact imp_congr_right fun hbase => numField_inNbuf_iff hbase (UInt64.toNat_lt _)
      (leadChars_length nbuf c _ base)

/-- 0 with a width of 128. -/
theorem nbuf_inside_wide : ¬ InNbuf (numBuffer ⟨0x1000, by decide⟩
    { alt := 0, width := 128, precis := -1, mod := 0 } 0 10) := by
  rw [numBuffer, numField_inNbuf_iff (by decide) (magnitude_lt _ _) (leadChars_length _ _ _ _)]
  rintro ⟨-, -, h | ⟨-, h⟩⟩
  · exact absurd h (by decide)
  · exact absurd h (by decide)

end Console
