import CobaltRom.Console.Emits
import CobaltRom.Console.DigitBuffer
import CobaltRom.Console.FormatScan

/-! What the number formatters append, and that the one for 64 bits agrees with the other. -/
namespace Console

/-- `num` as an argument of 64 bits. -/
def extended (c : Conv) (num : UInt32) : UInt64 :=
  if hasFlag c.mod convModUnsigned then num.toUInt64 else num.toInt32.toInt64.toUInt64

/-- The spaces behind the number. -/
def trailingText (c : Conv) (used : Nat) : List UInt8 :=
  if hasFlag c.alt convAltMinus then List.replicate (widthLeft c used).toNatClampNeg (ch ' ')
    else []

/-- The signs and the prefix, the field with its padding, and the spaces behind it. -/
def numText (nbuf : NbufAddr) (c : Conv) (isneg : Bool) (n : Nat) (base : Int32) : List UInt8 :=
  let lead := leadChars nbuf c isneg base
  lead ++ fieldText c lead.length base.toInt.toNat n ++
    trailingText c (lead.length + (paddedDigits c base.toInt.toNat n).length)

variable {heap : Heap} {nbuf nbuf' : NbufAddr} {b : Strbuf} {text cs : List UInt8} {c : Conv}
  {isneg : Bool}
  {n : Nat} {base : Int32} {num : UInt32}

/-! ### Appending -/

theorem stringFrom_cells (h : (0 : UInt8) ∉ text) : stringFrom (cells text) = some text := by
  induction text with
  | nil => rfl
  | cons c text ih =>
    obtain ⟨h0, ht⟩ := not_or.mp (mt List.mem_cons.mpr h)
    show stringFrom (some c :: cells text) = _
    rw [stringFrom, if_neg (Ne.symm h0), ih ht, Option.map_some]

theorem emits_appendChars (heap : Heap) (cs : List UInt8) (hcs : (0 : UInt8) ∉ cs) :
    Emits heap id (appendChars heap cs) cs := by
  induction cs with
  | nil => exact emits_nothing
  | cons c cs ih =>
    obtain ⟨h0, hcs⟩ := not_or.mp (mt List.mem_cons.mpr hcs)
    have hchar : charStr c = [c] := if_neg (Ne.symm h0)
    have hseq := (emits_appendc heap c).bind (ih hcs)
    rw [hchar] at hseq
    refine hseq.congr fun b => ?_
    rw [appendChars, Option.bind_map]
    rfl

/-- A call on the buffer, as a step of the whole output. -/
theorem Emits.put {out : List UInt8} {call : Strbuf → Option (Int × Strbuf)}
    (h : Emits heap id (fun b => (call b).map Prod.snd) out) :
    Emits heap Printed.buf (fun o => o.put (call o.buf)) out := by
  refine ⟨h.1, fun I room hacc o text ho hroom => ?_⟩
  obtain ⟨b', hb', hold⟩ := h.2 I room hacc o.buf text ho hroom
  obtain ⟨r, hr, rfl⟩ := Option.map_eq_some_iff.mp hb'
  exact ⟨{ o with buf := r.2 }, congrArg (Option.map _) hr, hold⟩

theorem leadChars_nul (nbuf : NbufAddr) (c : Conv) (isneg : Bool) (base : Int32) :
    (0 : UInt8) ∉ leadChars nbuf c isneg base := by
  rw [leadChars, List.mem_append, not_or, signChars, altChars]
  constructor
  · split_ifs <;> decide
  · split_ifs <;> decide

theorem trailingText_nul (c : Conv) (used : Nat) : (0 : UInt8) ∉ trailingText c used := by
  rw [trailingText]
  split_ifs
  · exact fun h => absurd (List.eq_of_mem_replicate h) (by decide)
  · exact List.not_mem_nil

theorem Num.At.string {s : Num} (h : s.At text) (hnul : (0 : UInt8) ∉ text) :
    stringFrom (s.nbuf.drop s.p.toNat) = some text := by
  obtain ⟨s', text', heq, hnul', -, -, -, hdrop⟩ := h.inNbuf hnul
  cases heq
  have hp := h.p
  rw [h.nbuf, List.drop_left' (by rw [List.length_replicate]; omega), stringFrom_cells hnul]

/-- A formatter appends its text if `nbuf` holds the field. -/
theorem emits_appendNum (heap : Heap) (nbuf : NbufAddr) (isneg : Bool) (hbase : baseOk base = true)
    (hfit : TextFits c (leadChars nbuf c isneg base).length base.toInt.toNat n) :
    Emits heap id (fun b => (appendNum heap nbuf b c isneg n base).map Prod.snd)
      (numText nbuf c isneg n base) := by
  obtain ⟨hb, hb'⟩ := baseOk_toNat hbase
  obtain ⟨s, hs, hat, hwidth⟩ := numField_some hb hfit
  have hnul := fieldText_nul c (leadChars nbuf c isneg base).length hb hb' n
  have hstr := hat.string hnul
  have hspaces :
      List.replicate (if hasFlag c.alt convAltMinus then s.width.toNatClampNeg else 0) (ch ' ') =
      trailingText c
        ((leadChars nbuf c isneg base).length + (paddedDigits c base.toInt.toNat n).length) := by
    rw [trailingText]
    by_cases hminus : hasFlag c.alt convAltMinus = true
    · rw [if_pos hminus, if_pos hminus, hwidth hminus]
    · rw [if_neg hminus, if_neg hminus]
      rfl
  have hseq := ((emits_appendChars heap _ (leadChars_nul nbuf c isneg base)).bind
    (emits_append hnul)).bind (emits_appendChars heap _ (trailingText_nul c
      ((leadChars nbuf c isneg base).length + (paddedDigits c base.toInt.toNat n).length)))
  refine hseq.congr fun b => ?_
  simp only [appendNum, hs, hstr, hspaces, Option.bind_some, Option.map_bind, Option.bind_assoc,
    Option.bind_map, Function.comp_def, Option.map_map, Option.map_id']

/-- Otherwise it does what is undefined. -/
theorem appendNum_none (heap : Heap) (nbuf : NbufAddr) (b : Strbuf) (isneg : Bool)
    (hbase : baseOk base = true) (hn : n < 2 ^ 64)
    (hfit : ¬ TextFits c (leadChars nbuf c isneg base).length base.toInt.toNat n) :
    appendNum heap nbuf b c isneg n base = none := by
  have hnone := numField_none (baseOk_toNat hbase).1 hn hfit
  simp only [appendNum, hnone, Option.bind_none, Option.bind_fun_none]

/-! ### The magnitude -/

theorem int32_toNat (x : Int32) : (x.toUInt32.toNat : Int) = x.toInt % 2 ^ 32 := by
  have h : x.toInt = Int.bmod x.toUInt32.toNat (2 ^ 32) := BitVec.toInt_eq_toNat_bmod x.toBitVec
  have hlt := UInt32.toNat_lt x.toUInt32
  rw [h, Int.bmod]
  split_ifs <;> omega

theorem int64_toNat (x : Int64) : (x.toUInt64.toNat : Int) = x.toInt % 2 ^ 64 := by
  have h : x.toInt = Int.bmod x.toUInt64.toNat (2 ^ 64) := BitVec.toInt_eq_toNat_bmod x.toBitVec
  have hlt := UInt64.toNat_lt x.toUInt64
  rw [h, Int.bmod]
  split_ifs <;> omega

theorem isNeg_signed (h : hasFlag c.mod convModUnsigned = false) :
    isNeg c num = decide (num.toInt32.toInt < 0) := by
  rw [isNeg, h]
  exact decide_eq_decide.mpr Int32.lt_iff_toInt_lt

theorem isNeg_unsigned (h : hasFlag c.mod convModUnsigned = true) : isNeg c num = false := by
  rw [isNeg, h]
  rfl

theorem magnitude_unsigned (hmod : hasFlag c.mod convModShort = false)
    (h : hasFlag c.mod convModUnsigned = true) : magnitude c num = num.toNat := by
  rw [magnitude, isNeg_unsigned h, hmod]
  rfl

/-- The negation that overflows gives the right magnitude nevertheless. -/
theorem magnitude_signed (hmod : hasFlag c.mod convModShort = false)
    (h : hasFlag c.mod convModUnsigned = false) : magnitude c num = num.toInt32.toInt.natAbs := by
  have hlow := num.toInt32.le_toInt
  have hhigh := num.toInt32.toInt_lt
  rw [magnitude, isNeg_signed h, hmod, if_neg (by decide)]
  by_cases hneg : num.toInt32.toInt < 0
  · have hval := int32_toNat (num.toInt32 * -1)
    have hm1 : (-1 : Int32).toInt = -1 := rfl
    rw [Int32.toInt_mul, hm1, Int.bmod] at hval
    rw [if_pos (decide_eq_true hneg)]
    split_ifs at hval <;> omega
  · have hval := int32_toNat num.toInt32
    rw [UInt32.toUInt32_toInt32] at hval
    rw [if_neg (by simpa using hneg)]
    omega

/-! ### The two sizes -/

theorem extended_neg (c : Conv) (num : UInt32) : isNegLl c (extended c num) = isNeg c num := by
  by_cases h : hasFlag c.mod convModUnsigned = true
  · rw [isNeg_unsigned h, isNegLl, h]
    rfl
  · rw [Bool.not_eq_true] at h
    rw [isNeg_signed h, isNegLl, extended, h, if_neg (by decide), Int64.toInt64_toUInt64]
    refine decide_eq_decide.mpr (Int64.lt_iff_toInt_lt.trans ?_)
    rw [Int32.toInt_toInt64]
    rfl

theorem extended_magnitude (hmod : hasFlag c.mod convModShort = false) (num : UInt32) :
    magnitudeLl c (extended c num) = magnitude c num := by
  rw [magnitudeLl, extended_neg]
  by_cases h : hasFlag c.mod convModUnsigned = true
  · rw [magnitude_unsigned hmod h, isNeg_unsigned h, if_neg (by decide), extended, if_pos h,
      UInt32.toNat_toUInt64]
  · rw [Bool.not_eq_true] at h
    have hlow := num.toInt32.le_toInt
    have hhigh := num.toInt32.toInt_lt
    rw [magnitude_signed hmod h, isNeg_signed h, extended, h, if_neg (by decide : ¬ (false = true)),
      Int64.toInt64_toUInt64]
    by_cases hneg : num.toInt32.toInt < 0
    · have hval := int64_toNat (num.toInt32.toInt64 * -1)
      have hm1 : (-1 : Int64).toInt = -1 := rfl
      rw [Int64.toInt_mul, hm1, Int32.toInt_toInt64, Int.bmod] at hval
      rw [if_pos (decide_eq_true hneg)]
      split_ifs at hval <;> omega
    · have hval := int64_toNat num.toInt32.toInt64
      rw [Int32.toInt_toInt64] at hval
      rw [if_neg (by simpa using hneg)]
      omega

theorem nullLess_true (nbuf : NbufAddr) {k : Nat} (hk : k ≤ 128) : nullLess nbuf k = true := by
  have := nbuf.fits
  rw [nullLess, decide_eq_true_eq]
  omega

/-- The `#` form does not depend on where `nbuf` is. -/
theorem leadChars_addr (nbuf nbuf' : NbufAddr) (c : Conv) (isneg : Bool) (base : Int32) :
    leadChars nbuf c isneg base = leadChars nbuf' c isneg base := by
  simp only [leadChars, altChars, nullLess_true _ (show 2 ≤ 128 by decide),
    nullLess_true _ (show 1 ≤ 128 by decide)]

/-- Widths and precisions of up to 127 are safe. -/
theorem bufferFits_small (c : Conv) {lead d : Nat} (hlead : lead ≤ 3) (hd : d ≤ 64)
    (hw : -1 ≤ c.width.toInt ∧ c.width.toInt ≤ 127)
    (hp : -1 ≤ c.precis.toInt ∧ c.precis.toInt ≤ 127) :
    BufferFits c lead d := by
  exact ⟨by omega, hp.2, Or.inr ⟨by omega, by omega⟩⟩

theorem appendNum_addr (heap : Heap) (nbuf nbuf' : NbufAddr) (b : Strbuf) (c : Conv) (isneg : Bool)
    (n : Nat) (base : Int32) :
    appendNum heap nbuf b c isneg n base = appendNum heap nbuf' b c isneg n base := by
  simp only [appendNum, leadChars_addr nbuf nbuf']

/-- Given a 32-bit number, extended as its conversion demands, the formatter for 64 bits does to
any buffer what the other does with the number itself, and neither leaves its `nbuf`. -/
theorem sprintfLlNum_extended (heap : Heap) (nbuf nbuf' : NbufAddr) (b : Strbuf) (c : Conv)
    (num : UInt32) (base : Int32) (hbase : base = 2 ∨ base = 8 ∨ base = 10 ∨ base = 16)
    (hmod : hasFlag c.mod convModShort = false) (hw : -1 ≤ c.width.toInt ∧ c.width.toInt ≤ 127)
    (hp : -1 ≤ c.precis.toInt ∧ c.precis.toInt ≤ 127) :
    sprintfLlNum heap nbuf' b c (extended c num) base = sprintfNum heap nbuf b c num base ∧
      InNbuf (numBuffer nbuf c num base) ∧ InNbuf (numBufferLl nbuf' c (extended c num) base) := by
  have hok : baseOk base = true := by
    rcases hbase with rfl | rfl | rfl | rfl <;> decide
  have hinside : ∀ (nbuf : NbufAddr) (isneg : Bool), ∀ n < 2 ^ 64,
      InNbuf (numField c (leadChars nbuf c isneg base).length n base) := fun nbuf isneg n hn =>
    (numField_inNbuf_iff hok hn (leadChars_length nbuf c isneg base)).mpr
      (bufferFits_small c (leadChars_length nbuf c isneg base)
        (digitCount_le (baseOk_toNat hok).1 hn) hw hp)
  refine ⟨?_, hinside nbuf _ _ (magnitude_lt c num), hinside nbuf' _ _ (UInt64.toNat_lt _)⟩
  rw [sprintfLlNum, sprintfNum, if_pos hok, if_pos hok, extended_neg, extended_magnitude hmod,
    appendNum_addr heap nbuf' nbuf]

def plusConv : Conv := { alt := convAltPlus, width := 20, precis := 12, mod := 0 }

/-- The smallest `int`. -/
theorem sprintfLlNum_extended_min :
    sprintfLlNum zeroEnv.heap zeroEnv.nbuf emptyBuf plusConv (extended plusConv 0x80000000) 10 =
        sprintfNum zeroEnv.heap zeroEnv.nbuf emptyBuf plusConv 0x80000000 10 ∧
      InNbuf (numBuffer zeroEnv.nbuf plusConv 0x80000000 10) ∧
      InNbuf (numBufferLl zeroEnv.nbuf plusConv (extended plusConv 0x80000000) 10) :=
  sprintfLlNum_extended _ _ _ _ _ _ 10 (by decide) (by decide) (by decide) (by decide)

end Console
