import Mathlib
import CobaltRom.Lib.IntelHex

/-! `raw2hex`: a raw file as Intel HEX. -/
namespace Tools
open IntelHex

/-- `%0nX`. -/
def percentX (width n : Nat) : List Char :=
  let ds := (Nat.digits 16 n).reverse.map hexDigit
  List.replicate (width - ds.length) '0' ++ ds

/-- The loop that adds the bytes up and prints each of them. -/
def printBytes (sum : UInt32) (inbuff : List UInt8) : UInt32 × List Char :=
  inbuff.foldl (fun r b => (r.1 + b.toUInt32, r.2 ++ percentX 2 b.toNat)) (sum, [])

/-- What one pass prints before `fread`. The checksum worked out for the segment record
is never printed. -/
def recordHead (i : Nat) : List Char :=
  (if i % 0x100 = 0 then ":02000002".toList ++ percentX 4 (i / 0x10) else []) ++
    ":20".toList ++ percentX 4 (i &&& 0xff) ++ "00".toList

/-- What it prints behind `fread`. -/
def recordTail (i : Nat) (inbuff : List UInt8) : List Char :=
  let (sum, text) := printBytes (0x20 + UInt32.ofNat (i &&& 0xff)) inbuff
  let sum := (~~~ (sum - 1)) &&& 0xff
  text ++ percentX 2 sum.toNat ++ ['\n']

/-- The loop over whole records: the text, and unless reading failed the position and what
is left of the file. -/
def records (stSize i : Nat) (infp : List UInt8) : List Char × Option (Nat × List UInt8) :=
  if i < stSize - stSize % 0x20 then
    if infp.length < 0x20 then (recordHead i, none)
    else
      let r := records stSize (i + 0x20) (infp.drop 0x20)
      (recordHead i ++ recordTail i (infp.take 0x20) ++ r.1, r.2)
  else ([], some (i, infp))
termination_by stSize - stSize % 0x20 - i

def eofRecord : List Char := ":00000001FF\n".toList

/-- `main` on a file: the exit code and the text written. The branch behind the loop prints
an address without passing one; `junk` is what is found in its place. -/
def raw2hex (junk : Nat) (infile : List UInt8) : Int × List Char :=
  let stSize := infile.length
  match records stSize 0 infile with
  | (out, none) => (-1, out)
  | (out, some (i, infp)) =>
    if i > stSize then
      if stSize % 0x20 = 0 ∨ infp.length < stSize % 0x20 then (-1, out)
      else
        let (sum, text) := printBytes 0 (infp.take (stSize % 0x20))
        let sum := (0xff - sum) &&& 0xff
        (0, out ++ ":20".toList ++ percentX 4 junk ++ "00".toList ++ text ++
          percentX 2 sum.toNat ++ ['\n'] ++ eofRecord)
    else (0, out ++ eofRecord)

variable {stSize i k : Nat} {infp infile inbuff : List UInt8} {sum : UInt32}

/-- The loop never fails and stops at the last multiple of 32, with the rest unread. -/
theorem records_rest (hi : i % 0x20 = 0) (hle : i ≤ stSize) (hlen : infp.length = stSize - i) :
    ∃ text, records stSize i infp =
      (text, some (stSize - stSize % 0x20, infp.drop (stSize - stSize % 0x20 - i))) := by
  induction i, infp using records.induct stSize with
  | case1 i infp hlt hshort => omega
  | case2 i infp hlt hshort ih =>
    obtain ⟨text, htext⟩ := ih (by omega) (by omega) (by rw [List.length_drop]; omega)
    rw [records, if_pos hlt, if_neg hshort, htext, List.drop_drop,
      show 0x20 + (stSize - stSize % 0x20 - (i + 0x20)) = stSize - stSize % 0x20 - i by omega]
    exact ⟨_, rfl⟩
  | case3 i infp hge =>
    rw [records, if_neg hge, show i = stSize - stSize % 0x20 by omega, Nat.sub_self,
      List.drop_zero]
    exact ⟨_, rfl⟩

/-- So the branch behind the loop is never taken: the last `size % 32` bytes are lost. -/
theorem raw2hex_eq (junk : Nat) (infile : List UInt8) :
    raw2hex junk infile = (0, (records infile.length 0 infile).1 ++ eofRecord) := by
  obtain ⟨text, htext⟩ : ∃ text, records infile.length 0 infile =
      (text, some (infile.length - infile.length % 0x20,
        infile.drop (infile.length - infile.length % 0x20 - 0))) :=
    records_rest rfl (Nat.zero_le _) rfl
  rw [raw2hex, htext]
  simp only
  rw [if_neg (by omega)]

/-! ### The records -/

theorem percentX_byte {n : Nat} (hn : n < 256) :
    percentX 2 n = [hexDigit (n / 16), hexDigit (n % 16)] := by
  rw [percentX]
  by_cases h0 : n = 0
  · subst h0
    decide
  by_cases h16 : n < 16
  · rw [Nat.digits_of_lt 16 n h0 h16, Nat.div_eq_of_lt h16, Nat.mod_eq_of_lt h16]
    rfl
  · rw [Nat.digits_def' (by decide) (by omega),
      Nat.digits_of_lt 16 (n / 16) (by omega) (by omega)]
    rfl

theorem percentX_four {n : Nat} (hn : n < 256) :
    percentX 4 n = ['0', '0', hexDigit (n / 16), hexDigit (n % 16)] := by
  have hlen : (Nat.digits 16 n).length ≤ 2 := by
    rw [Nat.digits_length_le_iff (by decide)]
    exact hn
  have h2 := percentX_byte hn
  rw [percentX] at h2 ⊢
  simp only [List.length_map, List.length_reverse] at h2 ⊢
  rw [show 4 - (Nat.digits 16 n).length = 2 + (2 - (Nat.digits 16 n).length) by omega,
    List.replicate_add, List.append_assoc, h2]
  rfl

theorem printBytes_eq (inbuff : List UInt8) : ∀ (sum : UInt32) (text : List Char),
    inbuff.foldl (fun r b => (r.1 + b.toUInt32, r.2 ++ percentX 2 b.toNat)) (sum, text) =
      (sum + (inbuff.map UInt8.toUInt32).sum, text ++ inbuff.flatMap hexByte) := by
  induction inbuff with
  | nil =>
    intro sum text
    simp
  | cons b inbuff ih =>
    intro sum text
    rw [List.foldl_cons, ih, List.map_cons, List.sum_cons, List.flatMap_cons,
      percentX_byte b.toNat_lt, hexByte, UInt32.add_assoc, List.append_assoc]

theorem toUInt8_sum (l : List UInt8) : (l.map UInt8.toUInt32).sum.toUInt8 = l.sum := by
  induction l with
  | nil => rfl
  | cons b l ih => rw [List.map_cons, List.sum_cons, List.sum_cons, UInt32.toUInt8_add, ih,
      UInt8.toUInt8_toUInt32]

/-- `(~(sum-1)) & 0xff` is what is missing to a multiple of 256. -/
theorem complement_eq (sum : UInt32) :
    ((~~~ (sum - 1)) &&& 0xff).toNat = (0 - sum.toUInt8).toNat := by
  have hlt := sum.toNat_lt
  have hmask : (0xff : UInt32).toNat = 2 ^ 8 - 1 := by decide
  rw [UInt32.toNat_and, hmask, Nat.and_two_pow_sub_one_eq_mod, UInt32.toNat_not,
    UInt32.toNat_sub, UInt8.toNat_sub, UInt32.toNat_toUInt8]
  have h1 : (1 : UInt32).toNat = 1 := by decide
  have h0 : (0 : UInt8).toNat = 0 := by decide
  rw [h1, h0]
  simp only [UInt32.size]
  omega

/-- Without the segment record in front, a data record is well formed. -/
theorem record_line (hi : i % 0x100 ≠ 0) (hlen : inbuff.length = 0x20) :
    recordHead i ++ recordTail i inbuff =
      Record.line ⟨UInt16.ofNat (i &&& 0xff), 0, inbuff⟩ ++ ['\n'] := by
  have hand : i &&& 0xff = i % 256 := Nat.and_two_pow_sub_one_eq_mod i 8
  have hlt : i % 256 < 256 := Nat.mod_lt _ (by decide)
  have haddr : (UInt16.ofNat (i % 256)).toNat = i % 256 :=
    UInt16.toNat_ofNat_of_lt' (by simp only [UInt16.size]; omega)
  have hsum : ((0x20 : UInt32) + UInt32.ofNat (i % 256) +
      (inbuff.map UInt8.toUInt32).sum).toUInt8 = 0x20 + UInt8.ofNat (i % 256) + inbuff.sum := by
    rw [UInt32.toUInt8_add, UInt32.toUInt8_add, toUInt8_sum, UInt32.toUInt8_ofNat']
    rfl
  rw [recordHead, if_neg hi, recordTail, printBytes, printBytes_eq, Record.line, Record.body]
  simp only [complement_eq, hand, hsum, haddr, hlen, percentX_four hlt,
    percentX_byte (UInt8.toNat_lt _), List.flatMap_append, List.flatMap_cons, List.flatMap_nil,
    List.sum_append, List.sum_cons, List.sum_nil, Nat.div_eq_of_lt hlt, Nat.mod_mod]
  have hbyte : (UInt8.ofNat (i % 256)).toNat = i % 256 := UInt8.toNat_ofNat_of_lt' hlt
  have hcount : UInt8.ofNat 32 + (UInt8.ofNat 0 + (UInt8.ofNat (i % 256) + (0 + 0))) +
      inbuff.sum = 32 + UInt8.ofNat (i % 256) + inbuff.sum := by
    rw [show UInt8.ofNat 32 = 32 from rfl, show UInt8.ofNat 0 = 0 from rfl, UInt8.add_zero,
      UInt8.add_zero, UInt8.zero_add]
  rw [hcount]
  simp only [hexByte, hbyte]
  rw [show ":20".toList = [':', '2', '0'] from rfl, show "00".toList = ['0', '0'] from rfl,
    show hexDigit ((UInt8.ofNat 32).toNat / 16) = '2' from rfl,
    show hexDigit ((UInt8.ofNat 32).toNat % 16) = '0' from rfl,
    show hexDigit ((UInt8.ofNat 0).toNat / 16) = '0' from rfl,
    show hexDigit ((UInt8.ofNat 0).toNat % 16) = '0' from rfl,
    show hexDigit ((0 : UInt8).toNat / 16) = '0' from rfl,
    show hexDigit ((0 : UInt8).toNat % 16) = '0' from rfl]
  simp

/-! ### Decoding -/

theorem decode_eof : decode eofRecord = some fun _ => none := by
  rfl

theorem recordHead_zero : recordHead 0 = ":020000020000:20000000".toList := by
  decide

/-- Of a file without a whole record nothing is left. -/
theorem decode_short (junk : Nat) (hlt : infile.length < 0x20) :
    decode (raw2hex junk infile).2 = some fun _ => none := by
  rw [raw2hex_eq, records, if_neg (by omega)]
  exact decode_eof

/-- The first segment record has no checksum and no line end. -/
theorem decode_long (junk : Nat) (hge : 0x20 ≤ infile.length) :
    decode (raw2hex junk infile).2 = none := by
  rw [raw2hex_eq, records, if_pos (by omega), if_neg (by omega), recordHead_zero]
  exact decode_colon (h := "020000020000:20000000".toList) (by decide) (by decide) _

/-- Only the empty file survives. -/
theorem raw2hex_decodes_iff (junk : Nat) (infile : List UInt8) :
    ((raw2hex junk infile).1 = 0 ∧
      decode (raw2hex junk infile).2 = some fun a => infile[a]?) ↔ infile = [] := by
  have hexit : (raw2hex junk infile).1 = 0 := by rw [raw2hex_eq]
  rw [hexit]
  by_cases hlt : infile.length < 0x20
  · simp only [decode_short junk hlt, true_and, Option.some.injEq]
    constructor
    · intro h
      have h0 := congrFun h 0
      exact List.length_eq_zero_iff.mp (Nat.le_zero.mp (List.getElem?_eq_none_iff.mp h0.symm))
    · rintro rfl
      rfl
  · simp only [decode_long junk (Nat.le_of_not_lt hlt), true_and, reduceCtorEq, false_iff]
    rintro rfl
    exact hlt (by decide)

theorem raw2hex_loses_byte : ¬ ∀ (junk : Nat) (infile : List UInt8), infile.length < 2 ^ 20 →
    decode (raw2hex junk infile).2 = some fun a => infile[a]? := by
  intro h
  have hone := h 0 [0x55] (by decide)
  rw [decode_short 0 (by decide)] at hone
  exact absurd (congrFun (Option.some.inj hone) 0) (by decide)

end Tools
