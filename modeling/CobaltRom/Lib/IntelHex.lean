import Mathlib

/-! Intel HEX: text lines of hex digits, the records they spell and the memory that a
file of records describes. -/
namespace IntelHex

def hexDigit (n : Nat) : Char := if n < 10 then Char.ofNat (48 + n) else Char.ofNat (55 + n)

def hexVal (c : Char) : Option Nat :=
  if 48 ≤ c.toNat ∧ c.toNat < 58 then some (c.toNat - 48)
  else if 65 ≤ c.toNat ∧ c.toNat < 71 then some (c.toNat - 55)
  else none

/-- The two digits of a byte. -/
def hexByte (b : UInt8) : List Char := [hexDigit (b.toNat / 16), hexDigit (b.toNat % 16)]

/-- Two digits are one byte. -/
def hexBytes : List Char → Option (List UInt8)
  | [] => some []
  | [_] => none
  | a :: b :: l =>
    match hexVal a, hexVal b, hexBytes l with
    | some x, some y, some bs => some (UInt8.ofNat (16 * x + y) :: bs)
    | _, _, _ => none

/-- A record: its address, its type and its data. -/
structure Record where
  address : UInt16
  kind : UInt8
  data : List UInt8
  deriving DecidableEq

/-- Everything but the checksum: count, address, type and data. -/
def Record.body (r : Record) : List UInt8 :=
  [UInt8.ofNat r.data.length, UInt8.ofNat (r.address.toNat / 256),
    UInt8.ofNat (r.address.toNat % 256), r.kind] ++ r.data

/-- `:LLAAAATT`, the data and the checksum. -/
def Record.line (r : Record) : List Char :=
  ':' :: (r.body ++ [0 - r.body.sum]).flatMap hexByte

/-- The record on a line: the count has to match and all bytes have to add up to 0. -/
def parse : List Char → Option Record
  | ':' :: l =>
    match hexBytes l with
    | some (n :: hi :: lo :: kind :: rest) =>
      if rest.length = n.toNat + 1 ∧ (n :: hi :: lo :: kind :: rest).sum = 0 then
        some ⟨UInt16.ofNat (256 * hi.toNat + lo.toNat), kind, rest.dropLast⟩
      else none
    | _ => none
  | _ => none

/-- Where nothing is stored there is `none`. -/
abbrev Memory := Nat → Option UInt8

/-- The bytes of a data record, put behind the segment base; the offset has 16 bits. -/
def store (mem : Memory) (base : Nat) (address : UInt16) : List UInt8 → Memory
  | [] => mem
  | b :: bs => store (Function.update mem (base + address.toNat) (some b)) base (address + 1) bs

/-- Type 0 stores, type 2 sets the segment base and type 1 ends the file. -/
def decodeLines : List (List Char) → Nat → Memory → Option Memory
  | [], _, _ => none
  | line :: lines, base, mem =>
    match parse line with
    | some ⟨address, 0, data⟩ => decodeLines lines base (store mem base address data)
    | some ⟨_, 2, [hi, lo]⟩ => decodeLines lines (16 * (256 * hi.toNat + lo.toNat)) mem
    | some ⟨_, 1, []⟩ => if lines.all List.isEmpty then some mem else none
    | _ => none

/-- The memory a text describes, one record on each line. -/
def decode (text : List Char) : Option Memory :=
  decodeLines (text.splitOn '\n') 0 fun _ => none

variable {c : Char} {l : List Char} {lines : List (List Char)} {base : Nat} {mem : Memory}

theorem hexVal_hexDigit : ∀ n, n < 16 → hexVal (hexDigit n) = some n := by decide

/-- What is no digit cannot be read. -/
theorem hexBytes_none (hc : hexVal c = none) : ∀ l : List Char, c ∈ l → hexBytes l = none
  | [], h => absurd h List.not_mem_nil
  | [_], _ => rfl
  | a :: b :: l, h => by
    rw [hexBytes]
    rcases List.mem_cons.mp h with rfl | h
    · simp only [hc]
    rcases List.mem_cons.mp h with rfl | h
    · rw [hc]
      cases hexVal a <;> rfl
    · rw [hexBytes_none hc l h]
      cases hexVal a <;> cases hexVal b <;> rfl

theorem hexBytes_flatMap (bs : List UInt8) : hexBytes (bs.flatMap hexByte) = some bs := by
  induction bs with
  | nil => rfl
  | cons b bs ih =>
    have hb := b.toNat_lt
    rw [List.flatMap_cons, hexByte, List.cons_append, List.cons_append, List.nil_append, hexBytes,
      hexVal_hexDigit _ (by omega), hexVal_hexDigit _ (by omega), ih]
    simp only [Nat.div_add_mod, UInt8.ofNat_toNat]

theorem sum_sub (l : List UInt8) : (l ++ [0 - l.sum]).sum = 0 := by
  rw [List.sum_append, List.sum_singleton]
  grind

/-- A line that was written reads back. -/
theorem parse_line (r : Record) (hlen : r.data.length < 256) : parse r.line = some r := by
  have haddr := r.address.toNat_lt
  have hsum := sum_sub r.body
  rw [Record.line, parse, hexBytes_flatMap]
  have hn : (UInt8.ofNat r.data.length).toNat = r.data.length := UInt8.toNat_ofNat_of_lt' hlen
  simp only [Record.body, List.cons_append, List.nil_append] at hsum ⊢
  rw [if_pos ⟨by rw [hn]; simp, hsum⟩]
  have h1 : (UInt8.ofNat (r.address.toNat / 256)).toNat = r.address.toNat / 256 :=
    UInt8.toNat_ofNat_of_lt' (by simp only [UInt8.size]; omega)
  have h2 : (UInt8.ofNat (r.address.toNat % 256)).toNat = r.address.toNat % 256 :=
    UInt8.toNat_ofNat_of_lt' (by simp only [UInt8.size]; omega)
  rw [h1, h2, Nat.div_add_mod, UInt16.ofNat_toNat, List.dropLast_concat]

/-- Nothing is decoded from a text whose first line is no record. -/
theorem decodeLines_bad (h : parse l = none) : decodeLines (l :: lines) base mem = none := by
  rw [decodeLines, h]

/-- The first line of a text goes on behind what has no line end. -/
theorem splitOn_append {h : List Char} (hh : '\n' ∉ h) (l : List Char) :
    ∃ first rest, (h ++ l).splitOn '\n' = (h ++ first) :: rest := by
  induction h with
  | nil =>
    obtain ⟨first, rest, hl⟩ := List.exists_cons_of_ne_nil (List.splitOn_ne_nil '\n' l)
    exact ⟨first, rest, hl⟩
  | cons a h ih =>
    rw [List.mem_cons, not_or] at hh
    obtain ⟨first, rest, hl⟩ := ih hh.2
    refine ⟨first, rest, ?_⟩
    rw [List.cons_append, List.splitOn_cons_eq_if_modifyHead, hl,
      if_neg (by simpa using Ne.symm hh.1)]
    rfl

/-- A second colon on the first line is read as no record. -/
theorem decode_colon {h : List Char} (hh : '\n' ∉ h) (hc : ':' ∈ h) (l : List Char) :
    decode (':' :: h ++ l) = none := by
  obtain ⟨first, rest, hl⟩ := splitOn_append (h := ':' :: h) (by simp [hh]) l
  rw [decode, hl]
  refine decodeLines_bad ?_
  rw [List.cons_append, parse,
    hexBytes_none (c := ':') (by decide) _ (List.mem_append_left _ hc)]

end IntelHex
