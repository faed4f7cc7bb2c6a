import CobaltRom.Lib.Simulates
import CobaltRom.Lib.WordBytes
import CobaltRom.Lib.ByteSum

/-! The EEPROM of the network controller and the address stored there (`macphyter_eeprom.c`). -/
namespace Macphyter

open WordBytes ByteSum

/-- `read_ee_word_m` and `write_ee_word_m` of one controller. -/
structure Eeprom (σ : Type) where
  readEeWordM : Nat → StateM σ UInt16
  writeEeWordM : Nat → UInt16 → StateM σ Unit

abbrev eeSize : Nat := 12

def swapBits (x : UInt8) : UInt8 :=
  ((x &&& 0x01) <<< 7) ||| ((x &&& 0x02) <<< 5) ||| ((x &&& 0x04) <<< 3) |||
  ((x &&& 0x08) <<< 1) |||
    ((x &&& 0x10) >>> 1) ||| ((x &&& 0x20) >>> 3) ||| ((x &&& 0x40) >>> 5) ||| ((x &&& 0x80) >>> 7)

def macphyterDefaultData : List UInt16 :=
  [0xd008, 0x0400, 0x2cd0, 0xdf82, 0x0000, 0x0000, 0x0000, 0x0000, 0x0000, 0x0000, 0x0098, 0x0055]

variable {σ : Type}

/-- The result and what `*data` is afterwards. -/
def macphyterReadByte (e : Eeprom σ) (data : UInt8) (offset : Nat) : StateM σ (Int × UInt8) :=
  if offset / 2 > eeSize - 1 then pure (-1, data)
  else do
    let value ← e.readEeWordM (offset / 2)
    if offset % 2 = 0 then pure (0, (value &&& 0xff).toUInt8)
    else pure (0, (value >>> 8).toUInt8)

def macphyterWriteByte (e : Eeprom σ) (data : UInt8) (offset : Nat) : StateM σ Int :=
  let wordoffset := offset / 2
  if wordoffset > eeSize - 1 then pure (-1)
  else do
    let value ← e.readEeWordM wordoffset
    if offset % 2 = 0 then do
      e.writeEeWordM wordoffset ((value &&& 0xff00) ||| data.toUInt16)
      let r ← e.readEeWordM wordoffset
      pure (if r ≠ (value &&& 0xff00) ||| data.toUInt16 then -1 else 0)
    else do
      e.writeEeWordM wordoffset ((value &&& (0xff : UInt16)) ||| data.toUInt16 <<< (8 : UInt16))
      let r ← e.readEeWordM wordoffset
      pure (if r ≠ (value &&& (0xff : UInt16)) ||| data.toUInt16 <<< (8 : UInt16) then -1 else 0)

def macphyterReadWord (e : Eeprom σ) (data : UInt16) (offset : Nat) : StateM σ (Int × UInt16) :=
  if offset > eeSize - 1 then pure (-1, data)
  else do
    let r ← e.readEeWordM offset
    pure (0, r)

def macphyterWriteWord (e : Eeprom σ) (data : UInt16) (offset : Nat) : StateM σ Int :=
  if offset > eeSize - 1 then pure (-1)
  else do
    e.writeEeWordM offset data
    let r ← e.readEeWordM offset
    pure (if r ≠ data then -2 else 0)

/-- The loop of `macphyter_write_eeprom` from word `i` on, over the words that are left. -/
def writeWords (e : Eeprom σ) : Nat → List UInt16 → StateM σ Int
  | _, [] => pure 0
  | i, w :: ws => do
    let r ← macphyterWriteWord e w i
    if r < 0 then pure (-1) else writeWords e (i + 1) ws

def macphyterWriteEeprom (e : Eeprom σ) (eepromData : List UInt16) : StateM σ Int :=
  writeWords e 0 eepromData

/-- The loop of `update_checksum` over the offsets that are left. -/
def sumOffsets (e : Eeprom σ) : List Nat → UInt8 → StateM σ UInt8
  | [], sum => pure sum
  | i :: is, sum => do
    let (_, temp) ← macphyterReadByte e 0 i
    sumOffsets e is (sum + temp)

def updateChecksum (e : Eeprom σ) : StateM σ Int := do
  let sum ← sumOffsets e (List.range 22) 0x55
  let r ← macphyterWriteByte e (0 - sum) 23
  pure (if r = 0 then 0 else -1)

def macphyterReadMac (e : Eeprom σ) : StateM σ (Int × Vector UInt8 6) := do
  let (_, word3) ← macphyterReadWord e 0 9
  let (_, word2) ← macphyterReadWord e 0 8
  let (_, word1) ← macphyterReadWord e 0 7
  let (_, byte) ← macphyterReadByte e 0 12
  let word3 := ((word2 &&& 0x0001) <<< 15) ||| word3 >>> 1
  let word2 := ((word1 &&& 0x0001) <<< 15) ||| word2 >>> 1
  let word1 := ((byte.toUInt16 &&& 0x01) <<< 15) ||| word1 >>> 1
  let macData := #v[((word1 &&& 0xff00) >>> 8).toUInt8, (word1 &&& 0x00ff).toUInt8,
    ((word2 &&& 0xff00) >>> 8).toUInt8, (word2 &&& 0x00ff).toUInt8,
    ((word3 &&& 0xff00) >>> 8).toUInt8, (word3 &&& 0x00ff).toUInt8]
  pure (0, macData.map swapBits)

/-- A byte shifted left by one, with the high bit of the next one. -/
def shift (a b : UInt8) : UInt8 := (a <<< 1) ||| ((b &&& 0x80) >>> 7)

/-- `mac_s`: the bits swapped, then all shifted left by one across the bytes. -/
def macS (mac : Vector UInt8 6) : Vector UInt8 6 :=
  let r := mac.map swapBits
  #v[shift r[0] r[1], shift r[1] r[2], shift r[2] r[3], shift r[3] r[4], shift r[4] r[5],
    shift r[5] 0 &&& 0xfe]

/-- The bit that is shifted out. -/
def hibit (mac : Vector UInt8 6) : UInt8 := (swapBits mac[0] &&& 0x80) >>> 7

def macphyterWriteMac (e : Eeprom σ) (mac : Vector UInt8 6) : StateM σ Int := do
  let _ ← macphyterWriteEeprom e macphyterDefaultData
  let s := macS mac
  let (_, value) ← macphyterReadByte e 0 12
  let (_, value2) ← macphyterReadByte e 0 18
  let _ ← macphyterWriteByte e (value ||| (hibit mac &&& 0x01)) 12
  let _ ← macphyterWriteByte e s[0] 15
  let _ ← macphyterWriteByte e s[1] 14
  let _ ← macphyterWriteByte e s[2] 17
  let _ ← macphyterWriteByte e s[3] 16
  let _ ← macphyterWriteByte e s[4] 19
  let _ ← macphyterWriteByte e ((s[5] &&& 0xfe) ||| value2) 18
  let w7 ← e.readEeWordM 7
  if w7 ≠ s[0].toUInt16 <<< 8 ||| s[1].toUInt16 then pure (-1)
  else do
    let w8 ← e.readEeWordM 8
    if w8 ≠ s[2].toUInt16 <<< 8 ||| s[3].toUInt16 then pure (-1)
    else do
      let r ← updateChecksum e
      pure (if r ≠ 0 then -2 else 0)

/-! ### An EEPROM that keeps what is written -/

def chip : Eeprom (Nat → UInt16) where
  readEeWordM offset := do
    let m ← get
    pure (m offset)
  writeEeWordM offset word := modify fun m => Function.update m offset word

/-- "The serial EEPROM returns the word last written at each offset." -/
structure Stores (e : Eeprom σ) (words : σ → Nat → UInt16) : Prop where
  read : ∀ offset, Simulates words (e.readEeWordM offset) (chip.readEeWordM offset)
  write : ∀ offset word,
    Simulates words (e.writeEeWordM offset word) (chip.writeEeWordM offset word)

variable {e : Eeprom σ} {words : σ → Nat → UInt16} {m : Nat → UInt16} {o p : Nat} {d : UInt8}

section Simulation

variable (h : Stores e words)

include h

theorem macphyterReadByte_simulates (data : UInt8) (offset : Nat) :
    Simulates words (macphyterReadByte e data offset) (macphyterReadByte chip data offset) :=
  .ite (fun _ => .pure _) fun _ => .bind (h.read _) fun _ =>
  .ite (fun _ => .pure _) fun _ => .pure _

theorem macphyterReadWord_simulates (data : UInt16) (offset : Nat) :
    Simulates words (macphyterReadWord e data offset) (macphyterReadWord chip data offset) :=
  .ite (fun _ => .pure _) fun _ => .bind (h.read _) fun _ => .pure _

theorem macphyterWriteByte_simulates (data : UInt8) (offset : Nat) :
    Simulates words (macphyterWriteByte e data offset) (macphyterWriteByte chip data offset) :=
  .ite (fun _ => .pure _) fun _ => .bind (h.read _) fun _ => .ite
    (fun _ => .bind (h.write _ _) fun _ => .bind (h.read _) fun _ => .pure _)
    fun _ => .bind (h.write _ _) fun _ => .bind (h.read _) fun _ => .pure _

theorem macphyterWriteWord_simulates (data : UInt16) (offset : Nat) :
    Simulates words (macphyterWriteWord e data offset) (macphyterWriteWord chip data offset) :=
  .ite (fun _ => .pure _) fun _ => .bind (h.write _ _) fun _ => .bind (h.read _) fun _ => .pure _

theorem writeWords_simulates (i : Nat) (ws : List UInt16) :
    Simulates words (writeWords e i ws) (writeWords chip i ws) := by
  induction ws generalizing i with
  | nil => exact .pure _
  | cons w ws ih =>
    exact .bind (macphyterWriteWord_simulates h w i) fun _ => .ite (fun _ => .pure _) fun _ => ih _

theorem sumOffsets_simulates (is : List Nat) (sum : UInt8) :
    Simulates words (sumOffsets e is sum) (sumOffsets chip is sum) := by
  induction is generalizing sum with
  | nil => exact .pure _
  | cons i is ih => exact .bind (macphyterReadByte_simulates h 0 i) fun _ => ih _

theorem updateChecksum_simulates : Simulates words (updateChecksum e) (updateChecksum chip) :=
  .bind (sumOffsets_simulates h _ _) fun _ => .bind (macphyterWriteByte_simulates h _ _) fun _ =>
    .pure _

theorem macphyterReadMac_simulates : Simulates words (macphyterReadMac e) (macphyterReadMac chip) :=
  .bind (macphyterReadWord_simulates h _ _) fun _ =>
  .bind (macphyterReadWord_simulates h _ _) fun _ =>
    .bind (macphyterReadWord_simulates h _ _) fun _ =>
      .bind (macphyterReadByte_simulates h _ _) fun _ => .pure _

theorem macphyterWriteMac_simulates (mac : Vector UInt8 6) :
    Simulates words (macphyterWriteMac e mac) (macphyterWriteMac chip mac) := by
  have hbyte := macphyterWriteByte_simulates h
  refine .bind (writeWords_simulates h _ _) fun _ => ?_
  refine .bind (macphyterReadByte_simulates h _ _) fun _ => ?_
  refine .bind (macphyterReadByte_simulates h _ _) fun _ => ?_
  iterate 7 refine .bind (hbyte _ _) fun _ => ?_
  refine .bind (h.read _) fun _ => .ite (fun _ => .pure _) fun _ => ?_
  exact .bind (h.read _) fun _ => .ite (fun _ => .pure _) fun _ =>
    .bind (updateChecksum_simulates h) fun _ => .pure _

end Simulation

/-! ### The bytes of the EEPROM -/

/-- The low byte of a word comes first. -/
def byteAt (m : Nat → UInt16) (o : Nat) : UInt8 :=
  if o % 2 = 0 then (m (o / 2)).toUInt8 else (m (o / 2) >>> 8).toUInt8

def setByte (m : Nat → UInt16) (o : Nat) (d : UInt8) : Nat → UInt16 :=
  Function.update m (o / 2) (if o % 2 = 0 then (m (o / 2) &&& 0xff00) ||| d.toUInt16
    else (m (o / 2) &&& (0xff : UInt16)) ||| d.toUInt16 <<< (8 : UInt16))

@[simp] theorem byteAt_setByte (m : Nat → UInt16) (o p : Nat) (d : UInt8) :
    byteAt (setByte m o d) p = if p = o then d else byteAt m p := by
  unfold byteAt setByte
  by_cases hw : p / 2 = o / 2
  · rw [hw, Function.update_self]
    by_cases hp : p % 2 = 0 <;> by_cases ho : o % 2 = 0
    · rw [if_pos hp, if_pos hp, if_pos ho, if_pos (by omega), lo_setLo]
    · rw [if_pos hp, if_pos hp, if_neg ho, if_neg (by omega), lo_setHi]
    · rw [if_neg hp, if_neg hp, if_pos ho, if_neg (by omega), hi_setLo]
    · rw [if_neg hp, if_neg hp, if_neg ho, if_pos (by omega), hi_setHi]
  · rw [Function.update_of_ne hw, if_neg (fun h : p = o => hw (by rw [h]))]

theorem word_eq (m : Nat → UInt16) (k : Nat) :
    m k = (byteAt m (2 * k + 1)).toUInt16 <<< 8 ||| (byteAt m (2 * k)).toUInt16 := by
  have h1 : (2 * k + 1) / 2 = k := by omega
  have h0 : 2 * k / 2 = k := by omega
  rw [byteAt, byteAt, if_neg (by omega), if_pos (by omega), h1, h0, eta16]

theorem low_byte (w : UInt16) : (w &&& 0xff).toUInt8 = w.toUInt8 := by
  apply UInt8.toBitVec_inj.mp
  ext i hi
  simp
  interval_cases i <;> simp

theorem macphyterReadByte_run (ho : o < 24) (m : Nat → UInt16) :
    (macphyterReadByte chip d o).run m = (((0 : Int), byteAt m o), m) := by
  unfold macphyterReadByte byteAt
  rw [if_neg (show ¬ o / 2 > eeSize - 1 by simp only [eeSize]; omega)]
  have hread : (chip.readEeWordM (o / 2)).run m = (m (o / 2), m) := rfl
  rw [run_bind_of hread, low_byte]
  by_cases ho : o % 2 = 0
  · rw [if_pos ho, if_pos ho]
    rfl
  · rw [if_neg ho, if_neg ho]
    rfl

theorem macphyterReadWord_run {k : Nat} (hk : k < 12) (w : UInt16) (m : Nat → UInt16) :
    (macphyterReadWord chip w k).run m = (((0 : Int), m k), m) := by
  unfold macphyterReadWord
  rw [if_neg (show ¬ k > eeSize - 1 by simp only [eeSize]; omega)]
  rfl

theorem macphyterWriteWord_run {k : Nat} (hk : k < 12) (w : UInt16) (m : Nat → UInt16) :
    (macphyterWriteWord chip w k).run m = ((0 : Int), Function.update m k w) := by
  unfold macphyterWriteWord
  rw [if_neg (show ¬ k > eeSize - 1 by simp only [eeSize]; omega)]
  have hread : (chip.readEeWordM k).run (Function.update m k w) = (w, Function.update m k w) :=
    congrArg (·, _) (Function.update_self k w m)
  have hwrite : (chip.writeEeWordM k w).run m = ((), Function.update m k w) := rfl
  rw [run_bind_of hwrite, run_bind_of hread, if_neg fun h => h rfl]
  rfl

theorem macphyterWriteByte_run (ho : o < 24) (d : UInt8) (m : Nat → UInt16) :
    (macphyterWriteByte chip d o).run m = ((0 : Int), setByte m o d) := by
  have hread : ∀ n : Nat → UInt16, (chip.readEeWordM (o / 2)).run n = (n (o / 2), n) := fun _ => rfl
  have hwrite : ∀ w, (chip.writeEeWordM (o / 2) w).run m = ((), Function.update m (o / 2) w) :=
    fun _ => rfl
  unfold macphyterWriteByte setByte
  simp only []
  rw [if_neg (show ¬ o / 2 > eeSize - 1 by simp only [eeSize]; omega), run_bind_of (hread m)]
  by_cases ho : o % 2 = 0
  · rw [if_pos ho, if_pos ho, run_bind_of (hwrite _), run_bind_of (hread _), Function.update_self,
      if_neg fun h => h rfl]
    rfl
  · rw [if_neg ho, if_neg ho, run_bind_of (hwrite _), run_bind_of (hread _), Function.update_self,
      if_neg fun h => h rfl]
    rfl

/-- The words from `i` on replaced. -/
def setWords (m : Nat → UInt16) : Nat → List UInt16 → Nat → UInt16
  | _, [] => m
  | i, w :: ws => setWords (Function.update m i w) (i + 1) ws

theorem writeWords_run {i : Nat} {ws : List UInt16} (hi : i + ws.length ≤ 12) (m : Nat → UInt16) :
    (writeWords chip i ws).run m = ((0 : Int), setWords m i ws) := by
  induction ws generalizing i m with
  | nil => rfl
  | cons w ws ih =>
    rw [List.length_cons] at hi
    rw [writeWords, run_bind_of (macphyterWriteWord_run (by omega) w m), if_neg (by decide),
      ih (by omega), setWords]

/-- The sum of the bytes at some offsets. -/
def sumAt (m : Nat → UInt16) (is : List Nat) (sum : UInt8) : UInt8 :=
  is.foldl (fun s i => s + byteAt m i) sum

theorem sumOffsets_run {is : List Nat} (his : ∀ i ∈ is, i < 24) (sum : UInt8) (m : Nat → UInt16) :
    (sumOffsets chip is sum).run m = (sumAt m is sum, m) := by
  induction is generalizing sum with
  | nil => rfl
  | cons i is ih =>
    have hi := his i List.mem_cons_self
    rw [sumOffsets, run_bind_of (macphyterReadByte_run hi m)]
    exact ih (fun j hj => his j (List.mem_cons_of_mem i hj)) _

/-- Byte 23 makes up for the others. -/
theorem updateChecksum_run (m : Nat → UInt16) : (updateChecksum chip).run m =
    ((0 : Int), setByte m 23 (0 - sumAt m (List.range 22) 0x55)) := by
  have hsum : (sumOffsets chip (List.range 22) 0x55).run m = _ :=
    sumOffsets_run (fun i hi => Nat.lt_trans (List.mem_range.mp hi) (by decide)) _ m
  rw [updateChecksum, run_bind_of hsum,
    run_bind_of (macphyterWriteByte_run (by decide) _ m), if_pos rfl]
  rfl

/-! ### The address -/

/-- The 24 bytes with an address, but for the checksum. -/
def layout (mac : Vector UInt8 6) : List UInt8 :=
  let s := macS mac
  [0x08, 0xd0, 0x00, 0x04, 0xd0, 0x2c, 0x82, 0xdf, 0, 0, 0, 0, hibit mac, 0, s[1], s[0], s[3], s[2],
    s[5], s[4], 0x98, 0x00, 0x55, 0x00]

/-- What `macphyter_write_mac` has written when it comes to the checksum. -/
def written (m : Nat → UInt16) (mac : Vector UInt8 6) : Nat → UInt16 :=
  let s := macS mac
  setByte (setByte (setByte (setByte (setByte (setByte (setByte
    (setWords m 0 macphyterDefaultData) 12 (hibit mac)) 15 s[0]) 14 s[1]) 17 s[2]) 16 s[3])
      19 s[4]) 18 s[5]

theorem setWords_apply (m : Nat → UInt16) (i : Nat) (ws : List UInt16) (k : Nat) :
    setWords m i ws k = if i ≤ k ∧ k < i + ws.length then ws.getD (k - i) 0 else m k := by
  induction ws generalizing i m with
  | nil => rw [setWords, if_neg (by simp only [List.length_nil]; omega)]
  | cons w ws ih =>
    rw [setWords, ih, List.length_cons]
    by_cases hk : k = i
    · rw [hk, if_neg (by omega), Function.update_self, if_pos (by omega), Nat.sub_self,
        List.getD_cons_zero]
    · rw [Function.update_of_ne hk]
      by_cases hin : i + 1 ≤ k ∧ k < i + 1 + ws.length
      · rw [if_pos hin, if_pos (by omega), show k - i = k - (i + 1) + 1 by omega,
          List.getD_cons_succ]
      · rw [if_neg hin, if_neg (by omega)]

theorem byteAt_default (m : Nat → UInt16) (ho : o < 24) :
    byteAt (setWords m 0 macphyterDefaultData) o =
      if o % 2 = 0 then (macphyterDefaultData.getD (o / 2) 0).toUInt8
      else (macphyterDefaultData.getD (o / 2) 0 >>> 8).toUInt8 := by
  have hword : setWords m 0 macphyterDefaultData (o / 2) = macphyterDefaultData.getD (o / 2) 0 := by
    rw [setWords_apply, if_pos ⟨Nat.zero_le _, by rw [macphyterDefaultData]; simp; omega⟩,
      Nat.sub_zero]
  rw [byteAt, hword]

theorem byteAt_written (m : Nat → UInt16) (mac : Vector UInt8 6) (ho : o < 24) :
    byteAt (written m mac) o = (layout mac).getD o 0 := by
  simp only [written, byteAt_setByte, byteAt_default m ho]
  interval_cases o <;> rfl

theorem and_fe (a : UInt8) : shift a 0 &&& 0xfe = shift a 0 := by
  apply UInt8.toBitVec_inj.mp
  ext i hi
  simp [shift]
  interval_cases i <;> simp

theorem hibit_eq (mac : Vector UInt8 6) :
    (0 : UInt8) ||| (hibit mac &&& (0x01 : UInt8)) = hibit mac := by
  apply UInt8.toBitVec_inj.mp
  ext i hi
  simp [hibit]
  interval_cases i <;> simp

theorem last_eq (mac : Vector UInt8 6) :
    ((macS mac)[5] &&& (0xfe : UInt8)) ||| (0 : UInt8) = (macS mac)[5] := by
  simp only [macS, Vector.getElem_mk, List.getElem_toArray, List.getElem_cons_succ,
    List.getElem_cons_zero, and_fe]
  rw [UInt8.or_zero]

/-- The middle words are as they should be and the result is 0. -/
theorem macphyterWriteMac_run (mac : Vector UInt8 6) (m : Nat → UInt16) :
    (macphyterWriteMac chip mac).run m = ((0 : Int), setByte (written m mac) 23
      (0 - sumAt (written m mac) (List.range 22) 0x55)) := by
  have hwrite := fun {o} (ho : o < 24) d n => macphyterWriteByte_run (o := o) ho d n
  have hread := fun k n => show (chip.readEeWordM k).run n = (n k, n) from rfl
  have hdef : (macphyterWriteEeprom chip macphyterDefaultData).run m =
      ((0 : Int), setWords m 0 macphyterDefaultData) := writeWords_run (by decide) m
  have h12 : byteAt (setWords m 0 macphyterDefaultData) 12 = 0 := byteAt_default m (by decide)
  have h18 : byteAt (setWords m 0 macphyterDefaultData) 18 = 0 := byteAt_default m (by decide)
  have h7 : written m mac 7 = (macS mac)[0].toUInt16 <<< 8 ||| (macS mac)[1].toUInt16 := by
    rw [word_eq (written m mac) 7, byteAt_written m mac (by decide),
      byteAt_written m mac (by decide)]
    rfl
  have h8 : written m mac 8 = (macS mac)[2].toUInt16 <<< 8 ||| (macS mac)[3].toUInt16 := by
    rw [word_eq (written m mac) 8, byteAt_written m mac (by decide),
      byteAt_written m mac (by decide)]
    rfl
  unfold macphyterWriteMac
  rw [run_bind_of hdef, run_bind_of (macphyterReadByte_run (by decide) _),
    run_bind_of (macphyterReadByte_run (by decide) _)]
  simp only [h12, h18, hibit_eq, last_eq]
  rw [run_bind_of (hwrite (by decide) _ _), run_bind_of (hwrite (by decide) _ _),
    run_bind_of (hwrite (by decide) _ _), run_bind_of (hwrite (by decide) _ _),
    run_bind_of (hwrite (by decide) _ _), run_bind_of (hwrite (by decide) _ _),
    run_bind_of (hwrite (by decide) _ _)]
  change StateT.run _ (written m mac) = _
  rw [run_bind_of (hread 7 _), if_neg fun h => h h7, run_bind_of (hread 8 _), if_neg fun h => h h8,
    run_bind_of (updateChecksum_run _), if_neg fun h => h rfl]
  rfl

/-! ### Reading it back -/

/-- The words before they were shifted: the bit in front is the high bit of `a`. -/
theorem unshift (a b c : UInt8) {w : UInt16} (hw : w &&& (0x0001 : UInt16) = (a >>> 7).toUInt16) :
    ((((w &&& (0x0001 : UInt16)) <<< (15 : UInt16) |||
        ((shift a b).toUInt16 <<< (8 : UInt16) ||| (shift b c).toUInt16) >>> (1 : UInt16)) &&&
          (0xff00 : UInt16)) >>> 8).toUInt8 = a ∧
      (((w &&& (0x0001 : UInt16)) <<< (15 : UInt16) |||
        ((shift a b).toUInt16 <<< (8 : UInt16) ||| (shift b c).toUInt16) >>> (1 : UInt16)) &&&
          (0x00ff : UInt16)).toUInt8 = b := by
  rw [hw]
  constructor
  all_goals
    apply UInt8.toBitVec_inj.mp
    ext i hi
    simp [shift, -UInt8.toUInt16_or, -UInt8.toUInt16_shiftLeft]
    interval_cases i <;> simp

theorem low_bit (x a b : UInt8) :
    (x.toUInt16 <<< (8 : UInt16) ||| (shift a b).toUInt16) &&& (0x0001 : UInt16) =
      (b >>> 7).toUInt16 := by
  apply UInt16.toBitVec_inj.mp
  ext i hi
  simp [shift, -UInt8.toUInt16_or, -UInt8.toUInt16_shiftLeft]
  interval_cases i <;> simp

theorem hibit_bit (mac : Vector UInt8 6) :
    (hibit mac).toUInt16 &&& (0x0001 : UInt16) = (swapBits mac[0] >>> 7).toUInt16 := by
  rw [hibit]
  generalize swapBits mac[0] = a
  apply UInt16.toBitVec_inj.mp
  ext i hi
  simp
  interval_cases i <;> simp

theorem swapBits_swapBits (x : UInt8) : swapBits (swapBits x) = x := by
  apply UInt8.toBitVec_inj.mp
  ext i hi
  simp [swapBits]
  interval_cases i <;> simp

/-- Only the bytes that `macphyter_write_mac` set are looked at. -/
theorem macphyterReadMac_run (mac : Vector UInt8 6) {n : Nat → UInt16}
    (hn : ∀ o, o < 20 → byteAt n o = (layout mac).getD o 0) :
    (macphyterReadMac chip).run n = (((0 : Int), mac), n) := by
  have hword := fun k (hk : 2 * k + 1 < 20) => show n k = _ by
    rw [word_eq n k, hn (2 * k + 1) hk, hn (2 * k) (by omega)]
  obtain ⟨r, hr⟩ : ∃ r, r = mac.map swapBits := ⟨_, rfl⟩
  have h7 : n 7 = (shift r[0] r[1]).toUInt16 <<< 8 ||| (shift r[1] r[2]).toUInt16 := by
    rw [hword 7 (by decide), hr]
    rfl
  have h8 : n 8 = (shift r[2] r[3]).toUInt16 <<< 8 ||| (shift r[3] r[4]).toUInt16 := by
    rw [hword 8 (by decide), hr]
    rfl
  have h9 : n 9 = (shift r[4] r[5]).toUInt16 <<< 8 ||| (shift r[5] 0).toUInt16 := by
    rw [hword 9 (by decide), hr, ← and_fe]
    rfl
  have h12 : byteAt n 12 = hibit mac := hn 12 (by decide)
  have hfirst : (hibit mac).toUInt16 &&& (0x0001 : UInt16) = (r[0] >>> 7).toUInt16 := by
    rw [hibit_bit, hr, Vector.getElem_map]
  obtain ⟨h0, h1⟩ := unshift r[0] r[1] r[2] hfirst
  obtain ⟨h2, h3⟩ := unshift r[2] r[3] r[4] (low_bit (shift r[0] r[1]) r[1] r[2])
  obtain ⟨h4, h5⟩ := unshift r[4] r[5] 0 (low_bit (shift r[2] r[3]) r[3] r[4])
  unfold macphyterReadMac
  rw [run_bind_of (macphyterReadWord_run (by decide) _ n),
    run_bind_of (macphyterReadWord_run (by decide) _ n),
    run_bind_of (macphyterReadWord_run (by decide) _ n),
    run_bind_of (macphyterReadByte_run (by decide) n), h7, h8, h9, h12]
  have hswap : ∀ i (hi : i < 6), swapBits r[i] = mac[i] := fun i hi => by
    rw [hr, Vector.getElem_map, swapBits_swapBits]
  refine congrArg (fun v : Vector UInt8 6 => (((0 : Int), v), n)) ?_
  ext1 i hi
  rw [Vector.getElem_map]
  interval_cases i
  · exact (congrArg swapBits h0).trans (hswap 0 hi)
  · exact (congrArg swapBits h1).trans (hswap 1 hi)
  · exact (congrArg swapBits h2).trans (hswap 2 hi)
  · exact (congrArg swapBits h3).trans (hswap 3 hi)
  · exact (congrArg swapBits h4).trans (hswap 4 hi)
  · exact (congrArg swapBits h5).trans (hswap 5 hi)

/-! ### The checksum -/

/-- The whole EEPROM, byte for byte. -/
def bytes (m : Nat → UInt16) : List UInt8 := (List.range (2 * eeSize)).map (byteAt m)

theorem sumAt_toNat (m : Nat → UInt16) (is : List Nat) (sum : UInt8) :
    (sumAt m is sum).toNat = (sum.toNat + total (is.map (byteAt m))) % 256 := by
  induction is generalizing sum with
  | nil => exact (Nat.mod_eq_of_lt sum.toNat_lt).symm
  | cons i is ih =>
    have hstep : sumAt m (i :: is) sum = sumAt m is (sum + byteAt m i) := rfl
    rw [hstep, ih, List.map_cons, total_cons, UInt8.toNat_add]
    omega

/-- The checksum stands for the byte before it, too. -/
theorem sumsToZero_setByte (m : Nat → UInt16) (h : byteAt m 22 = 0x55) :
    SumsToZero (bytes (setByte m 23 (0 - sumAt m (List.range 22) 0x55))) := by
  obtain ⟨c, hc⟩ : ∃ c, c = 0 - sumAt m (List.range 22) 0x55 := ⟨_, rfl⟩
  have hsum := sumAt_toNat m (List.range 22) 0x55
  have hrange : List.range (2 * eeSize) = List.range 22 ++ [22, 23] := by decide
  have hrest : (List.range 22).map (byteAt (setByte m 23 c)) = (List.range 22).map (byteAt m) := by
    apply List.map_congr_left
    intro i hi
    rw [byteAt_setByte, if_neg (Nat.ne_of_lt (Nat.lt_trans (List.mem_range.mp hi) (by decide)))]
  have hlast : [22, 23].map (byteAt (setByte m 23 c)) = [0x55, c] := by
    simp [h]
  have hneg : c.toNat = (256 - (sumAt m (List.range 22) 0x55).toNat) % 256 := by
    rw [hc, UInt8.toNat_sub]
    simp
  rw [← hc, SumsToZero, bytes, hrange, List.map_append, hrest, hlast, total_append, total_cons,
    total_cons, total_nil, hneg, hsum]
  have h55 : (0x55 : UInt8).toNat = 85 := rfl
  omega

/-- An address that has been written is read back, and the whole EEPROM sums to 0. -/
theorem macphyterWriteMac_stores (h : Stores e words) (mac : Vector UInt8 6) (s : σ) :
    ∃ s', (macphyterWriteMac e mac).run s = ((0 : Int), s') ∧
      ((macphyterReadMac e).run s').1 = ((0 : Int), mac) ∧ SumsToZero (bytes (words s')) := by
  obtain ⟨hval, hwords⟩ := (macphyterWriteMac_simulates h mac).run_eq (macphyterWriteMac_run mac _)
  refine ⟨_, Prod.ext hval rfl, ?_, ?_⟩
  · refine ((macphyterReadMac_simulates h).run_eq (macphyterReadMac_run mac ?_)).1
    intro o ho
    rw [hwords, byteAt_setByte, if_neg (by omega), byteAt_written _ mac (by omega)]
  · rw [hwords]
    exact sumsToZero_setByte _ (byteAt_written _ mac (by decide))

theorem chip_stores : Stores chip id := ⟨fun _ _ => ⟨rfl, rfl⟩, fun _ _ _ => ⟨rfl, rfl⟩⟩

/-- The address 00:10:e0:12:34:56 on an erased EEPROM. -/
theorem macphyterWriteMac_erased :
    ∃ n, (macphyterWriteMac chip #v[0x00, 0x10, 0xe0, 0x12, 0x34, 0x56]).run (fun _ => 0xffff) =
      ((0 : Int), n) ∧
      ((macphyterReadMac chip).run n).1 = ((0 : Int), #v[0x00, 0x10, 0xe0, 0x12, 0x34, 0x56]) ∧
        SumsToZero (bytes n) :=
  macphyterWriteMac_stores chip_stores _ _

end Macphyter
