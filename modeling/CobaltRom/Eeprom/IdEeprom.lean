import CobaltRom.Lib.Simulates
import CobaltRom.Lib.WordBytes

/-! The serial EEPROM with the identity of the board (`id_eeprom.c`). -/
namespace IdEeprom

open WordBytes

/-- The calls of `i2c.c` on single bytes and words. -/
structure I2c (σ : Type) where
  readByte : Int → Int → StateM σ Int
  readWord : Int → Int → StateM σ Int
  writeByte : Int → Int → UInt32 → StateM σ Int
  writeWord : Int → Int → UInt32 → StateM σ Int

abbrev idEepromDev : Int := 0xae
abbrev idEepromBoardtype : Int := 0
abbrev idEepromBoardrev : Int := 4
abbrev idEepromManufDate : Int := 8
abbrev idEepromScratch : Int := 127

variable {σ : Type} {b : I2c σ} {cells : σ → UInt8 → UInt8} {index : Int} {val : UInt32}
  {m : UInt8 → UInt8} {s : σ}

def getFieldSize (index : Int) : Int :=
  if index = idEepromScratch then 1
  else if index = idEepromBoardtype ∨ index = idEepromBoardrev ∨ index = idEepromManufDate then 4
  else -1

def idEepromRead (b : I2c σ) (index : Int) : StateM σ UInt32 := do
  let size := getFieldSize index
  if size < 0 then pure 0
  else if size = 1 then do
    let r ← b.readByte idEepromDev index
    pure (UInt32.ofInt r)
  else if size = 2 then do
    let r ← b.readWord idEepromDev index
    pure (UInt32.ofInt r)
  else if size = 4 then do
    let r3 ← b.readByte idEepromDev index
    let r2 ← b.readByte idEepromDev (index + 1)
    let r1 ← b.readByte idEepromDev (index + 2)
    let r0 ← b.readByte idEepromDev (index + 3)
    pure (UInt32.ofInt r3 <<< 24 ||| UInt32.ofInt r2 <<< 16 ||| UInt32.ofInt r1 <<< 8 |||
      UInt32.ofInt r0)
  else pure 0

def idEepromWrite (b : I2c σ) (index : Int) (val : UInt32) : StateM σ Int := do
  let size := getFieldSize index
  if size < 0 then pure (-1)
  else if size = 1 then b.writeByte idEepromDev index (val &&& 0xff)
  else if size = 2 then b.writeWord idEepromDev index (val &&& 0xffff)
  else if size = 4 then do
    let e3 ← b.writeByte idEepromDev index ((val >>> 24) &&& 0xff)
    let e2 ← b.writeByte idEepromDev index ((val >>> 16) &&& 0xff)
    let e1 ← b.writeByte idEepromDev index ((val >>> 8) &&& 0xff)
    let e0 ← b.writeByte idEepromDev index (val &&& 0xff)
    pure (e3 + e2 + e1 + e0)
  else pure (-1)

/-! ### A chip that keeps what is written -/

/-- 256 bytes; the eight low bits of an index count. -/
def chip : I2c (UInt8 → UInt8) where
  readByte _ index := do
    let m ← get
    pure (m (UInt8.ofInt index)).toNat
  readWord _ index := do
    let m ← get
    pure ((m (UInt8.ofInt index)).toNat + 256 * (m (UInt8.ofInt (index + 1))).toNat)
  writeByte _ index v := do
    modify fun m => Function.update m (UInt8.ofInt index) v.toUInt8
    pure 0
  writeWord _ index v := do
    modify fun m => Function.update (Function.update m (UInt8.ofInt index) v.toUInt8)
      (UInt8.ofInt (index + 1)) (v >>> 8).toUInt8
    pure 0

/-- "Byte writes store and byte reads return the stored byte." -/
structure Stores (b : I2c σ) (cells : σ → UInt8 → UInt8) : Prop where
  readByte : ∀ index, Simulates cells (b.readByte idEepromDev index)
    (chip.readByte idEepromDev index)
  writeByte : ∀ index v,
    Simulates cells (b.writeByte idEepromDev index v) (chip.writeByte idEepromDev index v)

/-- No field is a word. -/
theorem getFieldSize_cases (index : Int) :
    getFieldSize index = -1 ∨ getFieldSize index = 1 ∨ getFieldSize index = 4 := by
  unfold getFieldSize
  split
  · exact Or.inr (Or.inl rfl)
  · split
    · exact Or.inr (Or.inr rfl)
    · exact Or.inl rfl

theorem idEepromRead_simulates (hb : Stores b cells) (index : Int) :
    Simulates cells (idEepromRead b index) (idEepromRead chip index) := by
  refine .ite (fun _ => .pure _) fun hneg => .ite (fun _ => ?_) fun h1 =>
    .ite (fun h2 => ?_) fun _ =>
    .ite (fun _ => ?_) fun _ => .pure _
  · exact .bind (hb.readByte _) fun _ => .pure _
  · rcases getFieldSize_cases index with h | h | h <;> omega
  · exact .bind (hb.readByte _) fun _ => .bind (hb.readByte _) fun _ =>
      .bind (hb.readByte _) fun _ =>
      .bind (hb.readByte _) fun _ => .pure _

theorem idEepromWrite_simulates (hb : Stores b cells) (index : Int) (val : UInt32) :
    Simulates cells (idEepromWrite b index val) (idEepromWrite chip index val) := by
  refine .ite (fun _ => .pure _) fun hneg => .ite (fun _ => ?_) fun h1 =>
    .ite (fun h2 => ?_) fun _ =>
    .ite (fun _ => ?_) fun _ => .pure _
  · exact hb.writeByte _ _
  · rcases getFieldSize_cases index with h | h | h <;> omega
  · exact .bind (hb.writeByte _ _) fun _ => .bind (hb.writeByte _ _) fun _ =>
      .bind (hb.writeByte _ _) fun _ => .bind (hb.writeByte _ _) fun _ => .pure _

/-! ### Written and read back -/

/-- The value cut down to the size of its field. -/
def reduced (index : Int) (val : UInt32) : UInt32 :=
  if getFieldSize index = 1 then val &&& 0xff else val

/-- A byte of the field. -/
def InField (index : Int) (a : UInt8) : Prop :=
  index ≤ a.toNat ∧ a.toNat < index + getFieldSize index

instance (index : Int) (a : UInt8) : Decidable (InField index a) :=
  inferInstanceAs (Decidable (_ ∧ _))

def writeRead (b : I2c σ) (index : Int) (val : UInt32) : StateM σ UInt32 := do
  let _ ← idEepromWrite b index val
  idEepromRead b index

/-- The value comes back and nothing outside of the field has changed. -/
structure RoundTrip (b : I2c σ) (cells : σ → UInt8 → UInt8) (index : Int) (val : UInt32) (s : σ) :
    Prop where
  value : ((writeRead b index val).run s).1 = reduced index val
  frame : ∀ a, ¬ InField index a → cells ((writeRead b index val).run s).2 a = cells s a

/-- What the first byte of the field gets, the last of the four, is all that is written: the
others have to be there already. -/
def AlreadyThere (m : UInt8 → UInt8) (index : Int) (val : UInt32) : Prop :=
  val.toUInt8 = (val >>> 24).toUInt8 ∧ m (UInt8.ofInt (index + 1)) = (val >>> 16).toUInt8 ∧
    m (UInt8.ofInt (index + 2)) = (val >>> 8).toUInt8 ∧ m (UInt8.ofInt (index + 3)) = val.toUInt8

theorem ofInt_byte (x : UInt8) : UInt32.ofInt (x.toNat : Int) = x.toUInt32 := by
  apply UInt32.toNat_inj.mp
  have := x.toNat_lt
  simp [UInt32.ofInt]
  omega

theorem low_byte (v : UInt32) : (v &&& 0xff).toUInt8 = v.toUInt8 := by
  apply UInt8.toBitVec_inj.mp
  ext i hi
  simp
  interval_cases i <;> simp

theorem low_word (v : UInt32) : v.toUInt8.toUInt32 = v &&& 0xff := by
  apply UInt32.toNat_inj.mp
  have := Nat.and_two_pow_sub_one_eq_mod v.toNat 8
  simp at this ⊢
  exact this.symm

/-- The bytes of a longer field all go to its first address. -/
theorem idEepromWrite_word (hsize : getFieldSize index = 4) (m : UInt8 → UInt8) (val : UInt32) :
    (idEepromWrite chip index val).run m =
      (0, Function.update m (UInt8.ofInt index) val.toUInt8) := by
  have hrun : (idEepromWrite chip index val).run m = ((0 : Int), Function.update (Function.update
      (Function.update (Function.update m (UInt8.ofInt index) ((val >>> 24) &&& 0xff).toUInt8)
        (UInt8.ofInt index) ((val >>> 16) &&& 0xff).toUInt8) (UInt8.ofInt index)
          ((val >>> 8) &&& 0xff).toUInt8) (UInt8.ofInt index) (val &&& 0xff).toUInt8) := by
    unfold idEepromWrite
    rw [hsize]
    rfl
  rw [hrun, Function.update_idem, Function.update_idem, Function.update_idem, low_byte]

theorem idEepromRead_word (hsize : getFieldSize index = 4) (m : UInt8 → UInt8) :
    (idEepromRead chip index).run m = (be32 (m (UInt8.ofInt index)) (m (UInt8.ofInt (index + 1)))
      (m (UInt8.ofInt (index + 2))) (m (UInt8.ofInt (index + 3))), m) := by
  unfold idEepromRead be32
  rw [hsize, ← ofInt_byte, ← ofInt_byte, ← ofInt_byte, ← ofInt_byte]
  rfl

theorem fieldSize_scratch (h : getFieldSize index = 1) : index = idEepromScratch := by
  by_contra hne
  have hnot : getFieldSize index ≠ 1 := by
    rw [getFieldSize, if_neg hne]
    split <;> decide
  exact hnot h

theorem fieldSize_word (h : getFieldSize index = 4) : index = 0 ∨ index = 4 ∨ index = 8 := by
  by_contra hne
  have hnot : getFieldSize index ≠ 4 := by
    rw [getFieldSize, if_neg hne]
    split <;> decide
  exact hnot h

theorem writeRead_byte (m : UInt8 → UInt8) (val : UInt32) :
    (writeRead chip idEepromScratch val).run m =
      (val &&& 0xff, Function.update m 127 val.toUInt8) := by
  have hrun : (writeRead chip idEepromScratch val).run m =
      (UInt32.ofInt ((Function.update m 127 (val &&& 0xff).toUInt8 127).toNat : Int),
        Function.update m 127 (val &&& 0xff).toUInt8) := rfl
  rw [hrun, low_byte, Function.update_self, ofInt_byte, low_word]

/-- The other bytes of the field are read as they were. -/
theorem writeRead_word (hsize : getFieldSize index = 4) (m : UInt8 → UInt8) (val : UInt32) :
    (writeRead chip index val).run m = (be32 val.toUInt8 (m (UInt8.ofInt (index + 1)))
      (m (UInt8.ofInt (index + 2))) (m (UInt8.ofInt (index + 3))),
        Function.update m (UInt8.ofInt index) val.toUInt8) := by
  unfold writeRead
  rw [run_bind_of (idEepromWrite_word hsize m val), idEepromRead_word hsize, Function.update_self]
  rcases fieldSize_word hsize with rfl | rfl | rfl
  all_goals
    rw [Function.update_of_ne (by decide), Function.update_of_ne (by decide),
      Function.update_of_ne (by decide)]

theorem writeRead_simulates (hb : Stores b cells) (index : Int) (val : UInt32) :
    Simulates cells (writeRead b index val) (writeRead chip index val) :=
  .bind (idEepromWrite_simulates hb index val) fun _ => idEepromRead_simulates hb index

theorem inField_first (h : 0 ≤ getFieldSize index) : InField index (UInt8.ofInt index) := by
  rcases getFieldSize_cases index with hs | hs | hs
  · omega
  · obtain rfl := fieldSize_scratch hs
    decide
  · rcases fieldSize_word hs with rfl | rfl | rfl <;> decide

theorem frame_first (h : 0 ≤ getFieldSize index) (v : UInt8) {a : UInt8} (ha : ¬ InField index a) :
    Function.update m (UInt8.ofInt index) v a = m a := by
  apply Function.update_of_ne
  rintro rfl
  exact ha (inField_first h)

/-- A single byte comes back, and of a longer field what was not to be changed. -/
theorem idEeprom_roundTrip_iff (hb : Stores b cells) (hsize : 0 ≤ getFieldSize index)
    (val : UInt32) (s : σ) :
    RoundTrip b cells index val s ↔ getFieldSize index = 1 ∨ AlreadyThere (cells s) index val := by
  have hsim := writeRead_simulates hb index val
  rcases getFieldSize_cases index with hs | hs | hs
  · omega
  · refine iff_of_true ?_ (Or.inl hs)
    obtain rfl := fieldSize_scratch hs
    obtain ⟨hval, hcells⟩ := hsim.run_eq (writeRead_byte (cells s) val)
    constructor
    · rw [hval]
      rfl
    · intro a ha
      have hframe : Function.update (cells s) _ _ a = cells s a := frame_first hsize val.toUInt8 ha
      rw [hcells]
      exact hframe
  · obtain ⟨hval, hcells⟩ := hsim.run_eq (writeRead_word hs (cells s) val)
    have hred : reduced index val = val := if_neg (by omega)
    have hiff : be32 val.toUInt8 (cells s (UInt8.ofInt (index + 1)))
      (cells s (UInt8.ofInt (index + 2)))
        (cells s (UInt8.ofInt (index + 3))) = val ↔ AlreadyThere (cells s) index val :=
      be32_eq_iff _ _ _ _ _
    constructor
    · rintro ⟨hvalue, -⟩
      rw [hval, hred] at hvalue
      exact Or.inr (hiff.mp hvalue)
    · rintro (h1 | hthere)
      · omega
      · refine ⟨?_, fun a ha => ?_⟩
        · rw [hval, hred]
          exact hiff.mpr hthere
        · rw [hcells]
          exact frame_first hsize _ ha

theorem chip_stores : Stores chip id := ⟨fun _ _ => ⟨rfl, rfl⟩, fun _ _ _ => ⟨rfl, rfl⟩⟩

theorem idEeprom_roundTrip_scratch : RoundTrip chip id idEepromScratch 0x55 fun _ => 0xff :=
  (idEeprom_roundTrip_iff chip_stores (by decide) _ _).mpr (Or.inl rfl)

/-- The board revision 0x12345678 on an erased chip comes back as 0x78ffffff. -/
theorem idEeprom_roundTrip_erased : 0 ≤ getFieldSize idEepromBoardrev ∧ Stores chip id ∧
    ¬ RoundTrip chip id idEepromBoardrev 0x12345678 fun _ => 0xff := by
  refine ⟨by decide, chip_stores, ?_⟩
  rintro ⟨hvalue, -⟩
  rw [writeRead_word rfl] at hvalue
  exact absurd hvalue (by decide)

end IdEeprom
