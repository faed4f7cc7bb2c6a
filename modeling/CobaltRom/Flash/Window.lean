import CobaltRom.Lib.Hoare

/-! The flash chips behind the ROM window, and how bank and page are selected (`eeprom.c`). -/
namespace Flash
open Hoare

inductive Systype where
  | unknown
  | s3000
  | s5000
  deriving DecidableEq, Repr

/-- The boards as `systype_init` tells them apart; each belongs to one series. -/
inductive Board where
  | unknown
  | pacifica
  | carmel
  | monterey
  | alpine
  | other5000
  deriving DecidableEq, Repr

def Board.systype : Board → Systype
  | unknown => .unknown
  | pacifica | carmel => .s3000
  | monterey | alpine | other5000 => .s5000

/-- What a pointer leads to: a byte of a flash chip or something else. -/
inductive Loc where
  | flash (bank addr : Nat)
  | other (addr : UInt32)
  deriving DecidableEq, Repr

/-- The chips and the rest of the memory, with any behaviour. -/
structure Bus (σ : Type) where
  read : Loc → σ → UInt8 × σ
  write : Loc → UInt8 → σ → σ

/-- The two families of routines in the table of chips. -/
inductive Kind where
  | amd
  | intel
  deriving DecidableEq, Repr

/-- An entry of the table; `kind` stands for the six functions, all of one family or all NULL. -/
structure EepromType where
  vendorId : UInt8
  deviceId : UInt8
  size : Int
  name : String
  kind : Option Kind
  deriving DecidableEq, Repr

/-- `size >> 16`. -/
def EepromType.blocks (t : EepromType) : Int := t.size >>> (16 : Nat)

abbrev eepromMaxBanks : Int := 2
abbrev romPagesize : Nat := 0x10000
abbrev maxTimeout : Nat := 0x07ffffff
abbrev windowAddr : UInt32 := 0xffff0000
abbrev flatRomBaseAddr : UInt32 := 0xffc00000

def eepromTypes : List EepromType :=
  [⟨0x01, 0xd5, 0x00100000, "AMD AM29F080B", some .amd⟩,
    ⟨0x01, 0xad, 0x00200000, "AMD AM29F016B", some .amd⟩,
    ⟨0x01, 0x3d, 0x00200000, "AMD AM29F017B - untested", some .amd⟩,
    ⟨0x01, 0x41, 0x00400000, "AMD AM29F032B", some .amd⟩,
    ⟨0x89, 0xa6, 0x00100000, "Intel E28F008S5/Sharp LM28F008SCT", some .intel⟩,
    ⟨0x89, 0xaa, 0x00200000, "Intel E28F016S5/Sharp LM28016SCT", some .intel⟩,
    ⟨0x20, 0xf1, 0x00100000, "ST Microelectronics M29F080A", some .amd⟩,
    ⟨0xad, 0xd5, 0x00100000, "Hyundai HY29F080", some .amd⟩]

def unknownType : EepromType := ⟨0x00, 0x00, 0x00000000, "Unknown flash module", none⟩

/-- The variables of `eeprom.c`, the registers that select bank and page (0xb8 of PCI function
0:3.0 on a 3000, port 0x900 on a Monterey board) and what is on the bus. -/
structure Machine (σ : Type) where
  board : Board
  pageReg : UInt16
  pagePort : UInt8
  rom : UInt32
  flatRomBase : UInt32
  eepromBank : Int
  eepromPage : Int
  eepromFsOffset : Int
  eeproms : Int → Option EepromType
  eepromIds : Int → UInt32
  dev : σ

abbrev FlashM (σ : Type) := StateT (Machine σ) Option

variable {σ : Type}

/-- `(char)x`. -/
def char (x : Int) : Int := (Int8.ofInt x).toInt

/-! ### The window -/

/-- `(page & 0x3f) | ((bank & 0x1) << 6)`. -/
def selection (bank page : Int) : UInt8 :=
  (UInt8.ofInt page &&& (0x3f : UInt8)) ||| ((UInt8.ofInt bank &&& (0x1 : UInt8)) <<< (6 : UInt8))

namespace Machine

/-- The bank and page that the hardware has selected. -/
def sel (m : Machine σ) : UInt8 :=
  match m.board with
  | .pacifica | .carmel => m.pageReg.toUInt8 &&& 0x7f
  | .monterey => m.pagePort &&& 0x7f
  | _ => 0

/-- Where a pointer leads: on an Alpine board the flash fills the top 4M, on the others the top 64K
are the selected page. -/
def loc (m : Machine σ) (p : UInt32) : Loc :=
  if m.board = .alpine then
    if flatRomBaseAddr ≤ p then .flash 0 (p - flatRomBaseAddr).toNat else .other p
  else if windowAddr ≤ p then
    .flash (m.sel >>> 6).toNat ((m.sel &&& 0x3f).toNat * romPagesize + (p - windowAddr).toNat)
  else .other p

/-- The address of `rom[i]`. -/
def romAddr (m : Machine σ) (i : Int) : UInt32 := m.rom + UInt32.ofInt i

/-- Set the registers, or the pointer, and note what has been set. -/
def select (bank page : Int) (m : Machine σ) : Machine σ :=
  let m := match m.board with
    | .pacifica | .carmel =>
      { m with pageReg := (m.pageReg &&& 0xff80) ||| (selection bank page).toUInt16 }
    | .monterey => { m with pagePort := selection bank page }
    | .alpine => { m with rom := m.flatRomBase + UInt32.ofInt (page * romPagesize) }
    | _ => m
  { m with
    eepromBank := char bank
    eepromPage := char page }

end Machine

/-- `rom[i]` read. -/
def romRead (bus : Bus σ) (i : Int) : FlashM σ UInt8 := do
  let m ← get
  let (v, dev) := bus.read (m.loc (m.romAddr i)) m.dev
  set { m with dev := dev }
  pure v

/-- `rom[i] = v`. -/
def romWrite (bus : Bus σ) (i : Int) (v : UInt8) : FlashM σ Unit := do
  let m ← get
  set { m with dev := bus.write (m.loc (m.romAddr i)) v m.dev }

/-- The delay for the page register is left out. -/
def eepromSetBankPage (bank page : Int) : FlashM σ Int := do
  let m ← get
  if bank ≥ eepromMaxBanks then pure (-1)
  else if m.board = .alpine ∧ bank ≠ 0 then pure (-1)
  else if m.eepromBank = bank ∧ m.eepromPage = page then pure 0
  else do
    set (m.select bank page)
    pure 0

/-! ### What the three calls change -/

/-- Nothing but the chips and the memory may differ. -/
def OnlyDev (m m' : Machine σ) : Prop := m' = { m with dev := m'.dev }

variable {m m' : Machine σ} {bus : Bus σ} {bank page i : Int} {v : UInt8}

instance : Std.Refl (OnlyDev (σ := σ)) := ⟨fun _ => rfl⟩

instance : IsTrans (Machine σ) OnlyDev := ⟨fun _ _ _ h h' => by
  rw [OnlyDev] at h h' ⊢
  rw [h', h]⟩

theorem romRead_run (bus : Bus σ) (i : Int) (m : Machine σ) : (romRead bus i).run m =
    some ((bus.read (m.loc (m.romAddr i)) m.dev).1,
      { m with dev := (bus.read (m.loc (m.romAddr i)) m.dev).2 }) := rfl

/-- The state `rom[i] = v` leaves. -/
def Machine.poke (bus : Bus σ) (i : Int) (v : UInt8) (m : Machine σ) : Machine σ :=
  { m with dev := bus.write (m.loc (m.romAddr i)) v m.dev }

theorem run_romWrite_bind {β : Type} (bus : Bus σ) (i : Int) (v : UInt8) (q : FlashM σ β)
    (m : Machine σ) : (romWrite bus i v >>= fun _ => q).run m = q.run (m.poke bus i v) := rfl

/-- Several writes, as for a command. -/
def Machine.pokes (bus : Bus σ) (l : List (Int × UInt8)) (m : Machine σ) : Machine σ :=
  l.foldl (fun m x => m.poke bus x.1 x.2) m

theorem poke_onlyDev (bus : Bus σ) (i : Int) (v : UInt8) (m : Machine σ) :
    OnlyDev m (m.poke bus i v) := rfl

theorem pokes_onlyDev (bus : Bus σ) (l : List (Int × UInt8)) (m : Machine σ) :
    OnlyDev m (m.pokes bus l) := by
  induction l generalizing m with
  | nil => exact Std.Refl.refl m
  | cons x l ih => exact IsTrans.trans m _ _ (poke_onlyDev bus x.1 x.2 m) (ih _)

theorem romRead_onlyDev (bus : Bus σ) (i : Int) : Keeps OnlyDev (romRead bus i) := by
  intro m v m' h
  cases h
  rfl

theorem romWrite_onlyDev (bus : Bus σ) (i : Int) (v : UInt8) :
    Keeps OnlyDev (romWrite bus i v) := by
  intro m u m' h
  cases h
  rfl

/-- The state `eeprom_set_bank_page` leaves. -/
def Machine.setBankPage (bank page : Int) (m : Machine σ) : Machine σ :=
  if bank ≥ eepromMaxBanks ∨ (m.board = .alpine ∧ bank ≠ 0) ∨
    (m.eepromBank = bank ∧ m.eepromPage = page) then m
  else m.select bank page

theorem eepromSetBankPage_run (bank page : Int) (m : Machine σ) :
    ∃ r, (eepromSetBankPage bank page).run m = some (r, m.setBankPage bank page) := by
  unfold eepromSetBankPage Machine.setBankPage
  by_cases hbank : bank ≥ eepromMaxBanks
  · refine ⟨-1, ?_⟩
    rw [if_pos (Or.inl hbank)]
    change StateT.run (if bank ≥ eepromMaxBanks then _ else _) m = _
    rw [if_pos hbank]
    rfl
  · change ∃ r, StateT.run (if bank ≥ eepromMaxBanks then _ else _) m = _
    rw [if_neg hbank]
    by_cases halpine : m.board = .alpine ∧ bank ≠ 0
    · refine ⟨-1, ?_⟩
      rw [if_pos halpine, if_pos (Or.inr (Or.inl halpine))]
      rfl
    · refine ⟨0, ?_⟩
      rw [if_neg halpine]
      by_cases hsame : m.eepromBank = bank ∧ m.eepromPage = page
      · rw [if_pos hsame, if_pos (Or.inr (Or.inr hsame))]
        rfl
      · rw [if_neg hsame, if_neg fun h => h.elim hbank fun h => h.elim halpine hsame]
        rfl

/-- `eeprom_set_bank_page` always returns, and its result is never looked at. -/
theorem run_setBankPage_bind {β : Type} (bank page : Int) (q : FlashM σ β) (m : Machine σ) :
    (eepromSetBankPage bank page >>= fun _ => q).run m = q.run (m.setBankPage bank page) := by
  obtain ⟨r, hr⟩ := eepromSetBankPage_run bank page m
  exact run_bind_some hr

theorem setBankPage_eeproms (bank page : Int) (m : Machine σ) :
    (m.setBankPage bank page).eeproms = m.eeproms := by
  unfold Machine.setBankPage Machine.select
  split
  · rfl
  · cases m.board <;> rfl

theorem run_restore (p : FlashM σ Int) (bank page : Int) (m : Machine σ) :
    (p >>= fun r => eepromSetBankPage bank page >>= fun _ => pure r).run m =
      (p.run m).map fun x => (x.1, x.2.setBankPage bank page) := by
  rw [StateT.run_bind]
  cases p.run m with
  | none => rfl
  | some x => exact run_setBankPage_bind bank page (pure x.1) x.2

/-! ### The selection -/

theorem char_eq {x : Int} (hlow : -128 ≤ x) (hhigh : x < 128) : char x = x :=
  Int8.toInt_ofInt_of_le hlow hhigh

theorem char_emod (x : Int) : char x % 256 = x % 256 := by
  rw [char, Int8.toInt_ofInt]
  exact Int.bmod_emod

theorem char_bounds (x : Int) : -128 ≤ char x ∧ char x < 128 :=
  ⟨Int8.le_toInt _, Int8.toInt_lt _⟩

theorem ofInt_char (x : Int) : UInt8.ofInt (char x) = UInt8.ofInt x :=
  congrArg (fun z : Int => UInt8.ofNat z.toNat) (char_emod x)

@[simp] theorem selection_char (bank page : Int) :
    selection (char bank) (char page) = selection bank page := by
  rw [selection, ofInt_char, ofInt_char, selection]

theorem selection_le (bank page : Int) : selection bank page &&& 0x7f = selection bank page := by
  rw [selection]
  generalize UInt8.ofInt page = p
  generalize UInt8.ofInt bank = b
  apply UInt8.toBitVec_inj.mp
  ext i hi
  simp
  interval_cases i <;> simp

end Flash
