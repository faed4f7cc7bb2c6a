import CobaltRom.Flash.Restore

/-! What every chip promises, and where its bytes are seen through the window. -/
namespace Flash
open Hoare

variable {σ : Type} {bus : Bus σ} {m m' : Machine σ} {bank : Int} {t : EepromType}

/-- What `reset` writes. -/
def Kind.resetByte : Kind → UInt8
  | .amd => 0xf0
  | .intel => 0xff

/-- A chip reads its array after a reset. Where a command is under way the first of two resets may
still be taken as its data. Nothing is promised of the status or of what a command does. -/
structure FlashChip (bus : Bus σ) (bank : Nat) (k : Kind) (size : Nat) where
  content : σ → Nat → UInt8
  reading : σ → Prop
  reset_reset : ∀ a b d, reading
    (bus.write (.flash bank b) k.resetByte (bus.write (.flash bank a) k.resetByte d))
  reset_reading : ∀ a d, reading d → reading (bus.write (.flash bank a) k.resetByte d) ∧
    content (bus.write (.flash bank a) k.resetByte d) = content d
  read_reading : ∀ a d, reading d → (bus.read (.flash bank a) d).1 = content d (a % size) ∧
    reading (bus.read (.flash bank a) d).2 ∧ content (bus.read (.flash bank a) d).2 = content d

/-! ### The window -/

/-- A board and a bank on it that the routines can work on, with the bank selected. -/
structure Machine.On (m : Machine σ) (bank : Int) (t : EepromType) : Prop where
  valid : m.Valid
  selected : m.eepromBank = bank
  known : m.board ≠ .unknown ∧ m.board ≠ .other5000
  rom : m.board ≠ .alpine → m.rom = windowAddr
  base : m.board = .alpine → m.flatRomBase = ~~~ (UInt32.ofInt (t.size - 1))
  chip : m.eeproms bank = some t

theorem Machine.On.of_static (h : m.On bank t) (hs : Static m m') (hv : m'.Valid)
    (hb : m'.eepromBank = m.eepromBank) : m'.On bank t := by
  constructor
  · exact hv
  · rw [hb]
    exact h.selected
  · rw [hs.board]
    exact h.known
  · intro hboard
    rw [hs.board] at hboard
    rw [hs.rom hboard]
    exact h.rom hboard
  · intro hboard
    rw [hs.board] at hboard
    rw [hs.base]
    exact h.base hboard
  · rw [hs.eeproms]
    exact h.chip

theorem Machine.On.of_window (h : m.On bank t) (hs : Static m m') (hw : m'.window = m.window) :
    m'.On bank t :=
  h.of_static hs (h.valid.of_window hs hw) (congrArg (fun w => w.1.1) hw)

theorem Machine.On.of_onlyDev (h : m.On bank t) (hd : OnlyDev m m') : m'.On bank t :=
  h.of_window hd.static hd.window

theorem Machine.On.setBankPage (h : m.On bank t) {page : Int} (hpage : 0 ≤ page ∧ page < 64) :
    (m.setBankPage m.eepromBank page).On bank t ∧
      (m.setBankPage m.eepromBank page).eepromPage = page := by
  have hstatic := static_setBankPage m.eepromBank page m
  have hvalid := h.valid.setBankPage hpage
  rcases setBankPage_cases h.valid page with ⟨hsame, hset⟩ | ⟨-, hset⟩
  · rw [hset]
    exact ⟨h, hsame.symm⟩
  · rw [hset] at hstatic hvalid ⊢
    exact ⟨h.of_static hstatic hvalid h.valid.char_bank, char_eq (by omega) (by omega)⟩

theorem setBankPage_dev (bank page : Int) (m : Machine σ) :
    (m.setBankPage bank page).dev = m.dev := by
  unfold Machine.setBankPage Machine.select
  split
  · rfl
  · cases m.board <;> rfl

theorem size_cases (ht : t ∈ eepromTypes) :
    t.size = 0x100000 ∨ t.size = 0x200000 ∨ t.size = 0x400000 := by
  have hall : ∀ t ∈ eepromTypes,
      t.size = 0x100000 ∨ t.size = 0x200000 ∨ t.size = 0x400000 := by decide
  exact hall t ht

/-- The copies fill the top 4M. -/
theorem copies_mod (ht : t ∈ eepromTypes) {a : Nat} (ha : a < t.size.toNat) :
    (0x400000 - t.size.toNat + a) % t.size.toNat = a := by
  have hsize : t.size.toNat = 0x100000 ∨ t.size.toNat = 0x200000 ∨ t.size.toNat = 0x400000 := by
    rcases size_cases ht with hs | hs | hs <;> simp [hs]
  rcases hsize with hs | hs | hs <;> rw [hs] at ha ⊢ <;> omega

theorem ofInt_toNat {x : Int} (h : 0 ≤ x ∧ x < 0x100) : (UInt8.ofInt x).toNat = x.toNat := by
  rw [UInt8.ofInt, UInt8.toNat_ofNat']
  omega

theorem selection_page {page : Int} (h : 0 ≤ page ∧ page < 64) (bank : Int) :
    (selection bank page &&& 0x3f).toNat = page.toNat := by
  have hbits : selection bank page &&& 0x3f = UInt8.ofInt page &&& 0x3f := by
    rw [selection]
    generalize UInt8.ofInt page = p
    generalize UInt8.ofInt bank = b
    apply UInt8.toBitVec_inj.mp
    ext i hi
    simp
    interval_cases i <;> simp
  rw [hbits, UInt8.toNat_and, ofInt_toNat (by omega)]
  change page.toNat &&& (2 ^ 6 - 1) = _
  rw [Nat.and_two_pow_sub_one_eq_mod]
  omega

theorem selection_bank (h : bank = 0 ∨ bank = 1) (page : Int) :
    (selection bank page >>> 6).toNat = bank.toNat := by
  have hbits : selection bank page >>> 6 = UInt8.ofInt bank &&& 0x1 := by
    rw [selection]
    generalize UInt8.ofInt page = p
    generalize UInt8.ofInt bank = b
    apply UInt8.toBitVec_inj.mp
    ext i hi
    simp
    interval_cases i <;> simp
  rw [hbits]
  rcases h with rfl | rfl <;> rfl

theorem toNat_ofInt_natCast {i : Nat} (h : i < romPagesize) :
    (UInt32.ofInt (i : Int)).toNat = i := by
  simp only [romPagesize] at h
  rw [UInt32.ofInt, UInt32.toNat_ofNat']
  omega

/-- On the boards with a page register the window shows the page that is selected. -/
theorem loc_of_sel {page : Int} (hboard : m.board ≠ .alpine) (hrom : m.rom = windowAddr)
    (hsel : m.sel = selection bank page) (hbank : bank = 0 ∨ bank = 1)
    (hpage : 0 ≤ page ∧ page < 64) {i : Nat} (hi : i < romPagesize) :
    m.loc (m.romAddr i) = .flash bank.toNat (page.toNat * romPagesize + i) := by
  have haddr : (m.romAddr i).toNat = windowAddr.toNat + i := by
    rw [Machine.romAddr, hrom, UInt32.toNat_add, toNat_ofInt_natCast hi]
    simp only [romPagesize] at hi
    change (4294901760 + i) % 4294967296 = 4294901760 + i
    omega
  have hle : windowAddr ≤ m.romAddr i := by
    rw [UInt32.le_iff_toNat_le, haddr]
    omega
  have hsub : (m.romAddr i - windowAddr).toNat = i := by
    rw [UInt32.toNat_sub_of_le _ _ hle, haddr]
    omega
  rw [Machine.loc, if_neg hboard, if_pos hle, hsel, selection_page hpage,
    selection_bank hbank, hsub]

theorem loc_paged (h : m.On bank t) (hboard : m.board ≠ .alpine) {i : Nat} (hi : i < romPagesize) :
    m.loc (m.romAddr i) = .flash bank.toNat (m.eepromPage.toNat * romPagesize + i) := by
  have hsel : m.sel = selection m.eepromBank m.eepromPage := by
    have hhw := congrArg Prod.fst h.valid.hw
    obtain ⟨hunknown, hother⟩ := h.known
    unfold Machine.hwFor at hhw
    cases hb : m.board with
    | pacifica | carmel | monterey =>
      rw [hb] at hhw
      exact hhw
    | alpine => exact absurd hb hboard
    | unknown => exact absurd hb hunknown
    | other5000 => exact absurd hb hother
  rw [h.selected] at hsel
  exact loc_of_sel hboard (h.rom hboard) hsel (h.selected ▸ h.valid.bank) h.valid.page hi

/-- On an Alpine board the pointer leads to the page, in the last of the copies of the chip that
fill the top 4M. -/
theorem loc_alpine (h : m.On bank t) (ht : t ∈ eepromTypes) (hboard : m.board = .alpine) {i : Nat}
    (hi : m.eepromPage.toNat * romPagesize + i < t.size.toNat) :
    m.loc (m.romAddr i) =
      .flash bank.toNat (0x400000 - t.size.toNat + (m.eepromPage.toNat * romPagesize + i)) := by
  have hbank : bank = 0 := h.selected.symm.trans (h.valid.alpine hboard)
  have hrom : m.rom = m.flatRomBase + UInt32.ofInt (m.eepromPage * romPagesize) := by
    have hhw := congrArg Prod.snd h.valid.hw
    rw [Machine.hwFor, hboard] at hhw
    exact hhw
  have hbase : m.flatRomBase.toNat = 0x100000000 - t.size.toNat := by
    rw [h.base hboard]
    rcases size_cases ht with hs | hs | hs <;> rw [hs] <;> rfl
  have hpage := h.valid.page
  have hsize : t.size.toNat ≤ 0x400000 := by
    rcases size_cases ht with hs | hs | hs <;> rw [hs] <;> decide
  have haddr : (m.romAddr i).toNat =
      0x100000000 - t.size.toNat + (m.eepromPage.toNat * romPagesize + i) := by
    simp only [Machine.romAddr, hrom, romPagesize, UInt32.toNat_add, UInt32.ofInt,
      UInt32.toNat_ofNat', hbase] at hi ⊢
    omega
  have hflat : flatRomBaseAddr.toNat = 0xffc00000 := rfl
  have hle : flatRomBaseAddr ≤ m.romAddr i := by
    rw [UInt32.le_iff_toNat_le, haddr, hflat]
    omega
  have hsub : (m.romAddr i - flatRomBaseAddr).toNat =
      0x400000 - t.size.toNat + (m.eepromPage.toNat * romPagesize + i) := by
    rw [UInt32.toNat_sub_of_le _ _ hle, haddr, hflat]
    omega
  rw [Machine.loc, if_pos hboard, if_pos hle, hsub, hbank]
  rfl

/-- What `rom[i]` leads to. -/
theorem Machine.On.loc (h : m.On bank t) (ht : t ∈ eepromTypes) {i : Nat} (hi : i < romPagesize)
    (hpage : m.eepromPage.toNat * romPagesize + i < t.size.toNat) :
    ∃ a, m.loc (m.romAddr i) = .flash bank.toNat a ∧
      a % t.size.toNat = m.eepromPage.toNat * romPagesize + i := by
  by_cases hboard : m.board = .alpine
  · exact ⟨_, loc_alpine h ht hboard hpage, copies_mod ht hpage⟩
  · exact ⟨_, loc_paged h hboard hi, Nat.mod_eq_of_lt hpage⟩

end Flash
