import CobaltRom.Flash.Routines

/-! Bank and page after a routine has ended are what they were before. -/
namespace Flash
open Hoare

variable {σ : Type} {bus : Bus σ} {m m' m₁ : Machine σ} {bank page : Int} {fuel n : Nat}

/-- What the hardware has selected: the register, or the pointer. -/
def Machine.hw (m : Machine σ) : UInt8 × UInt32 := (m.sel, m.rom)

/-- What the hardware would have selected for a bank and page. -/
def Machine.hwFor (m : Machine σ) (bank page : Int) : UInt8 × UInt32 :=
  match m.board with
  | .pacifica | .carmel | .monterey => (selection bank page, m.rom)
  | .alpine => (0, m.flatRomBase + UInt32.ofInt (page * romPagesize))
  | _ => (0, m.rom)

/-- The variables and what they stand for. -/
def Machine.window (m : Machine σ) : (Int × Int) × UInt8 × UInt32 :=
  ((m.eepromBank, m.eepromPage), m.hw)

/-- A selection `eeprom_set_bank_page` can have made, of an installed chip's bank. -/
structure Machine.Valid (m : Machine σ) : Prop where
  bank : m.eepromBank = 0 ∨ m.eepromBank = 1
  alpine : m.board = .alpine → m.eepromBank = 0
  page : 0 ≤ m.eepromPage ∧ m.eepromPage < 64
  hw : m.hw = m.hwFor m.eepromBank m.eepromPage
  chips : ∀ bank t, m.eeproms bank = some t → t ∈ eepromTypes ∨ t = unknownType

/-- The board and its chips are the same. -/
structure Static (m m' : Machine σ) : Prop where
  board : m'.board = m.board
  base : m'.flatRomBase = m.flatRomBase
  eeproms : m'.eeproms = m.eeproms
  rom : m.board ≠ .alpine → m'.rom = m.rom

instance : Std.Refl (Static (σ := σ)) := ⟨fun _ => ⟨rfl, rfl, rfl, fun _ => rfl⟩⟩

theorem Static.trans (h : Static m m₁) (h' : Static m₁ m') : Static m m' :=
  ⟨h'.board.trans h.board, h'.base.trans h.base, h'.eeproms.trans h.eeproms, fun hb =>
    (h'.rom fun ha => hb (h.board ▸ ha)).trans (h.rom hb)⟩

theorem Static.hwFor (h : Static m m') (bank page : Int) :
    m'.hwFor bank page = m.hwFor bank page := by
  unfold Machine.hwFor
  rw [h.board, h.base]
  cases hb : m.board with
  | alpine => rfl
  | unknown | pacifica | carmel | monterey | other5000 => simp [h.rom (by simp [hb])]

theorem static_select (bank page : Int) (m : Machine σ) : Static m (m.select bank page) := by
  obtain ⟨board, -, -, -, -, -, -, -, -, -, -⟩ := m
  cases board with
  | alpine => exact ⟨rfl, rfl, rfl, fun h => absurd rfl h⟩
  | unknown | pacifica | carmel | monterey | other5000 => exact ⟨rfl, rfl, rfl, fun _ => rfl⟩

theorem page_bits (r : UInt16) (bank page : Int) :
    (((r &&& 0xff80) ||| (selection bank page).toUInt16).toUInt8 &&& (0x7f : UInt8)) =
      selection bank page := by
  rw [← selection_le]
  generalize selection bank page = s
  apply UInt8.toBitVec_inj.mp
  ext i hi
  simp
  interval_cases i <;> simp

/-- Selecting does what it is for. -/
theorem select_hw (bank page : Int) (m : Machine σ) :
    (m.select bank page).hw = m.hwFor bank page := by
  obtain ⟨board, reg, -, rom, -, -, -, -, -, -, -⟩ := m
  cases board with
  | pacifica | carmel => exact congrArg (·, rom) (page_bits reg bank page)
  | monterey => exact congrArg (·, rom) (selection_le bank page)
  | unknown | alpine | other5000 => rfl

theorem static_setBankPage (bank page : Int) (m : Machine σ) :
    Static m (m.setBankPage bank page) := by
  unfold Machine.setBankPage
  split
  · exact Std.Refl.refl m
  · exact static_select bank page m

theorem OnlyDev.static (h : OnlyDev m m') : Static m m' := by
  rw [h]
  exact ⟨rfl, rfl, rfl, fun _ => rfl⟩

theorem OnlyDev.window (h : OnlyDev m m') : m'.window = m.window := by
  rw [h]
  rfl

/-! ### The way back -/

/-- The way back fails only where it is taken to be there already. -/
theorem back_window (hm : m.Valid) (hs : Static m m₁) :
    (m₁.setBankPage m.eepromBank m.eepromPage).window = m.window ↔
      (m₁.eepromBank = m.eepromBank → m₁.eepromPage = m.eepromPage → m₁.hw = m.hw) := by
  have hmax : ¬ m.eepromBank ≥ eepromMaxBanks := by
    rcases hm.bank with h | h <;> rw [h] <;> decide
  have halpine : ¬ (m₁.board = .alpine ∧ m.eepromBank ≠ 0) := fun h =>
    h.2 (hm.alpine (hs.board ▸ h.1))
  unfold Machine.setBankPage
  by_cases hsame : m₁.eepromBank = m.eepromBank ∧ m₁.eepromPage = m.eepromPage
  · rw [if_pos (Or.inr (Or.inr hsame))]
    constructor
    · exact fun h _ _ => congrArg Prod.snd h
    · intro h
      exact Prod.ext (Prod.ext hsame.1 hsame.2) (h hsame.1 hsame.2)
  · rw [if_neg fun h => h.elim hmax fun h => h.elim halpine hsame]
    refine iff_of_true ?_ fun hb hp => absurd ⟨hb, hp⟩ hsame
    have hbank : char m.eepromBank = m.eepromBank := by
      rcases hm.bank with h | h <;> rw [h] <;> rfl
    have hpage : char m.eepromPage = m.eepromPage :=
      char_eq (by have := hm.page; omega) (by have := hm.page; omega)
    exact Prod.ext (Prod.ext hbank hpage)
      ((select_hw _ _ m₁).trans ((hs.hwFor _ _).trans hm.hw.symm))

/-- From a selection that the variables describe there is always a way back. -/
theorem back_of_coherent (hm : m.Valid) (hs : Static m m₁)
    (hc : m₁.hw = m₁.hwFor m₁.eepromBank m₁.eepromPage) :
    (m₁.setBankPage m.eepromBank m.eepromPage).window = m.window := by
  refine (back_window hm hs).mpr fun hb hp => ?_
  rw [hc, hb, hp, hs.hwFor, ← hm.hw]

theorem char_eq_page {block page : Int} (hpage : 0 ≤ page ∧ page < 64) :
    char block = page ↔ 256 ∣ block - page := by
  have hmod := char_emod block
  have hbounds := char_bounds block
  constructor
  · intro h
    omega
  · intro h
    omega

theorem ofInt_page (a b : Int) :
    UInt32.ofInt (a * romPagesize) = UInt32.ofInt (b * romPagesize) ↔ 65536 ∣ a - b := by
  rw [← UInt32.toNat_inj, UInt32.ofInt, UInt32.ofInt]
  simp only [romPagesize, UInt32.toNat_ofNat']
  omega

/-- After a block other than the selected one has been selected, "there already" is wrong only on
an Alpine board, where the pointer is set from the page before it is cut down to a `char`. -/
def Machine.Returns (m : Machine σ) (block : Int) : Prop :=
  m.board ≠ .alpine ∨ ¬ 256 ∣ block - m.eepromPage ∨ 65536 ∣ block - m.eepromPage

theorem hwFor_eq_iff (hm : m.Valid) (block : Int) :
    (char block = m.eepromPage → m.hwFor m.eepromBank block = m.hw) ↔ m.Returns block := by
  rw [char_eq_page hm.page, hm.hw, Machine.Returns]
  by_cases hb : m.board = .alpine
  · have hfor : ∀ page, m.hwFor m.eepromBank page =
        (0, m.flatRomBase + UInt32.ofInt (page * romPagesize)) := by
      intro page
      rw [Machine.hwFor, hb]
    rw [hfor, hfor, Prod.mk.injEq, UInt32.add_right_inj, ofInt_page]
    tauto
  · refine iff_of_true (fun hdvd => ?_) (Or.inl hb)
    have hsel : selection m.eepromBank block = selection m.eepromBank m.eepromPage := by
      have hchar := (char_eq_page hm.page).mpr hdvd
      rw [selection, selection, ← hchar, ofInt_char]
    unfold Machine.hwFor
    rw [hsel]
    cases h : m.board with
    | alpine => exact absurd h hb
    | unknown | pacifica | carmel | monterey | other5000 => rfl

/-- What selecting a page of the same bank comes to. -/
theorem setBankPage_cases (hm : m.Valid) (page : Int) :
    (page = m.eepromPage ∧ m.setBankPage m.eepromBank page = m) ∨
      (page ≠ m.eepromPage ∧ m.setBankPage m.eepromBank page = m.select m.eepromBank page) := by
  have hmax : ¬ m.eepromBank ≥ eepromMaxBanks := by
    rcases hm.bank with h | h <;> rw [h] <;> decide
  have halpine : ¬ (m.board = .alpine ∧ m.eepromBank ≠ 0) := fun h => h.2 (hm.alpine h.1)
  unfold Machine.setBankPage
  by_cases hpage : page = m.eepromPage
  · exact Or.inl ⟨hpage, if_pos (Or.inr (Or.inr ⟨rfl, hpage.symm⟩))⟩
  · refine Or.inr ⟨hpage, if_neg fun h => ?_⟩
    exact h.elim hmax fun h => h.elim halpine fun h => hpage h.2.symm

theorem Machine.Valid.char_bank (hm : m.Valid) : char m.eepromBank = m.eepromBank := by
  rcases hm.bank with h | h <;> rw [h] <;> rfl

theorem back_from_block (hm : m.Valid) (block : Int)
    (h : OnlyDev (m.setBankPage m.eepromBank block) m₁) :
    (m₁.setBankPage m.eepromBank m.eepromPage).window = m.window ↔ m.Returns block := by
  have hwin := h.window
  rw [back_window hm ((static_setBankPage _ _ m).trans h.static), ← hwFor_eq_iff hm]
  rcases setBankPage_cases hm block with ⟨hblock, hset⟩ | ⟨-, hset⟩
  · rw [hset] at hwin
    refine iff_of_true (fun _ _ => congrArg Prod.snd hwin) fun _ => ?_
    rw [hblock, hm.hw]
  · rw [hset] at hwin
    have hbank : m₁.eepromBank = char m.eepromBank := congrArg (fun w => w.1.1) hwin
    have hpage : m₁.eepromPage = char block := congrArg (fun w => w.1.2) hwin
    have hhw : m₁.hw = (m.select m.eepromBank block).hw := congrArg Prod.snd hwin
    rw [hbank, hm.char_bank, hpage, hhw, select_hw]
    exact ⟨fun h => h rfl, fun h _ => h⟩

/-! ### The parts that leave the selection alone -/

theorem poll_onlyDev {off : Int} {ready : UInt8 → Bool} {error : FlashM σ (Option Int)}
    {counted : Bool} (herror : Keeps OnlyDev error) (fuel timeout : Nat) (r : Int) :
    Keeps OnlyDev (poll bus off ready error counted fuel timeout r) := by
  induction fuel generalizing timeout r with
  | zero => exact .failure
  | succ fuel ih =>
    exact .bind (romRead_onlyDev bus off) fun s => .ite (fun _ => .pure _) fun _ =>
      .bind herror fun _ => ih _ _

theorem amdError_onlyDev (off : Int) (ready : UInt8 → Bool) (code : Int) :
    Keeps OnlyDev (amdError bus off ready code) :=
  .bind (romRead_onlyDev bus off) fun _ => .ite
    (fun _ => .bind (romRead_onlyDev bus off) fun _ => .pure _) fun _ => .pure _

theorem intelError_onlyDev (bit : UInt8) (code : Int) : Keeps OnlyDev (intelError bus bit code) :=
  .bind (romRead_onlyDev bus 0) fun _ => .ite
    (fun _ => .bind (romWrite_onlyDev bus 0 _) fun _ => .pure _) fun _ => .pure _

theorem amdWriteBytes_onlyDev (fuel : Nat) (data : Nat → UInt8) (n i : Nat) (r : Int) :
    Keeps OnlyDev (amdWriteBytes bus fuel data n i r) := by
  induction n generalizing i r with
  | zero => exact .pure _
  | succ n ih =>
    refine .ite (fun _ => .pure _) fun _ => .bind (romWrite_onlyDev _ _ _) fun _ =>
      .bind (romWrite_onlyDev _ _ _) fun _ => .bind (romWrite_onlyDev _ _ _) fun _ =>
        .bind (romWrite_onlyDev _ _ _) fun _ => .bind ?_ fun _ => ih _ _
    exact poll_onlyDev (amdError_onlyDev _ _ _) fuel 0 r

theorem intelWriteBytes_onlyDev (fuel : Nat) (data : Nat → UInt8) (n i : Nat) (r : Int) :
    Keeps OnlyDev (intelWriteBytes bus fuel data n i r) := by
  induction n generalizing i r with
  | zero => exact .pure _
  | succ n ih =>
    exact .bind (romWrite_onlyDev _ _ _) fun _ => .bind (romWrite_onlyDev _ _ _) fun _ =>
      .bind (poll_onlyDev (intelError_onlyDev _ _) fuel 0 r) fun _ => ih _ _

theorem verifyBytes_onlyDev (data : Nat → UInt8) (n i : Nat) :
    Keeps OnlyDev (verifyBytes bus data n i) := by
  induction n generalizing i with
  | zero => exact .pure _
  | succ n ih =>
    exact .bind (romRead_onlyDev _ _) fun _ => .ite (fun _ => .pure _) fun _ => ih _

/-! ### The routines on one block -/

instance : IsTrans (Machine σ) Static := ⟨fun _ _ _ => Static.trans⟩

theorem Machine.Valid.of_window (hm : m.Valid) (hs : Static m m') (hw : m'.window = m.window) :
    m'.Valid := by
  have hbank : m'.eepromBank = m.eepromBank := congrArg (fun w => w.1.1) hw
  have hpage : m'.eepromPage = m.eepromPage := congrArg (fun w => w.1.2) hw
  have hhw : m'.hw = m.hw := congrArg Prod.snd hw
  constructor
  · rw [hbank]
    exact hm.bank
  · rw [hbank, hs.board]
    exact hm.alpine
  · rw [hpage]
    exact hm.page
  · rw [hhw, hbank, hpage, hs.hwFor]
    exact hm.hw
  · rw [hs.eeproms]
    exact hm.chips

section Block

variable {block : Int} {data : Nat → UInt8} {r : Int} {output : Bool} {k : Kind}

/-- Every routine that goes to a block goes back the same way. -/
theorem block_window (hm : m.Valid) {p : FlashM σ Int} {c : Prop}
    (hp : Keeps OnlyDev p) (hbad : ¬ c)
    (h : (p.run (m.setBankPage m.eepromBank block)).map m.back = some (r, m')) :
    Static m m' ∧ (m'.window = m.window ↔ c ∨ m.Returns block) := by
  obtain ⟨⟨r₁, m₁⟩, hrun, hback⟩ := Option.map_eq_some_iff.mp h
  cases hback
  have hdev := hp _ _ _ hrun
  have hstatic : Static m m₁ := (static_setBankPage _ _ m).trans hdev.static
  refine ⟨hstatic.trans (static_setBankPage _ _ m₁), ?_⟩
  rw [or_iff_right hbad]
  exact back_from_block hm block hdev

theorem amdWriteBlock_window (hm : m.Valid)
    (h : (amdWriteBlock bus fuel block data).run m = some (r, m')) :
    Static m m' ∧ (m'.window = m.window ↔ badBlock m block = true ∨ m.Returns block) := by
  rw [amdWriteBlock_run] at h
  by_cases hbad : badBlock m block = true
  · rw [if_pos hbad] at h
    cases h
    exact ⟨Std.Refl.refl m, iff_of_true rfl (Or.inl hbad)⟩
  · rw [if_neg hbad] at h
    exact block_window hm (amdWriteBytes_onlyDev fuel data _ _ _) hbad h

theorem Machine.returns_monterey (hb : m.board = .monterey) (block : Int) : m.Returns block :=
  Or.inl fun h => by simp [hb] at h

theorem intelWriteBlock_window (hm : m.Valid)
    (h : (intelWriteBlock bus fuel block data).run m = some (r, m')) :
    Static m m' ∧ (m'.window = m.window ↔ badBlock m block = true ∨ m.Returns block) := by
  rw [intelWriteBlock_run] at h
  by_cases hbad : badBlock m block = true
  · rw [if_pos hbad] at h
    cases h
    exact ⟨Std.Refl.refl m, iff_of_true rfl (Or.inl hbad)⟩
  · rw [if_neg hbad] at h
    by_cases hb : m.board = .monterey
    · rw [if_pos hb] at h
      cases h
      exact ⟨Std.Refl.refl m, iff_of_true rfl (Or.inr (Machine.returns_monterey hb block))⟩
    · rw [if_neg hb] at h
      exact block_window hm (intelWriteBytes_onlyDev fuel data _ _ _) hbad h

end Block

/-! ### The loops over blocks and pages -/

theorem Machine.Valid.blocks_le (hm : m.Valid) {t : EepromType} (h : m.eeproms bank = some t) :
    t.blocks ≤ 64 := by
  have htypes : ∀ t ∈ eepromTypes, t.blocks ≤ 64 := by decide
  rcases hm.chips bank t h with ht | ht
  · exact htypes t ht
  · rw [ht]
    decide

/-- A block that is not refused is less than a turn of the page register away. -/
theorem Machine.Valid.returns (hm : m.Valid) {block : Int} (hblock : 0 ≤ block)
    (hbad : ¬ badBlock m block = true) : m.Returns block := by
  have hpage := hm.page
  have hlt : block < 64 := by
    unfold badBlock at hbad
    cases h : m.eeproms m.eepromBank with
    | none => simp [h] at hbad
    | some t =>
      have hle := hm.blocks_le h
      simp only [h, decide_eq_true_eq] at hbad
      omega
  by_cases hsame : block = m.eepromPage
  · exact Or.inr (Or.inr (by simp [hsame]))
  · exact Or.inr (Or.inl (by omega))

theorem Machine.Valid.refused_or_returns (hm : m.Valid) {block : Int} (hblock : 0 ≤ block) :
    badBlock m block = true ∨ m.Returns block := by
  by_cases hbad : badBlock m block = true
  · exact Or.inl hbad
  · exact Or.inr (hm.returns hblock hbad)

theorem Machine.Valid.setBankPage (hm : m.Valid) (hpage : 0 ≤ page ∧ page < 64) :
    (m.setBankPage m.eepromBank page).Valid := by
  have hstatic := static_setBankPage m.eepromBank page m
  rcases setBankPage_cases hm page with ⟨-, hset⟩ | ⟨-, hset⟩
  · rw [hset]
    exact hm
  · rw [hset] at hstatic ⊢
    have hbank : (m.select m.eepromBank page).eepromBank = m.eepromBank := hm.char_bank
    have hchar : (m.select m.eepromBank page).eepromPage = page :=
      char_eq (by omega) (by omega)
    constructor
    · rw [hbank]
      exact hm.bank
    · rw [hbank, hstatic.board]
      exact hm.alpine
    · rw [hchar]
      exact hpage
    · rw [hbank, hchar, hstatic.hwFor]
      exact select_hw _ _ m
    · rw [hstatic.eeproms]
      exact hm.chips

/-- What the loops keep while the selection moves. -/
def Sound (m m' : Machine σ) : Prop := m.Valid → Static m m' ∧ m'.Valid

instance : Std.Refl (Sound (σ := σ)) := ⟨fun m hm => ⟨Std.Refl.refl m, hm⟩⟩

instance : IsTrans (Machine σ) Sound := ⟨fun _ _ _ h h' hm =>
  ⟨(h hm).1.trans (h' (h hm).2).1, (h' (h hm).2).2⟩⟩

theorem OnlyDev.sound (h : OnlyDev m m') : Sound m m' :=
  fun hm => ⟨h.static, hm.of_window h.static h.window⟩

theorem sound_setBankPage (hpage : 0 ≤ page ∧ page < 64) :
    Sound m (m.setBankPage m.eepromBank page) :=
  fun hm => ⟨static_setBankPage _ _ m, hm.setBankPage hpage⟩

theorem writePages_sound {write : Int → (Nat → UInt8) → FlashM σ Int} {data : Nat → UInt8}
    (hwrite : ∀ page, 0 ≤ page → ∀ data, Keeps Sound (write page data)) (n page : Nat) (r : Int)
    (hn : page + n ≤ 64) : Keeps Sound (writePages write data n page r) := by
  induction n generalizing page r with
  | zero => exact .pure _
  | succ n ih =>
    refine .ite (fun _ => .pure _) fun _ => ?_
    intro m r' m' h
    rw [run_get_bind, run_setBankPage_bind] at h
    obtain ⟨r₁, m₁, hpage, hrest⟩ := of_run_bind h
    have hset : Sound m (m.setBankPage m.eepromBank page) := sound_setBankPage (by omega)
    have hone := hwrite page (by omega) _ _ _ _ hpage
    have hmore := ih (page + 1) r₁ (by omega) _ _ _ hrest
    exact IsTrans.trans m _ _ hset (IsTrans.trans _ m₁ _ hone hmore)

theorem verifyPages_sound (data : Nat → UInt8) (n page : Nat) (hn : page + n ≤ 64) :
    Keeps Sound (verifyPages bus data n page) := by
  induction n generalizing page with
  | zero => exact .pure _
  | succ n ih =>
    intro m r' m' h
    unfold verifyPages at h
    rw [run_get_bind, run_setBankPage_bind] at h
    obtain ⟨bad, m₁, hpage, hrest⟩ := of_run_bind h
    have hset : Sound m (m.setBankPage m.eepromBank page) := sound_setBankPage (by omega)
    have hone : Sound _ m₁ := (verifyBytes_onlyDev _ _ _ _ _ _ hpage).sound
    refine IsTrans.trans m _ _ hset (IsTrans.trans _ m₁ _ hone ?_)
    cases bad with
    | none => exact ih (page + 1) (by omega) _ _ _ hrest
    | some i =>
      obtain ⟨-, rfl⟩ := of_run_pure hrest
      exact Std.Refl.refl m'

section Chip

variable {data : Nat → UInt8} {r size : Int} {output : Bool} {k : Kind}

theorem back_of_sound (hm : m.Valid) (h : Sound m m₁) :
    Static m (m₁.setBankPage m.eepromBank m.eepromPage) ∧
      (m₁.setBankPage m.eepromBank m.eepromPage).window = m.window :=
  ⟨(h hm).1.trans (static_setBankPage _ _ m₁), back_of_coherent hm (h hm).1 (h hm).2.hw⟩

/-- The number of pages that are written or read. -/
theorem Machine.Valid.pages_le (hm : m.Valid) (hbad : ¬ badSize m size = true) :
    (size >>> (16 : Nat)).toNat ≤ 64 := by
  unfold badSize at hbad
  cases h : m.eeproms m.eepromBank with
  | none => simp [h] at hbad
  | some t =>
    have hle := hm.blocks_le h
    simp only [h, decide_eq_true_eq] at hbad
    rw [EepromType.blocks, Int.shiftRight_eq_div_pow] at hle
    rw [Int.shiftRight_eq_div_pow]
    omega

theorem amdWriteBlock_sound {block : Int} (hblock : 0 ≤ block) (data : Nat → UInt8) :
    Keeps Sound (amdWriteBlock bus fuel block data) := by
  intro m r m' h hm
  obtain ⟨hstatic, hwindow⟩ := amdWriteBlock_window hm h
  exact ⟨hstatic, hm.of_window hstatic (hwindow.mpr (hm.refused_or_returns hblock))⟩

theorem intelWriteBlock_sound {block : Int} (hblock : 0 ≤ block) (data : Nat → UInt8) :
    Keeps Sound (intelWriteBlock bus fuel block data) := by
  intro m r m' h hm
  obtain ⟨hstatic, hwindow⟩ := intelWriteBlock_window hm h
  exact ⟨hstatic, hm.of_window hstatic (hwindow.mpr (hm.refused_or_returns hblock))⟩

theorem amdWriteChip_window (hm : m.Valid)
    (h : (amdWriteChip bus fuel data size).run m = some (r, m')) :
    Static m m' ∧ m'.window = m.window := by
  rw [amdWriteChip_run] at h
  by_cases hbad : badSize m size = true
  · rw [if_pos hbad] at h
    cases h
    exact ⟨Std.Refl.refl m, rfl⟩
  · rw [if_neg hbad] at h
    obtain ⟨⟨r₁, m₁⟩, hrun, hback⟩ := Option.map_eq_some_iff.mp h
    cases hback
    have hpages := hm.pages_le hbad
    have hsound := writePages_sound (fun _ hpage data => amdWriteBlock_sound hpage data) _ 0 0
      (by omega) m r₁ m₁ hrun
    exact back_of_sound hm (IsTrans.trans m m₁ _ hsound (poke_onlyDev bus 0 0xf0 m₁).sound)

theorem intelWriteChip_window (hm : m.Valid)
    (h : (intelWriteChip bus fuel data size).run m = some (r, m')) :
    Static m m' ∧ m'.window = m.window := by
  rw [intelWriteChip_run] at h
  by_cases hbad : badSize m size = true ∨ m.board = .monterey
  · rw [if_pos hbad] at h
    cases h
    exact ⟨Std.Refl.refl m, rfl⟩
  · rw [if_neg hbad] at h
    obtain ⟨⟨r₁, m₁⟩, hrun, hback⟩ := Option.map_eq_some_iff.mp h
    cases hback
    have hpages := hm.pages_le fun hsize => hbad (Or.inl hsize)
    have hsound := writePages_sound (fun _ hpage data => intelWriteBlock_sound hpage data) _ 0 0
      (by omega) m r₁ m₁ hrun
    exact back_of_sound hm (IsTrans.trans m m₁ _ hsound (poke_onlyDev bus 0 0xff m₁).sound)

theorem genericVerifyChip_window (hm : m.Valid)
    (h : (genericVerifyChip bus data size).run m = some (r, m')) :
    Static m m' ∧ m'.window = m.window := by
  rw [genericVerifyChip_run] at h
  by_cases hbad : badSize m size = true
  · rw [if_pos hbad] at h
    cases h
    exact ⟨Std.Refl.refl m, rfl⟩
  · rw [if_neg hbad] at h
    obtain ⟨⟨r₁, m₁⟩, hrun, hback⟩ := Option.map_eq_some_iff.mp h
    cases hback
    have hpages := hm.pages_le hbad
    exact back_of_sound hm (verifyPages_sound data _ 0 (by omega) m r₁ m₁ hrun)

theorem chipWriteChip_window (hm : m.Valid)
    (h : (chipWriteChip bus fuel data size k).run m = some (r, m')) :
    Static m m' ∧ m'.window = m.window := by
  cases k with
  | amd => exact amdWriteChip_window hm h
  | intel => exact intelWriteChip_window hm h

end Chip

/-! ### Every routine -/

/-- A call through the table, of either family. -/
inductive Op where
  | eraseChip (output : Bool)
  | eraseBlock (block : Int) (output : Bool)
  | writeChip (data : Nat → UInt8) (size : Int)
  | writeBlock (block : Int) (data : Nat → UInt8)
  | verifyChip (data : Nat → UInt8) (size : Int)

def Op.run (bus : Bus σ) (fuel : Nat) (k : Kind) : Op → FlashM σ Int
  | .eraseChip output => chipEraseChip bus fuel output k
  | .eraseBlock block output => chipEraseBlock bus fuel block output k
  | .writeChip data size => chipWriteChip bus fuel data size k
  | .writeBlock block data => chipWriteBlock bus fuel block data k
  | .verifyChip data size => chipVerifyChip bus data size k

/-- The loops over blocks and pages count from 0, and `write_block` has the index of a block. -/
def Op.Called : Op → Prop
  | .eraseBlock block _ | .writeBlock block _ => 0 ≤ block
  | _ => True

end Flash
