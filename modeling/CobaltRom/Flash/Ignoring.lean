import CobaltRom.Flash.Polling
import CobaltRom.Flash.Verify

/-! A chip that ignores every command, and the sizes with which `eeprom_write_chip` notices. -/
namespace Flash
open Hoare

/-- What the chip answers with: its array or, with a command under way or not, that it is ready. -/
inductive Mode where
  | array
  | setup
  | status
  deriving DecidableEq, Repr

def Mode.next : Kind → UInt8 → Mode → Mode
  | .amd, _, _ => .array
  | .intel, _, .setup => .status
  | .intel, v, _ => if v = 0x40 then .setup else if v = 0xff then .array else .status

def ignoringBus (k : Kind) (c : Nat → UInt8) (size : Nat) : Bus Mode where
  read loc s := match s with
    | .array => match loc with
      | .flash _ a => (c (a % size), s)
      | .other _ => (0, s)
    | .setup | .status => (0x80, s)
  write _ v s := s.next k v

def ignoringChip (k : Kind) (c : Nat → UInt8) (bank size : Nat) :
    FlashChip (ignoringBus k c size) bank k size where
  content _ := c
  reading s := s = .array
  reset_reset a b d := by
    cases k with
    | amd => rfl
    | intel => cases d <;> rfl
  reset_reading a d hd := by
    subst hd
    cases k <;> exact ⟨rfl, rfl⟩
  read_reading a d hd := by
    subst hd
    exact ⟨rfl, rfl, rfl⟩

variable {k : Kind} {c data : Nat → UInt8} {bank : Int} {t : EepromType} {m m' : Machine Mode}
  {fuel : Nat}

/-! ### Writing -/

theorem amdWriteBytes_ignoring (h : m.On bank t) (ht : t ∈ eepromTypes) (hidle : m.dev ≠ .setup)
    (n i : Nat) (hn : i + n ≤ romPagesize)
    (hfits : m.eepromPage.toNat * romPagesize + romPagesize ≤ t.size.toNat)
    (hdata : ∀ j, j < romPagesize → c (m.eepromPage.toNat * romPagesize + j) = data j) :
    ∃ m', (amdWriteBytes (ignoringBus .amd c t.size.toNat) (fuel + 1) data n i 0).run m =
      some ((0 : Int), m') ∧ OnlyDev m m' ∧ m'.dev ≠ .setup := by
  induction n generalizing i m with
  | zero => exact ⟨m, rfl, rfl, hidle⟩
  | succ n ih =>
    let bus := ignoringBus .amd c t.size.toNat
    let m₁ := m.pokes bus (amdProgram i (data i))
    have hdev : OnlyDev m m₁ := pokes_onlyDev _ _ m
    have hpage : m₁.eepromPage = m.eepromPage := congrArg (fun w => w.1.2) hdev.window
    obtain ⟨a, hloc, ha⟩ := (h.of_onlyDev hdev).loc (i := i) ht (by omega)
      (by rw [hpage]; omega)
    have hvalue : (m₁.peek bus i).1 = data i := by
      refine Eq.trans ?_ (hdata i (by omega))
      rw [← hpage, ← ha, Machine.peek, hloc]
      rfl
    have hready : dataBit (data i) (m₁.peek bus i).1 = true := by
      rw [hvalue, dataBit, decide_eq_true_eq]
    have hpeek : OnlyDev m (m₁.peek bus i).2 := IsTrans.trans m m₁ _ hdev rfl
    have hpage' : (m₁.peek bus i).2.eepromPage = m.eepromPage := hpage
    have hnext : (m₁.peek bus i).2.dev ≠ .setup := by
      rw [Machine.peek, hloc]
      exact Mode.noConfusion
    obtain ⟨m', hrest, hdev', hidle'⟩ := ih (h.of_onlyDev hpeek) hnext (i + 1) (by omega)
      (by rw [hpage']; exact hfits) (by rw [hpage']; exact hdata)
    refine ⟨m', ?_, IsTrans.trans m _ m' hpeek hdev', hidle'⟩
    rw [amdWriteBytes_succ, amdWait, poll_stop (Or.inl hready)]
    exact hrest

theorem intelWriteBytes_ignoring (hdev : m.dev ≠ .setup) (size n i : Nat) :
    ∃ m', (intelWriteBytes (ignoringBus .intel c size) (fuel + 1) data n i 0).run m =
      some ((0 : Int), m') ∧ OnlyDev m m' ∧ m'.dev ≠ .setup := by
  induction n generalizing i m with
  | zero => exact ⟨m, rfl, rfl, hdev⟩
  | succ n ih =>
    let bus := ignoringBus .intel c size
    let m₁ := m.pokes bus (intelProgram i (data i))
    have honly : OnlyDev m m₁ := pokes_onlyDev _ _ m
    have hstatus : m₁.dev = .status := by
      change Mode.next .intel (data i) (Mode.next .intel 0x40 m.dev) = .status
      cases hd : m.dev with
      | setup => exact absurd hd hdev
      | array | status => rfl
    have hvalue : (m₁.peek bus 0).1 = 0x80 := by
      rw [Machine.peek, hstatus]
      rfl
    have hready : highBit (m₁.peek bus 0).1 = true := by
      rw [hvalue]
      decide
    have hpeek : OnlyDev m (m₁.peek bus 0).2 := IsTrans.trans m m₁ _ honly rfl
    have hnext : (m₁.peek bus 0).2.dev ≠ .setup := by
      rw [Machine.peek, hstatus]
      exact Mode.noConfusion
    obtain ⟨m', hrest, honly', hdev'⟩ := ih hnext (i + 1)
    refine ⟨m', ?_, IsTrans.trans m _ m' hpeek honly', hdev'⟩
    rw [intelWriteBytes_succ, intelWait, poll_stop (Or.inl hready)]
    exact hrest

theorem setBankPage_self (m : Machine Mode) : m.setBankPage m.eepromBank m.eepromPage = m :=
  if_pos (Or.inr (Or.inr ⟨rfl, rfl⟩))

/-- No command is under way, and what is to be written is there already. -/
structure Holds (k : Kind) (c data : Nat → UInt8) (bank : Int) (t : EepromType) (page : Nat)
    (m : Machine Mode) : Prop where
  on : m.On bank t
  selected : m.eepromPage = page
  idle : m.dev ≠ .setup
  allowed : k = .intel → m.board ≠ .monterey
  fits : page * romPagesize + romPagesize ≤ t.size.toNat
  same : ∀ j, j < romPagesize → c (page * romPagesize + j) = data j

/-- A page that is there is written without an error. -/
def Accepts (k : Kind) (write : Int → (Nat → UInt8) → FlashM Mode Int) (c : Nat → UInt8)
    (bank : Int) (t : EepromType) : Prop :=
  ∀ page data m, Holds k c data bank t page m →
    ∃ m', (write page data).run m = some ((0 : Int), m') ∧ OnlyDev m m' ∧ m'.dev ≠ .setup

theorem Holds.not_badBlock {page : Nat} (h : Holds k c data bank t page m) :
    ¬ badBlock m page = true := by
  have hfits := h.fits
  rw [badBlock_eq h.on, decide_eq_true_eq, EepromType.blocks, Int.shiftRight_eq_div_pow]
  simp only [romPagesize] at hfits
  omega

theorem back_self (h : OnlyDev m m') : m.back ((0 : Int), m') = ((0 : Int), m') := by
  rw [h]
  exact congrArg _ (setBankPage_self { m with dev := m'.dev })

theorem amdWriteBlock_accepts (ht : t ∈ eepromTypes) :
    Accepts .amd (amdWriteBlock (ignoringBus .amd c t.size.toNat) (fuel + 1)) c bank t := by
  intro page data m h
  obtain ⟨m', hrun, hdev, hidle⟩ := amdWriteBytes_ignoring h.on ht h.idle
    romPagesize 0 (Nat.zero_add _).le (by rw [h.selected]; exact h.fits)
    (by rw [h.selected]; exact h.same)
  refine ⟨m', ?_, hdev, hidle⟩
  rw [amdWriteBlock_run, if_neg h.not_badBlock, ← h.selected, setBankPage_self, hrun]
  exact congrArg some (back_self hdev)

theorem intelWriteBlock_accepts (size : Nat) :
    Accepts .intel (intelWriteBlock (ignoringBus .intel c size) (fuel + 1)) c bank t := by
  intro page data m h
  obtain ⟨m', hrun, hdev, hidle⟩ := intelWriteBytes_ignoring (c := c)
    h.idle size romPagesize 0
  refine ⟨m', ?_, hdev, hidle⟩
  rw [intelWriteBlock_run, if_neg h.not_badBlock, if_neg (h.allowed rfl), ← h.selected,
    setBankPage_self, hrun]
  exact congrArg some (back_self hdev)

theorem writePages_ignoring {write : Int → (Nat → UInt8) → FlashM Mode Int}
    (hwrite : Accepts k write c bank t) (h : m.On bank t) (ht : t ∈ eepromTypes)
    (hidle : m.dev ≠ .setup) (hboard : k = .intel → m.board ≠ .monterey) (n page : Nat)
    (hn : (page + n) * romPagesize ≤ t.size.toNat)
    (hdata : ∀ a, a < (page + n) * romPagesize → c a = data a) :
    ∃ m', (writePages write data n page 0).run m = some ((0 : Int), m') := by
  induction n generalizing page m with
  | zero => exact ⟨m, rfl⟩
  | succ n ih =>
    have hshift : page + (n + 1) = page + 1 + n := by omega
    have hpages := pages_le_64 ht hn
    rw [hshift] at hn hdata
    have hturn : (0 : Int) ≤ page ∧ (page : Int) < 64 := by omega
    obtain ⟨hon, hpage⟩ := h.setBankPage hturn
    have hstatic := static_setBankPage m.eepromBank page m
    have hset := setBankPage_dev m.eepromBank page m
    have hholds : Holds k c (fun i => data (page * romPagesize + i)) bank t page
        (m.setBankPage m.eepromBank page) :=
      { on := hon
        selected := hpage
        idle := by rw [hset]; exact hidle
        allowed := fun hk => by rw [hstatic.board]; exact hboard hk
        fits := ((Nat.succ_mul _ _).symm.le.trans
          (Nat.mul_le_mul_right _ (Nat.le_add_right _ n))).trans hn
        same := fun j hj => hdata _ (page_lt hj n) }
    obtain ⟨m₁, hrun, honly, hidle₁⟩ := hwrite page _ _ hholds
    obtain ⟨m', hrest⟩ := ih (hon.of_onlyDev honly) hidle₁
      (fun hk => by rw [honly.static.board, hstatic.board]; exact hboard hk) (page + 1) hn hdata
    refine ⟨m', ?_⟩
    unfold writePages
    rw [if_neg (not_not.mpr rfl), run_get_bind, run_setBankPage_bind, run_bind_some hrun]
    exact hrest

/-- Every page of the size is in the chip, and so nothing that the chip does not do is missed. -/
theorem chipWriteChip_ignoring (h : m.On bank t) (ht : t ∈ eepromTypes) (hidle : m.dev ≠ .setup)
    (hboard : k = .intel → m.board ≠ .monterey) {size : Nat} (hsize : size ≤ t.size.toNat)
    (hdata : ∀ a, a < size / romPagesize * romPagesize → c a = data a) :
    ∃ m', (chipWriteChip (ignoringBus k c t.size.toNat) (fuel + 1) data size k).run m =
      some ((0 : Int), m') := by
  have hpages : ((size : Int) >>> (16 : Nat)).toNat = size / romPagesize := by
    rw [Int.shiftRight_eq_div_pow]
    rfl
  have hfits : (0 + size / romPagesize) * romPagesize ≤ t.size.toNat := by
    rw [Nat.zero_add]
    exact (Nat.div_mul_le_self _ _).trans hsize
  have hbad := not_badSize h ht hsize
  rw [← Nat.zero_add (size / romPagesize)] at hdata
  cases k with
  | amd =>
    obtain ⟨m₁, hrun⟩ := writePages_ignoring (amdWriteBlock_accepts ht) h ht hidle
      hboard _ 0 hfits hdata
    refine ⟨(m.back ((0 : Int), m₁.poke (ignoringBus .amd c t.size.toNat) 0 0xf0)).2,
      (amdWriteChip_run _ _ _ _ _).trans ?_⟩
    rw [if_neg hbad, hpages, hrun]
    rfl
  | intel =>
    obtain ⟨m₁, hrun⟩ := writePages_ignoring
      (intelWriteBlock_accepts t.size.toNat) h ht hidle hboard _ 0 hfits hdata
    refine ⟨(m.back ((0 : Int), m₁.poke (ignoringBus .intel c t.size.toNat) 0 0xff)).2,
      (intelWriteChip_run _ _ _ _ _).trans ?_⟩
    rw [if_neg fun hor => hor.elim hbad (hboard rfl), hpages, hrun]
    rfl

/-! ### The way through `eeprom_write_chip` -/

theorem eepromWriteChip_ignoring (h : m.Installed bank t) (ht : t ∈ eepromTypes)
    (hk : t.kind = some k) (hidle : m.dev ≠ .setup) (hboard : k = .intel → m.board ≠ .monterey)
    {size : UInt32} (hsize : size.toNat ≤ t.size.toNat)
    (hdata : ∀ a, a < size.toNat / romPagesize * romPagesize → c a = data a) :
    ∃ m', (eepromWriteChip (ignoringBus k c t.size.toNat) (fuel + 1) bank data size).run m =
      some ((0 : Int), m') := by
  let chip := ignoringChip k c bank.toNat t.size.toNat
  obtain ⟨hon, hpage⟩ := h.setBankPage
  have hstatic₀ := static_setBankPage bank 0 m
  obtain ⟨m₁, hwrite⟩ := chipWriteChip_ignoring hon ht
    (by rw [setBankPage_dev]; exact hidle)
    (fun hi => by rw [hstatic₀.board]; exact hboard hi) hsize hdata
  obtain ⟨hstatic, hwindow⟩ := chipWriteChip_window hon.valid hwrite
  have hon₁ := hon.of_window hstatic hwindow
  have hpage₁ : m₁.eepromPage = 0 := (congrArg (fun w => w.1.2) hwindow).trans hpage
  let m₃ := (m₁.poke (ignoringBus k c t.size.toNat) 0 k.resetByte).poke
    (ignoringBus k c t.size.toNat) 0 k.resetByte
  have hreset : m₃.On bank t ∧ chip.reading m₃.dev := reset_twice hon₁ ht hpage₁
  have hcheck : ∃ r m', (genericVerifyChip (ignoringBus k c t.size.toNat) data size.toNat).run m₃ =
        some (r, m') ∧ chip.Unchanged m₃ m' ∧
      (r = 0 ↔ ∀ a, a < size.toNat / romPagesize * romPagesize → chip.content m₃.dev a = data a) :=
    genericVerifyChip_reading hreset.1 ht hreset.2 hsize
  obtain ⟨r₂, m₂, hverify, hsame, hzero⟩ := hcheck
  have hr₂ : r₂ = 0 := hzero.mpr hdata
  refine ⟨m₂.poke (ignoringBus k c t.size.toNat) 0 k.resetByte, ?_⟩
  rw [eepromWriteChip_run hon.chip hk, toInt32_toInt (hsize.trans (size_le ht)), hwrite,
    Option.bind_some, if_neg (not_not.mpr rfl), hverify, hr₂]
  rfl

/-- A board as `eeprom_init` leaves it, with one chip. -/
def oneChip (board : Board) (bank : Int) (t : EepromType) : Machine Mode where
  board := board
  pageReg := 0
  pagePort := 0
  rom := if board = .alpine then ~~~ (UInt32.ofInt (t.size - 1)) else windowAddr
  flatRomBase := ~~~ (UInt32.ofInt (t.size - 1))
  eepromBank := 0
  eepromPage := 0
  eepromFsOffset := 0x10000
  eeproms b := if b = bank then some t else none
  eepromIds _ := 0
  dev := .array

/-- A bank and a chip that the routines support. -/
structure Supported (board : Board) (bank : Int) (t : EepromType) : Prop where
  number : bank = 0 ∨ bank = 1
  alpine : board = .alpine → bank = 0
  known : board ≠ .unknown ∧ board ≠ .other5000
  listed : t ∈ eepromTypes

theorem oneChip_installed {board : Board} (h : Supported board bank t) :
    (oneChip board bank t).Installed bank t where
  number := h.number
  alpine := h.alpine
  known := h.known
  coherent := by
    have hreg : (0 : UInt16).toUInt8 &&& 0x7f = selection 0 0 := by decide
    have hport : (0 : UInt8) &&& 0x7f = selection 0 0 := by decide
    cases board with
    | alpine => exact Prod.ext rfl (UInt32.add_zero _).symm
    | pacifica | carmel => exact Prod.ext hreg rfl
    | monterey => exact Prod.ext hport rfl
    | unknown | other5000 => rfl
  rom hboard := if_neg hboard
  base _ := rfl
  chip := if_pos rfl
  chips b t' hb := by
    have hb : (if b = bank then some t else none) = some t' := hb
    split at hb
    · cases hb
      exact Or.inl h.listed
    · cases hb

/-- `eeprom_write_chip` returns 0 only if the chip holds the data. -/
def WritesChip (board : Board) (bank : Int) (t : EepromType) (data : Nat → UInt8) (size : UInt32) :
    Prop :=
  ∀ (σ : Type) (bus : Bus σ) (k : Kind)
  (chip : FlashChip bus bank.toNat k t.size.toNat) (fuel : Nat)
    (m m' : Machine σ), t.kind = some k → m.board = board → m.Installed bank t →
    (eepromWriteChip bus fuel bank data size).run m = some ((0 : Int), m') →
    ∀ a, a < size.toNat → chip.content m'.dev a = data a

/-- On a Monterey board nothing is written to an Intel chip, and never 0 returned. -/
theorem eepromWriteChip_monterey {σ : Type} {bus : Bus σ} {m m' : Machine σ} {size : UInt32}
    (h : m.Installed bank t) (hk : t.kind = some .intel) (hboard : m.board = .monterey) :
    (eepromWriteChip bus fuel bank data size).run m ≠ some ((0 : Int), m') := by
  obtain ⟨hon, -⟩ := h.setBankPage
  have hwrite : (chipWriteChip bus fuel data size.toInt32.toInt .intel).run (m.setBankPage bank 0) =
      some ((1 : Int), m.setBankPage bank 0) :=
    (intelWriteChip_run _ _ _ _ _).trans
      (if_pos (Or.inr ((static_setBankPage bank 0 m).board.trans hboard)))
  rw [eepromWriteChip_run hon.chip hk, hwrite, Option.bind_some,
    if_pos Int.one_ne_zero]
  intro hrun
  have hone : (1 : Int) = 0 := congrArg Prod.fst (Option.some.inj hrun)
  exact absurd hone (by decide)

/-- A part of a page at the end is neither written nor verified. -/
theorem writesChip_cases {board : Board} {size : UInt32} (h : Supported board bank t)
    (hsize : size.toNat ≤ t.size.toNat) (hwrites : WritesChip board bank t data size) :
    romPagesize ∣ size.toNat ∨ (t.kind = some .intel ∧ board = .monterey) := by
  by_contra hneither
  obtain ⟨hdvd, hboard⟩ := not_or.mp hneither
  obtain ⟨k, hk⟩ : ∃ k, t.kind = some k := by
    have hall : ∀ t ∈ eepromTypes, t.kind.isSome = true := by decide
    exact Option.isSome_iff_exists.mp (hall t h.listed)
  let c : Nat → UInt8 := fun a =>
    if a < size.toNat / romPagesize * romPagesize then data a else data a + 1
  obtain ⟨m', hrun⟩ := eepromWriteChip_ignoring (c := c)
    (oneChip_installed h) h.listed hk Mode.noConfusion
    (fun hi hb => hboard ⟨hi ▸ hk, hb⟩) hsize (fun a ha => if_pos ha)
  have hlast : size.toNat / romPagesize * romPagesize < size.toNat := by
    simp only [romPagesize] at hdvd ⊢
    omega
  have hbyte := hwrites Mode _ k (ignoringChip k c bank.toNat t.size.toNat) 1 _ m' hk rfl
    (oneChip_installed h) hrun _ hlast
  have hne : data (size.toNat / romPagesize * romPagesize) + 1 =
      data (size.toNat / romPagesize * romPagesize) := (if_neg (Nat.lt_irrefl _)).symm.trans hbyte
  exact absurd (UInt8.add_eq_left.mp hne) (by decide)

/-- A result of 0 means that the chip holds the data exactly for whole pages. -/
theorem writesChip_iff (board : Board) (bank : Int) (t : EepromType) (data : Nat → UInt8)
    (size : UInt32) (h : Supported board bank t) (hsize : size.toNat ≤ t.size.toNat) :
    WritesChip board bank t data size ↔
      romPagesize ∣ size.toNat ∨ (t.kind = some .intel ∧ board = .monterey) := by
  constructor
  · exact writesChip_cases h hsize
  · rintro (hdvd | ⟨hintel, hmonterey⟩) σ bus k chip fuel m m' hk hboard hm hrun a ha
    · refine eepromWriteChip_pages hm h.listed hk hsize hrun a ?_
      rwa [Nat.div_mul_cancel hdvd]
    · exact absurd hrun (eepromWriteChip_monterey hm hintel (hboard.trans hmonterey))

/-- The first chip of the table on a 3000 board. -/
theorem am29f080b_supported :
    Supported .carmel 0 ⟨0x01, 0xd5, 0x00100000, "AMD AM29F080B", some .amd⟩ where
  number := Or.inl rfl
  alpine h := by cases h
  known := ⟨by decide, by decide⟩
  listed := by decide

theorem writesChip_iff_am29f080b :
    WritesChip .carmel 0 ⟨0x01, 0xd5, 0x00100000, "AMD AM29F080B", some .amd⟩
    (fun _ => 0) 0x20000 :=
  (writesChip_iff .carmel 0 _ _ _ am29f080b_supported (by decide)).mpr (Or.inl ⟨2, rfl⟩)

theorem not_writesChip_one :
    ¬ WritesChip .carmel 0 ⟨0x01, 0xd5, 0x00100000, "AMD AM29F080B", some .amd⟩ (fun _ => 0) 1 := by
  intro hwrites
  rcases writesChip_cases am29f080b_supported (by decide) hwrites with hdvd | ⟨-, hboard⟩
  · revert hdvd
    decide
  · cases hboard

end Flash
