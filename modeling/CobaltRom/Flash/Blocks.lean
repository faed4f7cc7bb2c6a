import CobaltRom.Crfs.Layout
import CobaltRom.Flash.Chip

/-! The blocks of the file system in the flash (`read_block`). -/
namespace Flash
open Hoare
open Crfs (crfsBlockSize)

variable {σ : Type} {bus : Bus σ} {m m' : Machine σ} {bank page : Int}

/-- `memcpy(block, rom + off, n)`. -/
def readBytes (bus : Bus σ) : Nat → Int → FlashM σ (List UInt8)
  | 0, _ => pure []
  | n + 1, off => do
    let v ← romRead bus off
    let rest ← readBytes bus n (off + 1)
    pure (v :: rest)

/-- The page of an address within a bank is selected and a block copied from it. -/
def copyBlock (bus : Bus σ) (bank romAddr : Int) : FlashM σ (Int × List UInt8) := do
  let _ ← eepromSetBankPage bank (romAddr >>> (16 : Nat))
  let bytes ← readBytes bus crfsBlockSize (romAddr % 0x10000)
  pure (0, bytes)

/-- The result and what is then in the buffer. -/
def readBlock (bus : Bus σ) (blockNdx : UInt16) (block : List UInt8) :
    FlashM σ (Int × List UInt8) := do
  let m ← get
  let romAddr : Int := blockNdx.toNat * crfsBlockSize + m.eepromFsOffset
  match m.board.systype with
  | .s3000 => do
    let t ← eepromAt 0
    if romAddr < t.size then copyBlock bus 0 romAddr
    else match m.eeproms 1 with
      | some t₁ =>
        if romAddr < t.size + t₁.size then copyBlock bus 1 (romAddr - t.size)
        else pure (-1, block)
      | none => pure (-1, block)
  | .s5000 => copyBlock bus 0 romAddr
  | .unknown => pure (0, block)

/-! ### Both chips as one -/

/-- Chips that read their arrays, and what is in them. -/
structure Arrays (bus : Bus σ) (chips : Nat → List UInt8) where
  reading : σ → Prop
  read_reading : ∀ bank a (h : a < (chips bank).length) d, reading d →
    (bus.read (.flash bank a) d).1 = (chips bank)[a] ∧ reading (bus.read (.flash bank a) d).2

/-- A 3000 board with chips of these sizes, and a selection that the register has. -/
structure Machine.Is3k (m : Machine σ) (size₀ size₁ : Nat) : Prop where
  series : m.board.systype = .s3000
  rom : m.rom = windowAddr
  offset : m.eepromFsOffset = 0x10000
  first : ∃ t, m.eeproms 0 = some t ∧ t.size = size₀
  second : (m.eeproms 1 = none ∧ size₁ = 0) ∨ ∃ t, m.eeproms 1 = some t ∧ t.size = size₁
  pages₀ : romPagesize ∣ size₀ ∧ size₀ ≤ 0x400000
  pages₁ : romPagesize ∣ size₁ ∧ size₁ ≤ 0x400000
  coherent : m.sel = selection m.eepromBank m.eepromPage

/-- The window shows this page. -/
structure Machine.Shows (m : Machine σ) (bank page : Int) : Prop where
  board : m.board ≠ .alpine
  rom : m.rom = windowAddr
  sel : m.sel = selection bank page

theorem Machine.Shows.of_onlyDev (h : m.Shows bank page) (hd : OnlyDev m m') :
    m'.Shows bank page := by
  rw [hd]
  exact ⟨h.board, h.rom, h.sel⟩

theorem shows_setBankPage (hseries : m.board.systype = .s3000) (hrom : m.rom = windowAddr)
    (hsel : m.sel = selection m.eepromBank m.eepromPage) (hbank : bank = 0 ∨ bank = 1) :
    (m.setBankPage bank page).Shows bank page := by
  have hboard : m.board = .pacifica ∨ m.board = .carmel := by
    cases hb : m.board with
    | pacifica => exact Or.inl rfl
    | carmel => exact Or.inr rfl
    | unknown | monterey | alpine | other5000 =>
      rw [hb] at hseries
      cases hseries
  have halpine : m.board ≠ .alpine := by
    rcases hboard with hb | hb <;> rw [hb] <;> decide
  have hstatic := static_setBankPage bank page m
  refine ⟨by rw [hstatic.board]; exact halpine, (hstatic.rom halpine).trans hrom, ?_⟩
  have hmax : ¬ bank ≥ eepromMaxBanks := by
    rcases hbank with hb | hb <;> rw [hb] <;> decide
  unfold Machine.setBankPage
  by_cases hsame : m.eepromBank = bank ∧ m.eepromPage = page
  · rw [if_pos (Or.inr (Or.inr hsame)), hsel, hsame.1, hsame.2]
  · rw [if_neg fun hor => hor.elim hmax fun hor => hor.elim (fun ha => halpine ha.1) hsame]
    have hhw := congrArg Prod.fst (select_hw bank page m)
    unfold Machine.hwFor at hhw
    rcases hboard with hb | hb <;> rw [hb] at hhw <;> exact hhw

/-- What is copied from a page, as long as it does not reach over its end. -/
theorem readBytes_run {chips : Nat → List UInt8} (arrays : Arrays bus chips)
    (h : m.Shows bank page) (hread : arrays.reading m.dev) (hbank : bank = 0 ∨ bank = 1)
    (hpage : 0 ≤ page ∧ page < 64) (n off : Nat) (hoff : off + n ≤ romPagesize)
    (hlen : page.toNat * romPagesize + off + n ≤ (chips bank.toNat).length) :
    ∃ m', (readBytes bus n off).run m =
      some (((chips bank.toNat).drop (page.toNat * romPagesize + off)).take n, m') := by
  induction n generalizing off m with
  | zero => exact ⟨m, by rw [List.take_zero]; rfl⟩
  | succ n ih =>
    have hloc := loc_of_sel h.board h.rom h.sel hbank hpage (i := off) (by omega)
    have hlt : page.toNat * romPagesize + off < (chips bank.toNat).length := by omega
    obtain ⟨hvalue, hreading⟩ := arrays.read_reading _ _ hlt m.dev hread
    rw [← hloc] at hvalue hreading
    obtain ⟨m', hrest⟩ := ih (m := { m with dev := (bus.read (m.loc (m.romAddr off)) m.dev).2 })
      (h.of_onlyDev rfl) hreading (off + 1) (by omega) (by omega)
    rw [← Nat.add_assoc (page.toNat * romPagesize) off 1] at hrest
    refine ⟨m', ?_⟩
    unfold readBytes
    rw [run_bind_some (romRead_run bus off m), hvalue]
    refine (run_bind_some hrest).trans ?_
    rw [List.drop_eq_getElem_cons hlt, List.take_succ_cons]
    rfl

/-- A block that begins in a bank ends there. -/
theorem block_fits {a size : Nat} (hdvd : crfsBlockSize ∣ a) (hpages : romPagesize ∣ size)
    (ha : a < size) : a + crfsBlockSize ≤ size := by
  simp only [crfsBlockSize, romPagesize] at hdvd hpages ⊢
  omega

/-- What a block copies, wherever it begins within a bank. -/
theorem copyBlock_run {chips : Nat → List UInt8} (arrays : Arrays bus chips)
    (hseries : m.board.systype = .s3000) (hrom : m.rom = windowAddr)
    (hsel : m.sel = selection m.eepromBank m.eepromPage) (hread : arrays.reading m.dev)
    (hbank : bank = 0 ∨ bank = 1) {a : Nat} (hdvd : crfsBlockSize ∣ a)
    (hpages : romPagesize ∣ (chips bank.toNat).length)
    (hsize : (chips bank.toNat).length ≤ 0x400000) (ha : a < (chips bank.toNat).length) :
    ∃ m' page off, off + crfsBlockSize ≤ romPagesize ∧
      (readBytes bus crfsBlockSize off).run (m.setBankPage bank page) =
        some (((chips bank.toNat).drop a).take crfsBlockSize, m') ∧
      (copyBlock bus bank a).run m =
        some (((0 : Int), ((chips bank.toNat).drop a).take crfsBlockSize), m') := by
  have hpage : (a : Int) >>> (16 : Nat) = (a / romPagesize : Nat) := by
    rw [Int.shiftRight_eq_div_pow]
    rfl
  have hoff : (a : Int) % 0x10000 = (a % romPagesize : Nat) := rfl
  have hsplit : a / romPagesize * romPagesize + a % romPagesize = a :=
    Nat.div_add_mod' a romPagesize
  have hfits : a % romPagesize + crfsBlockSize ≤ romPagesize := by
    simp only [crfsBlockSize, romPagesize] at hdvd ⊢
    omega
  have hlast := block_fits hdvd hpages ha
  have hturn : (0 : Int) ≤ (a / romPagesize : Nat) ∧ ((a / romPagesize : Nat) : Int) < 64 := by
    simp only [romPagesize]
    omega
  obtain ⟨m', hrun⟩ := readBytes_run arrays
    (shows_setBankPage hseries hrom hsel hbank) (by rw [setBankPage_dev]; exact hread) hbank
    hturn crfsBlockSize (a % romPagesize) hfits
    (by rw [Int.toNat_natCast, hsplit]; exact hlast)
  rw [Int.toNat_natCast, hsplit] at hrun
  refine ⟨m', _, _, hfits, hrun, ?_⟩
  unfold copyBlock
  rw [run_setBankPage_bind, hpage, hoff, run_bind_some hrun]
  rfl

theorem readBlock_run {t : EepromType} (hseries : m.board.systype = .s3000)
    (hoffset : m.eepromFsOffset = 0x10000) (hfirst : m.eeproms 0 = some t) (blockNdx : UInt16)
    (block : List UInt8) {a : Nat} (ha : a = blockNdx.toNat * crfsBlockSize + 0x10000) :
    (readBlock bus blockNdx block).run m =
      if (a : Int) < t.size then (copyBlock bus 0 a).run m
      else match m.eeproms 1 with
        | some t₁ =>
          if (a : Int) < t.size + t₁.size then (copyBlock bus 1 (a - t.size)).run m
          else some ((-1, block), m)
        | none => some ((-1, block), m) := by
  have haddr : (blockNdx.toNat * crfsBlockSize + m.eepromFsOffset : Int) = (a : Int) := by
    rw [hoffset, ha]
    rfl
  unfold readBlock
  rw [run_get_bind, haddr, hseries]
  change (eepromAt 0 >>= fun t => if (a : Int) < t.size then _ else _).run m = _
  rw [eepromAt, bind_assoc, run_get_bind, hfirst, pure_bind]
  by_cases hlow : (a : Int) < t.size
  · rw [if_pos hlow, if_pos hlow]
  · rw [if_neg hlow, if_neg hlow]
    cases m.eeproms 1 with
    | none => rfl
    | some t₁ =>
      by_cases hhigh : (a : Int) < t.size + t₁.size
      · exact (congrArg (fun p => StateT.run p m) (if_pos hhigh)).trans (if_pos hhigh).symm
      · exact (congrArg (fun p => StateT.run p m) (if_neg hhigh)).trans (if_neg hhigh).symm

/-- On a 3000 board a block is a piece of both chips in a row, from 64K on. -/
theorem readBlock_3k {chips : Nat → List UInt8} (arrays : Arrays bus chips)
    (h : m.Is3k (chips 0).length (chips 1).length) (hread : arrays.reading m.dev)
    (blockNdx : UInt16) (block : List UInt8) :
    ∃ r bytes m', (readBlock bus blockNdx block).run m = some ((r, bytes), m') ∧
      (r = -1 ↔ (chips 0).length + (chips 1).length ≤ blockNdx.toNat * crfsBlockSize + 0x10000) ∧
      (r = -1 → bytes = block ∧ m' = m) ∧
      (r ≠ -1 → r = 0 ∧
        bytes = ((chips 0 ++ chips 1).drop (blockNdx.toNat * crfsBlockSize + 0x10000)).take
          crfsBlockSize ∧
        ∃ bank page off, off + crfsBlockSize ≤ romPagesize ∧
          (readBytes bus crfsBlockSize off).run (m.setBankPage bank page) = some (bytes, m')) := by
  obtain ⟨t, hfirst, hsize₀⟩ := h.first
  obtain ⟨a, ha⟩ : ∃ a, a = blockNdx.toNat * crfsBlockSize + 0x10000 := ⟨_, rfl⟩
  have hdvd : crfsBlockSize ∣ a := by
    simp only [ha, crfsBlockSize]
    omega
  rw [readBlock_run h.series h.offset hfirst blockNdx block ha, ← ha, hsize₀]
  by_cases hlow : a < (chips 0).length
  · obtain ⟨m', page, off, hoff, hbytes, hcopy⟩ := copyBlock_run arrays h.series h.rom h.coherent
      hread (Or.inl rfl) hdvd h.pages₀.1 h.pages₀.2 hlow
    rw [if_pos (by exact_mod_cast hlow)]
    have hpiece : ((chips 0).drop a).take crfsBlockSize =
        ((chips 0 ++ chips 1).drop a).take crfsBlockSize := by
      have hfits := block_fits hdvd h.pages₀.1 hlow
      rw [List.drop_append_of_le_length hlow.le,
        List.take_append_of_le_length (by rw [List.length_drop]; omega)]
    exact ⟨0, _, m', hcopy, by omega, fun hr => by omega,
      fun _ => ⟨rfl, hpiece, 0, page, off, hoff, hbytes⟩⟩
  · rw [if_neg (by exact_mod_cast hlow)]
    rcases h.second with ⟨hnone, hsize₁⟩ | ⟨t₁, hsecond, hsize₁⟩
    · rw [hnone]
      exact ⟨-1, block, m, rfl, by omega, fun _ => ⟨rfl, rfl⟩, fun hr => absurd rfl hr⟩
    · rw [hsecond]
      by_cases hhigh : a - (chips 0).length < (chips 1).length
      · have hin : (a : Int) < ((chips 0).length : Int) + t₁.size := by omega
        have haddr : (a : Int) - ((chips 0).length : Int) = (a - (chips 0).length : Nat) := by omega
        have hdvd₁ : crfsBlockSize ∣ a - (chips 0).length := Nat.dvd_sub hdvd
          ((Nat.dvd_of_mod_eq_zero rfl : crfsBlockSize ∣ romPagesize).trans h.pages₀.1)
        obtain ⟨m', page, off, hoff, hbytes, hcopy⟩ := copyBlock_run arrays h.series h.rom
          h.coherent hread (Or.inr rfl) hdvd₁ h.pages₁.1 h.pages₁.2 hhigh
        have hpiece : ((chips 1).drop (a - (chips 0).length)).take crfsBlockSize =
            ((chips 0 ++ chips 1).drop a).take crfsBlockSize := by
          rw [List.drop_append, List.drop_eq_nil_of_le (Nat.not_lt.mp hlow), List.nil_append]
        simp only [if_pos hin, haddr]
        exact ⟨0, _, m', hcopy, by omega, fun hr => by omega,
          fun _ => ⟨rfl, hpiece, 1, page, off, hoff, hbytes⟩⟩
      · have hout : ¬ (a : Int) < ((chips 0).length : Int) + t₁.size := by omega
        simp only [if_neg hout]
        exact ⟨-1, block, m, rfl, by omega, fun _ => ⟨rfl, rfl⟩, fun hr => absurd rfl hr⟩

/-- One erased chip of 1M. -/
def erasedChips : Nat → List UInt8
  | 0 => List.replicate 0x100000 0xff
  | _ => []

def erasedBus : Bus Unit := ⟨fun _ _ => (0xff, ()), fun _ _ _ => ()⟩

def erasedArrays : Arrays erasedBus erasedChips where
  reading _ := True
  read_reading bank a h d _ := by
    refine ⟨?_, trivial⟩
    cases bank with
    | zero => exact (List.getElem_replicate h).symm
    | succ bank => exact absurd h (Nat.not_lt_zero a)

def erasedBoard : Machine Unit where
  board := .pacifica
  pageReg := 0
  pagePort := 0
  rom := windowAddr
  flatRomBase := 0
  eepromBank := 0
  eepromPage := 0
  eepromFsOffset := 0x10000
  eeproms bank := if bank = 0 then eepromTypes[0]? else none
  eepromIds _ := 0x01d5
  dev := ()

theorem erasedBoard_is3k : erasedBoard.Is3k (erasedChips 0).length (erasedChips 1).length where
  series := rfl
  rom := rfl
  offset := rfl
  first := ⟨_, rfl, by rw [erasedChips, List.length_replicate]; rfl⟩
  second := Or.inl ⟨rfl, rfl⟩
  pages₀ := by
    rw [erasedChips, List.length_replicate]
    exact ⟨⟨16, rfl⟩, by decide⟩
  pages₁ := ⟨⟨0, rfl⟩, by decide⟩
  coherent := by decide

theorem readBlock_3k_erased : ∃ bytes m', (readBlock erasedBus 3 []).run erasedBoard =
    some (((0 : Int), bytes), m') ∧
      bytes = ((erasedChips 0 ++ erasedChips 1).drop 0x13000).take crfsBlockSize := by
  obtain ⟨r, bytes, m', hrun, hfail, -, hread⟩ :=
    readBlock_3k erasedArrays erasedBoard_is3k trivial 3 []
  have hr : r ≠ -1 := by
    rw [Ne, hfail, erasedChips, List.length_replicate]
    decide
  obtain ⟨rfl, hbytes, -⟩ := hread hr
  exact ⟨bytes, m', hrun, hbytes⟩

end Flash
