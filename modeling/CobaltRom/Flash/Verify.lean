import CobaltRom.Flash.Chip

/-! What verifying finds out, and what `eeprom_write_chip` therefore knows when it returns 0. -/
namespace Flash
open Hoare

variable {σ : Type} {bus : Bus σ} {m m' m₁ : Machine σ} {bank : Int} {t : EepromType} {k : Kind}
  {data : Nat → UInt8}

/-! ### Reading a chip -/

section Reading

variable (chip : FlashChip bus bank.toNat k t.size.toNat)

/-- The chip still reads its array, and that has not changed. -/
def FlashChip.Unchanged (m m' : Machine σ) : Prop :=
  chip.reading m'.dev ∧ chip.content m'.dev = chip.content m.dev

variable {chip}

theorem FlashChip.Unchanged.trans (h : chip.Unchanged m m₁) (h' : chip.Unchanged m₁ m') :
    chip.Unchanged m m' :=
  ⟨h'.1, h'.2.trans h.2⟩

theorem romRead_reading (h : m.On bank t) (ht : t ∈ eepromTypes) (hread : chip.reading m.dev)
    {i : Nat} (hi : i < romPagesize)
    (hpage : m.eepromPage.toNat * romPagesize + i < t.size.toNat) :
    ∃ m', (romRead bus i).run m =
        some (chip.content m.dev (m.eepromPage.toNat * romPagesize + i), m') ∧
      OnlyDev m m' ∧ chip.Unchanged m m' := by
  obtain ⟨a, hloc, ha⟩ := h.loc ht hi hpage
  obtain ⟨hvalue, hreading⟩ := chip.read_reading a m.dev hread
  refine ⟨{ m with dev := (bus.read (m.loc (m.romAddr i)) m.dev).2 }, ?_, rfl, ?_⟩
  · rw [romRead_run, hloc, hvalue, ha]
  · rw [hloc]
    exact hreading

theorem verifyBytes_reading (h : m.On bank t) (ht : t ∈ eepromTypes) (hread : chip.reading m.dev)
    (hpage : m.eepromPage.toNat * romPagesize + romPagesize ≤ t.size.toNat)
    (n i : Nat) (hn : i + n ≤ romPagesize) :
    ∃ r m', (verifyBytes bus data n i).run m = some (r, m') ∧ OnlyDev m m' ∧ chip.Unchanged m m' ∧
      (r = none ↔ ∀ j, i ≤ j → j < i + n →
        chip.content m.dev (m.eepromPage.toNat * romPagesize + j) = data j) := by
  induction n generalizing i m with
  | zero => exact ⟨none, m, rfl, rfl, ⟨hread, rfl⟩, iff_of_true rfl fun j _ _ => by omega⟩
  | succ n ih =>
    obtain ⟨m₁, hrun, hdev, hsame⟩ := romRead_reading h ht hread
      (show i < romPagesize by omega) (by omega)
    unfold verifyBytes
    rw [run_bind_some hrun]
    by_cases hne : chip.content m.dev (m.eepromPage.toNat * romPagesize + i) ≠ data i
    · rw [if_pos hne]
      refine ⟨some i, m₁, rfl, hdev, hsame, iff_of_false (Option.some_ne_none i) fun hall => ?_⟩
      exact hne (hall i le_rfl (by omega))
    · rw [if_neg hne]
      have hpages : m₁.eepromPage = m.eepromPage := congrArg (fun w => w.1.2) hdev.window
      obtain ⟨r, m', hrest, hdev', hsame', hr⟩ := ih (h.of_onlyDev hdev) hsame.1
        (by rw [hpages]; exact hpage) (i + 1) (by omega)
      refine ⟨r, m', hrest, IsTrans.trans m m₁ m' hdev hdev', hsame.trans hsame', hr.trans ?_⟩
      rw [hpages, hsame.2]
      constructor
      · intro hall j hij hj
        rcases Nat.eq_or_lt_of_le hij with rfl | hlt
        · exact not_not.mp hne
        · exact hall j hlt (by omega)
      · intro hall j hij hj
        exact hall j (by omega) (by omega)

theorem pages_le_64 (ht : t ∈ eepromTypes) {pages : Nat} (h : pages * romPagesize ≤ t.size.toNat) :
    pages ≤ 64 := by
  have hle : t.size.toNat ≤ 64 * romPagesize := by
    rcases size_cases ht with hs | hs | hs <;> rw [hs] <;> decide
  exact Nat.le_of_mul_le_mul_right (h.trans hle) (by decide)

theorem page_lt {size page i : Nat} (hi : i < size) (n : Nat) :
    page * size + i < (page + 1 + n) * size := calc
  page * size + i < page * size + size := Nat.add_lt_add_left hi _
  _ = (page + 1) * size := (Nat.succ_mul _ _).symm
  _ ≤ (page + 1 + n) * size := Nat.mul_le_mul_right _ (Nat.le_add_right _ _)

theorem sub_page_lt {size page a : Nat} (hlow : page * size ≤ a) (h : a < (page + 1) * size) :
    a - page * size < size := by
  rw [Nat.succ_mul] at h
  omega

theorem verifyPages_reading (h : m.On bank t) (ht : t ∈ eepromTypes) (hread : chip.reading m.dev)
    (n page : Nat) (hn : (page + n) * romPagesize ≤ t.size.toNat) :
    ∃ r m', (verifyPages bus data n page).run m = some (r, m') ∧ chip.Unchanged m m' ∧
      (r = none ↔ ∀ a, page * romPagesize ≤ a → a < (page + n) * romPagesize →
        chip.content m.dev a = data a) := by
  induction n generalizing page m with
  | zero =>
    refine ⟨none, m, rfl, ⟨hread, rfl⟩, iff_of_true rfl fun a hlow hhigh => ?_⟩
    exact absurd hhigh (Nat.not_lt.mpr hlow)
  | succ n ih =>
    have hshift : page + (n + 1) = page + 1 + n := by omega
    have hpages := pages_le_64 ht hn
    rw [hshift] at hn ⊢
    have hturn : (0 : Int) ≤ page ∧ (page : Int) < 64 := by omega
    obtain ⟨hon, hpage⟩ := h.setBankPage hturn
    have hset := setBankPage_dev m.eepromBank page m
    have hfits : page * romPagesize + romPagesize ≤ t.size.toNat :=
      ((Nat.succ_mul _ _).symm.le.trans (Nat.mul_le_mul_right _ (Nat.le_add_right _ n))).trans hn
    obtain ⟨bad, m₁, hbytes, honly, hsame, hbad⟩ := verifyBytes_reading
      hon ht (by rw [hset]; exact hread)
      (by rw [hpage, Int.toNat_natCast]; exact hfits) romPagesize 0 (Nat.zero_add _).le
    rw [hpage, Int.toNat_natCast, hset] at hbad
    have hcontent : chip.content m₁.dev = chip.content m.dev := by
      rw [hsame.2, hset]
    unfold verifyPages
    rw [run_get_bind, run_setBankPage_bind, run_bind_some hbytes]
    cases bad with
    | some i =>
      refine ⟨_, m₁, rfl, ⟨hsame.1, hcontent⟩, iff_of_false (Option.some_ne_none _) fun hall => ?_⟩
      exact Option.some_ne_none i (hbad.mpr fun j _ hj =>
        hall _ (Nat.le_add_right _ _) (page_lt (by rwa [Nat.zero_add] at hj) n))
    | none =>
      obtain ⟨r, m', hrest, hsame', hr⟩ := ih (hon.of_onlyDev honly) hsame.1 (page + 1) hn
      refine ⟨r, m', hrest, ⟨hsame'.1, hsame'.2.trans hcontent⟩, hr.trans ?_⟩
      rw [hcontent]
      constructor
      · intro hall a hlow hhigh
        by_cases hfirst : a < (page + 1) * romPagesize
        · have hbyte := hbad.mp rfl (a - page * romPagesize) (Nat.zero_le _)
            (by rw [Nat.zero_add]; exact sub_page_lt hlow hfirst)
          rwa [Nat.add_sub_cancel' hlow] at hbyte
        · exact hall a (Nat.not_lt.mp hfirst) hhigh
      · intro hall a hlow hhigh
        exact hall a ((Nat.mul_le_mul_right _ (Nat.le_succ page)).trans hlow) hhigh

theorem badSize_eq (h : m.On bank t) (size : Int) : badSize m size = decide (size > t.size) := by
  rw [badSize, h.selected, h.chip]

theorem badBlock_eq (h : m.On bank t) (block : Int) :
    badBlock m block = decide (block ≥ t.blocks) := by
  rw [badBlock, h.selected, h.chip]

theorem not_badSize (h : m.On bank t) (ht : t ∈ eepromTypes) {size : Nat}
    (hsize : size ≤ t.size.toNat) : ¬ badSize m size = true := by
  have hpos : t.size.toNat = t.size := Int.toNat_of_nonneg (by
    rcases size_cases ht with hs | hs | hs <;> rw [hs] <;> decide)
  rw [badSize_eq h, decide_eq_true_eq]
  omega

/-- The pages of a size are what is verified. -/
theorem genericVerifyChip_reading (h : m.On bank t) (ht : t ∈ eepromTypes)
    (hread : chip.reading m.dev) {size : Nat} (hsize : size ≤ t.size.toNat) :
    ∃ r m', (genericVerifyChip bus data size).run m = some (r, m') ∧ chip.Unchanged m m' ∧
      (r = 0 ↔ ∀ a, a < size / romPagesize * romPagesize → chip.content m.dev a = data a) := by
  have hpages : ((size : Int) >>> (16 : Nat)).toNat = size / romPagesize := by
    rw [Int.shiftRight_eq_div_pow]
    rfl
  have hfits : (0 + size / romPagesize) * romPagesize ≤ t.size.toNat := by
    rw [Nat.zero_add]
    exact (Nat.div_mul_le_self _ _).trans hsize
  have hbad := not_badSize h ht hsize
  obtain ⟨bad, m₁, hrun, hsame, hnone⟩ := verifyPages_reading h ht hread
    (size / romPagesize) 0 hfits
  rw [genericVerifyChip_run, if_neg hbad, hpages, hrun]
  refine ⟨_, _, rfl, ?_, ?_⟩
  · have hdev := setBankPage_dev m.eepromBank m.eepromPage m₁
    exact ⟨hdev ▸ hsame.1, (congrArg chip.content hdev).trans hsame.2⟩
  · rw [Nat.zero_mul, Nat.zero_add] at hnone
    refine Iff.trans ?_ (hnone.trans ?_)
    · cases bad with
      | none => exact iff_of_true rfl rfl
      | some i => exact iff_of_false (by change (i : Int) + 1 ≠ 0; omega) (Option.some_ne_none i)
    · exact ⟨fun hall a ha => hall a (Nat.zero_le a) ha, fun hall a _ ha => hall a ha⟩

end Reading

/-! ### Writing and verifying -/

/-- A board with a chip in a bank, and a selection that the variables describe. -/
structure Machine.Installed (m : Machine σ) (bank : Int) (t : EepromType) : Prop where
  number : bank = 0 ∨ bank = 1
  alpine : m.board = .alpine → bank = 0
  known : m.board ≠ .unknown ∧ m.board ≠ .other5000
  coherent : m.hw = m.hwFor m.eepromBank m.eepromPage
  rom : m.board ≠ .alpine → m.rom = windowAddr
  base : m.board = .alpine → m.flatRomBase = ~~~ (UInt32.ofInt (t.size - 1))
  chip : m.eeproms bank = some t
  chips : ∀ bank t, m.eeproms bank = some t → t ∈ eepromTypes ∨ t = unknownType

theorem Machine.Installed.setBankPage (h : m.Installed bank t) :
    (m.setBankPage bank 0).On bank t ∧ (m.setBankPage bank 0).eepromPage = 0 := by
  have hstatic := static_setBankPage bank 0 m
  have hset : (m.setBankPage bank 0).eepromBank = bank ∧ (m.setBankPage bank 0).eepromPage = 0 ∧
      (m.setBankPage bank 0).hw = m.hwFor bank 0 := by
    have hmax : ¬ bank ≥ eepromMaxBanks := by
      rcases h.number with hb | hb <;> rw [hb] <;> decide
    have halpine : ¬ (m.board = .alpine ∧ bank ≠ 0) := fun hb => hb.2 (h.alpine hb.1)
    unfold Machine.setBankPage
    by_cases hsame : m.eepromBank = bank ∧ m.eepromPage = 0
    · rw [if_pos (Or.inr (Or.inr hsame))]
      refine ⟨hsame.1, hsame.2, ?_⟩
      rw [h.coherent, hsame.1, hsame.2]
    · rw [if_neg fun hor => hor.elim hmax fun hor => hor.elim halpine hsame]
      have hchar : char bank = bank := by
        rcases h.number with hb | hb <;> rw [hb] <;> rfl
      exact ⟨hchar, rfl, select_hw bank 0 m⟩
  obtain ⟨hbank, hpage, hhw⟩ := hset
  refine ⟨?_, hpage⟩
  constructor
  · constructor
    · rw [hbank]
      exact h.number
    · rw [hbank, hstatic.board]
      exact h.alpine
    · rw [hpage]
      decide
    · rw [hhw, hbank, hpage, hstatic.hwFor]
    · rw [hstatic.eeproms]
      exact h.chips
  · exact hbank
  · rw [hstatic.board]
    exact h.known
  · intro hboard
    rw [hstatic.board] at hboard
    rw [hstatic.rom hboard]
    exact h.rom hboard
  · intro hboard
    rw [hstatic.board] at hboard
    rw [hstatic.base]
    exact h.base hboard
  · rw [hstatic.eeproms]
    exact h.chip

theorem run_chipReset_bind {β : Type} (bus : Bus σ) (k : Kind) (q : FlashM σ β) (m : Machine σ) :
    (chipReset bus k >>= fun _ => q).run m = q.run (m.poke bus 0 k.resetByte) := by
  cases k with
  | amd => exact run_romWrite_bind bus 0 0xf0 q m
  | intel => exact run_romWrite_bind bus 0 0xff q m

theorem chipVerifyChip_run (bus : Bus σ) (data : Nat → UInt8) (size : Int) (k : Kind)
    (m : Machine σ) : (chipVerifyChip bus data size k).run m =
      (genericVerifyChip bus data size).run (m.poke bus 0 k.resetByte) := by
  cases k with
  | amd => exact run_romWrite_bind bus 0 0xf0 _ m
  | intel => exact run_romWrite_bind bus 0 0xff _ m

/-- What `eeprom_write_chip` does once the chip has been found. -/
theorem eepromWriteChip_run {fuel : Nat} {size : UInt32}
    (hchip : (m.setBankPage bank 0).eeproms bank = some t) (hk : t.kind = some k) :
    (eepromWriteChip bus fuel bank data size).run m =
      ((chipWriteChip bus fuel data size.toInt32.toInt k).run (m.setBankPage bank 0)).bind fun x =>
        if x.1 ≠ 0 then some (x.1, x.2.poke bus 0 k.resetByte)
        else ((genericVerifyChip bus data size.toInt32.toInt).run
          ((x.2.poke bus 0 k.resetByte).poke bus 0 k.resetByte)).map fun y =>
            (y.1, y.2.poke bus 0 k.resetByte) := by
  unfold eepromWriteChip
  rw [run_setBankPage_bind, eepromAt, bind_assoc, run_get_bind, hchip, pure_bind, hk]
  rw [StateT.run_bind]
  cases (chipWriteChip bus fuel data size.toInt32.toInt k).run (m.setBankPage bank 0) with
  | none => rfl
  | some x =>
    refine (run_chipReset_bind bus k _ x.2).trans ?_
    by_cases hret : x.1 ≠ 0
    · rw [if_pos hret, Option.bind_some, if_pos hret]
      rfl
    · rw [if_neg hret, StateT.run_bind, chipVerifyChip_run, Option.bind_some, if_neg hret]
      cases (genericVerifyChip bus data size.toInt32.toInt).run
        ((x.2.poke bus 0 k.resetByte).poke bus 0 k.resetByte) with
      | none => rfl
      | some y => exact run_chipReset_bind bus k (pure y.1) y.2

theorem toInt32_toInt {size : UInt32} (h : size.toNat ≤ 0x400000) :
    size.toInt32.toInt = size.toNat := by
  have hsmall : 2 * size.toBitVec.toNat < 2 ^ 32 := by
    change 2 * size.toNat < 2 ^ 32
    omega
  exact BitVec.toInt_eq_toNat_of_lt hsmall

theorem size_le (ht : t ∈ eepromTypes) : t.size.toNat ≤ 0x400000 := by
  rcases size_cases ht with hs | hs | hs <;> rw [hs] <;> decide

section Pages

variable {chip : FlashChip bus bank.toNat k t.size.toNat} {fuel : Nat} {size : UInt32}

/-- Page 0 of the chip is reset. -/
theorem poke_reset (h : m.On bank t) (ht : t ∈ eepromTypes) (hpage : m.eepromPage = 0) :
    ∃ a, m.poke bus 0 k.resetByte =
      { m with dev := bus.write (.flash bank.toNat a) k.resetByte m.dev } := by
  obtain ⟨a, hloc, -⟩ := h.loc (i := 0) ht (by decide) (by
    rcases size_cases ht with hs | hs | hs <;> rw [hs, hpage] <;> decide)
  refine ⟨a, ?_⟩
  rw [Machine.poke, ← hloc]
  rfl

/-- The two resets before the chip is read. -/
theorem reset_twice (h : m.On bank t) (ht : t ∈ eepromTypes) (hpage : m.eepromPage = 0) :
    ((m.poke bus 0 k.resetByte).poke bus 0 k.resetByte).On bank t ∧
      chip.reading ((m.poke bus 0 k.resetByte).poke bus 0 k.resetByte).dev := by
  have hon := h.of_onlyDev (poke_onlyDev bus 0 k.resetByte m)
  obtain ⟨a, ha⟩ := poke_reset (k := k) h ht hpage
  obtain ⟨b, hb⟩ := poke_reset (k := k) hon ht hpage
  refine ⟨hon.of_onlyDev (poke_onlyDev bus 0 k.resetByte _), ?_⟩
  rw [hb, ha]
  exact chip.reset_reset a b m.dev

/-- Where it returns 0, the pages of the size are in the chip. -/
theorem eepromWriteChip_pages (h : m.Installed bank t) (ht : t ∈ eepromTypes)
    (hk : t.kind = some k) (hsize : size.toNat ≤ t.size.toNat)
    (hrun : (eepromWriteChip bus fuel bank data size).run m = some ((0 : Int), m')) :
    ∀ a, a < size.toNat / romPagesize * romPagesize → chip.content m'.dev a = data a := by
  obtain ⟨hon, hpage⟩ := h.setBankPage
  rw [eepromWriteChip_run hon.chip hk, toInt32_toInt (hsize.trans (size_le ht))] at hrun
  obtain ⟨⟨r₁, m₁⟩, hwrite, hrest⟩ := Option.bind_eq_some_iff.mp hrun
  obtain ⟨hstatic, hwindow⟩ := chipWriteChip_window hon.valid hwrite
  have hon₁ := hon.of_window hstatic hwindow
  have hpage₁ : m₁.eepromPage = 0 := (congrArg (fun w => w.1.2) hwindow).trans hpage
  have hr₁ : ¬ r₁ ≠ 0 := by
    intro hr
    rw [if_pos hr] at hrest
    exact hr (congrArg Prod.fst (Option.some.inj hrest))
  rw [if_neg hr₁] at hrest
  obtain ⟨hon₃, hread⟩ := reset_twice hon₁ ht hpage₁
  obtain ⟨r₂, m₂, hverify, hsame, hzero⟩ := genericVerifyChip_reading hon₃ ht hread hsize
  rw [hverify] at hrest
  have hr₂ : r₂ = 0 := congrArg Prod.fst (Option.some.inj hrest)
  have hm' : m₂.poke bus 0 k.resetByte = m' := congrArg Prod.snd (Option.some.inj hrest)
  obtain ⟨hstatic₂, hwindow₂⟩ := genericVerifyChip_window hon₃.valid hverify
  have hpage₂ : m₂.eepromPage = 0 := (congrArg (fun w => w.1.2) hwindow₂).trans hpage₁
  obtain ⟨c, hc⟩ := poke_reset (k := k) (hon₃.of_window hstatic₂ hwindow₂) ht hpage₂
  intro x hx
  rw [← hm', hc, (chip.reset_reading c m₂.dev hsame.1).2, hsame.2]
  exact hzero.mp hr₂ x hx

end Pages

end Flash
