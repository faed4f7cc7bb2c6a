import CobaltRom.Flash.Restore

/-! How the chips are found when the flash is set up (`eeprom_init`). Writes to I/O ports other than
the page register are left out. -/
namespace Flash
open Hoare

variable {σ : Type} {bus : Bus σ} {m m' : Machine σ} {bank i : Int}

/-- `eeproms[i] = p`. -/
def setChip (i : Int) (p : Option EepromType) : FlashM σ Unit :=
  modify fun m => { m with eeproms := Function.update m.eeproms i p }

/-- `if (p && p->reset) p->reset()`. -/
def resetType (bus : Bus σ) (p : Option EepromType) : FlashM σ Unit :=
  match p.bind EepromType.kind with
  | some k => chipReset bus k
  | none => pure ()

def eepromGetRomid (bus : Bus σ) (bank : Int) : FlashM σ UInt32 := do
  let _ ← eepromSetBankPage bank 0
  romWrite bus 0x555 0xaa
  romWrite bus 0x2aa 0x55
  romWrite bus 0x555 0x90
  let hi ← romRead bus 0x00
  let lo ← romRead bus 0x01
  let m ← get
  resetType bus (m.eeproms bank)
  pure (hi.toUInt32 <<< (8 : UInt32) + lo.toUInt32)

/-- The entry of the table for an id; the last one matches every id. -/
def typeOf (romid : UInt32) : EepromType :=
  (eepromTypes.find? fun t => t.vendorId = (romid >>> (8 : UInt32)).toUInt8 ∧
    t.deviceId = romid.toUInt8).getD unknownType

/-- On an Alpine board the flash begins where a chip of this size does that ends with the memory. -/
def placeRom (t : EepromType) : FlashM σ Unit := do
  let m ← get
  if m.board = .alpine then
    set { m with
      rom := ~~~ (UInt32.ofInt (t.size - 1))
      flatRomBase := ~~~ (UInt32.ofInt (t.size - 1)) }
  else pure ()

/-- The body of the loop over the banks. -/
def probeBank (bus : Bus σ) (i : Int) : FlashM σ Unit := do
  setChip i none
  let r ← eepromSetBankPage i 0
  if r < 0 then pure ()
  else do
    let romid ← eepromGetRomid bus i
    if romid = 0xffff then pure ()
    else do
      modify fun m => { m with eepromIds := Function.update m.eepromIds i romid }
      setChip i (some (typeOf romid))
      resetType bus (some (typeOf romid))
      placeRom (typeOf romid)

/-- The `switch` over the boards. -/
def Machine.setup (m : Machine σ) : Machine σ :=
  match m.board with
  | .pacifica | .carmel | .monterey => { m with eepromFsOffset := 0x10000 }
  | .alpine => { m with
      eepromFsOffset := 0
      flatRomBase := flatRomBaseAddr
      rom := flatRomBaseAddr }
  | .unknown | .other5000 => m

def eepromInit (bus : Bus σ) : FlashM σ Int := do
  let m ← get
  if m.board.systype = .unknown then pure (-1)
  else do
    set m.setup
    probeBank bus 0
    probeBank bus 1
    let _ ← eepromSetBankPage 0 0
    pure 0

/-! ### Board and chips stay the same -/

theorem setBankPage_static (bank page : Int) :
    Keeps Static (eepromSetBankPage bank page : FlashM σ Int) := by
  intro m r m' hrun
  obtain ⟨r', hrun'⟩ := eepromSetBankPage_run bank page m
  cases hrun.symm.trans hrun'
  exact static_setBankPage bank page m

theorem Keeps.static {α : Type} {p : FlashM σ α} (hp : Keeps OnlyDev p) : Keeps Static p :=
  fun m a m' hrun => (hp m a m' hrun).static

theorem eepromAt_static (bank : Int) : Keeps Static (eepromAt bank : FlashM σ EepromType) := by
  refine .bind .get fun m => ?_
  cases m.eeproms bank with
  | none => exact .failure
  | some t => exact .pure t

theorem chipReset_static (bus : Bus σ) (k : Kind) : Keeps Static (chipReset bus k) := by
  cases k with
  | amd => exact Keeps.static (romWrite_onlyDev _ _ _)
  | intel => exact Keeps.static (romWrite_onlyDev _ _ _)

theorem amdEraseChip_static (bus : Bus σ) (fuel : Nat) (output : Bool) :
    Keeps Static (amdEraseChip bus fuel output) := by
  have hwrite : ∀ i v, Keeps Static (romWrite bus i v) := fun i v =>
    Keeps.static (romWrite_onlyDev bus i v)
  have hwait : Keeps Static (amdEraseWait bus fuel output) :=
    Keeps.static (poll_onlyDev (amdError_onlyDev _ _ _) _ _ _)
  refine .bind .get fun m => .bind (hwrite _ _) fun _ => .bind (hwrite _ _) fun _ => ?_
  refine .bind (hwrite _ _) fun _ => .bind (hwrite _ _) fun _ => .bind (hwrite _ _) fun _ => ?_
  refine .bind (hwrite _ _) fun _ => .bind hwait fun r => .bind (hwrite _ _) fun _ => ?_
  exact .bind (setBankPage_static _ _) fun _ => .pure r

theorem intelEraseBlock_static (bus : Bus σ) (fuel : Nat) (block : Int) (output : Bool) :
    Keeps Static (intelEraseBlock bus fuel block output) := by
  have hwait : Keeps Static (poll bus 0 highBit (intelError bus 0x20 (-1)) output fuel 0 0) :=
    Keeps.static (poll_onlyDev (intelError_onlyDev _ _) _ _ _)
  refine .bind .get fun m => .ite (fun _ => .pure _) fun _ => .ite (fun _ => .pure _) fun _ => ?_
  refine .bind (setBankPage_static _ _) fun _ => .bind (Keeps.static (romWrite_onlyDev _ _ _)) ?_
  refine fun _ => .bind (Keeps.static (romWrite_onlyDev _ _ _)) fun _ => .bind hwait fun r => ?_
  exact .bind (setBankPage_static _ _) fun _ => .pure r

theorem intelEraseBlocks_static (bus : Bus σ) (fuel : Nat) (output : Bool)
    (n block : Nat) (r : Int) :
    Keeps Static (intelEraseBlocks bus fuel output n block r) := by
  induction n generalizing block r with
  | zero => exact .pure r
  | succ n ih =>
    exact .ite (fun _ => .pure r) fun _ =>
      .bind (intelEraseBlock_static bus fuel block output) fun r => ih (block + 1) r

theorem chipEraseChip_static (bus : Bus σ) (fuel : Nat) (output : Bool) (k : Kind) :
    Keeps Static (chipEraseChip bus fuel output k) := by
  cases k with
  | amd => exact amdEraseChip_static bus fuel output
  | intel =>
    refine .bind .get fun m => .ite (fun _ => .pure _) fun _ =>
      .bind (eepromAt_static _) fun t => ?_
    refine .bind (intelEraseBlocks_static bus fuel output _ 0 0) fun r => ?_
    refine .bind (Keeps.static (romWrite_onlyDev _ _ _)) fun _ => ?_
    exact .bind (setBankPage_static _ _) fun _ => .pure r

theorem eepromEraseChip_static (bus : Bus σ) (fuel : Nat) (bank : Int) (output : Bool) :
    Keeps Static (eepromEraseChip bus fuel bank output) := by
  refine .bind (setBankPage_static _ _) fun _ => .bind (eepromAt_static _) fun t => ?_
  cases t.kind with
  | none => exact .pure 0
  | some k =>
    exact .bind (chipEraseChip_static bus fuel output k) fun ret =>
      .bind (chipReset_static bus k) fun _ => .pure ret

/-! ### The chips it finds are in the table -/

/-- The entry for a bank is one of the table. -/
def Listed (m : Machine σ) (bank : Int) : Prop :=
  ∀ t, m.eeproms bank = some t → t ∈ eepromTypes ∨ t = unknownType

/-- What is listed stays so. -/
def KeepsListed (m m' : Machine σ) : Prop := ∀ bank, Listed m bank → Listed m' bank

instance : Std.Refl (KeepsListed (σ := σ)) := ⟨fun _ _ h => h⟩

instance : IsTrans (Machine σ) KeepsListed := ⟨fun _ _ _ h h' bank hm => h' bank (h bank hm)⟩

theorem keepsListed_of_eeproms (h : m'.eeproms = m.eeproms) : KeepsListed m m' := by
  intro bank hm t ht
  rw [h] at ht
  exact hm t ht

theorem typeOf_mem (romid : UInt32) : typeOf romid ∈ eepromTypes ∨ typeOf romid = unknownType := by
  unfold typeOf
  cases hfind : eepromTypes.find? _ with
  | none => exact Or.inr rfl
  | some t => exact Or.inl (List.mem_of_find?_eq_some hfind)

theorem setChip_listed {p : Option EepromType} (hp : ∀ t ∈ p, t ∈ eepromTypes ∨ t = unknownType)
    (hrun : (setChip i p).run m = some ((), m')) : KeepsListed m m' ∧ Listed m' i := by
  cases hrun
  constructor
  · intro bank hm t ht
    by_cases hbank : bank = i
    · subst hbank
      exact hp t ((Function.update_self bank p m.eeproms).symm.trans ht)
    · exact hm t ((Function.update_of_ne hbank p m.eeproms).symm.trans ht)
  · intro t ht
    exact hp t ((Function.update_self i p m.eeproms).symm.trans ht)

theorem Keeps.listed {α : Type} {p : FlashM σ α} (hp : Keeps Static p) : Keeps KeepsListed p :=
  fun m a m' hrun => keepsListed_of_eeproms (hp m a m' hrun).eeproms

theorem resetType_static (bus : Bus σ) (p : Option EepromType) :
    Keeps Static (resetType bus p) := by
  unfold resetType
  cases p.bind EepromType.kind with
  | none => exact .pure ()
  | some k => exact chipReset_static bus k

theorem eepromGetRomid_static (bus : Bus σ) (bank : Int) :
    Keeps Static (eepromGetRomid bus bank) := by
  have hwrite : ∀ i v, Keeps Static (romWrite bus i v) := fun i v =>
    Keeps.static (romWrite_onlyDev bus i v)
  have hread : ∀ i, Keeps Static (romRead bus i) := fun i => Keeps.static (romRead_onlyDev bus i)
  refine .bind (setBankPage_static _ _) fun _ => .bind (hwrite _ _) fun _ => ?_
  refine .bind (hwrite _ _) fun _ => .bind (hwrite _ _) fun _ => .bind (hread _) fun hi => ?_
  refine .bind (hread _) fun lo => .bind .get fun m => ?_
  exact .bind (resetType_static _ _) fun _ => .pure _

theorem placeRom_listed (t : EepromType) : Keeps KeepsListed (placeRom t : FlashM σ Unit) := by
  intro m a m' hrun
  unfold placeRom at hrun
  rw [run_get_bind] at hrun
  split at hrun
  · cases hrun
    exact keepsListed_of_eeproms rfl
  · cases hrun
    exact Std.Refl.refl _

theorem probeBank_listed (hrun : (probeBank bus i).run m = some ((), m')) :
    KeepsListed m m' ∧ Listed m' i := by
  obtain ⟨u, m₁, hnone, hrest⟩ := of_run_bind hrun
  obtain ⟨hkeeps, hlisted⟩ := setChip_listed (fun t ht => absurd ht (Option.not_mem_none t)) hnone
  have hafter : Keeps KeepsListed (eepromSetBankPage i 0 >>= fun r => if r < 0 then pure () else do
      let romid ← eepromGetRomid bus i
      if romid = 0xffff then pure ()
      else do
        modify fun m => { m with eepromIds := Function.update m.eepromIds i romid }
        setChip i (some (typeOf romid))
        resetType bus (some (typeOf romid))
        placeRom (typeOf romid)) := by
    refine .bind (Keeps.listed (setBankPage_static _ _)) fun r =>
      .ite (fun _ => .pure ()) fun _ => ?_
    refine .bind (Keeps.listed (eepromGetRomid_static _ _)) fun romid =>
      .ite (fun _ => .pure ()) fun _ => ?_
    refine .bind ?_ fun _ => .bind ?_ fun _ => .bind ?_ fun _ => placeRom_listed _
    · intro m u m' hids
      cases hids
      exact keepsListed_of_eeproms rfl
    · intro m u m' hchip
      refine (setChip_listed (fun t ht => ?_) hchip).1
      exact Option.mem_some.mp ht ▸ typeOf_mem romid
    · exact Keeps.listed (resetType_static _ _)
  exact ⟨IsTrans.trans _ _ _ hkeeps (hafter m₁ _ m' hrest), hafter m₁ _ m' hrest i hlisted⟩

theorem eepromInit_listed (hrun : (eepromInit bus).run m = some ((0 : Int), m'))
    (hbank : bank = 0 ∨ bank = 1) : Listed m' bank := by
  unfold eepromInit at hrun
  rw [run_get_bind] at hrun
  by_cases hunknown : m.board.systype = .unknown
  · rw [if_pos hunknown] at hrun
    cases hrun
  · rw [if_neg hunknown] at hrun
    obtain ⟨u, m₁, -, hrun⟩ := of_run_bind hrun
    obtain ⟨u₁, m₂, hfirst, hrun⟩ := of_run_bind hrun
    obtain ⟨u₂, m₃, hsecond, hrun⟩ := of_run_bind hrun
    obtain ⟨r, m₄, hselect, hrun⟩ := of_run_bind hrun
    obtain ⟨-, rfl⟩ := of_run_pure hrun
    refine Keeps.listed (setBankPage_static 0 0) _ _ _ hselect bank ?_
    rcases hbank with rfl | rfl
    · exact (probeBank_listed hsecond).1 0 (probeBank_listed hfirst).2
    · exact (probeBank_listed hsecond).2

end Flash
