import CobaltRom.Flash.Blocks
import CobaltRom.Flash.Ignoring

/-! `write_block`: the buffer holds one block, and the flash is handed a page. -/
namespace Flash
open Hoare
open Crfs (crfsBlockSize)

variable {σ : Type} {bus : Bus σ} {fuel : Nat} {bank romAddr : Int} {blockNdx : UInt16}
  {block block' data data' : Nat → UInt8}

/-- The page of an address within a bank is erased and programmed; `block` is the memory from the
buffer on. -/
def rewritePage (bus : Bus σ) (fuel : Nat) (bank romAddr : Int) (block : Nat → UInt8) :
    FlashM σ Int := do
  let _ ← eepromSetBankPage bank (romAddr >>> (16 : Nat))
  let t ← eepromAt bank
  match t.kind with
  | none => pure (-1)
  | some k => do
    let r ← chipEraseBlock bus fuel (romAddr >>> (16 : Nat)) false k
    chipReset bus k
    if r ≠ 0 then pure r
    else do
      let r ← chipWriteBlock bus fuel (romAddr >>> (16 : Nat)) block k
      chipReset bus k
      pure r

def writeBlock (bus : Bus σ) (fuel : Nat) (blockNdx : UInt16) (block : Nat → UInt8) :
    FlashM σ Int := do
  let m ← get
  let romAddr : Int := blockNdx.toNat * crfsBlockSize + m.eepromFsOffset
  let t ← eepromAt 0
  if romAddr < t.size then rewritePage bus fuel 0 romAddr block
  else match m.eeproms 1 with
    | some t₁ =>
      if romAddr < t.size + t₁.size then rewritePage bus fuel 1 (romAddr - t.size) block
      else pure (-1)
    | none => pure (-1)

/-! ### What the flash is told -/

/-- With what has been written so far. -/
abbrev Recorded (σ : Type) := σ × List (Loc × UInt8)

def Bus.recording (bus : Bus σ) : Bus (Recorded σ) where
  read loc d := ((bus.read loc d.1).1, (bus.read loc d.1).2, d.2)
  write loc v d := (bus.write loc v d.1, d.2 ++ [(loc, v)])

/-- More may have been written since. -/
def Longer (m m' : Machine (Recorded σ)) : Prop := m.dev.2 <+: m'.dev.2

instance : Std.Refl (Longer (σ := σ)) := ⟨fun m => List.prefix_refl m.dev.2⟩

instance : IsTrans (Machine (Recorded σ)) Longer := ⟨fun _ _ _ h h' => List.IsPrefix.trans h h'⟩

variable {m m' m₁ m₂ : Machine (Recorded σ)}

theorem romRead_longer (i : Int) : Keeps Longer (romRead bus.recording i) := by
  intro m v m' h
  cases h
  exact List.prefix_refl _

theorem romWrite_longer (i : Int) (v : UInt8) : Keeps Longer (romWrite bus.recording i v) := by
  intro m u m' h
  cases h
  exact List.prefix_append _ _

/-- The record of a command. -/
theorem pokes_record (l : List (Int × UInt8)) (m : Machine (Recorded σ)) :
    (m.pokes bus.recording l).dev.2 = m.dev.2 ++ l.map fun x => (m.loc (m.romAddr x.1), x.2) := by
  induction l generalizing m with
  | nil => exact (List.append_nil _).symm
  | cons x l ih =>
    rw [Machine.pokes, List.foldl_cons, List.map_cons]
    refine (ih (m.poke bus.recording x.1 x.2)).trans ?_
    exact List.append_assoc _ _ _

theorem pokes_longer (l : List (Int × UInt8)) (m : Machine (Recorded σ)) :
    Longer m (m.pokes bus.recording l) := by
  rw [Longer, pokes_record]
  exact List.prefix_append _ _

theorem setBankPage_longer (bank page : Int) (m : Machine (Recorded σ)) :
    Longer m (m.setBankPage bank page) := by
  rw [Longer, setBankPage_dev]

theorem poll_longer {off : Int} {ready : UInt8 → Bool} {error : FlashM (Recorded σ) (Option Int)}
    {counted : Bool} (herror : Keeps Longer error) (fuel timeout : Nat) (r : Int) :
    Keeps Longer (poll bus.recording off ready error counted fuel timeout r) := by
  induction fuel generalizing timeout r with
  | zero => exact .failure
  | succ fuel ih =>
    exact .bind (romRead_longer off) fun s => .ite (fun _ => .pure _) fun _ =>
      .bind herror fun _ => ih _ _

theorem amdWait_longer (i : Nat) (r : Int) : Keeps Longer (amdWait bus.recording fuel data i r) :=
  poll_longer (.bind (romRead_longer _) fun _ => .ite
    (fun _ => .bind (romRead_longer _) fun _ => .pure _) fun _ => .pure _) fuel 0 r

theorem intelWait_longer (i : Nat) (r : Int) : Keeps Longer (intelWait bus.recording fuel i r) :=
  poll_longer (.bind (romRead_longer _) fun _ => .ite
    (fun _ => .bind (romWrite_longer _ _) fun _ => .pure _) fun _ => .pure _) fuel 0 r

theorem chipReset_longer (k : Kind) : Keeps Longer (chipReset bus.recording k) := by
  cases k with
  | amd => exact romWrite_longer _ _
  | intel => exact romWrite_longer _ _

/-! ### The bytes of a page -/

/-- The loops over the bytes of a page. -/
def chipWriteBytes (bus : Bus σ) (fuel : Nat) (data : Nat → UInt8) (n i : Nat) (r : Int) :
    Kind → FlashM σ Int
  | .amd => amdWriteBytes bus fuel data n i r
  | .intel => intelWriteBytes bus fuel data n i r

/-- The writes that have a chip program a byte. -/
def chipProgram (i : Int) (v : UInt8) : Kind → List (Int × UInt8)
  | .amd => amdProgram i v
  | .intel => intelProgram i v

def chipWait (bus : Bus σ) (fuel : Nat) (data : Nat → UInt8) (i : Nat) : Kind → FlashM σ Int
  | .amd => amdWait bus fuel data i 0
  | .intel => intelWait bus fuel i 0

theorem chipWait_longer (i : Nat) (k : Kind) :
    Keeps Longer (chipWait bus.recording fuel data i k) := by
  cases k with
  | amd => exact amdWait_longer i 0
  | intel => exact intelWait_longer i 0

theorem chipWriteBytes_succ (bus : Bus σ) (data : Nat → UInt8) (n i : Nat) (k : Kind)
    (m : Machine σ) :
    (chipWriteBytes bus fuel data (n + 1) i 0 k).run m =
      ((chipWait bus fuel data i k).run (m.pokes bus (chipProgram i (data i) k))).bind fun x =>
        (chipWriteBytes bus fuel data n (i + 1) x.1 k).run x.2 := by
  cases k with
  | amd => exact amdWriteBytes_succ n i m
  | intel => exact intelWriteBytes_succ n i 0 m

/-- An error stays. -/
theorem chipWriteBytes_error {r r' : Int} (hr : r ≠ 0) {n i : Nat} {k : Kind} {m m' : Machine σ}
    (h : (chipWriteBytes bus fuel data n i r k).run m = some (r', m')) : r' = r := by
  cases k with
  | amd =>
    rw [chipWriteBytes, amdWriteBytes_error hr] at h
    exact (congrArg Prod.fst (Option.some.inj h)).symm
  | intel => exact intelWriteBytes_error hr h

theorem chipWriteBytes_longer (n i : Nat) (k : Kind)
    (h : (chipWriteBytes bus.recording fuel data n i 0 k).run m = some ((0 : Int), m')) :
    Longer m m' := by
  induction n generalizing i m with
  | zero =>
    cases k with
    | amd | intel =>
      cases h
      exact Std.Refl.refl _
  | succ n ih =>
    rw [chipWriteBytes_succ] at h
    obtain ⟨⟨r, m₁⟩, hwait, hrest⟩ := Option.bind_eq_some_iff.mp h
    have hr : r = 0 := by
      by_contra hne
      exact hne (chipWriteBytes_error hne hrest).symm
    subst hr
    refine IsTrans.trans m _ m' ?_ (ih _ hrest)
    exact IsTrans.trans m _ m₁ (pokes_longer _ m) (chipWait_longer i k _ _ _ hwait)

/-- The byte is on the record. -/
theorem chipWriteBytes_sends {n i : Nat} {k : Kind}
    (h : (chipWriteBytes bus.recording fuel data (n + 1) i 0 k).run m = some ((0 : Int), m')) :
    Longer (m.pokes bus.recording (chipProgram i (data i) k)) m' := by
  rw [chipWriteBytes_succ] at h
  obtain ⟨⟨r, m₁⟩, hwait, hrest⟩ := Option.bind_eq_some_iff.mp h
  have hr : r = 0 := by
    by_contra hne
    exact hne (chipWriteBytes_error hne hrest).symm
  subst hr
  exact IsTrans.trans _ m₁ m' (chipWait_longer i k _ _ _ hwait) (chipWriteBytes_longer n _ k hrest)

/-- Two records of one length that go on to the same. -/
theorem record_eq (l l' : List (Int × UInt8)) (hlen : l.length = l'.length)
    (h : Longer (m.pokes bus.recording l) m') (h' : Longer (m.pokes bus.recording l') m') :
    l.map (fun x => (m.loc (m.romAddr x.1), x.2)) =
      l'.map fun x => (m.loc (m.romAddr x.1), x.2) := by
  rw [Longer, pokes_record] at h h'
  have hsame := List.prefix_of_prefix_length_le h h' (by
    rw [List.length_append, List.length_append, List.length_map, List.length_map, hlen])
  have heq := hsame.eq_of_length (by
    rw [List.length_append, List.length_append, List.length_map, List.length_map, hlen])
  exact List.append_cancel_left heq

theorem chipProgram_inj {i : Nat} {v v' : UInt8} {k : Kind}
    (h : Longer (m.pokes bus.recording (chipProgram i v k)) m')
    (h' : Longer (m.pokes bus.recording (chipProgram i v' k)) m') : v = v' := by
  cases k with
  | amd =>
    have heq := record_eq (amdProgram i v) (amdProgram i v') rfl h h'
    injection heq with _ heq
    injection heq with _ heq
    injection heq with _ heq
    injection heq with heq
    exact congrArg Prod.snd heq
  | intel =>
    have heq := record_eq (intelProgram i v) (intelProgram i v') rfl h h'
    injection heq with _ heq
    injection heq with heq
    exact congrArg Prod.snd heq

/-- Two pages that are alike up to a byte, and that come to the same, are alike there. -/
theorem chipWriteBytes_inj {n n' i : Nat} {k : Kind} (hagree : ∀ j < i + n, data j = data' j)
    {m₁ m₂ : Machine (Recorded σ)}
    (h : (chipWriteBytes bus.recording fuel data (n + (n' + 1)) i 0 k).run m = some ((0 : Int), m₁))
    (h' : (chipWriteBytes bus.recording fuel data' (n + (n' + 1)) i 0 k).run m =
      some ((0 : Int), m₂)) (hlonger : Longer m₁ m') (hlonger' : Longer m₂ m') :
    data (i + n) = data' (i + n) := by
  induction n generalizing i m with
  | zero =>
    rw [Nat.zero_add] at h h'
    exact chipProgram_inj (IsTrans.trans _ m₁ m' (chipWriteBytes_sends h) hlonger)
      (IsTrans.trans _ m₂ m' (chipWriteBytes_sends h') hlonger')
  | succ n ih =>
    rw [Nat.succ_add, chipWriteBytes_succ] at h h'
    have hsame : chipWait bus.recording fuel data' i k = chipWait bus.recording fuel data i k := by
      cases k with
      | amd =>
        rw [chipWait, chipWait, amdWait, amdWait, hagree i (by omega)]
      | intel => rfl
    rw [← hagree i (by omega), hsame] at h'
    obtain ⟨⟨r, m₃⟩, hwait, hrest⟩ := Option.bind_eq_some_iff.mp h
    obtain ⟨⟨r', m₄⟩, hwait', hrest'⟩ := Option.bind_eq_some_iff.mp h'
    rw [hwait] at hwait'
    cases hwait'
    have hr : r = 0 := by
      by_contra hne
      exact hne (chipWriteBytes_error hne hrest).symm
    subst hr
    have hnext := ih (i := i + 1) (fun j hj => hagree j (by omega)) hrest hrest'
    rw [show i + (n + 1) = i + 1 + n by omega]
    exact hnext

/-! ### The block -/

/-- The bytes go to the page of the block. -/
theorem chipWriteBlock_bytes {b : Int} {k : Kind} {m m' : Machine σ}
    (h : (chipWriteBlock bus fuel b data k).run m = some ((0 : Int), m')) :
    ∃ m₁, (chipWriteBytes bus fuel data romPagesize 0 0 k).run (m.setBankPage m.eepromBank b) =
      some ((0 : Int), m₁) ∧ m' = m₁.setBankPage m.eepromBank m.eepromPage := by
  cases k with
  | amd =>
    rw [chipWriteBlock, amdWriteBlock_run] at h
    by_cases hbad : badBlock m b = true
    · rw [if_pos hbad] at h
      cases h
    · rw [if_neg hbad] at h
      obtain ⟨⟨r, m₁⟩, hrun, hback⟩ := Option.map_eq_some_iff.mp h
      cases hback
      exact ⟨m₁, hrun, rfl⟩
  | intel =>
    rw [chipWriteBlock, intelWriteBlock_run] at h
    by_cases hbad : badBlock m b = true
    · rw [if_pos hbad] at h
      cases h
    · rw [if_neg hbad] at h
      by_cases hboard : m.board = .monterey
      · rw [if_pos hboard] at h
        cases h
      · rw [if_neg hboard] at h
        obtain ⟨⟨r, m₁⟩, hrun, hback⟩ := Option.map_eq_some_iff.mp h
        cases hback
        exact ⟨m₁, hrun, rfl⟩

/-- Two pages that are programmed alike, with a reset after each, are alike. -/
theorem chipWriteBlock_inj {b : Int} {k : Kind} {n : Nat} (hn : n < romPagesize)
    (hagree : ∀ j < n, data j = data' j) {m₁ m₂ : Machine (Recorded σ)}
    (h : (chipWriteBlock bus.recording fuel b data k).run m = some ((0 : Int), m₁))
    (h' : (chipWriteBlock bus.recording fuel b data' k).run m = some ((0 : Int), m₂))
    (hlonger : Longer m₁ m') (hlonger' : Longer m₂ m') : data n = data' n := by
  obtain ⟨m₃, hrun, rfl⟩ := chipWriteBlock_bytes h
  obtain ⟨m₄, hrun', rfl⟩ := chipWriteBlock_bytes h'
  rw [show romPagesize = n + (romPagesize - n - 1 + 1) by omega] at hrun hrun'
  have heq := chipWriteBytes_inj (i := 0) (fun j hj => hagree j (by omega)) hrun hrun'
    (IsTrans.trans m₃ _ m' (setBankPage_longer _ _ m₃) hlonger)
    (IsTrans.trans m₄ _ m' (setBankPage_longer _ _ m₄) hlonger')
  rw [Nat.zero_add] at heq
  exact heq

/-- Up to where the page is programmed, the buffer is not looked at. -/
theorem rewritePage_programs {m m' : Machine σ}
    (h : (rewritePage bus fuel bank romAddr block).run m = some ((0 : Int), m')) :
    ∃ k m₁ m₂, (∀ data, (rewritePage bus fuel bank romAddr data).run m =
        (chipWriteBlock bus fuel (romAddr >>> (16 : Nat)) data k >>= fun r =>
          chipReset bus k >>= fun _ => pure r).run m₁) ∧
      (chipWriteBlock bus fuel (romAddr >>> (16 : Nat)) block k).run m₁ = some ((0 : Int), m₂) ∧
      (chipReset bus k).run m₂ = some ((), m') := by
  rw [rewritePage, run_setBankPage_bind] at h
  obtain ⟨t, m₁, hat, h⟩ := of_run_bind h
  cases hk : t.kind with
  | none =>
    rw [hk] at h
    exact absurd (of_run_pure h).1 (by decide)
  | some k =>
    rw [hk] at h
    obtain ⟨r, m₂, herase, h⟩ := of_run_bind h
    obtain ⟨_, m₃, hreset, h⟩ := of_run_bind h
    by_cases hr : r ≠ 0
    · rw [if_pos hr] at h
      exact absurd (of_run_pure h).1.symm hr
    · rw [if_neg hr] at h
      obtain ⟨r', m₄, hwrite, h⟩ := of_run_bind h
      obtain ⟨_, m₅, hreset', h⟩ := of_run_bind h
      obtain ⟨rfl, rfl⟩ := of_run_pure h
      refine ⟨k, m₃, m₄, fun data => ?_, hwrite, hreset'⟩
      rw [rewritePage, run_setBankPage_bind, run_bind_some hat, hk]
      dsimp only
      rw [run_bind_some herase, run_bind_some hreset, if_neg hr]

theorem writeBlock_rewrites {m m' : Machine σ}
    (h : (writeBlock bus fuel blockNdx block).run m = some ((0 : Int), m')) :
    ∃ bank romAddr, ∀ data, (writeBlock bus fuel blockNdx data).run m =
      (rewritePage bus fuel bank romAddr data).run m := by
  rw [writeBlock, run_get_bind] at h
  obtain ⟨t, m₁, hat, h⟩ := of_run_bind h
  have hsame : m₁ = m := by
    rw [eepromAt, run_get_bind] at hat
    cases hchip : m.eeproms 0 with
    | none =>
      rw [hchip] at hat
      cases hat
    | some t' =>
      rw [hchip] at hat
      cases hat
      rfl
  subst hsame
  by_cases hfirst : (blockNdx.toNat * crfsBlockSize + m₁.eepromFsOffset : Int) < t.size
  · refine ⟨0, blockNdx.toNat * crfsBlockSize + m₁.eepromFsOffset, fun data => ?_⟩
    rw [writeBlock, run_get_bind, run_bind_some hat, if_pos hfirst]
  · rw [if_neg hfirst] at h
    cases hsecond : m₁.eeproms 1 with
    | none =>
      rw [hsecond] at h
      exact absurd (of_run_pure h).1 (by decide)
    | some t₁ =>
      rw [hsecond] at h
      dsimp only at h
      by_cases hfits : (blockNdx.toNat * crfsBlockSize + m₁.eepromFsOffset : Int) < t.size + t₁.size
      · refine ⟨1, blockNdx.toNat * crfsBlockSize + m₁.eepromFsOffset - t.size, fun data => ?_⟩
        rw [writeBlock, run_get_bind, run_bind_some hat, if_neg hfirst, hsecond]
        dsimp only
        rw [if_pos hfits]
      · rw [if_neg hfits] at h
        exact absurd (of_run_pure h).1 (by decide)

/-! ### A block store -/

/-- The call comes to the same whatever is behind the block in memory. -/
def ReadsOnlyBlock (bus : Bus σ) (fuel : Nat) (blockNdx : UInt16) (block : Nat → UInt8)
    (m : Machine (Recorded σ)) : Prop :=
  ∀ data, (∀ j < crfsBlockSize, block j = data j) →
    (writeBlock bus.recording fuel blockNdx data).run m =
      (writeBlock bus.recording fuel blockNdx block).run m

/-- The block is read, it is there afterwards, and the others are as they were. -/
structure StoresBlock (bus : Bus σ) (fuel : Nat) (blockNdx : UInt16) (block : Nat → UInt8)
    (m m' : Machine (Recorded σ)) : Prop where
  reads : ReadsOnlyBlock bus fuel blockNdx block m
  stored : ∃ m₁, (readBlock bus.recording blockNdx []).run m' =
    some (((0 : Int), (List.range crfsBlockSize).map block), m₁)
  others : ∀ j, j ≠ blockNdx → ((readBlock bus.recording j []).run m').map Prod.fst =
    ((readBlock bus.recording j []).run m).map Prod.fst

/-- The byte behind the block is programmed too. -/
theorem not_readsOnlyBlock
    (h : (writeBlock bus.recording fuel blockNdx block).run m = some ((0 : Int), m')) :
    ¬ ReadsOnlyBlock bus fuel blockNdx block m := by
  intro hreads
  let data := Function.update block crfsBlockSize (block crfsBlockSize + 1)
  have hagree : ∀ j < crfsBlockSize, block j = data j := by
    intro j hj
    exact (Function.update_of_ne (by omega) _ _).symm
  have hdata := (hreads data hagree).trans h
  obtain ⟨bank, romAddr, hpage⟩ := writeBlock_rewrites h
  rw [hpage] at h hdata
  obtain ⟨k, m₁, m₂, hrest, hwrite, hreset⟩ := rewritePage_programs h
  rw [hrest] at hdata
  obtain ⟨r, m₃, hwrite', hdata⟩ := of_run_bind hdata
  obtain ⟨_, m₄, hreset', hdata⟩ := of_run_bind hdata
  obtain ⟨rfl, rfl⟩ := of_run_pure hdata
  have heq := chipWriteBlock_inj (n := crfsBlockSize) (by decide) hagree hwrite hwrite'
    (chipReset_longer k _ _ _ hreset) (chipReset_longer k _ _ _ hreset')
  have hnext : data crfsBlockSize = block crfsBlockSize + 1 := Function.update_self _ _ _
  rw [hnext] at heq
  have hvalue := congrArg UInt8.toNat heq
  rw [UInt8.toNat_add] at hvalue
  change _ = (_ + 1) % 256 at hvalue
  have hlt := (block crfsBlockSize).toNat_lt
  omega

/-! ### A chip -/

/-- How much of a command has come. -/
inductive AmdMode where
  | idle
  | unlock
  | unlocked
  | program
  | eraseSetup
  | eraseUnlock
  | eraseUnlocked
  deriving DecidableEq, Repr

structure AmdFlash where
  mode : AmdMode
  content : Nat → Nat → UInt8

/-- The cycles of a command before its last; other writes and a reset end it. -/
def AmdMode.next (mode : AmdMode) (addr : Nat) (v : UInt8) : AmdMode :=
  match mode with
  | .idle => if addr = 0x555 ∧ v = 0xaa then .unlock else .idle
  | .unlock => if addr = 0x2aa ∧ v = 0x55 then .unlocked else .idle
  | .unlocked =>
    if addr = 0x555 ∧ v = 0xa0 then .program
    else if addr = 0x555 ∧ v = 0x80 then .eraseSetup
    else .idle
  | .eraseSetup => if addr = 0x555 ∧ v = 0xaa then .eraseUnlock else .idle
  | .eraseUnlock => if addr = 0x2aa ∧ v = 0x55 then .eraseUnlocked else .idle
  | .program | .eraseUnlocked => .idle

/-- Chips that are done with a command at once: a byte program stores the byte, and an erase sets
the sector to 0xff. -/
def amdBus : Bus AmdFlash where
  read loc d := match loc with
    | .flash bank a => (d.content bank a, d)
    | .other _ => (0, d)
  write loc v d := match loc with
    | .flash bank a =>
      { mode := d.mode.next (a % 0x800) v
        content := fun bank' a' =>
          if d.mode = .program ∧ bank' = bank ∧ a' = a then v
          else if d.mode = .eraseUnlocked ∧ v = 0x30 ∧ bank' = bank ∧
            a' / romPagesize = a / romPagesize then 0xff
          else d.content bank' a' }
    | .other _ => d

theorem pokes_device {bus : Bus σ} (l : List (Int × UInt8)) (m : Machine (Recorded σ)) :
    (m.pokes bus.recording l).dev.1 =
      l.foldl (fun d x => bus.write (m.loc (m.romAddr x.1)) x.2 d) m.dev.1 := by
  induction l generalizing m with
  | nil => rfl
  | cons x l ih => exact ih (m.poke bus.recording x.1 x.2)

/-- The window shows this much of a chip. -/
def Machine.Views (m : Machine σ) (bank base : Nat) : Prop :=
  ∀ i : Nat, i < romPagesize → m.loc (m.romAddr i) = .flash bank (base + i)

theorem Machine.Views.of_onlyDev {m m' : Machine σ} {bank base : Nat} (h : m.Views bank base)
    (hd : OnlyDev m m') : m'.Views bank base := by
  rw [hd]
  exact h

theorem badBlock_of_onlyDev {m m' : Machine σ} (hd : OnlyDev m m') (b : Int) :
    badBlock m' b = badBlock m b := by
  rw [hd]
  rfl

/-- A byte is programmed, and nothing else changes. -/
theorem amdProgram_device {m : Machine (Recorded AmdFlash)} {bank base i : Nat} {v : UInt8}
    (hviews : m.Views bank base) (hbase : base % 0x800 = 0) (hidle : m.dev.1.mode = .idle)
    (hi : i < romPagesize) :
    (m.pokes amdBus.recording (amdProgram i v)).dev.1 = ⟨.idle, fun bank' a =>
      if bank' = bank ∧ a = base + i then v else m.dev.1.content bank' a⟩ := by
  have h555 : m.loc (m.romAddr 0x555) = .flash bank (base + 0x555) := hviews 0x555 (by decide)
  have h2aa : m.loc (m.romAddr 0x2aa) = .flash bank (base + 0x2aa) := hviews 0x2aa (by decide)
  have hlow : (base + 0x555) % 0x800 = 0x555 := by omega
  have hlow' : (base + 0x2aa) % 0x800 = 0x2aa := by omega
  rw [pokes_device]
  simp only [amdProgram, List.foldl_cons, List.foldl_nil]
  rw [hviews i hi, h555, h2aa]
  simp only [amdBus, hidle, hlow, hlow', AmdMode.next]
  simp

/-- The bytes of a page on a chip, from `i` on. -/
def AmdFlash.Took (d d' : AmdFlash) (bank base : Nat) (data : Nat → UInt8) (n i : Nat) : Prop :=
  ∀ j, d'.content bank (base + j) =
    if i ≤ j ∧ j < i + n then data j else d.content bank (base + j)

theorem amdWriteBytes_programs {m : Machine (Recorded AmdFlash)} {bank base : Nat}
    (hviews : m.Views bank base) (hbase : base % 0x800 = 0) (hidle : m.dev.1.mode = .idle)
    (n i : Nat) (hn : i + n ≤ romPagesize) :
    ∃ m', (amdWriteBytes amdBus.recording (fuel + 1) data n i 0).run m = some ((0 : Int), m') ∧
      m'.dev.1.mode = .idle ∧ m.dev.1.Took m'.dev.1 bank base data n i := by
  induction n generalizing i m with
  | zero => exact ⟨m, rfl, hidle, fun j => (if_neg (by omega)).symm⟩
  | succ n ih =>
    let m₁ := m.pokes amdBus.recording (amdProgram i (data i))
    have hprogram := amdProgram_device (v := data i) hviews hbase hidle (by omega : i < _)
    have hdev : OnlyDev m m₁ := pokes_onlyDev _ _ m
    have hviews₁ : m₁.Views bank base := hviews.of_onlyDev hdev
    have hbyte : ∀ j, m₁.dev.1.content bank (base + j) =
        if j = i then data i else m.dev.1.content bank (base + j) := by
      intro j
      rw [hprogram]
      by_cases hj : j = i
      · subst hj
        exact (if_pos ⟨rfl, rfl⟩).trans (if_pos rfl).symm
      · exact (if_neg fun hor => hj (by omega)).trans (if_neg hj).symm
    have hpeek : m₁.peek amdBus.recording i = (data i, m₁) := by
      rw [Machine.peek, hviews₁ i (by omega)]
      exact Prod.ext ((hbyte i).trans (if_pos rfl)) rfl
    have hready : dataBit (data i) (m₁.peek amdBus.recording i).1 = true := by
      rw [hpeek, dataBit, decide_eq_true_eq]
    have hidle₁ : m₁.dev.1.mode = .idle := by
      rw [hprogram]
    obtain ⟨m', hrest, hidle', htook⟩ := ih hviews₁ hidle₁ (i + 1) (by omega)
    refine ⟨m', ?_, hidle', fun j => ?_⟩
    · rw [amdWriteBytes_succ, amdWait, poll_stop (Or.inl hready), hpeek]
      exact hrest
    · rw [htook j, hbyte j]
      by_cases hj : j = i
      · subst hj
        rw [if_neg (by omega), if_pos rfl, if_pos (by omega)]
      · by_cases hin : i + 1 ≤ j ∧ j < i + 1 + n
        · rw [if_pos hin, if_pos (by omega)]
        · rw [if_neg hin, if_neg hj, if_neg (by omega)]

/-- No command has come, so nothing is programmed or erased. -/
theorem amdBus_write_idle {d : AmdFlash} (hidle : d.mode = .idle) (loc : Loc) (v : UInt8) :
    (amdBus.write loc v d).content = d.content := by
  cases loc with
  | flash bank a => simp [amdBus, hidle]
  | other p => rfl

/-- The command to erase reaches the chip or, where the page is not the first, something else; what
was blank in the window stays so. -/
theorem amdErase_device {m : Machine (Recorded AmdFlash)} {bank base : Nat}
    (hviews : m.Views bank base) (hbase : base % 0x800 = 0) (hidle : m.dev.1.mode = .idle)
    (hblank : m.dev.1.content bank base = 0xff) (i : Int) :
    (m.pokes amdBus.recording (amdErase i 0x30)).dev.1.content bank base = 0xff := by
  have h555 : m.loc (m.romAddr 0x555) = .flash bank (base + 0x555) := hviews 0x555 (by decide)
  have h2aa : m.loc (m.romAddr 0x2aa) = .flash bank (base + 0x2aa) := hviews 0x2aa (by decide)
  have hlow : (base + 0x555) % 0x800 = 0x555 := by omega
  have hlow' : (base + 0x2aa) % 0x800 = 0x2aa := by omega
  rw [pokes_device]
  simp only [amdErase, List.foldl_cons, List.foldl_nil]
  rw [h555, h2aa]
  cases m.loc (m.romAddr i) with
  | other p =>
    simp only [amdBus, hidle, hlow, hlow', AmdMode.next]
    simpa using hblank
  | flash bank' a =>
    simp only [amdBus, hidle, hlow, hlow', AmdMode.next]
    simp [hblank]

/-- Back to where the window is. -/
theorem setBankPage_same {m m' : Machine σ} (h : OnlyDev m m') :
    m'.setBankPage m.eepromBank m.eepromPage = m' := by
  rw [h]
  exact if_pos (Or.inr (Or.inr ⟨rfl, rfl⟩))

theorem amdEraseBlock_blank {m : Machine (Recorded AmdFlash)} {bank base : Nat} {b : Int}
    (hviews : m.Views bank base) (hbase : base % 0x800 = 0) (hidle : m.dev.1.mode = .idle)
    (hblank : m.dev.1.content bank base = 0xff) (hbad : ¬ badBlock m b = true) :
    ∃ m', (amdEraseBlock amdBus.recording (fuel + 1) b false).run m = some ((0 : Int), m') ∧
      OnlyDev m m' := by
  let m₁ := m.pokes amdBus.recording (amdErase (b <<< (16 : Nat)) 0x30)
  have hdev : OnlyDev m m₁ := pokes_onlyDev _ _ m
  have hviews₁ : m₁.Views bank base := hviews.of_onlyDev hdev
  have hvalue : (m₁.peek amdBus.recording 0).1 = 0xff := by
    have hloc : m₁.loc (m₁.romAddr 0) = .flash bank (base + 0) := hviews₁ 0 (by decide)
    rw [Machine.peek, hloc]
    exact amdErase_device hviews hbase hidle hblank _
  have hready : highBit (m₁.peek amdBus.recording 0).1 = true := by
    rw [hvalue]
    decide
  have hpeek : OnlyDev m (m₁.peek amdBus.recording 0).2 := IsTrans.trans m m₁ _ hdev rfl
  refine ⟨(m₁.peek amdBus.recording 0).2, ?_, hpeek⟩
  rw [amdEraseBlock_run, if_neg hbad, amdEraseWait, poll_stop (Or.inl hready), Option.map_some,
    Machine.back, setBankPage_same hpeek]

theorem amdReset_device {m : Machine (Recorded AmdFlash)} {bank base : Nat}
    (hviews : m.Views bank base) (hbase : base % 0x800 = 0) :
    (m.poke amdBus.recording 0 0xf0).dev.1.mode = .idle := by
  have hloc : m.loc (m.romAddr 0) = .flash bank (base + 0) := hviews 0 (by decide)
  have hlow : (base + 0) % 0x800 = 0 := hbase
  change (amdBus.write (m.loc (m.romAddr 0)) 0xf0 m.dev.1).mode = .idle
  rw [hloc]
  simp only [amdBus, hlow]
  cases m.dev.1.mode <;> rfl

/-- A board with one blank chip. -/
def blankBoard : Machine (Recorded AmdFlash) where
  board := .pacifica
  pageReg := 0
  pagePort := 0
  rom := windowAddr
  flatRomBase := 0
  eepromBank := 0
  eepromPage := 0
  eepromFsOffset := 0x10000
  eeproms bank :=
    if bank = 0 then some ⟨0x01, 0xd5, 0x00100000, "AMD AM29F080B", some .amd⟩ else none
  eepromIds _ := 0
  dev := (⟨.idle, fun _ _ => 0xff⟩, [])

/-- The first block behind the offset is in page 1. -/
def blankPage : Machine (Recorded AmdFlash) := blankBoard.select 0 1

theorem blankPage_views : blankPage.Views 0 0x10000 := by
  intro i hi
  have hsel : blankPage.sel = selection 0 1 := by decide
  exact loc_of_sel (by decide) rfl hsel (Or.inl rfl) (by decide) hi

/-- A page that begins blank is programmed with all that lies from the buffer on. -/
theorem rewritePage_fills {m m₁ : Machine (Recorded AmdFlash)} {t : EepromType} {n base : Nat}
    (hset : m.setBankPage bank (romAddr >>> (16 : Nat)) = m₁) (hchip : m₁.eeproms bank = some t)
    (hkind : t.kind = some .amd) (hpage : m₁.eepromPage = romAddr >>> (16 : Nat))
    (hbad : ¬ badBlock m₁ (romAddr >>> (16 : Nat)) = true) (hviews : m₁.Views n base)
    (hbase : base % 0x800 = 0) (hidle : m₁.dev.1.mode = .idle)
    (hblank : m₁.dev.1.content n base = 0xff) (block : Nat → UInt8) :
    ∃ m', (rewritePage amdBus.recording (fuel + 1) bank romAddr block).run m =
      some ((0 : Int), m') ∧ ∀ j < romPagesize, m'.dev.1.content n (base + j) = block j := by
  have hat : (eepromAt bank).run m₁ = some (t, m₁) := by
    rw [eepromAt, run_get_bind, hchip]
    rfl
  obtain ⟨m₂, herase, hdev⟩ : ∃ m', (amdEraseBlock amdBus.recording (fuel + 1)
      (romAddr >>> (16 : Nat)) false).run m₁ = some ((0 : Int), m') ∧ OnlyDev m₁ m' :=
    amdEraseBlock_blank hviews hbase hidle hblank hbad
  let m₃ := m₂.poke amdBus.recording 0 0xf0
  have hreset : (chipReset amdBus.recording .amd).run m₂ = some ((), m₃) := rfl
  have hdev₃ : OnlyDev m₁ m₃ := IsTrans.trans m₁ m₂ m₃ hdev rfl
  have hidle₃ : m₃.dev.1.mode = .idle := amdReset_device (hviews.of_onlyDev hdev) hbase
  obtain ⟨m₄, hprogram, hidle₄, htook⟩ : ∃ m', (amdWriteBytes amdBus.recording (fuel + 1) block
      romPagesize 0 0).run m₃ = some ((0 : Int), m') ∧ m'.dev.1.mode = .idle ∧
        m₃.dev.1.Took m'.dev.1 n base block romPagesize 0 :=
    amdWriteBytes_programs (hviews.of_onlyDev hdev₃) hbase hidle₃ romPagesize 0 (by omega)
  have hpage₃ : m₃.eepromPage = romAddr >>> (16 : Nat) :=
    (congrArg (fun w => w.1.2) hdev₃.window).trans hpage
  have hsame : m₃.setBankPage m₃.eepromBank (romAddr >>> (16 : Nat)) = m₃ :=
    if_pos (Or.inr (Or.inr ⟨rfl, hpage₃⟩))
  have hbad₃ : ¬ badBlock m₃ (romAddr >>> (16 : Nat)) = true := by
    rw [badBlock_of_onlyDev hdev₃]
    exact hbad
  have hwrite : (chipWriteBlock amdBus.recording (fuel + 1) (romAddr >>> (16 : Nat)) block .amd).run
      m₃ = some (m₃.back ((0 : Int), m₄)) := by
    rw [chipWriteBlock, amdWriteBlock_run, if_neg hbad₃, hsame, hprogram]
    rfl
  refine ⟨(m₃.back ((0 : Int), m₄)).2.poke amdBus.recording 0 0xf0, ?_, fun j hj => ?_⟩
  · rw [rewritePage, run_setBankPage_bind, hset, run_bind_some hat, hkind]
    dsimp only
    rw [chipEraseBlock, run_bind_some herase, run_bind_some hreset, if_neg (not_not.mpr rfl),
      run_bind_some hwrite]
    rfl
  · -- the last reset finds no command under way
    have hdev₄ : (m₃.back ((0 : Int), m₄)).2.dev = m₄.dev := setBankPage_dev _ _ m₄
    have hkept : ((m₃.back ((0 : Int), m₄)).2.poke amdBus.recording 0 0xf0).dev.1.content =
        m₄.dev.1.content := by
      refine (amdBus_write_idle ?_ _ _).trans ?_
      · rw [hdev₄]
        exact hidle₄
      · rw [hdev₄]
    rw [hkept, htook j, if_pos (by omega)]

/-- The first block behind the offset is followed by what lies behind the buffer. -/
theorem writeBlock_blank (block : Nat → UInt8) :
    ∃ m', (writeBlock amdBus.recording 2 0 block).run blankBoard = some ((0 : Int), m') ∧
      ∀ j < romPagesize, m'.dev.1.content 0 (0x10000 + j) = block j := by
  have hpage : ((0 : UInt16).toNat * crfsBlockSize + 0x10000 : Int) >>> (16 : Nat) = 1 := by decide
  have hset : blankBoard.setBankPage 0 1 = blankPage := if_neg (by decide)
  obtain ⟨m', hrun, hpages⟩ : ∃ m', (rewritePage amdBus.recording (1 + 1) 0
      ((0 : UInt16).toNat * crfsBlockSize + 0x10000) block).run blankBoard = some ((0 : Int), m') ∧
        ∀ j < romPagesize, m'.dev.1.content 0 (0x10000 + j) = block j :=
    rewritePage_fills (by rw [hpage]; exact hset) rfl rfl (by rw [hpage]; rfl)
      (by rw [hpage]; decide) blankPage_views (by decide) rfl rfl block
  refine ⟨m', ?_, hpages⟩
  have hat : (eepromAt 0).run blankBoard =
      some (⟨0x01, 0xd5, 0x00100000, "AMD AM29F080B", some .amd⟩, blankBoard) := rfl
  rw [writeBlock, run_get_bind, run_bind_some hat, if_pos (by decide)]
  exact hrun

/-- `write_block` is no block store where it succeeds: it takes 65536 bytes from the buffer. -/
theorem writeBlock_not_stores
    (h : (writeBlock bus.recording fuel blockNdx block).run m = some ((0 : Int), m')) :
    ¬ StoresBlock bus fuel blockNdx block m m' :=
  fun hstores => not_readsOnlyBlock h hstores.reads

theorem writeBlock_not_stores_blank : ∃ m', (writeBlock amdBus.recording 2 0 fun _ => 0x55).run
    blankBoard = some ((0 : Int), m') ∧ ¬ StoresBlock amdBus 2 0 (fun _ => 0x55) blankBoard m' := by
  obtain ⟨m', hrun, -⟩ := writeBlock_blank fun _ => 0x55
  exact ⟨m', hrun, writeBlock_not_stores hrun⟩

theorem not_stores_zeros : ¬ ∀ m', (writeBlock amdBus.recording 2 0 fun _ => 0).run blankBoard =
    some ((0 : Int), m') → StoresBlock amdBus 2 0 (fun _ => 0) blankBoard m' := by
  intro hclaim
  obtain ⟨m', hrun, -⟩ := writeBlock_blank fun _ => 0
  exact not_readsOnlyBlock hrun (hclaim m' hrun).reads

end Flash
