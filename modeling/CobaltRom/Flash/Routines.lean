import CobaltRom.Flash.Window

/-! The routines for AMD and Intel chips and the calls that choose between them (`eeprom.c`,
`eeprom_ops.c`). Output is left out: `output` only decides whether the erase loops count. The loops
that wait for a chip are run with a bound on their turns. -/
namespace Flash
open Hoare

variable {σ : Type}

/-- `eeproms[bank]->`; a NULL pointer is not followed any further. -/
def eepromAt (bank : Int) : FlashM σ EepromType := do
  let m ← get
  match m.eeproms bank with
  | none => failure
  | some t => pure t

/-- `!eeproms[eeprom_bank] || block >= eeproms[eeprom_bank]->size >> 16`. -/
def badBlock (m : Machine σ) (block : Int) : Bool :=
  match m.eeproms m.eepromBank with
  | none => true
  | some t => decide (block ≥ t.blocks)

/-- `!eeproms[eeprom_bank] || size > eeproms[eeprom_bank]->size`. -/
def badSize (m : Machine σ) (size : Int) : Bool :=
  match m.eeproms m.eepromBank with
  | none => true
  | some t => decide (size > t.size)

/-! ### Waiting for a chip -/

/-- `while (!ready(rom[off]) && !r)`: look for an error, and count the turn if turns count. -/
def poll (bus : Bus σ) (off : Int) (ready : UInt8 → Bool) (error : FlashM σ (Option Int))
    (counted : Bool) : Nat → Nat → Int → FlashM σ Int
  | 0, _, _ => failure
  | fuel + 1, timeout, r => do
    let s ← romRead bus off
    if ready s ∨ r ≠ 0 then pure r
    else do
      let e ← error
      let timeout := if counted then timeout + 1 else timeout
      let r := if timeout = maxTimeout then -1 else e.getD r
      poll bus off ready error counted fuel timeout r

/-- "Test again": the error bit counts only if the byte is still not ready. -/
def amdError (bus : Bus σ) (off : Int) (ready : UInt8 → Bool) (code : Int) :
    FlashM σ (Option Int) := do
  let s ← romRead bus off
  if s &&& 0x20 ≠ 0 then do
    let s ← romRead bus off
    pure (if ready s then none else some code)
  else pure none

/-- An error bit of the status register, which is cleared. -/
def intelError (bus : Bus σ) (bit : UInt8) (code : Int) : FlashM σ (Option Int) := do
  let s ← romRead bus 0
  if s &&& bit ≠ 0 then do
    romWrite bus 0 0x50
    pure (some code)
  else pure none

def highBit (s : UInt8) : Bool := s &&& 0x80 ≠ 0

/-- The high bit of a byte that is being programmed. -/
def dataBit (b s : UInt8) : Bool := s &&& 0x80 = b &&& 0x80

/-! ### Loops over pages -/

/-- The loop of both `write_chip` functions, over the pages that are left. -/
def writePages (write : Int → (Nat → UInt8) → FlashM σ Int) (data : Nat → UInt8) :
    Nat → Nat → Int → FlashM σ Int
  | 0, _, r => pure r
  | n + 1, page, r =>
    if r ≠ 0 then pure r
    else do
      let m ← get
      let _ ← eepromSetBankPage m.eepromBank page
      let r ← write page fun i => data (page * romPagesize + i)
      writePages write data n (page + 1) r

/-- The bytes of a page that are left to verify; the first that differs. -/
def verifyBytes (bus : Bus σ) (data : Nat → UInt8) : Nat → Nat → FlashM σ (Option Nat)
  | 0, _ => pure none
  | n + 1, i => do
    let s ← romRead bus i
    if s ≠ data i then pure (some i) else verifyBytes bus data n (i + 1)

def verifyPages (bus : Bus σ) (data : Nat → UInt8) : Nat → Nat → FlashM σ (Option Nat)
  | 0, _ => pure none
  | n + 1, page => do
    let m ← get
    let _ ← eepromSetBankPage m.eepromBank page
    let bad ← verifyBytes bus (fun i => data (page * romPagesize + i)) romPagesize 0
    match bad with
    | some i => pure (some (page * romPagesize + i))
    | none => verifyPages bus data n (page + 1)

def genericVerifyChip (bus : Bus σ) (data : Nat → UInt8) (size : Int) : FlashM σ Int := do
  let m ← get
  let oldbank := m.eepromBank
  let oldpage := m.eepromPage
  if badSize m size then pure 1
  else do
    let bad ← verifyPages bus data (size >>> (16 : Nat)).toNat 0
    let _ ← eepromSetBankPage oldbank oldpage
    match bad with
    | some i => pure (i + 1)
    | none => pure 0

/-! ### AMD -/

def amdReset (bus : Bus σ) : FlashM σ Unit := romWrite bus 0x00 0xf0

/-- The loop in which both erase routines wait. -/
def amdEraseWait (bus : Bus σ) (fuel : Nat) (output : Bool) : FlashM σ Int :=
  poll bus 0 highBit (amdError bus 0 highBit (-1)) output fuel 0 0

def amdEraseChip (bus : Bus σ) (fuel : Nat) (output : Bool) : FlashM σ Int := do
  let m ← get
  let oldbank := m.eepromBank
  let oldpage := m.eepromPage
  romWrite bus 0x555 0xaa
  romWrite bus 0x2aa 0x55
  romWrite bus 0x555 0x80
  romWrite bus 0x555 0xaa
  romWrite bus 0x2aa 0x55
  romWrite bus 0x555 0x10
  let r ← amdEraseWait bus fuel output
  amdReset bus
  let _ ← eepromSetBankPage oldbank oldpage
  pure r

def amdEraseBlock (bus : Bus σ) (fuel : Nat) (block : Int) (output : Bool) : FlashM σ Int := do
  let m ← get
  let oldbank := m.eepromBank
  let oldpage := m.eepromPage
  if badBlock m block then pure (-1)
  else do
    romWrite bus 0x555 0xaa
    romWrite bus 0x2aa 0x55
    romWrite bus 0x555 0x80
    romWrite bus 0x555 0xaa
    romWrite bus 0x2aa 0x55
    romWrite bus (block <<< (16 : Nat)) 0x30
    let r ← amdEraseWait bus fuel output
    let _ ← eepromSetBankPage oldbank oldpage
    pure r

/-- The bytes of a page that are left to program. -/
def amdWriteBytes (bus : Bus σ) (fuel : Nat) (data : Nat → UInt8) : Nat → Nat → Int → FlashM σ Int
  | 0, _, r => pure r
  | n + 1, i, r =>
    if r ≠ 0 then pure r
    else do
      romWrite bus 0x555 0xaa
      romWrite bus 0x2aa 0x55
      romWrite bus 0x555 0xa0
      romWrite bus i (data i)
      let r ← poll bus i (dataBit (data i))
        (amdError bus i (dataBit (data i)) (i + 1)) true fuel 0 r
      amdWriteBytes bus fuel data n (i + 1) r

def amdWriteBlock (bus : Bus σ) (fuel : Nat) (block : Int) (data : Nat → UInt8) : FlashM σ Int := do
  let m ← get
  let oldbank := m.eepromBank
  let oldpage := m.eepromPage
  if badBlock m block then pure (-1)
  else do
    let _ ← eepromSetBankPage m.eepromBank block
    let r ← amdWriteBytes bus fuel data romPagesize 0 0
    let _ ← eepromSetBankPage oldbank oldpage
    pure r

def amdWriteChip (bus : Bus σ) (fuel : Nat) (data : Nat → UInt8) (size : Int) : FlashM σ Int := do
  let m ← get
  let oldbank := m.eepromBank
  let oldpage := m.eepromPage
  if badSize m size then pure 1
  else do
    let r ← writePages (amdWriteBlock bus fuel) data (size >>> (16 : Nat)).toNat 0 0
    amdReset bus
    let _ ← eepromSetBankPage oldbank oldpage
    pure r

def amdVerifyChip (bus : Bus σ) (data : Nat → UInt8) (size : Int) : FlashM σ Int := do
  amdReset bus
  genericVerifyChip bus data size

/-! ### Intel -/

def intelReset (bus : Bus σ) : FlashM σ Unit := romWrite bus 0x0 0xff

def intelEraseBlock (bus : Bus σ) (fuel : Nat) (block : Int) (output : Bool) : FlashM σ Int := do
  let m ← get
  let oldbank := m.eepromBank
  let oldpage := m.eepromPage
  if badBlock m block then pure (-1)
  else if m.board = .monterey then pure (-1)
  else do
    let _ ← eepromSetBankPage m.eepromBank block
    romWrite bus 0x00 0x20
    romWrite bus 0x00 0xd0
    let r ← poll bus 0 highBit (intelError bus 0x20 (-1)) output fuel 0 0
    let _ ← eepromSetBankPage oldbank oldpage
    pure r

/-- The blocks that are left to erase. -/
def intelEraseBlocks (bus : Bus σ) (fuel : Nat) (output : Bool) : Nat → Nat → Int → FlashM σ Int
  | 0, _, r => pure r
  | n + 1, block, r =>
    if r ≠ 0 then pure r
    else do
      let r ← intelEraseBlock bus fuel block output
      intelEraseBlocks bus fuel output n (block + 1) r

def intelEraseChip (bus : Bus σ) (fuel : Nat) (output : Bool) : FlashM σ Int := do
  let m ← get
  let oldbank := m.eepromBank
  let oldpage := m.eepromPage
  if m.board = .monterey then pure (-1)
  else do
    let t ← eepromAt m.eepromBank
    let r ← intelEraseBlocks bus fuel output t.blocks.toNat 0 0
    intelReset bus
    let _ ← eepromSetBankPage oldbank oldpage
    pure r

/-- The bytes of a page that are left to program, also after an error. -/
def intelWriteBytes (bus : Bus σ) (fuel : Nat) (data : Nat → UInt8) : Nat → Nat → Int → FlashM σ Int
  | 0, _, r => pure r
  | n + 1, i, r => do
    romWrite bus i 0x40
    romWrite bus i (data i)
    let r ← poll bus 0 highBit (intelError bus 0x10 (i + 1)) true fuel 0 r
    intelWriteBytes bus fuel data n (i + 1) r

def intelWriteBlock (bus : Bus σ) (fuel : Nat) (block : Int) (data : Nat → UInt8) :
    FlashM σ Int := do
  let m ← get
  let oldbank := m.eepromBank
  let oldpage := m.eepromPage
  if badBlock m block then pure (-1)
  else if m.board = .monterey then pure 1
  else do
    let _ ← eepromSetBankPage m.eepromBank block
    let r ← intelWriteBytes bus fuel data romPagesize 0 0
    let _ ← eepromSetBankPage oldbank oldpage
    pure r

def intelWriteChip (bus : Bus σ) (fuel : Nat) (data : Nat → UInt8) (size : Int) : FlashM σ Int := do
  let m ← get
  let oldbank := m.eepromBank
  let oldpage := m.eepromPage
  if badSize m size then pure 1
  else if m.board = .monterey then pure 1
  else do
    let r ← writePages (intelWriteBlock bus fuel) data (size >>> (16 : Nat)).toNat 0 0
    intelReset bus
    let _ ← eepromSetBankPage oldbank oldpage
    pure r

def intelVerifyChip (bus : Bus σ) (data : Nat → UInt8) (size : Int) : FlashM σ Int := do
  intelReset bus
  genericVerifyChip bus data size

/-! ### The functions of a chip -/

def chipReset (bus : Bus σ) : Kind → FlashM σ Unit
  | .amd => amdReset bus
  | .intel => intelReset bus

def chipEraseBlock (bus : Bus σ) (fuel : Nat) (block : Int) (output : Bool) : Kind → FlashM σ Int
  | .amd => amdEraseBlock bus fuel block output
  | .intel => intelEraseBlock bus fuel block output

def chipEraseChip (bus : Bus σ) (fuel : Nat) (output : Bool) : Kind → FlashM σ Int
  | .amd => amdEraseChip bus fuel output
  | .intel => intelEraseChip bus fuel output

def chipWriteBlock (bus : Bus σ) (fuel : Nat) (block : Int) (data : Nat → UInt8) :
    Kind → FlashM σ Int
  | .amd => amdWriteBlock bus fuel block data
  | .intel => intelWriteBlock bus fuel block data

def chipWriteChip (bus : Bus σ) (fuel : Nat) (data : Nat → UInt8) (size : Int) : Kind → FlashM σ Int
  | .amd => amdWriteChip bus fuel data size
  | .intel => intelWriteChip bus fuel data size

def chipVerifyChip (bus : Bus σ) (data : Nat → UInt8) (size : Int) : Kind → FlashM σ Int
  | .amd => amdVerifyChip bus data size
  | .intel => intelVerifyChip bus data size

def eepromEraseChip (bus : Bus σ) (fuel : Nat) (bank : Int) (output : Bool) : FlashM σ Int := do
  let _ ← eepromSetBankPage bank 0
  let t ← eepromAt bank
  match t.kind with
  | none => pure 0
  | some k => do
    let ret ← chipEraseChip bus fuel output k
    chipReset bus k
    pure ret

/-- The size is handed on as an `int`. -/
def eepromWriteChip (bus : Bus σ) (fuel : Nat) (bank : Int) (data : Nat → UInt8) (size : UInt32) :
    FlashM σ Int := do
  let _ ← eepromSetBankPage bank 0
  let t ← eepromAt bank
  match t.kind with
  | none => pure 0
  | some k => do
    let ret ← chipWriteChip bus fuel data size.toInt32.toInt k
    chipReset bus k
    if ret ≠ 0 then pure ret
    else do
      let ret ← chipVerifyChip bus data size.toInt32.toInt k
      chipReset bus k
      pure ret

/-! ### What a routine comes to -/

variable {bus : Bus σ} {m : Machine σ} {fuel : Nat} {block size : Int} {output : Bool}
  {data : Nat → UInt8}

/-- Back in the bank and page `m` had. -/
def Machine.back (m : Machine σ) (x : Int × Machine σ) : Int × Machine σ :=
  (x.1, x.2.setBankPage m.eepromBank m.eepromPage)

/-- The writes that have a chip erase itself, or with another last one a block. -/
def amdErase (i : Int) (v : UInt8) : List (Int × UInt8) :=
  [(0x555, 0xaa), (0x2aa, 0x55), (0x555, 0x80), (0x555, 0xaa), (0x2aa, 0x55), (i, v)]

/-- The chip is reset before the way back. -/
theorem run_reset_restore (p : FlashM σ Int) (bus : Bus σ) (v : UInt8) (bank page : Int)
    (m : Machine σ) : (p >>= fun r => romWrite bus 0 v >>= fun _ =>
      eepromSetBankPage bank page >>= fun _ => pure r).run m =
        (p.run m).map fun x => (x.1, (x.2.poke bus 0 v).setBankPage bank page) := by
  rw [StateT.run_bind]
  cases p.run m with
  | none => rfl
  | some x => exact run_setBankPage_bind _ _ (pure x.1) (x.2.poke bus 0 v)

theorem run_amdErase_bind {β : Type} (bus : Bus σ) (i : Int) (v : UInt8) (p : FlashM σ β)
    (m : Machine σ) :
    (romWrite bus 0x555 0xaa >>= fun _ => romWrite bus 0x2aa 0x55 >>= fun _ =>
      romWrite bus 0x555 0x80 >>= fun _ => romWrite bus 0x555 0xaa >>= fun _ =>
      romWrite bus 0x2aa 0x55 >>= fun _ => romWrite bus i v >>= fun _ => p).run m =
        p.run (m.pokes bus (amdErase i v)) := by
  rw [run_romWrite_bind, run_romWrite_bind, run_romWrite_bind, run_romWrite_bind, run_romWrite_bind,
    run_romWrite_bind]
  rfl

theorem amdEraseChip_run (bus : Bus σ) (fuel : Nat) (output : Bool) (m : Machine σ) :
    (amdEraseChip bus fuel output).run m =
      ((amdEraseWait bus fuel output).run (m.pokes bus (amdErase 0x555 0x10))).map
        fun x => m.back (x.1, x.2.poke bus 0 0xf0) := by
  unfold amdEraseChip
  rw [run_get_bind, run_amdErase_bind]
  exact run_reset_restore _ _ _ _ _ _

theorem amdEraseBlock_run (bus : Bus σ) (fuel : Nat) (block : Int) (output : Bool) (m : Machine σ) :
    (amdEraseBlock bus fuel block output).run m =
      if badBlock m block = true then some (-1, m)
      else ((amdEraseWait bus fuel output).run
        (m.pokes bus (amdErase (block <<< (16 : Nat)) 0x30))).map
        m.back := by
  unfold amdEraseBlock
  rw [run_get_bind]
  by_cases hbad : badBlock m block = true
  · rw [if_pos hbad, if_pos hbad]
    rfl
  · rw [if_neg hbad, if_neg hbad, run_amdErase_bind]
    exact run_restore _ _ _ _

theorem amdWriteBlock_run (bus : Bus σ) (fuel : Nat) (block : Int) (data : Nat → UInt8)
    (m : Machine σ) : (amdWriteBlock bus fuel block data).run m =
      if badBlock m block then some (-1, m)
      else ((amdWriteBytes bus fuel data romPagesize 0 0).run
        (m.setBankPage m.eepromBank block)).map m.back := by
  unfold amdWriteBlock
  rw [run_get_bind]
  by_cases hbad : badBlock m block = true
  · rw [if_pos hbad, if_pos hbad]
    rfl
  · rw [if_neg hbad, if_neg hbad, run_setBankPage_bind, run_restore]
    rfl

theorem intelEraseBlock_run (bus : Bus σ) (fuel : Nat) (block : Int) (output : Bool)
    (m : Machine σ) : (intelEraseBlock bus fuel block output).run m =
      if badBlock m block = true ∨ m.board = .monterey then some (-1, m)
      else ((poll bus 0 highBit (intelError bus 0x20 (-1)) output fuel 0 0).run
        ((m.setBankPage m.eepromBank block).pokes bus [(0, 0x20), (0, 0xd0)])).map m.back := by
  unfold intelEraseBlock
  rw [run_get_bind]
  by_cases hbad : badBlock m block = true
  · rw [if_pos hbad, if_pos (Or.inl hbad)]
    rfl
  · rw [if_neg hbad]
    by_cases hboard : m.board = .monterey
    · rw [if_pos hboard, if_pos (Or.inr hboard)]
      rfl
    · rw [if_neg hboard, if_neg fun h => h.elim hbad hboard, run_setBankPage_bind]
      exact run_restore _ _ _ ((m.setBankPage m.eepromBank block).pokes bus [(0, 0x20), (0, 0xd0)])

theorem intelWriteBlock_run (bus : Bus σ) (fuel : Nat) (block : Int) (data : Nat → UInt8)
    (m : Machine σ) : (intelWriteBlock bus fuel block data).run m =
      if badBlock m block = true then some (-1, m)
      else if m.board = .monterey then some ((1 : Int), m)
      else ((intelWriteBytes bus fuel data romPagesize 0 0).run
        (m.setBankPage m.eepromBank block)).map m.back := by
  unfold intelWriteBlock
  rw [run_get_bind]
  by_cases hbad : badBlock m block = true
  · rw [if_pos hbad, if_pos hbad]
    rfl
  · rw [if_neg hbad, if_neg hbad]
    by_cases hboard : m.board = .monterey
    · rw [if_pos hboard, if_pos hboard]
      rfl
    · rw [if_neg hboard, if_neg hboard, run_setBankPage_bind, run_restore]
      rfl

theorem amdWriteChip_run (bus : Bus σ) (fuel : Nat) (data : Nat → UInt8) (size : Int)
    (m : Machine σ) : (amdWriteChip bus fuel data size).run m =
      if badSize m size = true then some ((1 : Int), m)
      else ((writePages (amdWriteBlock bus fuel) data (size >>> (16 : Nat)).toNat 0 0).run m).map
        fun x => m.back (x.1, x.2.poke bus 0 0xf0) := by
  unfold amdWriteChip
  rw [run_get_bind]
  by_cases hbad : badSize m size = true
  · rw [if_pos hbad, if_pos hbad]
    rfl
  · rw [if_neg hbad, if_neg hbad]
    exact run_reset_restore _ _ _ _ _ m

theorem intelWriteChip_run (bus : Bus σ) (fuel : Nat) (data : Nat → UInt8) (size : Int)
    (m : Machine σ) : (intelWriteChip bus fuel data size).run m =
      if badSize m size = true ∨ m.board = .monterey then some ((1 : Int), m)
      else ((writePages (intelWriteBlock bus fuel) data (size >>> (16 : Nat)).toNat 0 0).run m).map
        fun x => m.back (x.1, x.2.poke bus 0 0xff) := by
  unfold intelWriteChip
  rw [run_get_bind]
  by_cases hbad : badSize m size = true
  · rw [if_pos hbad, if_pos (Or.inl hbad)]
    rfl
  · rw [if_neg hbad]
    by_cases hboard : m.board = .monterey
    · rw [if_pos hboard, if_pos (Or.inr hboard)]
      rfl
    · rw [if_neg hboard, if_neg fun h => h.elim hbad hboard]
      exact run_reset_restore _ _ _ _ _ m

theorem genericVerifyChip_run (bus : Bus σ) (data : Nat → UInt8) (size : Int) (m : Machine σ) :
    (genericVerifyChip bus data size).run m =
      if badSize m size = true then some ((1 : Int), m)
      else ((verifyPages bus data (size >>> (16 : Nat)).toNat 0).run m).map
        fun x => m.back (x.1.elim 0 fun i => (i : Int) + 1, x.2) := by
  unfold genericVerifyChip
  rw [run_get_bind]
  by_cases hbad : badSize m size = true
  · rw [if_pos hbad, if_pos hbad]
    rfl
  · rw [if_neg hbad, if_neg hbad, StateT.run_bind]
    cases (verifyPages bus data (size >>> (16 : Nat)).toNat 0).run m with
    | none => rfl
    | some x =>
      refine (run_setBankPage_bind _ _ _ x.2).trans ?_
      cases hbad : x.1 <;> simp [Machine.back, hbad]

end Flash
