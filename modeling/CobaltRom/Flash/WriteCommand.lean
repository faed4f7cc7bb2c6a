import CobaltRom.Console.Numerals
import CobaltRom.Cmos.Monitor
import CobaltRom.Lib.Ram
import CobaltRom.Flash.Init
import CobaltRom.Flash.Polling

/-! The monitor command that loads an image from the serial port and programs a bank with it
(`write_eeprom` of `monitor/eeprom.c`). -/
namespace Flash
open Console (CString stoli)
open Cmos (ebadnum ebadarg)
open Ram (AreaIn areaIn_iff)

variable {σ : Type}

abbrev serialLoad : UInt32 := 0x01700000
abbrev serialLoadSize : Nat := 0x400000

/-- A call of the functions for whole chips: the bank, the bytes, and what it returned. -/
inductive Call where
  | erase (bank ret : Int)
  | write (bank : Int) (bytes : List UInt8) (ret : Int)
  deriving DecidableEq

def Call.bank : Call → Int
  | erase bank _ | write bank _ _ => bank

/-- The flash and the memory, and what the command has done: the calls it has made and the areas of
memory it has written. -/
structure Monitor (σ : Type) where
  machine : Machine σ
  ram : Ram
  calls : List Call
  written : List (UInt32 × UInt32)

abbrev CommandM (σ : Type) := StateT (Monitor σ) Option

/-- Nothing done yet. -/
def Monitor.start (m : Machine σ) (ram : Ram) : Monitor σ := ⟨m, ram, [], []⟩

/-- A call of a function that only uses the flash. -/
def onMachine {α : Type} (p : FlashM σ α) : CommandM σ α := fun s =>
  (p.run s.machine).map fun x => (x.1, { s with machine := x.2 })

/-- `stoli(arg, &n) != 0`, if there is an argument; the number is not looked at. -/
def notNumber : Option CString → CommandM σ Bool
  | none => pure false
  | some arg =>
    match stoli arg with
    | none => failure
    | some (status, _) => pure (status ≠ 0)

/-- `*(data+sz) = in`. -/
def Monitor.put (sz : Nat) (b : UInt8) (s : Monitor σ) : Monitor σ :=
  { s with
    ram := s.ram.store (serialLoad + .ofNat sz) b
    written := s.written ++ [(serialLoad + .ofNat sz, 1)] }

/-- The `do` loop, with `line k` what call `k` of `serial_inb_timeout` brings; it has room for so
many bytes. -/
def loadImage (line : Nat → Option UInt8) : Nat → UInt8 → Nat → CommandM σ Nat
  | 0, _, _ => failure
  | room + 1, b, sz => do
    modify (Monitor.put sz b)
    match line sz with
    | some b => if sz + 1 < serialLoadSize then loadImage line room b (sz + 1) else pure (sz + 1)
    | none => pure (sz + 1)

/-- `if (len-sz) memset(data+sz, ~0, len-sz)`. -/
def Monitor.pad (sz : Nat) (len : UInt32) (s : Monitor σ) : Monitor σ :=
  if len - .ofNat sz ≠ 0 then
    { s with
      ram := s.ram.fill (serialLoad + .ofNat sz) 0xff (len - .ofNat sz).toNat
      written := s.written ++ [(serialLoad + .ofNat sz, len - .ofNat sz)] }
  else s

/-- A key is pressed in one of the three waits that follow the image. -/
def aborted (line : Nat → Option UInt8) (sz : Nat) : Bool :=
  (line sz).isSome || (line (sz + 1)).isSome || (line (sz + 2)).isSome

def eraseBank (bus : Bus σ) (bank : Int) : CommandM σ Int := do
  let r ← onMachine (eepromEraseChip bus enough bank true)
  modify fun s => { s with calls := s.calls ++ [.erase bank r] }
  pure r

/-- What is in the load area. -/
def Monitor.data (s : Monitor σ) (i : Nat) : UInt8 := s.ram (serialLoad + .ofNat i)

def writeBank (bus : Bus σ) (bank : Int) (len : UInt32) : CommandM σ Int := do
  let s ← get
  let r ← onMachine (eepromWriteChip bus enough bank s.data len)
  modify fun s => { s with calls := s.calls ++ [.write bank ((List.range len.toNat).map s.data) r] }
  pure r

/-- From "read rom image from serial port" on; `key` is the byte `serial_inb` brings. -/
def loadAndProgram (bus : Bus σ) (bank : Int) (len : UInt32) (key : UInt8)
    (line : Nat → Option UInt8) : CommandM σ Int := do
  let sz ← loadImage line serialLoadSize key 0
  modify (Monitor.pad sz len)
  if aborted line sz then pure 0
  else do
    let r ← eraseBank bus bank
    if r ≠ 0 then pure 0
    else do
      let _ ← writeBank bus bank len
      pure 0

/-- From the check of the bank on. The length is the size of the chip also where an argument was a
number. -/
def programBank (bus : Bus σ) (bank : Int) (lenArg : Option CString) (key : UInt8)
    (line : Nat → Option UInt8) : CommandM σ Int := do
  let s ← get
  if bank ≥ eepromMaxBanks then pure ebadarg
  else match s.machine.eeproms bank with
    | none => pure ebadarg
    | some t => do
      let bad ← notNumber lenArg
      if bad then pure ebadnum
      else if UInt32.ofInt t.size = 0 then pure 0
      else loadAndProgram bus bank (UInt32.ofInt t.size) key line

/-- The bank is 0 also where the argument was a number. -/
def writeEepromFunc (bus : Bus σ) (argv : List CString) (key : UInt8) (line : Nat → Option UInt8) :
    CommandM σ Int := do
  let bad ← notNumber argv[1]?
  if bad then pure ebadnum
  else do
    let r ← onMachine (eepromInit bus)
    if r < 0 then pure 0
    else programBank bus 0 (if argv.length = 3 then argv[2]? else none) key line

/-! ### The load area -/

variable {bus : Bus σ} {m m₁ : Machine σ} {s s' : Monitor σ} {line : Nat → Option UInt8}
  {bytes : List UInt8} {i sz : Nat} {len : UInt32}

/-- Bytes put one after the other. -/
def Monitor.puts (s : Monitor σ) : Nat → List UInt8 → Monitor σ
  | _, [] => s
  | sz, b :: bytes => (s.put sz b).puts (sz + 1) bytes

theorem puts_machine (s : Monitor σ) (sz : Nat) (bytes : List UInt8) :
    (s.puts sz bytes).machine = s.machine := by
  induction bytes generalizing s sz with
  | nil => rfl
  | cons b bytes ih => exact ih (s.put sz b) (sz + 1)

theorem puts_calls (s : Monitor σ) (sz : Nat) (bytes : List UInt8) :
    (s.puts sz bytes).calls = s.calls := by
  induction bytes generalizing s sz with
  | nil => rfl
  | cons b bytes ih => exact ih (s.put sz b) (sz + 1)

theorem data_put (hi : i < 2 ^ 32) (hsz : sz < 2 ^ 32) (b : UInt8) (s : Monitor σ) :
    (s.put sz b).data i = if i = sz then b else s.data i := by
  have hiff : serialLoad + UInt32.ofNat i = serialLoad + UInt32.ofNat sz ↔ i = sz :=
    Ram.add_ofNat_eq_iff hi hsz
  by_cases h : i = sz
  · rw [if_pos h, h]
    exact Ram.store_self _ _ _
  · rw [if_neg h]
    exact Ram.store_ne fun h' => h (hiff.mp h')

/-- What has been put is there. -/
theorem data_puts (hi : i < 2 ^ 32) (hsz : sz + bytes.length ≤ 2 ^ 32) (s : Monitor σ) :
    (s.puts sz bytes).data i =
      if sz ≤ i then (bytes[i - sz]?).getD (s.data i) else s.data i := by
  induction bytes generalizing s sz with
  | nil => simp [Monitor.puts]
  | cons b bytes ih =>
    rw [List.length_cons] at hsz
    rw [Monitor.puts, ih (by omega), data_put hi (by omega)]
    by_cases hlt : i < sz
    · rw [if_neg (by omega), if_neg (by omega), if_neg (by omega)]
    · rw [if_pos (by omega : sz ≤ i)]
      by_cases heq : i = sz
      · subst heq
        rw [if_neg (by omega), if_pos rfl, Nat.sub_self]
        rfl
      · rw [if_pos (by omega), if_neg heq]
        obtain ⟨k, rfl⟩ : ∃ k, i = sz + 1 + k := ⟨i - (sz + 1), by omega⟩
        rw [Nat.add_sub_cancel_left, show sz + 1 + k - sz = k + 1 by omega,
          List.getElem?_cons_succ]

theorem puts_written {area : UInt32 × UInt32} (h : area ∈ (s.puts sz bytes).written) :
    area ∈ s.written ∨ ∃ k, k < bytes.length ∧ area = (serialLoad + .ofNat (sz + k), 1) := by
  induction bytes generalizing s sz with
  | nil => exact Or.inl h
  | cons b bytes ih =>
    rcases ih h with hput | ⟨k, hk, rfl⟩
    · rcases List.mem_append.mp hput with hold | hnew
      · exact Or.inl hold
      · exact Or.inr ⟨0, Nat.succ_pos _, List.mem_singleton.mp hnew⟩
    · exact Or.inr ⟨k + 1, Nat.succ_lt_succ hk, by rw [Nat.add_right_comm, Nat.add_assoc]⟩

/-- An image that ends before the area does is stored whole. -/
theorem loadImage_run {rest : List UInt8} {room : Nat} (b : UInt8)
    (hline : ∀ k, k ≤ rest.length → line (sz + k) = rest[k]?) (hroom : rest.length < room)
    (hsize : sz + rest.length + 1 < serialLoadSize) (s : Monitor σ) :
    (loadImage line room b sz).run s = some (sz + rest.length + 1, s.puts sz (b :: rest)) := by
  induction rest generalizing b sz room s with
  | nil =>
    obtain ⟨room, rfl⟩ : ∃ k, room = k + 1 := ⟨room - 1, by omega⟩
    have hend : line sz = none := hline 0 (Nat.le_refl 0)
    unfold loadImage
    rw [hend]
    rfl
  | cons b' rest ih =>
    rw [List.length_cons] at hroom hsize hline
    obtain ⟨room, rfl⟩ : ∃ k, room = k + 1 := ⟨room - 1, by omega⟩
    have hnext : line sz = some b' := hline 0 (Nat.zero_le _)
    have hpoint : ∀ k, k ≤ rest.length → line (sz + 1 + k) = rest[k]? := by
      intro k hk
      rw [Nat.add_assoc, Nat.add_comm 1 k]
      exact hline (k + 1) (Nat.succ_le_succ hk)
    have hless : rest.length < room := by omega
    have hrest := ih b' hpoint hless (by omega) (s.put sz b)
    unfold loadImage
    rw [hnext]
    change (if sz + 1 < serialLoadSize then loadImage line room b' (sz + 1)
      else pure (sz + 1)).run (s.put sz b) = _
    rw [if_pos (by omega), hrest, List.length_cons]
    congr 2
    omega

end Flash
