import CobaltRom.Flash.WriteCommand

/-! When `write_eeprom` programs the bank it was told to with the image it was sent. -/
namespace Flash
open Hoare
open Console (CString stoli cstring)
open Cmos (ebadnum ebadarg)
open Ram (AreaIn areaIn_iff)

variable {σ : Type} {bus : Bus σ} {m m₁ : Machine σ} {s s' : Monitor σ} {ram : Ram}
  {line : Nat → Option UInt8} {argv : List CString} {key : UInt8} {rest image : List UInt8}
  {bank len : UInt32} {t : EepromType}

/-- A bank with a chip, and a length if one is given; it is that of the chip otherwise. -/
structure Told (argv : List CString) (chips : Int → Option EepromType) (bank len : UInt32)
    (t : EepromType) : Prop where
  number : ∃ arg, argv[1]? = some arg ∧ stoli arg = some (0, bank)
  chip : (bank.toNat : Int) < eepromMaxBanks ∧ chips bank.toNat = some t
  length : argv.length = 2 ∧ len = UInt32.ofInt t.size ∨
    argv.length = 3 ∧ ∃ arg, argv[2]? = some arg ∧ stoli arg = some (0, len)

/-- The line brings the image, `key` first, and then nothing for as long as the command listens. -/
def Sends (key : UInt8) (line : Nat → Option UInt8) (image : List UInt8) : Prop :=
  ∃ rest, image = key :: rest ∧ ∀ k, k < image.length + 3 → line k = rest[k]?

/-- As many bytes of the image as fit, and 0xff for the rest. -/
def padded (image : List UInt8) (len : Nat) : List UInt8 :=
  image.take len ++ List.replicate (len - image.length) 0xff

/-- The command erases the bank and then programs it with the padded image, and writes nothing but
the part of the load area that takes the longer of both. -/
def Programs (bus : Bus σ) (argv : List CString) (key : UInt8) (line : Nat → Option UInt8)
    (m : Machine σ) (ram : Ram) (bank len : UInt32) (image : List UInt8) : Prop :=
  ∃ r s', (writeEepromFunc bus argv key line).run (.start m ram) = some (r, s') ∧
    (∃ ret, s'.calls = [.erase bank.toNat 0, .write bank.toNat (padded image len.toNat) ret]) ∧
    ∀ area ∈ s'.written, AreaIn serialLoad (.ofNat (max image.length len.toNat)) area

/-! ### The parts of the command -/

theorem run_onMachine_bind {α β : Type} (p : FlashM σ α) (f : α → CommandM σ β) (s : Monitor σ) :
    (onMachine p >>= f).run s =
      (p.run s.machine).bind fun x => (f x.1).run { s with machine := x.2 } := by
  change ((p.run s.machine).map _).bind _ = _
  rw [Option.bind_map]
  rfl

theorem notNumber_run {arg : CString} {n : UInt32} (h : stoli arg = some (0, n)) (s : Monitor σ) :
    (notNumber (some arg)).run s = some (false, s) := by
  simp only [notNumber, h]
  rfl

theorem Told.bank_run (h : Told argv m₁.eeproms bank len t) (s : Monitor σ) :
    (notNumber argv[1]?).run s = some (false, s) := by
  obtain ⟨arg, hget, hstoli⟩ := h.number
  rw [hget]
  exact notNumber_run hstoli s

theorem Told.len_run (h : Told argv m₁.eeproms bank len t) (s : Monitor σ) :
    (notNumber (if argv.length = 3 then argv[2]? else none)).run s = some (false, s) := by
  rcases h.length with ⟨hlength, -⟩ | ⟨hlength, arg, hget, hstoli⟩
  · rw [if_neg (by omega)]
    rfl
  · rw [if_pos hlength, hget]
    exact notNumber_run hstoli s

theorem Sends.loads (h : Sends key line image) (hsize : image.length < serialLoadSize)
    (s : Monitor σ) :
    (loadImage line serialLoadSize key 0).run s = some (image.length, s.puts 0 image) := by
  obtain ⟨rest, rfl, hline⟩ := h
  rw [List.length_cons] at hsize hline
  have hpoint : ∀ k, k ≤ rest.length → line (0 + k) = rest[k]? := by
    intro k hk
    rw [Nat.zero_add]
    exact hline k (by omega)
  have hroom : rest.length < serialLoadSize := by omega
  have hrun := loadImage_run key hpoint hroom (by omega) s
  rw [Nat.zero_add] at hrun
  exact hrun

theorem Sends.not_aborted (h : Sends key line image) : aborted line image.length = false := by
  obtain ⟨rest, rfl, hline⟩ := h
  have hquiet : ∀ k, k < 3 → line (rest.length + 1 + k) = none := by
    intro k hk
    rw [hline _ (by rw [List.length_cons]; omega)]
    exact List.getElem?_eq_none (by omega)
  rw [List.length_cons, aborted, hquiet 1 (by decide), hquiet 2 (by decide)]
  rw [show line (rest.length + 1) = none from hquiet 0 (by decide)]
  rfl

/-- The load area after the image has come. -/
def Monitor.loaded (s : Monitor σ) (image : List UInt8) (len : UInt32) : Monitor σ :=
  (s.puts 0 image).pad image.length len

theorem loaded_machine (s : Monitor σ) (image : List UInt8) (len : UInt32) :
    (s.loaded image len).machine = s.machine := by
  unfold Monitor.loaded Monitor.pad
  split
  · exact puts_machine s 0 image
  · exact puts_machine s 0 image

theorem loaded_calls (s : Monitor σ) (image : List UInt8) (len : UInt32) :
    (s.loaded image len).calls = s.calls := by
  unfold Monitor.loaded Monitor.pad
  split
  · exact puts_calls s 0 image
  · exact puts_calls s 0 image

/-- After the chip has been erased. -/
def Monitor.erased (s : Monitor σ) (bank : Int) (x : Int × Machine σ) : Monitor σ :=
  { s with machine := x.2, calls := s.calls ++ [.erase bank x.1] }

/-- After the chip has been programmed. -/
def Monitor.programmed (s : Monitor σ) (bank : Int) (len : UInt32) (x : Int × Machine σ) :
    Monitor σ :=
  { s with
    machine := x.2
    calls := s.calls ++ [.write bank ((List.range len.toNat).map s.data) x.1] }

theorem eraseBank_run (bus : Bus σ) (bank : Int) (s : Monitor σ) :
    (eraseBank bus bank).run s =
      ((eepromEraseChip bus enough bank true).run s.machine).map
        fun x => (x.1, s.erased bank x) := by
  unfold eraseBank
  rw [run_onMachine_bind]
  cases (eepromEraseChip bus enough bank true).run s.machine <;> rfl

theorem writeBank_run (bus : Bus σ) (bank : Int) (len : UInt32) (s : Monitor σ) :
    (writeBank bus bank len).run s =
      ((eepromWriteChip bus enough bank s.data len).run s.machine).map
        fun x => (x.1, s.programmed bank len x) := by
  unfold writeBank
  rw [run_get_bind, run_onMachine_bind]
  cases (eepromWriteChip bus enough bank s.data len).run s.machine <;> rfl

/-- The image is loaded and padded, the bank erased, and programmed if that went well. -/
theorem loadAndProgram_run (hsends : Sends key line image) (hsize : image.length < serialLoadSize)
    (bank : Int) (s : Monitor σ) :
    (loadAndProgram bus bank len key line).run s =
      ((eraseBank bus bank).run (s.loaded image len)).bind fun x =>
        if x.1 ≠ 0 then some (0, x.2)
        else ((writeBank bus bank len).run x.2).map fun y => (0, y.2) := by
  have hrun : (loadAndProgram bus bank len key line).run s =
      (eraseBank bus bank >>= fun r => if r ≠ 0 then pure 0 else do
        let _ ← writeBank bus bank len
        pure 0).run (s.loaded image len) := by
    unfold loadAndProgram
    rw [run_bind_some (hsends.loads hsize s)]
    change (if aborted line image.length then pure 0 else _ : CommandM σ Int).run
      (s.loaded image len) = _
    rw [if_neg (by rw [hsends.not_aborted]; decide)]
  rw [hrun, StateT.run_bind]
  cases (eraseBank bus bank).run (s.loaded image len) with
  | none => rfl
  | some x =>
    by_cases hr : x.1 ≠ 0
    · change (if x.1 ≠ 0 then pure 0 else _ : CommandM σ Int).run x.2 =
        if x.1 ≠ 0 then some (0, x.2) else _
      rw [if_pos hr, if_pos hr]
      rfl
    · change (if x.1 ≠ 0 then pure 0 else _ : CommandM σ Int).run x.2 =
        if x.1 ≠ 0 then some (0, x.2) else _
      rw [if_neg hr, if_neg hr, StateT.run_bind]
      cases (writeBank bus bank len).run x.2 <;> rfl

/-- Whatever bank the command is told, it goes on with bank 0. -/
theorem writeEepromFunc_run (htold : Told argv m₁.eeproms bank len t)
    (hinit : (eepromInit bus).run m = some ((0 : Int), m₁)) :
    (writeEepromFunc bus argv key line).run (.start m ram) =
      (programBank bus 0 (if argv.length = 3 then argv[2]? else none) key line).run
        (.start m₁ ram) := by
  unfold writeEepromFunc
  rw [run_bind_some (htold.bank_run _), if_neg Bool.false_ne_true, run_onMachine_bind]
  change ((eepromInit bus).run m).bind _ = _
  rw [hinit]
  rfl

theorem programBank_none (hnone : s.machine.eeproms 0 = none) (lenArg : Option CString) :
    (programBank bus 0 lenArg key line).run s = some (ebadarg, s) := by
  unfold programBank
  rw [run_get_bind, if_neg (by decide), hnone]
  rfl

theorem programBank_some {lenArg : Option CString} {t : EepromType}
    (ht : s.machine.eeproms 0 = some t)
    (hlen : (notNumber lenArg).run s = some (false, s)) :
    (programBank bus 0 lenArg key line).run s =
      if UInt32.ofInt t.size = 0 then some (0, s)
      else (loadAndProgram bus 0 (UInt32.ofInt t.size) key line).run s := by
  unfold programBank
  rw [run_get_bind, if_neg (by decide), ht]
  refine (run_bind_some hlen).trans ?_
  rw [if_neg Bool.false_ne_true]
  split
  · rfl
  · rfl

/-! ### What is in the load area -/

theorem pad_le (hle : image.length ≤ len.toNat) (hsize : image.length < serialLoadSize) :
    (len - .ofNat image.length).toNat = len.toNat - image.length := by
  have hofNat : (UInt32.ofNat image.length).toNat = image.length :=
    UInt32.toNat_ofNat_of_lt' (Nat.lt_trans hsize (by decide))
  have hbelow : UInt32.ofNat image.length ≤ len := by
    rw [UInt32.le_iff_toNat_le, hofNat]
    exact hle
  rw [UInt32.toNat_sub_of_le _ _ hbelow, hofNat]

/-- The image and 0xff after it. -/
theorem data_loaded (hle : image.length ≤ len.toNat) (hsize : image.length < serialLoadSize)
    {i : Nat} (hi : i < len.toNat) (s : Monitor σ) :
    (s.loaded image len).data i = (image[i]?).getD 0xff := by
  have hlen := len.toNat_lt
  have hsz : image.length < 2 ^ 32 := Nat.lt_trans hsize (by decide)
  have hput : (s.puts 0 image).data i = (image[i]?).getD (s.data i) := by
    rw [data_puts (by omega) (by omega), if_pos (Nat.zero_le i), Nat.sub_zero]
  have hpad := pad_le hle hsize
  unfold Monitor.loaded Monitor.pad
  by_cases hin : i < image.length
  · rw [List.getElem?_eq_getElem hin] at hput ⊢
    split
    · refine Eq.trans (Ram.fill_other fun k hk h => ?_) hput
      rw [UInt32.add_assoc, ← UInt32.ofNat_add] at h
      have heq : i = image.length + k := (Ram.add_ofNat_eq_iff (by omega) (by omega)).mp h
      omega
    · exact hput
  · have hne : len - UInt32.ofNat image.length ≠ 0 := by
      intro h
      rw [h] at hpad
      change 0 = _ at hpad
      omega
    obtain ⟨k, rfl⟩ : ∃ k, i = image.length + k := ⟨i - image.length, by omega⟩
    rw [if_pos hne, List.getElem?_eq_none (by omega)]
    change Ram.fill _ _ _ _ (serialLoad + .ofNat (image.length + k)) = 0xff
    rw [UInt32.ofNat_add, ← UInt32.add_assoc]
    exact Ram.fill_apply (by omega) (by omega)

theorem padded_length (image : List UInt8) (n : Nat) : (padded image n).length = n := by
  rw [padded, List.length_append, List.length_take, List.length_replicate]
  omega

theorem loaded_bytes (hle : image.length ≤ len.toNat) (hsize : image.length < serialLoadSize)
    (s : Monitor σ) :
    (List.range len.toNat).map (s.loaded image len).data = padded image len.toNat := by
  apply List.ext_getElem
  · rw [padded_length, List.length_map, List.length_range]
  · intro i hi _
    rw [List.length_map, List.length_range] at hi
    rw [List.getElem_map, List.getElem_range, data_loaded hle hsize hi]
    by_cases hin : i < image.length
    · simp [padded, hin, hi]
    · simp [padded, List.getElem_append, hin]

theorem toNat_serialLoad {k : Nat} (hk : k ≤ serialLoadSize) :
    (serialLoad + .ofNat k).toNat = serialLoad.toNat + k := by
  have hlt : k < 2 ^ 32 := Nat.lt_of_le_of_lt hk (by decide)
  rw [UInt32.toNat_add, UInt32.toNat_ofNat_of_lt' hlt]
  exact Nat.mod_eq_of_lt (Nat.lt_of_le_of_lt (Nat.add_le_add_left hk _) (by decide))

/-- An area that begins in the load area stays in a part of it unless it is too long. -/
theorem areaIn_load {k n : Nat} (hk : k ≤ serialLoadSize) (hn : n ≤ serialLoadSize)
    (count : UInt32) :
    AreaIn serialLoad (.ofNat n) (serialLoad + .ofNat k, count) ↔
      count = 0 ∨ k + count.toNat ≤ n := by
  have hn' : (UInt32.ofNat n).toNat = n :=
    UInt32.toNat_ofNat_of_lt' (Nat.lt_of_le_of_lt hn (by decide))
  have hstart := toNat_serialLoad hk
  have hload : serialLoad.toNat = 0x01700000 := rfl
  have hfits : serialLoad.toNat + (UInt32.ofNat n).toNat < 2 ^ 32 := by
    rw [hn', hload]
    exact Nat.lt_of_le_of_lt (Nat.add_le_add_left hn _) (by decide)
  rw [areaIn_iff hfits (by rw [UInt32.lt_iff_toNat_lt, hstart]; omega), hstart, hn',
    Nat.add_assoc, Nat.add_le_add_iff_left]

/-- What is written lies in the load area if the image is not longer than the chip. -/
theorem loaded_inside (hle : image.length ≤ len.toNat) (hlen : len.toNat ≤ serialLoadSize)
    (hsize : image.length < serialLoadSize) (m : Machine σ) (ram : Ram) :
    ∀ area ∈ ((Monitor.start m ram).loaded image len).written,
      AreaIn serialLoad (.ofNat (max image.length len.toNat)) area := by
  intro area harea
  have hputs : ∀ area ∈ ((Monitor.start m ram).puts 0 image).written,
      AreaIn serialLoad (.ofNat (max image.length len.toNat)) area := by
    intro area harea
    rcases puts_written harea with hold | ⟨k, hk, rfl⟩
    · cases hold
    · refine (areaIn_load (by omega) (by omega) 1).mpr (Or.inr ?_)
      change 0 + k + 1 ≤ _
      omega
  unfold Monitor.loaded Monitor.pad at harea
  split at harea
  · rcases List.mem_append.mp harea with hold | hnew
    · exact hputs area hold
    · rw [List.mem_singleton.mp hnew]
      refine (areaIn_load (by omega) (by omega) _).mpr (Or.inr ?_)
      rw [pad_le hle hsize]
      omega
  · exact hputs area harea

/-- The `memset` after an image longer than the chip goes round the whole memory. -/
theorem loaded_outside (hlt : len.toNat < image.length) (hsize : image.length < serialLoadSize)
    (s : Monitor σ) :
    ∃ area ∈ (s.loaded image len).written,
      ¬ AreaIn serialLoad (.ofNat (max image.length len.toNat)) area := by
  have hne : len - UInt32.ofNat image.length ≠ 0 := by
    intro h
    have heq : len = UInt32.ofNat image.length := by
      rw [← UInt32.sub_add_cancel len (UInt32.ofNat image.length), h, UInt32.zero_add]
    rw [heq, UInt32.toNat_ofNat_of_lt' (Nat.lt_trans hsize (by decide))] at hlt
    exact Nat.lt_irrefl _ hlt
  refine ⟨(serialLoad + .ofNat image.length, len - .ofNat image.length), ?_, ?_⟩
  · unfold Monitor.loaded Monitor.pad
    rw [if_pos hne]
    exact List.mem_append_right _ (List.mem_singleton_self _)
  · rw [areaIn_load (by omega) (by omega)]
    have hpos : (len - UInt32.ofNat image.length).toNat ≠ 0 := fun h =>
      hne (UInt32.toNat_inj.mp h)
    rintro (hzero | hfits)
    · exact hne hzero
    · omega

/-! ### What the command does -/

/-- The chip of the bank reports that it has been erased. -/
def Machine.Erases (bus : Bus σ) (bank : Int) (m : Machine σ) : Prop :=
  ∃ m', (eepromEraseChip bus enough bank true).run m = some ((0 : Int), m')

/-- The bytes that are programmed if the load area is as the image left it. -/
def Monitor.bytes (s : Monitor σ) (len : UInt32) : List UInt8 := (List.range len.toNat).map s.data

/-- Bank 0 has been erased and programmed with what the load area held, or could not be erased. -/
structure Attempted (bus : Bus σ) (m₁ : Machine σ) (ram : Ram) (image : List UInt8) (len : UInt32)
    (s' : Monitor σ) : Prop where
  written : s'.written = ((Monitor.start m₁ ram).loaded image len).written
  calls : (¬ m₁.Erases bus 0 ∧ ∃ ret, s'.calls = [.erase 0 ret]) ∨
    (m₁.Erases bus 0 ∧ ∃ ret, s'.calls =
      [.erase 0 0, .write 0 (((Monitor.start m₁ ram).loaded image len).bytes len) ret])

theorem loadAndProgram_cases (hsends : Sends key line image) (hsize : image.length < serialLoadSize)
    {r : Int} (hrun : (loadAndProgram bus 0 len key line).run (.start m₁ ram) = some (r, s')) :
    Attempted bus m₁ ram image len s' := by
  have hcalls := loaded_calls (.start m₁ ram) image len
  have hmachine := loaded_machine (.start m₁ ram) image len
  rw [loadAndProgram_run hsends hsize, eraseBank_run, hmachine] at hrun
  obtain ⟨y, hy, hrest⟩ := Option.bind_eq_some_iff.mp hrun
  obtain ⟨x, hx, rfl⟩ := Option.map_eq_some_iff.mp hy
  by_cases hret : x.1 ≠ 0
  · rw [if_pos hret] at hrest
    cases hrest
    refine ⟨rfl, Or.inl ⟨fun ⟨m₂, hm₂⟩ => ?_, x.1, ?_⟩⟩
    · exact hret (congrArg Prod.fst (Option.some.inj (hx.symm.trans hm₂)))
    change ((Monitor.start m₁ ram).loaded image len).calls ++ _ = _
    rw [hcalls]
    rfl
  · rw [if_neg hret, writeBank_run] at hrest
    obtain ⟨z, hz, hend⟩ := Option.map_eq_some_iff.mp hrest
    obtain ⟨w, -, rfl⟩ := Option.map_eq_some_iff.mp hz
    cases hend
    have hzero : x = (0, x.2) := Prod.ext (not_not.mp hret) rfl
    refine ⟨rfl, Or.inr ⟨⟨x.2, hx.trans (congrArg some hzero)⟩, w.1, ?_⟩⟩
    change (((Monitor.start m₁ ram).loaded image len).calls ++ _) ++ _ = _
    rw [hcalls, not_not.mp hret]
    rfl

/-- It makes no calls or comes to the chip in bank 0. -/
theorem writeEepromFunc_cases (hinit : (eepromInit bus).run m = some ((0 : Int), m₁))
    (htold : Told argv m₁.eeproms bank len t) (hsends : Sends key line image)
    (hsize : image.length < serialLoadSize) {r : Int}
    (hrun : (writeEepromFunc bus argv key line).run (.start m ram) = some (r, s')) :
    (s'.calls = [] ∧ ∀ t, m₁.eeproms 0 = some t → UInt32.ofInt t.size = 0) ∨
      ∃ t, m₁.eeproms 0 = some t ∧ Attempted bus m₁ ram image (UInt32.ofInt t.size) s' := by
  rw [writeEepromFunc_run htold hinit] at hrun
  cases ht : m₁.eeproms 0 with
  | none =>
    rw [programBank_none ht] at hrun
    cases hrun
    exact Or.inl ⟨rfl, fun t h => nomatch h⟩
  | some t₀ =>
    rw [programBank_some ht (htold.len_run _)] at hrun
    by_cases hzero : UInt32.ofInt t₀.size = 0
    · rw [if_pos hzero] at hrun
      cases hrun
      exact Or.inl ⟨rfl, fun t h => Option.some.inj h ▸ hzero⟩
    · rw [if_neg hzero] at hrun
      exact Or.inr ⟨t₀, rfl, loadAndProgram_cases hsends hsize hrun⟩

/-- Where the chip in bank 0 can be erased it is programmed. -/
theorem writeEepromFunc_ends (hinit : (eepromInit bus).run m = some ((0 : Int), m₁))
    (htold : Told argv m₁.eeproms bank len t) (hsends : Sends key line image)
    (hsize : image.length < serialLoadSize) (hchip : m₁.eeproms 0 = some t)
    (hzero : UInt32.ofInt t.size ≠ 0) (herases : m₁.Erases bus 0) :
    ∃ s', (writeEepromFunc bus argv key line).run (.start m ram) = some ((0 : Int), s') := by
  obtain ⟨m₂, herase⟩ := herases
  have hchip₂ : m₂.eeproms 0 = some t := by
    rw [(eepromEraseChip_static bus enough 0 true m₁ 0 m₂ herase).eeproms]
    exact hchip
  obtain ⟨r, m₃, hwrite⟩ := eepromWriteChip_ends hchip₂
    ((Monitor.start m₁ ram).loaded image (UInt32.ofInt t.size)).data (UInt32.ofInt t.size)
  rw [writeEepromFunc_run htold hinit, programBank_some hchip (htold.len_run _), if_neg hzero,
    loadAndProgram_run hsends hsize, eraseBank_run, loaded_machine]
  change ∃ s', (((eepromEraseChip bus enough 0 true).run m₁).map _).bind _ = _
  rw [herase]
  change ∃ s', ((writeBank bus 0 (UInt32.ofInt t.size)).run _).map _ = _
  rw [writeBank_run]
  change ∃ s', (((eepromWriteChip bus enough 0
    ((Monitor.start m₁ ram).loaded image (UInt32.ofInt t.size)).data
      (UInt32.ofInt t.size)).run m₂).map _).map _ = _
  rw [hwrite]
  exact ⟨_, rfl⟩

theorem listed_size (h : t ∈ eepromTypes ∨ t = unknownType) :
    (UInt32.ofInt t.size).toNat ≤ serialLoadSize := by
  have hall : ∀ t ∈ eepromTypes, (UInt32.ofInt t.size).toNat ≤ serialLoadSize := by decide
  rcases h with hmem | rfl
  · exact hall t hmem
  · decide

/-- The bank is the one that was told only if that is 0. -/
theorem bank_of_programs (hinit : (eepromInit bus).run m = some ((0 : Int), m₁))
    (htold : Told argv m₁.eeproms bank len t) (hsends : Sends key line image)
    (hsize : image.length < serialLoadSize)
    (h : Programs bus argv key line m ram bank len image) :
    bank = 0 ∧ len = UInt32.ofInt t.size ∧ image.length ≤ len.toNat ∧ m₁.Erases bus 0 := by
  obtain ⟨r, s', hrun, ⟨ret, hcalls⟩, hareas⟩ := h
  rcases writeEepromFunc_cases hinit htold hsends hsize hrun with ⟨hnone, -⟩ | ⟨t₀, ht₀, hdone⟩
  · rw [hnone] at hcalls
    exact absurd hcalls.symm (List.cons_ne_nil _ _)
  · rcases hdone.calls with ⟨-, ret₀, hfailed⟩ | ⟨herases, ret₀, hcalls₀⟩
    · rw [hfailed] at hcalls
      exact absurd (congrArg List.length hcalls) (by simp)
    · have heq := hcalls₀.symm.trans hcalls
      have hbank : bank = 0 := by
        have hint : (0 : Int) = bank.toNat := congrArg Call.bank (List.cons.inj heq).1
        exact UInt32.toNat_inj.mp (by simpa using hint.symm)
      have hchip := htold.chip.2
      rw [hbank] at hchip
      cases ht₀.symm.trans hchip
      have hbytes : ((Monitor.start m₁ ram).loaded image (UInt32.ofInt t.size)).bytes
          (UInt32.ofInt t.size) = padded image len.toNat :=
        (Call.write.inj (List.cons.inj (List.cons.inj heq).2).1).2.1
      have hlen : len = UInt32.ofInt t.size := by
        have hlength := congrArg List.length hbytes
        rw [padded_length, Monitor.bytes, List.length_map, List.length_range] at hlength
        exact UInt32.toNat_inj.mp hlength.symm
      refine ⟨hbank, hlen, ?_, herases⟩
      by_contra hlong
      obtain ⟨area, harea, hout⟩ := loaded_outside (Nat.lt_of_not_le hlong) hsize (.start m₁ ram)
      rw [hdone.written, ← hlen] at hareas
      exact hout (hareas area harea)

/-- The command does what it was told exactly if that is to fill bank 0 with an image that fits. -/
theorem programs_iff (hinit : (eepromInit bus).run m = some ((0 : Int), m₁))
    (htold : Told argv m₁.eeproms bank len t) (hsends : Sends key line image)
    (hsize : image.length < serialLoadSize) (ram : Ram) :
    Programs bus argv key line m ram bank len image ↔
      bank = 0 ∧ len = UInt32.ofInt t.size ∧ image.length ≤ len.toNat ∧ m₁.Erases bus 0 := by
  constructor
  · exact bank_of_programs hinit htold hsends hsize
  · rintro ⟨rfl, rfl, hle, herases⟩
    have hchip : m₁.eeproms 0 = some t := htold.chip.2
    have hpos : 0 < image.length := by
      obtain ⟨rest, rfl, -⟩ := hsends
      exact Nat.succ_pos _
    have hzero : UInt32.ofInt t.size ≠ 0 := by
      intro h
      rw [h] at hle
      exact absurd hle (Nat.not_le_of_lt hpos)
    obtain ⟨s', hrun⟩ := writeEepromFunc_ends hinit htold hsends hsize hchip hzero
      herases
    refine ⟨0, s', hrun, ?_⟩
    rcases writeEepromFunc_cases hinit htold hsends hsize hrun with ⟨-, hnone⟩ | ⟨t₀, ht₀, hdone⟩
    · exact absurd (hnone t hchip) hzero
    · cases ht₀.symm.trans hchip
      rcases hdone.calls with ⟨hfails, -⟩ | ⟨-, ret, hcalls⟩
      · exact absurd herases hfails
      · constructor
        · refine ⟨ret, ?_⟩
          rw [hcalls, Monitor.bytes, loaded_bytes hle hsize]
          rfl
        · rw [hdone.written]
          exact loaded_inside hle (listed_size (eepromInit_listed hinit (Or.inl rfl) t hchip)) hsize
            m₁ ram

/-- A board with the same chip in both banks, which reads erased but for its id. -/
def idBus : Bus Bool where
  read
    | .flash _ a, true => (if a = 0 then 0x01 else if a = 1 then 0xd5 else 0xff, true)
    | _, id => (0xff, id)
  write _ v _ := v == 0x90

def idBoard : Machine Bool where
  board := .carmel
  pageReg := 0
  pagePort := 0
  rom := windowAddr
  flatRomBase := 0
  eepromBank := -1
  eepromPage := -1
  eepromFsOffset := 0
  eeproms _ := none
  eepromIds _ := 0
  dev := false

/-- The board after `eeprom_init`. -/
def idBoardInit : Machine Bool := (((eepromInit idBus).run idBoard).map Prod.snd).getD idBoard

theorem idBoard_init : (eepromInit idBus).run idBoard = some ((0 : Int), idBoardInit) := rfl

/-- `write_eeprom` with one digit for the bank. -/
def bankArgv (digit : UInt8) : List CString := [cstring [], cstring [digit]]

abbrev am29f080b : EepromType := ⟨0x01, 0xd5, 0x00100000, "AMD AM29F080B", some .amd⟩

theorem bankArgv_zero : Told (bankArgv 0x30) idBoardInit.eeproms 0 0x00100000 am29f080b where
  number := ⟨cstring [0x30], rfl, by decide⟩
  chip := ⟨by decide, rfl⟩
  length := Or.inl ⟨rfl, rfl⟩

theorem bankArgv_one : Told (bankArgv 0x31) idBoardInit.eeproms 1 0x00100000 am29f080b where
  number := ⟨cstring [0x31], rfl, by decide⟩
  chip := ⟨by decide, rfl⟩
  length := Or.inl ⟨rfl, rfl⟩

theorem sends_byte (b : UInt8) : Sends b (fun _ => none) [b] := ⟨[], rfl, fun _ _ => rfl⟩

theorem idBoardInit_erases : idBoardInit.Erases idBus 0 := ⟨_, rfl⟩

/-- One byte for bank 0. -/
theorem programs_byte : Programs idBus (bankArgv 0x30) 0x55 (fun _ => none) idBoard (fun _ => 0)
    0 0x00100000 [0x55] :=
  (programs_iff idBoard_init bankArgv_zero (sends_byte 0x55) (by decide) fun _ => 0).mpr
    ⟨rfl, rfl, by decide, idBoardInit_erases⟩

/-- Bank 1 is not programmed with the byte that was sent for it. -/
theorem not_programs_one : Told (bankArgv 0x31) idBoardInit.eeproms 1 0x00100000 am29f080b ∧
    ¬ Programs idBus (bankArgv 0x31) 0x55 (fun _ => none) idBoard (fun _ => 0)
      1 0x00100000 [0x55] := by
  refine ⟨bankArgv_one, fun h => ?_⟩
  have hbank := (bank_of_programs idBoard_init bankArgv_one (sends_byte 0x55) (by decide) h).1
  exact absurd hbank (by decide)

end Flash
