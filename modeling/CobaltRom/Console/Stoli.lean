import CobaltRom.Console.Numerals
import CobaltRom.Console.StrbufOps

/-! Which numerals `stoli` reads. -/
namespace Console

/-- The string lies at the start of `val`, with its NUL; what is behind it is open. -/
def CStr.At (s : CStr) (val : CString) : Prop := ∀ i ≤ s.text.length, val i = s.text.getD i 0

/-- The number of digits, the highest first, behind one that is `n`. -/
def digitsFrom (base n : Nat) (ds : List UInt8) : Nat :=
  ds.foldl (fun n c => n * base + (hexatoi c).toNat) n

def numValue (base : Nat) (ds : List UInt8) : Nat := digitsFrom base 0 ds

def HexDigits (ds : List UInt8) : Prop :=
  1 ≤ ds.length ∧ ds.length ≤ 8 ∧ ∀ c ∈ ds, isxdigit c = true

/-- "0x" or "0X" and one to eight hexadecimal digits, or a decimal number below 2 ^ 32. -/
def Numeral (l : List UInt8) (n : Nat) : Prop :=
  (∃ x ds, l = 0x30 :: x :: ds ∧ (x = 0x78 ∨ x = 0x58) ∧ HexDigits ds ∧ n = numValue 16 ds) ∨
    l ≠ [] ∧ (∀ c ∈ l, isdigit c = true) ∧ n = numValue 10 l ∧ n < 2 ^ 32

/-- `stoli` returns, with status 0 exactly on the numerals, and stores what they stand for. -/
def ReadsNumeral (val : CString) (l : List UInt8) : Prop :=
  ∃ st addr, stoli val = some (st, addr) ∧ (st = 0 ↔ ∃ n, Numeral l n) ∧
    ∀ n, Numeral l n → addr.toNat = n

/-- The second character is an `x`. -/
def Marked (l : List UInt8) : Prop := l[1]? = some 0x78 ∨ l[1]? = some 0x58

instance (l : List UInt8) : Decidable (Marked l) := inferInstanceAs (Decidable (_ ∨ _))

/-- With an `x` in second place the first character is a 0 or what comes behind is no
hexadecimal number of up to eight digits; without it fewer than 256 digits lead, and a string
of digits only has at most twelve of them exactly when its value is below 2 ^ 32. -/
def Readable (l : List UInt8) : Prop :=
  l ≠ [] ∧ if Marked l then l[0]? = some 0x30 ∨ ¬ HexDigits (l.drop 2)
    else (l.takeWhile isdigit).length < 256 ∧
      ((∀ c ∈ l, isdigit c = true) → (l.length ≤ 12 ↔ numValue 10 l < 2 ^ 32))

variable {val : CString} {digit : UInt8 → Bool} {base addr : UInt32} {ctr : UInt8}
  {ds l : List UInt8} {s : CStr} {p : Nat}

theorem isxdigit_toupper (c : UInt8) : isxdigit (toupper c) = isxdigit c := by
  revert c
  decide +kernel

theorem xdigit_fun : (fun c => isxdigit (toupper c)) = isxdigit := funext isxdigit_toupper

/-- The accumulation of the loop, in 32 bits. -/
def accumulate (base addr : UInt32) (ds : List UInt8) : UInt32 :=
  ds.foldl (fun a c => a * base + (hexatoi c).toUInt32) addr

theorem accumulate_toNat (base : UInt32) (ds : List UInt8) : ∀ (addr : UInt32) (n : Nat),
    addr.toNat = n % 2 ^ 32 →
    (accumulate base addr ds).toNat = digitsFrom base.toNat n ds % 2 ^ 32 := by
  induction ds with
  | nil => exact fun _ _ h => h
  | cons c ds ih =>
    intro addr n h
    refine ih _ _ ?_
    rw [UInt32.toNat_add, UInt32.toNat_mul, UInt8.toNat_toUInt32, h]
    simp [Nat.add_mod, Nat.mul_mod]

theorem accumulate_numValue (base : UInt32) (ds : List UInt8) :
    (accumulate base 0 ds).toNat = numValue base.toNat ds % 2 ^ 32 :=
  accumulate_toNat base ds 0 0 rfl

theorem digitsFrom_lt {base : Nat} (ds : List UInt8)
    (h : ∀ c ∈ ds, (hexatoi c).toNat < base) : ∀ n k, n < base ^ k →
    digitsFrom base n ds < base ^ (k + ds.length) := by
  induction ds with
  | nil => exact fun _ _ h => h
  | cons c ds ih =>
    intro n k hn
    have hc := h c List.mem_cons_self
    have hstep : n * base + (hexatoi c).toNat < base ^ (k + 1) := by
      calc n * base + (hexatoi c).toNat < n * base + base := by omega
        _ = (n + 1) * base := by ring
        _ ≤ base ^ k * base := Nat.mul_le_mul_right base hn
        _ = base ^ (k + 1) := (pow_succ base k).symm
    have := ih (fun d hd => h d (List.mem_cons_of_mem c hd)) _ (k + 1) hstep
    rwa [show k + (c :: ds).length = k + 1 + ds.length by rw [List.length_cons]; omega]

theorem hexatoi_lt (c : UInt8) (h : isxdigit c = true) : (hexatoi c).toNat < 16 := by
  revert c
  decide +kernel

theorem numValue_hex_lt (h : HexDigits ds) : numValue 16 ds < 2 ^ 32 := by
  have hlt := digitsFrom_lt ds (fun c hc => hexatoi_lt c (h.2.2 c hc)) 0 0
    (by omega)
  calc numValue 16 ds < 16 ^ (0 + ds.length) := hlt
    _ ≤ 16 ^ 8 := Nat.pow_le_pow_right (by omega) (by have := h.2.1; omega)
    _ = 2 ^ 32 := by norm_num

/-! ### The loop -/

theorem toNat_succ (h : ctr.toNat + 1 < 256) : (ctr + 1).toNat = ctr.toNat + 1 := by
  rw [UInt8.toNat_add, UInt8.toNat_one]
  exact Nat.mod_eq_of_lt h

/-- Over a stretch of digits; the counter may end at 256, which is 0. -/
theorem stoliLoop_digits (val : CString) (digit : UInt8 → Bool) (base : UInt32) (fuel : Nat)
    (ds : List UInt8) : ∀ (ctr : UInt8) (addr : UInt32),
    (∀ c ∈ ds, c ≠ 0 ∧ digit c = true) → (∀ i, (h : i < ds.length) → val (ctr.toNat + i) = ds[i]) →
    ctr.toNat + ds.length ≤ 256 →
    stoliLoop val digit base (ds.length + fuel) ctr addr =
      stoliLoop val digit base fuel (ctr + UInt8.ofNat ds.length) (accumulate base addr ds) := by
  induction ds with
  | nil =>
    intro ctr addr _ _ _
    rw [List.length_nil, Nat.zero_add, show ctr + UInt8.ofNat 0 = ctr from UInt8.add_zero ctr]
    rfl
  | cons c ds ih =>
    intro ctr addr hds hval hle
    have h0 : val ctr.toNat = c := hval 0 (by simp)
    obtain ⟨hne, hdig⟩ := hds c List.mem_cons_self
    rw [List.length_cons] at hle ⊢
    rw [show ds.length + 1 + fuel = (ds.length + fuel) + 1 by omega, stoliLoop, h0, if_neg hne,
      if_pos hdig]
    have hofNat : ctr + 1 + UInt8.ofNat ds.length = ctr + UInt8.ofNat (ds.length + 1) := by
      rw [UInt8.ofNat_add, UInt8.add_assoc, UInt8.add_comm 1]
      rfl
    rw [ih (ctr + 1) _ (fun d hd => hds d (List.mem_cons_of_mem c hd)), hofNat]
    · rfl
    · intro i hi
      rw [toNat_succ (by omega), Nat.add_assoc, Nat.add_comm 1 i]
      exact hval (i + 1) (by simpa using hi)
    · by_cases hw : ctr.toNat + 1 < 256
      · rw [toNat_succ hw]
        omega
      · have := (ctr + 1).toNat_lt
        omega

/-- Where every place the counter reaches holds a digit, the loop has no end. -/
theorem stoliLoop_endless (h : ∀ i < 256, val i ≠ 0 ∧ digit (val i) = true) (fuel : Nat) :
    ∀ (ctr : UInt8) (addr : UInt32), stoliLoop val digit base fuel ctr addr = none := by
  induction fuel with
  | zero => exact fun _ _ => rfl
  | succ fuel ih =>
    intro ctr addr
    obtain ⟨hne, hdig⟩ := h ctr.toNat ctr.toNat_lt
    rw [stoliLoop, if_neg hne, if_pos hdig]
    exact ih _ _

/-- From place `p` up to the first character that is no digit, if the counter gets there. -/
theorem stoliLoop_scan (base : UInt32) (pre rest : List UInt8) (hds : (0 : UInt8) ∉ pre ++ rest)
    (hdig : ∀ c ∈ pre, digit c = true) (hstop : ∀ c ∈ rest.head?, digit c = false)
    (hval : ∀ i ≤ (pre ++ rest).length, val (p + i) = (pre ++ rest).getD i 0)
    (hlt : p + pre.length < 256) (fuel : Nat) (hfuel : 256 ≤ p + fuel) :
    stoliLoop val digit base (fuel + 1) (UInt8.ofNat p) 0 =
      some (if rest = [] then some (UInt8.ofNat (p + pre.length)) else none,
        accumulate base 0 pre) := by
  have hofNat : ∀ k < 256, (UInt8.ofNat k).toNat = k := fun k hk => by
    rw [UInt8.toNat_ofNat']
    exact Nat.mod_eq_of_lt hk
  have hpre : ∀ i, (h : i < pre.length) → val ((UInt8.ofNat p).toNat + i) = pre[i] := by
    intro i hi
    rw [hofNat p (by omega), hval i (by rw [List.length_append]; omega),
      List.getD_append _ _ _ _ hi, List.getD_eq_getElem pre 0 hi]
  obtain ⟨k, hk⟩ : ∃ k, fuel + 1 = pre.length + (k + 1) := ⟨fuel - pre.length, by omega⟩
  rw [hk, stoliLoop_digits val digit base (k + 1) pre _ 0 (fun c hc =>
      ⟨fun h0 => hds (h0 ▸ List.mem_append_left rest hc), hdig c hc⟩) hpre
    (by rw [hofNat p (by omega)]; omega), ← UInt8.ofNat_add, stoliLoop, hofNat _ hlt,
    hval _ (by rw [List.length_append]; omega), List.getD_append_right _ _ _ _ le_rfl, Nat.sub_self]
  cases rest with
  | nil => rfl
  | cons c rest =>
    have hne : c ≠ 0 := fun h0 => hds (h0 ▸ List.mem_append_right pre List.mem_cons_self)
    have hnot : digit c = false := hstop c rfl
    rw [List.getD_cons_zero, if_neg hne, if_neg (by rw [hnot]; simp),
      if_neg (List.cons_ne_nil c rest)]

/-- A string is its leading digits and a rest that does not go on with one. -/
theorem leading (digit : UInt8 → Bool) (ds : List UInt8) :
    ∃ rest, ds = ds.takeWhile digit ++ rest ∧ (∀ c ∈ ds.takeWhile digit, digit c = true) ∧
      ∀ c ∈ rest.head?, digit c = false := by
  refine ⟨ds.dropWhile digit, List.takeWhile_append_dropWhile.symm,
    fun c hc => List.mem_takeWhile_imp hc, fun c hc => ?_⟩
  have h := List.head?_dropWhile_not digit ds
  rw [Option.mem_def.mp hc] at h
  exact h

/-! ### The two notations -/

theorem stoli_decimal_bad (hmark : ¬ (val 1 = 0x78 ∨ val 1 = 0x58))
    (hloop : stoliLoop val isdigit 10 (256 + 1) (UInt8.ofNat 0) 0 = some (none, addr)) :
    stoli val = some (1, addr) := by
  rw [stoli, if_neg hmark]
  exact congrArg (Option.map _) hloop

theorem stoli_decimal_end (hmark : ¬ (val 1 = 0x78 ∨ val 1 = 0x58))
    (hloop : stoliLoop val isdigit 10 (256 + 1) (UInt8.ofNat 0) 0 = some (some ctr, addr)) :
    stoli val = some (if ctr > 12 then 1 else 0, addr) := by
  rw [stoli, if_neg hmark]
  exact congrArg (Option.map _) hloop

/-- Without an `x` in second place: a status for up to 255 leading digits. -/
theorem stoli_decimal (h : s.At val) (hmark : ¬ (val 1 = 0x78 ∨ val 1 = 0x58))
    (hlt : (s.text.takeWhile isdigit).length < 256) :
    stoli val = some (if (∀ c ∈ s.text, isdigit c = true) ∧ s.text.length ≤ 12 then 0 else 1,
      accumulate 10 0 (s.text.takeWhile isdigit)) := by
  obtain ⟨rest, htext, hdig, hstop⟩ := leading isdigit s.text
  have hval : ∀ i ≤ (s.text.takeWhile isdigit ++ rest).length,
      val (0 + i) = (s.text.takeWhile isdigit ++ rest).getD i 0 := by
    rw [← htext]
    exact fun i hi => (congrArg val (Nat.zero_add i)).trans (h i hi)
  have hloop := stoliLoop_scan 10 (s.text.takeWhile isdigit) rest (htext ▸ s.nul) hdig hstop hval
    (by omega) 256 (by omega)
  cases rest with
  | nil =>
    rw [List.append_nil] at htext
    have hall : ∀ c ∈ s.text, isdigit c = true := List.takeWhile_eq_self_iff.mp htext.symm
    rw [← htext] at hlt ⊢
    have hctr : (UInt8.ofNat (0 + s.text.length) > 12) ↔ ¬ s.text.length ≤ 12 := by
      rw [gt_iff_lt, UInt8.lt_iff_toNat_lt, UInt8.toNat_ofNat', Nat.zero_add,
        Nat.mod_eq_of_lt hlt, Nat.not_le]
      rfl
    rw [← htext, if_pos rfl] at hloop
    rw [stoli_decimal_end hmark hloop]
    by_cases hle : s.text.length ≤ 12
    · rw [if_neg fun hc => hctr.mp hc hle, if_pos (And.intro hall hle)]
    · rw [if_pos (hctr.mpr hle), if_neg fun hc : _ ∧ s.text.length ≤ 12 => hle hc.2]
  | cons c rest =>
    have hnot : ¬ ∀ d ∈ s.text, isdigit d = true := by
      intro hall
      have := hstop c rfl
      rw [hall c (htext ▸ List.mem_append_right _ List.mem_cons_self)] at this
      cases this
    rw [if_neg (List.cons_ne_nil c rest)] at hloop
    rw [stoli_decimal_bad hmark hloop, if_neg fun hc => hnot hc.1]

/-- With 256 leading digits it does not return. -/
theorem stoli_endless (h : s.At val) (hmark : ¬ (val 1 = 0x78 ∨ val 1 = 0x58))
    (hle : 256 ≤ (s.text.takeWhile isdigit).length) : stoli val = none := by
  obtain ⟨rest, htext, hdig, -⟩ := leading isdigit s.text
  have hall : ∀ i < 256, val i ≠ 0 ∧ isdigit (val i) = true := by
    intro i hi
    have hmem : val i ∈ s.text.takeWhile isdigit := by
      have hlen : (s.text.takeWhile isdigit).length ≤ s.text.length :=
        (List.takeWhile_sublist isdigit).length_le
      have hget : s.text.getD i 0 = (s.text.takeWhile isdigit).getD i 0 := by
        conv_lhs => rw [htext, List.getD_append _ _ _ _ (by omega)]
      rw [h i (by omega), hget, List.getD_eq_getElem _ 0 (by omega)]
      exact List.getElem_mem _
    exact ⟨fun h0 => s.nul (htext ▸ List.mem_append_left rest (h0 ▸ hmem)), hdig _ hmem⟩
  rw [stoli, if_neg hmark, stoliLoop_endless hall]
  rfl

/-- What is known with an `x` in second place. -/
structure Hex (val : CString) (c x : UInt8) (ds : List UInt8) : Prop where
  nul : (0 : UInt8) ∉ c :: x :: ds
  mark : x = 0x78 ∨ x = 0x58
  first : val 0 = c
  second : val 1 = x
  chars : ∀ i ≤ ds.length, val (2 + i) = ds.getD i 0

theorem CStr.At.hex {c x : UInt8} (h : s.At val) (htext : s.text = c :: x :: ds)
    (hx : x = 0x78 ∨ x = 0x58) : Hex val c x ds := by
  have hlen : s.text.length = ds.length + 2 := by rw [htext]; rfl
  refine ⟨htext ▸ s.nul, hx, ?_, ?_, fun i hi => ?_⟩
  · rw [h 0 (Nat.zero_le _), htext]
    rfl
  · rw [h 1 (by omega), htext]
    rfl
  · rw [h (2 + i) (by omega), htext, Nat.add_comm]
    rfl

variable {c x : UInt8}

theorem Hex.notMem (h : Hex val c x ds) : (0 : UInt8) ∉ ds := fun hm =>
  h.nul (List.mem_cons_of_mem c (List.mem_cons_of_mem x hm))

theorem Hex.stoli_bad (h : Hex val c x ds)
    (hloop : stoliLoop val isxdigit 16 (256 + 1) (UInt8.ofNat 2) 0 = some (none, addr)) :
    stoli val = some (1, addr) := by
  rw [stoli, if_pos (h.second ▸ h.mark), xdigit_fun]
  exact congrArg (Option.map _) hloop

theorem Hex.stoli_end (h : Hex val c x ds)
    (hloop : stoliLoop val isxdigit 16 (256 + 1) (UInt8.ofNat 2) 0 = some (some ctr, addr)) :
    stoli val = some (if ctr > 10 ∨ ctr = 2 then 1 else 0, addr) := by
  rw [stoli, if_pos (h.second ▸ h.mark), xdigit_fun]
  exact congrArg (Option.map _) hloop

theorem stoli_hex (h : Hex val c x ds) (hds : HexDigits ds) :
    stoli val = some (0, accumulate 16 0 ds) := by
  obtain ⟨hpos, hle, hdig⟩ := hds
  have hloop := stoliLoop_scan 16 ds [] (by rw [List.append_nil]; exact h.notMem) hdig
    (fun c hc => by cases hc) (by rw [List.append_nil]; exact h.chars) (by omega) 256 (by omega)
  have hctr : (UInt8.ofNat (2 + ds.length)).toNat = 2 + ds.length := by
    rw [UInt8.toNat_ofNat']
    exact Nat.mod_eq_of_lt (by omega)
  have hno : ¬ (UInt8.ofNat (2 + ds.length) > 10 ∨ UInt8.ofNat (2 + ds.length) = 2) := by
    rintro (hlt | heq)
    · have := UInt8.lt_iff_toNat_lt.mp hlt
      rw [hctr] at this
      have : (10 : UInt8).toNat = 10 := rfl
      omega
    · have : 2 + ds.length = 2 := hctr.symm.trans (congrArg UInt8.toNat heq)
      omega
  rw [if_pos rfl] at hloop
  rw [h.stoli_end hloop, if_neg hno]

/-- The counter runs over at the 254th digit, and the `x` in second place stops it then. -/
theorem Hex.wraps (h : Hex val c x ds) (hle : 254 ≤ (ds.takeWhile isxdigit).length) :
    ∃ addr, stoli val = some (1, addr) := by
  obtain ⟨rest, htext, hdig, -⟩ := leading isxdigit ds
  have hlen : (ds.takeWhile isxdigit).length ≤ ds.length :=
    (List.takeWhile_sublist isxdigit).length_le
  have htake : ∀ d ∈ ds.take 254, d ∈ ds.takeWhile isxdigit := by
    intro d hd
    rw [htext, List.take_append_of_le_length hle] at hd
    exact List.mem_of_mem_take hd
  have hloop := stoliLoop_digits val isxdigit 16 3 (ds.take 254) 2 0
    (fun d hd => ⟨fun h0 => h.notMem (h0 ▸ List.mem_of_mem_take hd), hdig d (htake d hd)⟩)
    (fun i hi => by
      rw [List.length_take] at hi
      rw [List.getElem_take, ← List.getD_eq_getElem ds 0 (by omega)]
      exact h.chars i (by omega))
    (by rw [List.length_take, Nat.min_eq_left (by omega)]; decide)
  have hl : (ds.take 254).length = 254 := by rw [List.length_take, Nat.min_eq_left (by omega)]
  rw [hl, show (2 : UInt8) + UInt8.ofNat 254 = 0 from rfl] at hloop
  have h0 : val (UInt8.toNat 0) ≠ 0 := fun he => h.nul (by
    rw [← h.first, show val 0 = 0 from he]
    exact List.mem_cons_self)
  have h1 : val (UInt8.toNat (0 + 1)) = x := h.second
  have hx : x ≠ 0 ∧ isxdigit x = false := by
    rcases h.mark with rfl | rfl
    · decide
    · decide
  have hend : ∀ addr, ∃ addr', stoliLoop val isxdigit 16 3 0 addr = some (none, addr') := by
    intro addr
    rw [stoliLoop, if_neg h0]
    by_cases hd : isxdigit (val (UInt8.toNat 0)) = true
    · rw [if_pos hd, stoliLoop, h1, if_neg hx.1, hx.2]
      exact ⟨_, rfl⟩
    · rw [if_neg hd]
      exact ⟨_, rfl⟩
  obtain ⟨addr, haddr⟩ := hend (accumulate 16 0 (ds.take 254))
  exact ⟨addr, h.stoli_bad (hloop.trans haddr)⟩

theorem stoli_hex_bad (h : Hex val c x ds) (hds : ¬ HexDigits ds) :
    ∃ addr, stoli val = some (1, addr) := by
  by_cases hlt : 2 + (ds.takeWhile isxdigit).length < 256
  · obtain ⟨rest, htext, hdig, hstop⟩ := leading isxdigit ds
    have hloop := stoliLoop_scan 16 (ds.takeWhile isxdigit) rest (htext ▸ h.notMem) hdig hstop
      (by rw [← htext]; exact h.chars) hlt 256 (by omega)
    cases rest with
    | cons d rest => exact ⟨_, h.stoli_bad hloop⟩
    | nil =>
      rw [List.append_nil] at htext
      rw [← htext] at hlt hloop
      refine ⟨accumulate 16 0 ds, ?_⟩
      have hctr : (UInt8.ofNat (2 + ds.length)).toNat = 2 + ds.length := by
        rw [UInt8.toNat_ofNat']
        exact Nat.mod_eq_of_lt hlt
      have hbad : UInt8.ofNat (2 + ds.length) > 10 ∨ UInt8.ofNat (2 + ds.length) = 2 := by
        by_cases h0 : ds.length = 0
        · exact Or.inr (by rw [h0]; rfl)
        · refine Or.inl (UInt8.lt_iff_toNat_lt.mpr ?_)
          have h8 : ¬ ds.length ≤ 8 := fun h8 =>
            hds ⟨by omega, h8, List.takeWhile_eq_self_iff.mp htext.symm⟩
          rw [hctr]
          show 10 < _
          omega
      rw [h.stoli_end hloop, if_pos hbad]
  · exact h.wraps (by omega)

/-! ### The language -/

theorem not_isdigit_mark (hx : x = 0x78 ∨ x = 0x58) : isdigit x = false := by
  rcases hx with rfl | rfl <;> decide

/-- Without the mark only a decimal number is a numeral. -/
theorem numeral_decimal (hmark : ¬ Marked l) (n : Nat) : Numeral l n ↔
    l ≠ [] ∧ (∀ c ∈ l, isdigit c = true) ∧ n = numValue 10 l ∧ n < 2 ^ 32 := by
  refine ⟨fun h => ?_, Or.inr⟩
  obtain ⟨x, ds, rfl, hx, -⟩ | h := h
  · exact absurd (by simpa [Marked] using hx) hmark
  · exact h

/-- With the mark only a hexadecimal number is one. -/
theorem numeral_hex (hx : x = 0x78 ∨ x = 0x58) (n : Nat) : Numeral (c :: x :: ds) n ↔
    c = 0x30 ∧ HexDigits ds ∧ n = numValue 16 ds := by
  constructor
  · rintro (⟨y, es, he, -, hds, hn⟩ | ⟨-, hall, -⟩)
    · cases he
      exact ⟨rfl, hds, hn⟩
    · have := hall x (by simp)
      rw [not_isdigit_mark hx] at this
      cases this
  · rintro ⟨rfl, hds, hn⟩
    exact Or.inl ⟨x, ds, rfl, hx, hds, hn⟩

theorem CStr.At.marked_iff (h : s.At val) (hne : s.text ≠ []) :
    Marked s.text ↔ val 1 = 0x78 ∨ val 1 = 0x58 := by
  cases hs : s.text with
  | nil => exact absurd hs hne
  | cons c l =>
    have h1 := h 1 (by rw [hs, List.length_cons]; omega)
    rw [h1, hs, List.getD_cons_succ]
    cases l with
    | nil => simp [Marked]
    | cons d l => simp [Marked]

theorem reads_hex (h : Hex val c x ds) :
    ReadsNumeral val (c :: x :: ds) ↔ c = 0x30 ∨ ¬ HexDigits ds := by
  by_cases hds : HexDigits ds
  · have hrun := stoli_hex h hds
    rw [or_iff_left (not_not.mpr hds)]
    constructor
    · rintro ⟨st, addr, hrun', hst, -⟩
      rw [hrun] at hrun'
      cases hrun'
      obtain ⟨n, hn⟩ := hst.mp rfl
      exact ((numeral_hex h.mark n).mp hn).1
    · rintro rfl
      refine ⟨0, _, hrun, iff_of_true rfl ⟨_, (numeral_hex h.mark _).mpr ⟨rfl, hds, rfl⟩⟩, ?_⟩
      intro n hn
      rw [((numeral_hex h.mark n).mp hn).2.2, accumulate_numValue]
      exact Nat.mod_eq_of_lt (numValue_hex_lt hds)
  · obtain ⟨addr, hrun⟩ := stoli_hex_bad h hds
    have hno : ∀ n, ¬ Numeral (c :: x :: ds) n := fun n hn =>
      hds ((numeral_hex h.mark n).mp hn).2.1
    exact iff_of_true ⟨1, addr, hrun, iff_of_false (by decide) fun ⟨n, hn⟩ => hno n hn,
      fun n hn => absurd hn (hno n)⟩ (Or.inr hds)

theorem reads_decimal (h : s.At val) (hne : s.text ≠ []) (hmark : ¬ Marked s.text) :
    ReadsNumeral val s.text ↔ (s.text.takeWhile isdigit).length < 256 ∧
      ((∀ c ∈ s.text, isdigit c = true) → (s.text.length ≤ 12 ↔ numValue 10 s.text < 2 ^ 32)) := by
  have hval : ¬ (val 1 = 0x78 ∨ val 1 = 0x58) := fun hx => hmark ((h.marked_iff hne).mpr hx)
  by_cases hlt : (s.text.takeWhile isdigit).length < 256
  · rw [and_iff_right hlt]
    have hrun := stoli_decimal h hval hlt
    by_cases hall : ∀ c ∈ s.text, isdigit c = true
    · rw [imp_iff_right hall]
      rw [List.takeWhile_eq_self_iff.mpr hall] at hrun
      have hnum : (∃ n, Numeral s.text n) ↔ numValue 10 s.text < 2 ^ 32 := by
        simp only [numeral_decimal hmark]
        exact ⟨fun ⟨n, _, _, hn, hlt⟩ => hn ▸ hlt, fun hlt => ⟨_, hne, hall, rfl, hlt⟩⟩
      have hst :
        (if (∀ c ∈ s.text, isdigit c = true) ∧ s.text.length ≤ 12 then (0 : UInt8) else 1) = 0 ↔
          s.text.length ≤ 12 := by
        by_cases hle : s.text.length ≤ 12
        · exact iff_of_true (if_pos ⟨hall, hle⟩) hle
        · refine iff_of_false ?_ hle
          rw [if_neg fun hc => hle hc.2]
          decide
      constructor
      · rintro ⟨st, addr, hrun', hiff, -⟩
        rw [hrun] at hrun'
        cases hrun'
        rw [← hst, hiff, hnum]
      · intro hiff
        refine ⟨_, _, hrun, by rw [hst, hiff, hnum], fun n hn => ?_⟩
        obtain ⟨-, -, rfl, hlt⟩ := (numeral_decimal hmark n).mp hn
        rw [accumulate_numValue]
        exact Nat.mod_eq_of_lt hlt
    · rw [if_neg fun hc => hall hc.1] at hrun
      have hno : ∀ n, ¬ Numeral s.text n := fun n hn => hall ((numeral_decimal hmark n).mp hn).2.1
      exact iff_of_true ⟨1, _, hrun, iff_of_false (by decide) fun ⟨n, hn⟩ => hno n hn,
        fun n hn => absurd hn (hno n)⟩ fun h => absurd h hall
  · refine iff_of_false ?_ fun hc => hlt hc.1
    rintro ⟨st, addr, hrun, -⟩
    rw [stoli_endless h hval (Nat.not_lt.mp hlt)] at hrun
    cases hrun

/-- Whatever lies behind a string in memory, `stoli` returns and reads exactly the numerals,
if and only if the string is one of those. -/
theorem stoli_reads_iff (s : CStr) :
    (∀ val, s.At val → ReadsNumeral val s.text) ↔ Readable s.text := by
  have hex : s.At (cstring s.text) := fun i _ => rfl
  by_cases hne : s.text = []
  · -- the empty string, with a NUL behind it, is read as 0
    refine iff_of_false (fun h => ?_) fun h => h.1 hne
    obtain ⟨st, addr, hrun, hst, -⟩ := h _ hex
    have hzero : stoli (cstring []) = some (0, 0) := by decide +kernel
    rw [hne, hzero] at hrun
    cases hrun
    obtain ⟨n, hn⟩ := hst.mp rfl
    rw [hne] at hn
    obtain ⟨x, ds, he, -⟩ | hn := hn
    · cases he
    · exact hn.1 rfl
  · by_cases hmark : Marked s.text
    · obtain ⟨c, x, ds, htext, hx⟩ : ∃ c x ds, s.text = c :: x :: ds ∧ (x = 0x78 ∨ x = 0x58) := by
        match hl : s.text, hne, hmark with
        | [_], _, hm => exact absurd hm (by simp [Marked])
        | c :: x :: ds, _, hm => exact ⟨c, x, ds, rfl, by simpa [Marked] using hm⟩
      rw [Readable, if_pos hmark, htext, and_iff_right (List.cons_ne_nil _ _)]
      have hgoal : ((c :: x :: ds)[0]? = some 0x30 ∨ ¬ HexDigits ((c :: x :: ds).drop 2)) ↔
          (c = 0x30 ∨ ¬ HexDigits ds) := by simp
      rw [hgoal]
      exact ⟨fun h => (reads_hex (hex.hex htext hx)).mp (h _ hex),
        fun h val hval => (reads_hex (hval.hex htext hx)).mpr h⟩
    · rw [Readable, if_neg hmark, and_iff_right hne]
      exact ⟨fun h => (reads_decimal hex hne hmark).mp (h _ hex),
        fun h val hval => (reads_decimal hval hne hmark).mpr h⟩

/-- The empty string is read, as 0, with a NUL in second place behind it. -/
theorem stoli_reads_empty : stoli (cstring []) = some (0, 0) ∧ ¬ ReadsNumeral (cstring []) [] := by
  have hzero : stoli (cstring []) = some (0, 0) := by decide +kernel
  refine ⟨hzero, ?_⟩
  rintro ⟨st, addr, hrun, hst, -⟩
  rw [hzero] at hrun
  cases hrun
  obtain ⟨n, hn⟩ := hst.mp rfl
  obtain ⟨x, ds, he, -⟩ | hn := hn
  · cases he
  · exact hn.1 rfl

end Console
