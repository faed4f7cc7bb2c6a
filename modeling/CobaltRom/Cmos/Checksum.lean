import CobaltRom.Lib.Along
import CobaltRom.Cmos.Monitor

/-! Which operations keep the checksum. -/
namespace Cmos

/-- Bank 2 is selected, and the board is none on which bank 0 is forced. -/
def Machine.away (m : Machine) : Bool := m.bank2 && m.boardtype ≠ .monterey

/-- What `cmos_read_byte` finds from `CMOS_CKS_START` on. -/
def Machine.view (m : Machine) (i : Nat) : UInt8 :=
  if m.away = true ∧ 0x40 ≤ i then m.rtc.apc i else m.rtc.ram i

/-- Only bytes below `CMOS_CKS_START` may differ, and the same bank is seen. -/
structure Kept (m m' : Machine) : Prop where
  away : m'.away = m.away
  view : ∀ i, cmosCksStart ≤ i → m'.view i = m.view i

variable {m m' m'' : Machine} {i : Nat} {v : UInt8}

theorem Kept.refl (m : Machine) : Kept m m := ⟨rfl, fun _ _ => rfl⟩

theorem Kept.trans (h : Kept m m') (h' : Kept m' m'') : Kept m m'' :=
  ⟨h'.away.trans h.away, fun i hi => (h'.view i hi).trans (h.view i hi)⟩

instance : Std.Refl Kept := ⟨Kept.refl⟩

instance : IsTrans Machine Kept := ⟨fun _ _ _ => Kept.trans⟩

theorem index_toNat : ∀ i, i ≤ 0x7f → (UInt8.ofNat i &&& 0x7f).toNat = i := by decide

theorem away_congr (hs : m'.systype = m.systype) (hb : m'.boardtype = m.boardtype)
    (hc : m'.rtc.ram pnpNsRtcCra = m.rtc.ram pnpNsRtcCra) : m'.away = m.away := by
  simp only [Machine.away, Machine.bank2, hs, hb, hc]

/-! ### The ports -/

/-- Behind an index below 0x40 there is bank 0 whatever is selected. -/
theorem low_reg (m : Machine) (hi : i < 0x40) : ¬ ((m.outb (UInt8.ofNat i) 0x70).bank2 = true ∧
    0x40 ≤ (m.outb (UInt8.ofNat i) 0x70).reg) := by
  rintro ⟨-, h⟩
  have hreg : (m.outb (UInt8.ofNat i) 0x70).reg = i := index_toNat i (by omega)
  omega

theorem inb_low (m : Machine) (hi : i < 0x40) :
    (m.outb (UInt8.ofNat i) 0x70).inb 0x71 = m.rtc.ram i := by
  rw [Machine.inb, if_pos rfl, if_neg (low_reg m hi)]
  exact congrArg m.rtc.ram (index_toNat i (by omega))

theorem outb_low (m : Machine) (hi : i < 0x40) (v : UInt8) :
    (m.outb (UInt8.ofNat i) 0x70).outb v 0x71 =
      { m with rtc := { m.rtc with
        index := UInt8.ofNat i, ram := Function.update m.rtc.ram i v } } := by
  rw [Machine.outb, if_pos rfl, if_neg (low_reg m hi),
    show (m.outb (UInt8.ofNat i) 0x70).reg = i from index_toNat i (by omega)]
  rfl

theorem forceBank0_run (m : Machine) : forceBank0.run m = ((), if m.boardtype = .monterey then
    { m with rtc := { m.rtc with
      index := UInt8.ofNat 0x0a
      ram := Function.update m.rtc.ram 0x0a ((m.rtc.ram 0x0a &&& 0x8f) ||| 0x20) } }
    else m) := by
  by_cases hb : m.boardtype = .monterey
  · rw [if_pos hb]
    have hrun : forceBank0.run m = ((), (m.outb (UInt8.ofNat 0x0a) 0x70).outb
        (((m.outb (UInt8.ofNat 0x0a) 0x70).inb 0x71 &&& 0x8f) ||| 0x20) 0x71) := by
      unfold forceBank0
      change (if m.boardtype = .monterey then _ else _ : RomM Unit).run m = _
      rw [if_pos hb]
      rfl
    rw [hrun, inb_low m (i := 0x0a) (by decide), outb_low m (i := 0x0a) (by decide)]
  · rw [if_neg hb]
    unfold forceBank0
    change (if m.boardtype = .monterey then _ else _ : RomM Unit).run m = _
    rw [if_neg hb]
    rfl

theorem bank_bits (x : UInt8) : ((x &&& 0x8f) ||| 0x20) &&& 0x70 = 0x20 := by
  have h : ∀ b : BitVec 8, ((b &&& 0x8f) ||| 0x20) &&& 0x70 = 0x20 := by decide
  exact UInt8.toBitVec_inj.1 (h x.toBitVec)

theorem away_monterey (hb : m.boardtype = .monterey) : m.away = false := by
  rw [Machine.away, hb]
  simp

theorem view_eq_ram (h : m.away = false) : m.view = m.rtc.ram := by
  funext i
  rw [Machine.view, h]
  simp

/-- After forcing bank 0 the selected bank is the one in view. -/
theorem forceBank0_kept (m : Machine) : Kept m (forceBank0.run m).2 ∧
    (forceBank0.run m).2.bank2 = m.away := by
  rw [forceBank0_run]
  by_cases hb : m.boardtype = .monterey
  · simp only [if_pos hb]
    have haway := away_monterey hb
    have haway' : ∀ r : Rtc, { m with rtc := r }.away = false := fun r => away_monterey hb
    refine ⟨⟨?_, ?_⟩, ?_⟩
    · rw [haway, haway']
    · intro i hi
      rw [view_eq_ram haway, view_eq_ram (haway' _)]
      exact Function.update_of_ne (by simp only [cmosCksStart] at hi; omega) _ _
    · rw [haway, Machine.bank2]
      simp [pnpNsRtcCra, Function.update_self, bank_bits, pnpNsRtcBank2]
  · simp only [if_neg hb]
    refine ⟨Kept.refl m, ?_⟩
    rw [Machine.away]
    simp [hb]

theorem cmosReadByte_run (hi : i ≤ 0x7f) (m : Machine) : (cmosReadByte i).run m =
    (((forceBank0.run m).2.outb (UInt8.ofNat i) 0x70).inb 0x71,
      (forceBank0.run m).2.outb (UInt8.ofNat i) 0x70) := by
  unfold cmosReadByte
  rw [if_neg (by simp only [cmosInfoMax]; omega)]
  rfl

theorem cmosWriteByte_run (hi : i ≤ 0x7f) (m : Machine) : (cmosWriteByte i v).run m =
    (0, ((forceBank0.run m).2.outb (UInt8.ofNat i) 0x70).outb v 0x71) := by
  unfold cmosWriteByte
  rw [if_neg (by simp only [cmosInfoMax]; omega)]
  rfl

/-! ### Single bytes -/

theorem index_kept (m : Machine) (v : UInt8) : Kept m (m.outb v 0x70) ∧
    (m.outb v 0x70).bank2 = m.bank2 :=
  ⟨⟨rfl, fun _ _ => rfl⟩, rfl⟩

/-- Port 0x71 shows the byte in view. -/
theorem inb_view (h : m.bank2 = m.away) (hi : i ≤ 0x7f) :
    (m.outb (UInt8.ofNat i) 0x70).inb 0x71 = m.view i := by
  have hreg : (m.outb (UInt8.ofNat i) 0x70).reg = i := index_toNat i hi
  rw [Machine.inb, if_pos rfl, hreg, (index_kept m _).2, h, Machine.view]
  rfl

theorem cmosReadByte_spec (hi : i ≤ 0x7f) (hlow : cmosCksStart ≤ i) (m : Machine) :
    ∃ m', (cmosReadByte i).run m = (m.view i, m') ∧ Kept m m' := by
  obtain ⟨hk, hb⟩ := forceBank0_kept m
  refine ⟨(forceBank0.run m).2.outb (UInt8.ofNat i) 0x70, ?_,
    hk.trans (index_kept _ (UInt8.ofNat i)).1⟩
  rw [cmosReadByte_run hi, inb_view (hb.trans hk.away.symm) hi, hk.view i hlow]

/-- `m'` is `m` but for the byte in view at `i`. -/
structure Wrote (m : Machine) (i : Nat) (v : UInt8) (m' : Machine) : Prop where
  away : m'.away = m.away
  view : ∀ j, cmosCksStart ≤ j → m'.view j = Function.update m.view i v j

theorem outb_wrote (h : m.bank2 = m.away) (hi : i ≤ 0x7f) (hlow : cmosCksStart ≤ i) (v : UInt8) :
    Wrote m i v ((m.outb (UInt8.ofNat i) 0x70).outb v 0x71) := by
  have hreg : (m.outb (UInt8.ofNat i) 0x70).reg = i := index_toNat i hi
  rw [Machine.outb, if_pos rfl, hreg, (index_kept m _).2, h]
  by_cases ha : m.away = true ∧ 0x40 ≤ i
  · rw [if_pos ha]
    refine ⟨rfl, fun j _ => ?_⟩
    change (if m.away = true ∧ 0x40 ≤ j then Function.update m.rtc.apc i v j else m.rtc.ram j) = _
    by_cases hj : j = i
    · subst hj
      rw [if_pos ha, Function.update_self, Function.update_self]
    · rw [Function.update_of_ne hj, Function.update_of_ne hj]
      rfl
  · rw [if_neg ha]
    have hcra : Function.update m.rtc.ram i v pnpNsRtcCra = m.rtc.ram pnpNsRtcCra :=
      Function.update_of_ne
      (by simp only [cmosCksStart] at hlow; simp only [pnpNsRtcCra]; omega) _ _
    have haway : Machine.away ⟨m.systype, m.boardtype, m.version, ⟨UInt8.ofNat i,
        Function.update m.rtc.ram i v, m.rtc.apc⟩, m.ports, m.glob⟩ = m.away :=
      away_congr rfl rfl hcra
    refine ⟨haway, fun j _ => ?_⟩
    change (if Machine.away ⟨m.systype, m.boardtype, m.version, ⟨UInt8.ofNat i,
        Function.update m.rtc.ram i v, m.rtc.apc⟩, m.ports, m.glob⟩ = true ∧ 0x40 ≤ j then
      m.rtc.apc j else Function.update m.rtc.ram i v j) = _
    rw [haway]
    by_cases hj : j = i
    · rw [hj, if_neg ha, Function.update_self, Function.update_self]
    · rw [Function.update_of_ne hj, Function.update_of_ne hj]
      rfl

theorem cmosWriteByte_spec (hi : i ≤ 0x7f) (hlow : cmosCksStart ≤ i) (v : UInt8) (m : Machine) :
    ∃ m', (cmosWriteByte i v).run m = (0, m') ∧ Wrote m i v m' := by
  obtain ⟨hk, hb⟩ := forceBank0_kept m
  have hw := outb_wrote (hb.trans hk.away.symm) hi hlow v
  refine ⟨_, cmosWriteByte_run hi m, hw.away.trans hk.away, fun j hj => ?_⟩
  rw [hw.view j hj]
  by_cases hji : j = i
  · rw [hji, Function.update_self, Function.update_self]
  · rw [Function.update_of_ne hji, Function.update_of_ne hji, hk.view j hj]

theorem Wrote.view_self (h : Wrote m i v m') (hlow : cmosCksStart ≤ i) : m'.view i = v := by
  rw [h.view i hlow, Function.update_self]

theorem Wrote.view_ne {j : Nat} (h : Wrote m i v m') (hlow : cmosCksStart ≤ j) (hj : j ≠ i) :
    m'.view j = m.view j := by
  rw [h.view j hlow, Function.update_of_ne hj]

/-! ### The checksum -/

/-- The sum over the indices that count, of the bytes `f` has there. -/
def cksSum (f : Nat → UInt8) : List Nat → UInt16 → UInt16
  | [], sum => sum
  | i :: is, sum =>
    if i = cmosChecksum ∨ i = cmosChecksum + 1 then cksSum f is sum
    else cksSum f is (sum + (f i).toUInt16)

/-- The checksum in view is that of the bytes in view. -/
def Machine.Valid (m : Machine) : Prop :=
  (cksSum m.view cksRange 0).toNat =
    (m.view cmosChecksum).toNat <<< 8 ||| (m.view (cmosChecksum + 1)).toNat

instance (m : Machine) : Decidable m.Valid :=
  inferInstanceAs (Decidable (_ = _))

variable {f f' : Nat → UInt8} {is is' : List Nat} {sum : UInt16}

theorem cksSum_congr (h : ∀ i ∈ is, i ≠ cmosChecksum → i ≠ cmosChecksum + 1 → f i = f' i) :
    cksSum f is sum = cksSum f' is sum := by
  induction is generalizing sum with
  | nil => rfl
  | cons i is ih =>
    have ih' : ∀ s, cksSum f is s = cksSum f' is s :=
      fun s => ih fun j hj => h j (List.mem_cons_of_mem _ hj)
    simp only [cksSum]
    by_cases hi : i = cmosChecksum ∨ i = cmosChecksum + 1
    · rw [if_pos hi, if_pos hi, ih']
    · rw [if_neg hi, if_neg hi, ih', h i List.mem_cons_self (fun e => hi (.inl e))
        (fun e => hi (.inr e))]

theorem mem_cksRange (h : i ∈ cksRange) : cmosCksStart ≤ i ∧ i ≤ 0x7f := by
  obtain ⟨hle, hlt⟩ := List.mem_range'_1.1 h
  exact ⟨hle, Nat.le_of_lt_succ hlt⟩

theorem sumBytes_spec (his : ∀ i ∈ is, cmosCksStart ≤ i ∧ i ≤ 0x7f) (sum : UInt16) (m : Machine) :
    ∃ m', (sumBytes is sum).run m = (cksSum m.view is sum, m') ∧ Kept m m' := by
  induction is generalizing sum m with
  | nil => exact ⟨m, rfl, Kept.refl m⟩
  | cons i is ih =>
    have his' : ∀ j ∈ is, cmosCksStart ≤ j ∧ j ≤ 0x7f := fun j hj =>
      his j (List.mem_cons_of_mem _ hj)
    unfold sumBytes cksSum
    by_cases hi : i = cmosChecksum ∨ i = cmosChecksum + 1
    · rw [if_pos hi, if_pos hi]
      exact ih his' sum m
    · rw [if_neg hi, if_neg hi]
      obtain ⟨hlow, hle⟩ := his i List.mem_cons_self
      obtain ⟨m₁, hr₁, hk₁⟩ := cmosReadByte_spec hle hlow m
      obtain ⟨m₂, hr₂, hk₂⟩ := ih his' (sum + (m.view i).toUInt16) m₁
      refine ⟨m₂, ?_, hk₁.trans hk₂⟩
      have hview : cksSum m₁.view is (sum + (m.view i).toUInt16) =
          cksSum m.view is (sum + (m.view i).toUInt16) :=
        cksSum_congr fun j hj _ _ => hk₁.view j (his' j hj).1
      rw [hview] at hr₂
      rw [run_bind_of hr₁]
      exact hr₂

theorem Kept.cksSum_eq (h : Kept m m') : cksSum m'.view cksRange 0 = cksSum m.view cksRange 0 :=
  cksSum_congr fun i hi _ _ => h.view i (mem_cksRange hi).1

theorem Kept.valid_iff (h : Kept m m') : m'.Valid ↔ m.Valid := by
  rw [Machine.Valid, Machine.Valid, h.cksSum_eq, h.view cmosChecksum (by decide),
    h.view (cmosChecksum + 1) (by decide)]

theorem cmosCheckChecksum_spec (m : Machine) :
    ∃ m', cmosCheckChecksum.run m = (decide m.Valid, m') ∧ Kept m m' := by
  obtain ⟨m₁, hr₁, hk₁⟩ := sumBytes_spec (fun _ => mem_cksRange) 0 m
  obtain ⟨m₂, hr₂, hk₂⟩ := cmosReadByte_spec (i := cmosChecksum) (by decide) (by decide) m₁
  obtain ⟨m₃, hr₃, hk₃⟩ := cmosReadByte_spec (i := cmosChecksum + 1) (by decide) (by decide) m₂
  refine ⟨m₃, ?_, (hk₁.trans hk₂).trans hk₃⟩
  rw [(hk₁.trans hk₂).view _ (by decide)] at hr₃
  rw [hk₁.view _ (by decide)] at hr₂
  unfold cmosCheckChecksum
  rw [run_bind_of hr₁, run_bind_of hr₂, run_bind_of hr₃]
  rfl

theorem halves (s : UInt16) :
    s.toNat = (s >>> 8).toUInt8.toNat <<< 8 ||| (s &&& 0xff).toUInt8.toNat := by
  have hhi : (s >>> 8).toUInt8.toNat = s.toNat / 256 := by
    have := s.toNat_lt
    simp [UInt16.toNat_shiftRight, Nat.shiftRight_eq_div_pow]
    omega
  have hlo : (s &&& 0xff).toUInt8.toNat = s.toNat % 256 := by
    have : s.toNat % 256 &&& 255 = s.toNat % 256 % 2 ^ 8 := Nat.and_two_pow_sub_one_eq_mod _ 8
    simp [this]
  rw [hhi, hlo, ← Nat.shiftLeft_add_eq_or_of_lt (by omega), Nat.shiftLeft_eq]
  omega

/-- Whatever was there, the checksum is right after it has been set. -/
theorem cmosSetChecksum_spec (m : Machine) : (cmosSetChecksum.run m).2.Valid ∧
    (cmosSetChecksum.run m).2.away = m.away := by
  obtain ⟨m₁, hr₁, hk₁⟩ := sumBytes_spec (fun _ => mem_cksRange) 0 m
  obtain ⟨m₂, hr₂, hw₂⟩ := cmosWriteByte_spec (i := cmosChecksum) (by decide) (by decide)
    (cksSum m.view cksRange 0 >>> 8).toUInt8 m₁
  obtain ⟨m₃, hr₃, hw₃⟩ := cmosWriteByte_spec (i := cmosChecksum + 1) (by decide) (by decide)
    (cksSum m.view cksRange 0 &&& 0xff).toUInt8 m₂
  have hend : (cmosSetChecksum.run m).2 = m₃ := by
    unfold cmosSetChecksum
    rw [run_bind_of hr₁, run_bind_of hr₂, run_bind_of hr₃]
    rfl
  have hsum : cksSum m₃.view cksRange 0 = cksSum m.view cksRange 0 := by
    rw [← hk₁.cksSum_eq]
    refine cksSum_congr fun i hi h₁ h₂ => ?_
    rw [hw₃.view_ne (mem_cksRange hi).1 h₂, hw₂.view_ne (mem_cksRange hi).1 h₁]
  rw [hend]
  refine ⟨?_, hw₃.away.trans (hw₂.away.trans hk₁.away)⟩
  rw [Machine.Valid, hsum, hw₃.view_ne (by decide) (by decide), hw₂.view_self (by decide),
    hw₃.view_self (by decide)]
  exact halves _

end Cmos
