import CobaltRom.Cmos.Repair

/-! The format version of the CMOS after `cmos_init`. -/
namespace Cmos

variable {α β : Type} {m m' m'' : Machine} {i k : Nat} {v : UInt8}

/-! ### The first boot and the bytes it leaves alone -/

/-- A byte of bank 0. -/
def SameLow (k : Nat) (m m' : Machine) : Prop := m'.rtc.ram k = m.rtc.ram k

instance : Std.Refl (SameLow k) := ⟨fun _ => rfl⟩

instance : IsTrans Machine (SameLow k) := ⟨fun _ _ _ h h' => Eq.trans h' h⟩

/-- Behind the clock and below the boot method. -/
structure Low (k : Nat) : Prop where
  covered : Covered k
  lt : k < cmosBootMethod

theorem view_low (h : k < 0x40) (m : Machine) : m.view k = m.rtc.ram k :=
  if_neg fun hc => absurd hc.2 (Nat.not_le.mpr h)

theorem along_low {p : RomM α} (hk : Low k) (h : Along (SameAt k) p) : Along (SameLow k) p := by
  intro m
  have := (h m).view
  have hlt : k < 0x40 := Nat.lt_of_lt_of_le hk.lt (by decide)
  rwa [view_low hlt, view_low hlt] at this

theorem outb_ports_low {port : Nat} (h : port ≠ 0x70) (h' : port ≠ 0x71) :
    Along (SameLow k) (outb v port) :=
  fun m => congrArg (fun r : Rtc => r.ram k) (outb_other m h h').1

theorem outb_pair_low (hi : i ≤ 0x7f) (hne : k ≠ i) (n : Machine) (v : UInt8) :
    SameLow k n ((n.outb (UInt8.ofNat i) 0x70).outb v 0x71) := by
  have hreg : (n.outb (UInt8.ofNat i) 0x70).reg = i := index_toNat i hi
  rw [SameLow, Machine.outb, if_pos rfl, hreg]
  split
  · rfl
  · exact Function.update_of_ne hne _ _

theorem setReg_low {p : RomM α} (hi : i ≤ 0x7f) (hne : k ≠ i) (v : UInt8)
    (hp : Along (SameLow k) p) :
    Along (SameLow k) (do
      outb (UInt8.ofNat i) cmosAddrPort
      outb v cmosDataPort
      p) :=
  fun m => (hp _).trans (outb_pair_low hi hne m v)

theorem cmosSetPowerapply_low (state : Bool) : Along (SameLow k) (cmosSetPowerapply state) :=
  .bind (.bind .get fun _ => .pure _) fun _ => .ite (fun _ => .bind (fun _ => rfl)
    fun _ => outb_ports_low (by decide) (by decide)) fun _ => .pure _

theorem cmosSetPowerfail_low (hk : Low k) (state : Bool) :
    Along (SameLow k) (cmosSetPowerfail state) := by
  intro m
  have hcra : k ≠ pnpNsRtcCra := Nat.ne_of_gt (Nat.lt_of_lt_of_le (by decide) hk.covered.low)
  have hapc : k ≠ pnpNsApcr6 := Nat.ne_of_lt (Nat.lt_of_lt_of_le hk.lt (by decide))
  have hcond : systypeIs5k.run m = (decide (m.systype = .s5000), m) := rfl
  unfold cmosSetPowerfail
  rw [run_bind_of hcond]
  by_cases h : m.systype = .s5000
  · rw [decide_eq_true h, if_pos rfl]
    exact (outb_pair_low (by decide) hcra _ _).trans ((outb_pair_low (by decide) hapc _ _).trans
      (outb_pair_low (by decide) hcra m _))
  · rw [decide_eq_false h, if_neg Bool.false_ne_true]
    rfl

theorem clearWake_low (ks : List UInt8) : Along (SameLow k) (clearWake ks) := by
  induction ks with
  | nil => exact .pure _
  | cons j js ih =>
    exact .bind (outb_ports_low (by decide) (by decide)) fun _ =>
      .bind (outb_ports_low (by decide) (by decide)) fun _ => ih

theorem ne_clock (hk : Low k) (hi : i < cmosCksStart) : k ≠ i :=
  Nat.ne_of_gt (Nat.lt_of_lt_of_le hi hk.covered.low)

theorem rtcBeginSet_low (hk : Low k) : Along (SameLow k) rtcBeginSet :=
  fun m => outb_pair_low (i := 0x0b) (by decide) (ne_clock hk (by decide)) m _

theorem rtcEndSet_low (hk : Low k) : Along (SameLow k) rtcEndSet :=
  fun m => outb_pair_low (i := 0x0b) (by decide) (ne_clock hk (by decide)) m _

theorem writeRegs_low (hk : Low k) (vs : List UInt8) (h : i + vs.length ≤ cmosCksStart) :
    Along (SameLow k) (writeRegs (UInt8.ofNat i) vs) := by
  induction vs generalizing i with
  | nil => exact .pure _
  | cons v vs ih =>
    rw [List.length_cons] at h
    have hi : i < cmosCksStart := by omega
    have hnext : UInt8.ofNat i + 1 = UInt8.ofNat (i + 1) := by simp
    refine setReg_low (Nat.le_trans (Nat.le_of_lt hi) (by decide)) (ne_clock hk hi) v ?_
    rw [hnext]
    exact ih (by omega)

theorem rtcSetDefaults_low (hk : Low k) : Along (SameLow k) rtcSetDefaults :=
  .bind (rtcBeginSet_low hk) fun _ => .bind (.bind (rtcBeginSet_low hk) fun _ =>
    .bind (writeRegs_low (i := 0) hk defaultVals (by decide)) fun _ => rtcEndSet_low hk) fun _ =>
      setReg_low (i := 0x0a) (by decide) (ne_clock hk (by decide)) _ <|
        setReg_low (i := 0x0b) (by decide) (ne_clock hk (by decide)) _ <|
          setReg_low (i := 0x0d) (by decide) (ne_clock hk (by decide)) _ (rtcEndSet_low hk)

theorem cmosWriteByte_low (hk : Low k) (hi : cmosBootMethod ≤ i) (hle : i ≤ 0x7f) (v : UInt8) :
    Along (SameLow k) (cmosWriteByte i v) :=
  along_low hk (cmosWriteByte_at hk.covered.low (Nat.le_trans (by decide) hi) hle
    (Nat.ne_of_lt (Nat.lt_of_lt_of_le hk.lt hi)) v)

theorem writeBytes_low (hk : Low k) (hi : cmosBootMethod ≤ i) (vs : List UInt8)
    (hle : i + vs.length ≤ 0x80) : Along (SameLow k) (writeBytes i vs) :=
  along_low hk (writeBytes_at hk.covered.low (Nat.le_trans (by decide) hi) vs hle
    (Or.inl (Nat.lt_of_lt_of_le hk.lt hi)))

theorem Low.checksum (hk : Low k) : Along (SameLow k) cmosSetChecksum :=
  along_low hk hk.covered.checksum_at

theorem cmosFirstBootDefaultsOnly_low (hk : Low k) (resetSn : Int32) :
    Along (SameLow k) (cmosFirstBootDefaultsOnly resetSn) := by
  have hend : Along (SameLow k) (do
      let _ ← cmosWriteByte cmosBootMethod cmosBootMethodNnet
      if (← boardtype) = .alpine then clearWake ((List.range 0x20).map UInt8.ofNat)
      cmosSetChecksum) :=
    .bind (cmosWriteByte_low hk (by decide) (by decide) _) fun _ =>
      .bind (.bind .get fun _ => .pure _) fun _ =>
        .ite (fun _ => .bind (clearWake_low _) fun _ => hk.checksum) fun _ => hk.checksum
  unfold cmosFirstBootDefaultsOnly
  refine .bind (writeBytes_low hk (by decide) _ (by decide)) fun _ => ?_
  refine .bind (writeBytes_low hk (by decide) _ (by decide)) fun _ => ?_
  refine .bind (writeBytes_low hk (by decide) _ (by decide)) fun _ => ?_
  refine .ite (fun _ => .bind ?_ fun _ => hend) fun _ => hend
  exact .bind (writeBytes_low hk (by decide) _ (by decide)) fun _ =>
    .bind (cmosWriteByte_low hk (by decide) (by decide) _) fun _ => hk.checksum

/-- `cmos_set_defaults` behind the flags. -/
def defaultsTail : RomM Unit := do
  let _ ← cmosWriteByte cmosBootMethod cmosBootMethodDisk
  let _ ← cmosWriteByte cmosBootType cmosBootTypeDef
  let maj : UInt8 := if ← systypeIs3k then 0x03 else 0x09
  let min : UInt8 := 0x01
  let _ ← cmosWriteByte cmosBootDevMaj maj
  let _ ← cmosWriteByte cmosBootDevMin min
  let _ ← cmosWriteByte cmosRootDevMaj maj
  let _ ← cmosWriteByte cmosRootDevMin min
  cmosSetPowerapply false
  cmosSetPowerfail false
  writeBytes cmosBtoIp0 [0, 0, 0, 0]
  let _ ← cmosWriteByte cmosBtoIpCsum 0
  cmosSetChecksum

theorem defaultsTail_low (hk : Low k) : Along (SameLow k) defaultsTail := by
  refine .bind (cmosWriteByte_low hk (by decide) (by decide) _) fun _ => ?_
  refine .bind (cmosWriteByte_low hk (by decide) (by decide) _) fun _ => ?_
  refine .bind (.bind .get fun _ => .pure _) fun _ => ?_
  refine .bind (cmosWriteByte_low hk (by decide) (by decide) _) fun _ => ?_
  refine .bind (cmosWriteByte_low hk (by decide) (by decide) _) fun _ => ?_
  refine .bind (cmosWriteByte_low hk (by decide) (by decide) _) fun _ => ?_
  refine .bind (cmosWriteByte_low hk (by decide) (by decide) _) fun _ => ?_
  refine .bind (cmosSetPowerapply_low _) fun _ => .bind (cmosSetPowerfail_low hk _) fun _ => ?_
  exact .bind (writeBytes_low hk (by decide) _ (by decide)) fun _ =>
    .bind (cmosWriteByte_low hk (by decide) (by decide) _) fun _ => hk.checksum

/-- Up to the version flag `cmos_set_defaults` writes flags only. -/
theorem cmosSetDefaults_run (m : Machine) : ∃ n, (cmosSetDefaults.run m).2 =
    (defaultsTail.run ((cmosWriteFlag cmosVersionFlag 1).run n).2).2 ∧
      SameLow cmosVersionByte m n := by
  have hcov : Covered cmosVersionByte := ⟨by decide, by decide, by decide⟩
  have hk : Low cmosVersionByte := ⟨hcov, by decide⟩
  have hbyte : ∀ i, cmosCksStart ≤ i → i ≤ 0x7f → cmosVersionByte ≠ i →
      Along (SameLow cmosVersionByte) (cmosWriteByte i 0) := fun i hlow hi hne =>
    along_low hk (cmosWriteByte_at hcov.low hlow hi hne 0)
  have hflag : ∀ flag, Along (SameLow cmosVersionByte) (cmosWriteFlag flag 1) := fun flag =>
    along_low hk (cmosWriteFlag_at hcov (by decide) (by decide) flag 1)
  obtain ⟨_, m₁, hr₁, h₁⟩ := (hbyte cmosFlagByte0 (by decide) (by decide) (by decide)).run_eq m
  obtain ⟨_, m₂, hr₂, h₂⟩ := (hbyte cmosFlagByte1 (by decide) (by decide) (by decide)).run_eq m₁
  obtain ⟨_, m₃, hr₃, h₃⟩ := (hflag cmosConsoleFlag).run_eq m₂
  obtain ⟨_, m₄, hr₄, h₄⟩ := (hflag cmosDebugFlag).run_eq m₃
  obtain ⟨_, m₅, hr₅, h₅⟩ := (hflag cmosCleanBootFlag).run_eq m₄
  refine ⟨m₅, ?_, h₅.trans (h₄.trans (h₃.trans (h₂.trans h₁)))⟩
  unfold cmosSetDefaults defaultsTail
  rw [run_bind_of hr₁, run_bind_of hr₂, run_bind_of hr₃, run_bind_of hr₄, run_bind_of hr₅,
    run_bind_snd]

/-- The first boot sets the version flag and leaves the version as it was. -/
theorem doFirstBoot_version (m : Machine) :
    SameLow cmosVersionByte m (doFirstBoot.run m).2 ∧ (doFirstBoot.run m).2.Versioned := by
  have hver : Low cmosVersionByte := ⟨⟨by decide, by decide, by decide⟩, by decide⟩
  have hflag : Low cmosFlagByte0 := ⟨⟨by decide, by decide, by decide⟩, by decide⟩
  have hrest : ∀ {k}, Low k → ∀ n, SameLow k n (rtcSetDefaults.run
      ((cmosFirstBootDefaultsOnly 1).run (defaultsTail.run n).2).2).2 := fun hk n =>
    ((rtcSetDefaults_low hk _).trans (cmosFirstBootDefaultsOnly_low hk 1 _)).trans
      (defaultsTail_low hk n)
  obtain ⟨n, hrun, hn⟩ := cmosSetDefaults_run m
  have hset := cmosWriteFlag_version n
  have hw : SameLow cmosVersionByte n ((cmosWriteFlag cmosVersionFlag 1).run n).2 :=
    along_low hver (cmosWriteFlag_at hver.covered (by decide) (by decide) cmosVersionFlag 1) n
  unfold doFirstBoot
  rw [run_bind_snd, run_bind_snd, hrun]
  refine ⟨(hrest hver _).trans (hw.trans hn), Versioned.congr hset ?_⟩
  rw [view_low (by decide), view_low (by decide)]
  exact hrest hflag _

/-! ### The version -/

/-- The version is zeroed, brought up to date or kept. -/
theorem initHead_version (m : Machine) : (initHead.run m).2.view cmosVersionByte =
    if m.Versioned ∧ cmosVersionCurrent ≤ m.view cmosVersionByte then m.view cmosVersionByte
    else cmosVersionCurrent := by
  obtain ⟨f, hrun⟩ := initHead_run m
  obtain ⟨m₁, hm₁⟩ : ∃ n, ((cmosWriteByte cmosBiosDriveInfo 0).run m).2 = n := ⟨_, rfl⟩
  obtain ⟨m₂, hm₂⟩ : ∃ n, (cmosWriteRomRev.run m₁).2 = n := ⟨_, rfl⟩
  obtain ⟨m₃, hm₃⟩ : ∃ n, (initVersion.run m₂).2 = n := ⟨_, rfl⟩
  obtain ⟨m₄, hm₄⟩ : ∃ n, (initVariables.run m₃).2 = n := ⟨_, rfl⟩
  obtain ⟨m₅, hm₅⟩ : ∃ n, (updateVersion.run m₄).2 = n := ⟨_, rfl⟩
  obtain ⟨m₆, hm₆⟩ : ∃ n, (initBtoIp.run m₅).2 = n := ⟨_, rfl⟩
  rw [hm₁, hm₂, hm₃, hm₄, hm₅, hm₆] at hrun
  have hvalid₂ : m₂.Valid := by
    rw [← hm₂]
    exact (cmosWriteRomRev_spec m₁).1
  have hver₅ := (version_block hvalid₂ hm₃ hm₄ hm₅).2.2
  have hstart : ∀ k, Covered k → k ≠ cmosBiosDriveInfo → (k < cmosRomRevMaj ∨ cmosRomRevRev < k) →
      m₂.view k = m.view k := by
    intro k hk hne hrev
    have h₁ : SameAt k m m₁ := hm₁ ▸ cmosWriteByte_at hk.low (by decide) (by decide) hne 0 m
    have h₂ : SameAt k m₁ m₂ := hm₂ ▸ cmosWriteRomRev_at hk hrev m₁
    rw [h₂.view, h₁.view]
  have hcov : Covered cmosVersionByte := ⟨by decide, by decide, by decide⟩
  have h₆ : SameAt cmosVersionByte m₅ m₆ := hm₆ ▸ initBtoIp_at hcov (by decide) m₅
  have hkept := (cmosReadSerialNum_kept m₆).trans (setGlob_kept f _)
  have hset : m₂.Versioned ↔ m.Versioned := by
    rw [Machine.Versioned, Machine.Versioned,
      hstart cmosFlagByte0 ⟨by decide, by decide, by decide⟩ (by decide) (by decide)]
  rw [hrun, hkept.view _ (by decide), h₆.view, hver₅, hstart _ hcov (by decide) (by decide)]
  simp only [hset]

theorem cmosInit_version (m : Machine) : (cmosInit.run m).2.rtc.ram cmosVersionByte =
    if (m.Valid → m.Versioned) ∧ cmosVersionCurrent ≤ m.rtc.ram cmosVersionByte then
      m.rtc.ram cmosVersionByte
    else cmosVersionCurrent := by
  obtain ⟨m₁, hr₁, hk₁⟩ := cmosCheckChecksum_spec m
  have hview := view_low (k := cmosVersionByte) (by decide)
  have hsync : ∀ n, ((cmosFlagsSync false).run n).2.rtc = n.rtc := fun _ => rfl
  have hbyte := hk₁.view cmosVersionByte (by decide)
  unfold cmosInit
  rw [run_bind_of hr₁]
  by_cases hv : m.Valid
  · rw [decide_eq_true hv, Bool.not_true, if_neg Bool.false_ne_true, run_bind_snd, initSettings_run,
      hsync, ← hview, initHead_version]
    have hk := hk₁.trans (setGlob_kept (fun g => { g with firstBoot := 0 }) m₁)
    have hset : ((setGlob fun g => { g with firstBoot := 0 }).run m₁).2.Versioned ↔
        m.Versioned := by
      rw [Machine.Versioned, Machine.Versioned, hk.view _ (by decide)]
    simp only [hset, hk.view cmosVersionByte (by decide), hview m, hv, true_imp_iff]
  · rw [decide_eq_false hv, Bool.not_false, if_pos rfl, run_bind_snd, run_bind_snd, run_bind_snd,
      initSettings_run, hsync, ← hview, initHead_version]
    obtain ⟨n, hn⟩ : ∃ n, ((setGlob fun g => { g with firstBoot := 1 }).run m₁).2 = n := ⟨_, rfl⟩
    have hn₁ : n.view cmosVersionByte = m.view cmosVersionByte := by
      rw [← hn]
      exact ((setGlob_kept _ m₁).view _ (by decide)).trans hbyte
    obtain ⟨hsame, hset⟩ := doFirstBoot_version n
    have hcks : ∀ {k}, Covered k → (cmosSetChecksum.run (doFirstBoot.run n).2).2.view k =
        (doFirstBoot.run n).2.view k := fun hk => (hk.checksum_at _).view
    have hcov : Covered cmosVersionByte := ⟨by decide, by decide, by decide⟩
    have hver : (cmosSetChecksum.run (doFirstBoot.run n).2).2.view cmosVersionByte =
        m.rtc.ram cmosVersionByte := by
      rw [hcks hcov, hview, hsame, ← hview, hn₁, hview]
    have hset' : (cmosSetChecksum.run (doFirstBoot.run n).2).2.Versioned :=
      Versioned.congr hset (hcks ⟨by decide, by decide, by decide⟩)
    rw [hn]
    simp only [hset', hver, true_and, hv, false_imp_iff]

theorem not_valid_of_check (h : (cmosCheckChecksum.run m).1 = false) : ¬ m.Valid := by
  obtain ⟨m₁, hr₁, -⟩ := cmosCheckChecksum_spec m
  rw [hr₁] at h
  exact of_decide_eq_false h

/-- What the initialisation should bring up to date. -/
def Machine.Stale (m : Machine) : Prop :=
  (cmosCheckChecksum.run m).1 = false ∨ ((cmosReadFlag cmosVersionFlag).run m).1 = 0 ∨
    m.rtc.ram cmosVersionByte < cmosVersionCurrent

/-- The first boot sets the version flag but not the version: a version byte above the current
one stays behind a wrong checksum. -/
theorem cmosInit_current_iff (m : Machine) :
    (m.Stale → (cmosInit.run m).2.rtc.ram cmosVersionByte = cmosVersionCurrent) ↔
      (cmosCheckChecksum.run m).1 = true ∨ m.rtc.ram cmosVersionByte ≤ cmosVersionCurrent := by
  obtain ⟨m₁, hr₁, -⟩ := cmosCheckChecksum_spec m
  obtain ⟨m₂, hr₂, -⟩ := cmosReadFlag_version m
  rw [Machine.Stale, hr₁, hr₂, cmosInit_version]
  by_cases hv : m.Valid
  · refine iff_of_true ?_ (Or.inl (decide_eq_true hv))
    rintro (h | h | h)
    · exact absurd h (by simp [hv])
    · have hno : ¬ m.Versioned := fun hset => absurd h (by
        rw [if_pos hset]
        exact one_ne_zero)
      rw [if_neg fun hc => hno (hc.1 hv)]
    · rw [if_neg fun hc => absurd hc.2 (UInt8.not_le.mpr h)]
  · have hfalse : decide m.Valid = false := decide_eq_false hv
    have hif : (if (m.Valid → m.Versioned) ∧ cmosVersionCurrent ≤ m.rtc.ram cmosVersionByte then
        m.rtc.ram cmosVersionByte else cmosVersionCurrent) = cmosVersionCurrent ↔
        m.rtc.ram cmosVersionByte ≤ cmosVersionCurrent := by
      by_cases hcur : cmosVersionCurrent ≤ m.rtc.ram cmosVersionByte
      · rw [if_pos ⟨fun h => absurd h hv, hcur⟩]
        exact ⟨fun h => h ▸ UInt8.le_refl _, fun h => UInt8.le_antisymm h hcur⟩
      · rw [if_neg fun h => hcur h.2]
        exact iff_of_true rfl (UInt8.le_of_lt (UInt8.not_le.mp hcur))
    constructor
    · exact fun h => Or.inr (hif.mp (h (Or.inl hfalse)))
    · rintro (h | h) -
      · exact absurd (hfalse.symm.trans h) Bool.false_ne_true
      · exact hif.mpr h

/-- A board of the 3000 series with a version byte of 2 and a wrong checksum. -/
def garbage : Machine :=
  { blank with rtc := ⟨0, Function.update (fun _ => 0) cmosVersionByte 2, fun _ => 0⟩ }

theorem cmosInit_keeps_garbage : garbage.Stale ∧
    (cmosInit.run garbage).2.rtc.ram cmosVersionByte ≠ cmosVersionCurrent := by
  have hsum : (cmosCheckChecksum.run garbage).1 = false := by decide +kernel
  refine ⟨Or.inl hsum, ?_⟩
  have hv : ¬ garbage.Valid := not_valid_of_check hsum
  rw [cmosInit_version]
  have hram : garbage.rtc.ram cmosVersionByte = 2 := rfl
  have hle : cmosVersionCurrent ≤ garbage.rtc.ram cmosVersionByte := by
    rw [hram]
    decide
  rw [if_pos ⟨fun h => absurd h hv, hle⟩, hram]
  decide

end Cmos
