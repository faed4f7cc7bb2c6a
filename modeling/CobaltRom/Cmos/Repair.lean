import CobaltRom.Cmos.Init

/-! `cmos_init` repairs the CMOS, and a second `cmos_init` finds nothing to repair. -/
namespace Cmos

def Machine.BtoIpValid (m : Machine) : Prop :=
  m.view cmosBtoIp0 + m.view (cmosBtoIp0 + 1) + m.view (cmosBtoIp0 + 2) + m.view (cmosBtoIp0 + 3) =
    m.view cmosBtoIpCsum

/-- What `cmos_init` would leave as it is. -/
structure Ready (m : Machine) : Prop where
  forced : m.Forced
  valid : m.Valid
  drive : m.view cmosBiosDriveInfo = 0
  revMaj : m.view cmosRomRevMaj = m.version.1
  revMin : m.view cmosRomRevMin = m.version.2.1
  revRev : m.view cmosRomRevRev = m.version.2.2
  versioned : m.Versioned
  current : cmosVersionCurrent ≤ m.view cmosVersionByte
  btoIp : m.BtoIpValid

variable {α : Type} {m m' : Machine} {i k : Nat} {v : UInt8}

/-! ### The version flag -/

theorem and_bit (x : BitVec 8) : x &&& 2#8 = 0 ↔ x.getLsbD 1 = false := by
  constructor
  · intro h
    simpa using congrArg (fun y : BitVec 8 => y.getLsbD 1) h
  · intro h
    ext i hi
    interval_cases i <;> simp
    simpa using h

theorem and_bit_wide (x : BitVec 32) : x &&& 0x200#32 = 0 ↔ x.getLsbD 9 = false := by
  constructor
  · intro h
    simpa using congrArg (fun y : BitVec 32 => y.getLsbD 9) h
  · intro h
    ext i hi
    interval_cases i <;> simp
    simpa using h

/-- The flag is bit 1 of the byte that is read into the high half. -/
theorem flags_and_version (b1 b0 : UInt8) :
    (b1.toUInt32 ||| b0.toUInt32 <<< 8).toInt32 &&& cmosVersionFlag = 0 ↔ b0 &&& 2 = 0 := by
  have hwide : (b1.toUInt32 ||| b0.toUInt32 <<< 8).toInt32 &&& cmosVersionFlag = 0 ↔
      (b1.toBitVec.setWidth 32 ||| b0.toBitVec.setWidth 32 <<< 8) &&& 0x200#32 = 0 := by
    rw [← Int32.toBitVec_inj]
    rfl
  have hbyte : b0 &&& 2 = 0 ↔ b0.toBitVec &&& 2#8 = 0 := by
    rw [← UInt8.toBitVec_inj]
    rfl
  rw [hwide, hbyte, and_bit, and_bit_wide]
  simp

theorem flags_or_version (b1 b0 : UInt8) :
    (((b1.toUInt32 ||| b0.toUInt32 <<< 8).toInt32 ||| cmosVersionFlag).toUInt32 >>> 8).toUInt8 =
      b0 ||| 2 := by
  apply UInt8.toBitVec_inj.1
  have hbits : (((b1.toUInt32 ||| b0.toUInt32 <<< 8).toInt32 |||
      cmosVersionFlag).toUInt32 >>> 8).toUInt8.toBitVec =
      (((b1.toBitVec.setWidth 32 ||| b0.toBitVec.setWidth 32 <<< 8) |||
        0x200#32) >>> 8).setWidth 8 :=
    rfl
  rw [hbits]
  ext i hi
  simp
  interval_cases i <;> simp

theorem cmosReadAllFlags_spec (m : Machine) : ∃ m', cmosReadAllFlags.run m =
    (((m.view cmosFlagByte1).toUInt32 ||| (m.view cmosFlagByte0).toUInt32 <<< 8).toInt32, m') ∧
      Kept m m' := by
  obtain ⟨m₁, hr₁, hk₁⟩ := cmosReadByte_spec (i := cmosFlagByte1) (by decide) (by decide) m
  obtain ⟨m₂, hr₂, hk₂⟩ := cmosReadByte_spec (i := cmosFlagByte0) (by decide) (by decide) m₁
  refine ⟨m₂, ?_, hk₁.trans hk₂⟩
  rw [hk₁.view _ (by decide)] at hr₂
  unfold cmosReadAllFlags
  rw [run_bind_of hr₁, run_bind_of hr₂]
  rfl

theorem cmosReadFlag_version (m : Machine) : ∃ m', (cmosReadFlag cmosVersionFlag).run m =
    (if m.Versioned then 1 else 0, m') ∧ Kept m m' := by
  obtain ⟨m', hr, hk⟩ := cmosReadAllFlags_spec m
  refine ⟨m', ?_, hk⟩
  unfold cmosReadFlag
  rw [if_neg (by decide), run_bind_of hr]
  have hiff := not_congr (flags_and_version (m.view cmosFlagByte1) (m.view cmosFlagByte0))
  by_cases h : m.Versioned
  · rw [if_pos h, if_pos (hiff.mpr h)]
    rfl
  · rw [if_neg h, if_neg fun hc => h (hiff.mp hc)]
    rfl

/-- Setting the flag sets its bit and the checksum. -/
theorem cmosWriteFlag_version (m : Machine) :
    ((cmosWriteFlag cmosVersionFlag 1).run m).2.Versioned := by
  obtain ⟨m₀, hr₀, -⟩ := cmosReadAllFlags_spec m
  unfold cmosWriteFlag
  rw [if_neg (by decide), run_bind_of hr₀, if_pos (by decide), run_bind_snd]
  obtain ⟨m₁, hr₁, -⟩ := cmosWriteByte_spec (i := cmosFlagByte1) (by decide) (by decide)
    ((((m.view cmosFlagByte1).toUInt32 ||| (m.view cmosFlagByte0).toUInt32 <<< 8).toInt32 |||
      cmosVersionFlag).toUInt32.toUInt8) m₀
  obtain ⟨m₂, hr₂, hw₂⟩ := cmosWriteByte_spec (i := cmosFlagByte0) (by decide) (by decide)
    ((((m.view cmosFlagByte1).toUInt32 ||| (m.view cmosFlagByte0).toUInt32 <<< 8).toInt32 |||
      cmosVersionFlag).toUInt32 >>> 8).toUInt8 m₁
  have hend : ((cmosWriteAllFlags (((m.view cmosFlagByte1).toUInt32 |||
      (m.view cmosFlagByte0).toUInt32 <<< 8).toInt32 ||| cmosVersionFlag)).run m₀).2 =
      (cmosSetChecksum.run m₂).2 := by
    unfold cmosWriteAllFlags
    rw [run_bind_of hr₁, run_bind_of hr₂]
  have hcov : Covered cmosFlagByte0 := ⟨by decide, by decide, by decide⟩
  rw [run_pure_snd, hend, Machine.Versioned, (hcov.checksum_at m₂).view, hw₂.view_self (by decide),
    flags_or_version]
  have hbits : ∀ b : BitVec 8, (b ||| 2) &&& 2 ≠ 0 := by decide
  exact fun h => hbits _ (congrArg UInt8.toBitVec h)

/-! ### The version -/

theorem initVersion_set (h : m.Versioned) : (initVersion.run m).1 = () ∧
    Kept m (initVersion.run m).2 ∧ (m.Forced → SameBytes m (initVersion.run m).2) := by
  obtain ⟨m', hr, hk⟩ := cmosReadFlag_version m
  have hq := cmosReadFlag_quiet cmosVersionFlag m
  rw [hr] at hq
  unfold initVersion
  rw [run_bind_of hr, if_pos h, if_neg (by decide)]
  exact ⟨rfl, hk, hq⟩

theorem initVersion_clear (h : ¬ m.Versioned) : (initVersion.run m).2.Versioned ∧
    (initVersion.run m).2.view cmosVersionByte = 0 := by
  obtain ⟨m₁, hr₁, -⟩ := cmosReadFlag_version m
  unfold initVersion
  rw [run_bind_of hr₁, if_neg h, if_pos rfl, run_bind_snd, run_bind_snd, run_pure_snd]
  obtain ⟨m₃, hr₃, hw₃⟩ := cmosWriteByte_spec (i := cmosVersionByte) (by decide) (by decide) 0
    ((cmosWriteFlag cmosVersionFlag 1).run m₁).2
  rw [hr₃]
  refine ⟨?_, hw₃.view_self (by decide)⟩
  rw [Machine.Versioned, hw₃.view_ne (by decide) (by decide)]
  exact cmosWriteFlag_version m₁

theorem initVariables_version (m : Machine) :
    (initVariables.run m).2.glob.cmosVersion = m.view cmosVersionByte := by
  obtain ⟨a₁, m₁, hr₁, hk₁⟩ := (cmosReadFlag_kept cmosConsoleFlag).run_eq m
  obtain ⟨a₂, m₂, hr₂, hk₂⟩ := (cmosReadFlag_kept cmosDebugFlag).run_eq m₁
  obtain ⟨a₃, m₃, hr₃, hk₃⟩ := (cmosReadFlag_kept cmosCleanBootFlag).run_eq m₂
  obtain ⟨a₄, m₄, hr₄, hk₄⟩ := (cmosReadFlag_kept cmosNologoFlag).run_eq m₃
  obtain ⟨a₅, m₅, hr₅, hk₅⟩ := (cmosReadFlag_kept cmosAutoPromptFlag).run_eq m₄
  obtain ⟨a₆, m₆, hr₆, hk₆⟩ := (cmosReadFlag_kept cmosUniqueFlag).run_eq m₅
  obtain ⟨a₇, m₇, hr₇, hk₇⟩ := (cmosReadFlag_kept cmosSysfaultFlag).run_eq m₆
  obtain ⟨a₈, m₈, hr₈, hk₈⟩ := (cmosReadByte_kept cmosBootMethod).run_eq m₇
  obtain ⟨m₉, hr₉, -⟩ := cmosReadByte_spec (i := cmosVersionByte) (by decide) (by decide) m₈
  have hview : m₈.view cmosVersionByte = m.view cmosVersionByte :=
    (hk₁.trans (hk₂.trans (hk₃.trans (hk₄.trans (hk₅.trans (hk₆.trans
      (hk₇.trans hk₈))))))).view _ (by decide)
  unfold initVariables
  rw [run_bind_of hr₁, run_bind_of hr₂, run_bind_of hr₃, run_bind_of hr₄, run_bind_of hr₅,
    run_bind_of hr₆, run_bind_of hr₇, run_bind_of hr₈, run_bind_of hr₉, hview]
  rfl

theorem initVariables_kept : Along Kept initVariables :=
  initVariables_along cmosReadFlag_kept cmosReadByte_kept setGlob_kept

theorem initVariables_quiet : Along Quiet initVariables :=
  initVariables_along cmosReadFlag_quiet cmosReadByte_quiet setGlob_quiet

theorem get_run (m : Machine) : (get : RomM Machine).run m = (m, m) := rfl

theorem updateVersion_current (h : cmosVersionCurrent ≤ m.glob.cmosVersion) :
    updateVersion.run m = ((), m) := by
  unfold updateVersion
  rw [run_bind_of (get_run m), if_neg (UInt8.not_lt.mpr h)]
  rfl

theorem updateVersion_old (h : m.glob.cmosVersion < cmosVersionCurrent) :
    (updateVersion.run m).2.Valid ∧
      (updateVersion.run m).2.view cmosVersionByte = cmosVersionCurrent ∧
      (m.Versioned → (updateVersion.run m).2.Versioned) := by
  have hrun : ∃ n, (updateVersion.run m).2 = (cmosSetChecksum.run n).2 ∧
      n.view cmosVersionByte = cmosVersionCurrent ∧
      n.view cmosFlagByte0 = m.view cmosFlagByte0 := by
    have hcode : m.glob.cmosVersion < cmosVerBtocode := h
    obtain ⟨m₁, hr₁, hv₁⟩ := writeBytes_spec (k := cmosBtoCode0) [0, 0, 0, 0] (by decide)
      (by decide) m
    obtain ⟨m₂, hr₂, hw₂⟩ := cmosWriteByte_spec (i := cmosVersionByte) (by decide) (by decide)
      cmosVersionCurrent m₁
    refine ⟨((setGlob fun g => { g with cmosVersion := cmosVersionCurrent }).run m₂).2, ?_,
      hw₂.view_self (by decide), (hw₂.view_ne (by decide) (by decide)).trans ?_⟩
    · unfold updateVersion
      rw [run_bind_of (get_run m), if_pos h, if_pos hcode, run_bind_of hr₁, run_bind_of hr₂]
      exact run_bind_snd _ _ _
    · rw [hv₁ _ (by decide), if_neg (by decide)]
  obtain ⟨n, hn, hver, hflag⟩ := hrun
  have hcov : ∀ {k}, Covered k → ((cmosSetChecksum.run n).2).view k = n.view k :=
    fun hk => (hk.checksum_at n).view
  rw [hn]
  refine ⟨repairs_cmosSetChecksum n, (hcov ⟨by decide, by decide, by decide⟩).trans
    hver, fun hm => ?_⟩
  rw [Machine.Versioned, hcov ⟨by decide, by decide, by decide⟩, hflag]
  exact hm

/-- The version byte is kept if the flag says that it counts and it is not too old. -/
theorem version_block {m₁ m₂ m₃ : Machine} (hv : m.Valid) (h₁ : (initVersion.run m).2 = m₁)
    (h₂ : (initVariables.run m₁).2 = m₂) (h₃ : (updateVersion.run m₂).2 = m₃) :
    m₃.Valid ∧ m₃.Versioned ∧ m₃.view cmosVersionByte =
      if m.Versioned ∧ cmosVersionCurrent ≤ m.view cmosVersionByte then m.view cmosVersionByte
      else cmosVersionCurrent := by
  have hk₂ : Kept m₁ m₂ := h₂ ▸ initVariables_kept m₁
  have hver : m₂.glob.cmosVersion = m₁.view cmosVersionByte := h₂ ▸ initVariables_version m₁
  have hset₂ : m₁.Versioned → m₂.Versioned := by
    intro h
    rw [Machine.Versioned, hk₂.view _ (by decide)]
    exact h
  by_cases hset : m.Versioned
  · have hk₁ : Kept m m₁ := h₁ ▸ (initVersion_set hset).2.1
    have hset₁ : m₁.Versioned := by
      rw [Machine.Versioned, hk₁.view _ (by decide)]
      exact hset
    rw [hk₁.view _ (by decide)] at hver
    by_cases hcur : cmosVersionCurrent ≤ m.view cmosVersionByte
    · rw [if_pos ⟨hset, hcur⟩]
      rw [updateVersion_current (by rw [hver]; exact hcur)] at h₃
      rw [← h₃]
      refine ⟨hk₂.valid_iff.mpr (hk₁.valid_iff.mpr hv), hset₂ hset₁, ?_⟩
      rw [hk₂.view _ (by decide), hk₁.view _ (by decide)]
    · rw [if_neg fun h => hcur h.2]
      obtain ⟨hvalid, hbyte, hflag⟩ := updateVersion_old (by rw [hver]; exact UInt8.not_le.mp hcur)
      rw [h₃] at hvalid hbyte hflag
      exact ⟨hvalid, hflag (hset₂ hset₁), hbyte⟩
  · rw [if_neg fun h => hset h.1]
    obtain ⟨hset₁, hzero⟩ := initVersion_clear hset
    rw [h₁] at hset₁ hzero
    obtain ⟨hvalid, hbyte, hflag⟩ := updateVersion_old (by rw [hver, hzero]; decide)
    rw [h₃] at hvalid hbyte hflag
    exact ⟨hvalid, hflag (hset₂ hset₁), hbyte⟩

/-! ### The address of the BTO server -/

/-- The five bytes are read; they are kept if they fit together and else set to 0. -/
theorem initBtoIp_cases (m : Machine) :
    m.BtoIpValid ∧ Kept m (initBtoIp.run m).2 ∧ (m.Forced → SameBytes m (initBtoIp.run m).2) ∨
      ¬ m.BtoIpValid ∧ (initBtoIp.run m).2.Valid ∧ (initBtoIp.run m).2.BtoIpValid := by
  obtain ⟨m₀, hr₀, hk₀⟩ := cmosReadByte_spec (i := cmosBtoIp0) (by decide) (by decide) m
  obtain ⟨m₁, hr₁, hk₁⟩ := cmosReadByte_spec (i := cmosBtoIp0 + 1) (by decide) (by decide) m₀
  obtain ⟨m₂, hr₂, hk₂⟩ := cmosReadByte_spec (i := cmosBtoIp0 + 2) (by decide) (by decide) m₁
  obtain ⟨m₃, hr₃, hk₃⟩ := cmosReadByte_spec (i := cmosBtoIp0 + 3) (by decide) (by decide) m₂
  obtain ⟨m₄, hr₄, hk₄⟩ := cmosReadByte_spec (i := cmosBtoIpCsum) (by decide) (by decide) m₃
  have hk₀₁ := hk₀.trans hk₁
  have hk₀₂ := hk₀₁.trans hk₂
  have hk₀₃ := hk₀₂.trans hk₃
  rw [hk₀.view _ (by decide)] at hr₁
  rw [hk₀₁.view _ (by decide)] at hr₂
  rw [hk₀₂.view _ (by decide)] at hr₃
  rw [hk₀₃.view _ (by decide)] at hr₄
  unfold initBtoIp
  rw [run_bind_of hr₀, run_bind_of hr₁, run_bind_of hr₂, run_bind_of hr₃, run_bind_of hr₄]
  by_cases h : m.BtoIpValid
  · refine Or.inl ⟨h, ?_⟩
    have hquiet : m.Forced → SameBytes m m₄ := by
      intro hm
      have h₀ := (cmosReadByte_quiet _).of_run hr₀ hm
      have h₁ := h₀.trans ((cmosReadByte_quiet _).of_run hr₁ (h₀.forced hm))
      have h₂ := h₁.trans ((cmosReadByte_quiet _).of_run hr₂ (h₁.forced hm))
      have h₃ := h₂.trans ((cmosReadByte_quiet _).of_run hr₃ (h₂.forced hm))
      exact h₃.trans ((cmosReadByte_quiet _).of_run hr₄ (h₃.forced hm))
    have heq := h
    rw [Machine.BtoIpValid] at heq
    rw [if_neg (not_not.mpr heq)]
    exact ⟨(hk₀₃.trans hk₄).trans (setGlob_kept _ m₄),
      fun hm => (hquiet hm).trans (setGlob_quiet _ m₄ ((hquiet hm).forced hm))⟩
  · refine Or.inr ⟨h, ?_⟩
    obtain ⟨m₅, hr₅, hv₅⟩ := writeBytes_spec (k := cmosBtoIp0) [0, 0, 0, 0] (by decide)
      (by decide) m₄
    obtain ⟨m₆, hr₆, hw₆⟩ := cmosWriteByte_spec (i := cmosBtoIpCsum) (by decide) (by decide) 0 m₅
    have hne := h
    rw [Machine.BtoIpValid] at hne
    rw [if_pos hne, run_bind_of hr₅, run_bind_of hr₆, run_bind_snd]
    have hkept := setGlob_kept (fun g => { g with btoIp := 0 }) (cmosSetChecksum.run m₆).2
    have hzero : ∀ k, Covered k → cmosBtoIp0 ≤ k → k < cmosBtoIp0 + 4 →
        (cmosSetChecksum.run m₆).2.view k = 0 := by
      intro k hk hlo hhi
      rw [(hk.checksum_at m₆).view,
        hw₆.view_ne hk.low (Nat.ne_of_gt (Nat.lt_of_lt_of_le (by decide) hlo)),
        hv₅ k hk.low, if_pos ⟨hlo, hhi⟩]
      have : k - cmosBtoIp0 < 4 := Nat.sub_lt_left_of_lt_add hlo hhi
      interval_cases k - cmosBtoIp0 <;> rfl
    have hcsum : (cmosSetChecksum.run m₆).2.view cmosBtoIpCsum = 0 := by
      have hk : Covered cmosBtoIpCsum := ⟨by decide, by decide, by decide⟩
      rw [(hk.checksum_at m₆).view, hw₆.view_self (by decide)]
    refine ⟨hkept.valid_iff.mpr (repairs_cmosSetChecksum m₆), ?_⟩
    rw [Machine.BtoIpValid, hkept.view _ (by decide), hkept.view _ (by decide),
      hkept.view _ (by decide), hkept.view _ (by decide), hkept.view _ (by decide), hcsum,
      hzero _ ⟨by decide, by decide, by decide⟩ (by decide) (by decide),
      hzero _ ⟨by decide, by decide, by decide⟩ (by decide) (by decide),
      hzero _ ⟨by decide, by decide, by decide⟩ (by decide) (by decide),
      hzero _ ⟨by decide, by decide, by decide⟩ (by decide) (by decide)]
    rfl

/-! ### The first `cmos_init` -/

theorem Ready.congr (h : Ready m) (hs : SameBytes m m') : Ready m' where
  forced := hs.forced h.forced
  valid := by
    rw [Machine.Valid, funext hs.view]
    exact h.valid
  drive := by rw [hs.view, h.drive]
  revMaj := by rw [hs.view, hs.version, h.revMaj]
  revMin := by rw [hs.view, hs.version, h.revMin]
  revRev := by rw [hs.view, hs.version, h.revRev]
  versioned := by
    rw [Machine.Versioned, hs.view]
    exact h.versioned
  current := by rw [hs.view]; exact h.current
  btoIp := by
    rw [Machine.BtoIpValid, funext hs.view]
    exact h.btoIp

theorem cmosWriteRomRev_spec (m : Machine) : (cmosWriteRomRev.run m).2.Valid ∧
    (cmosWriteRomRev.run m).2.view cmosRomRevMaj = m.version.1 ∧
    (cmosWriteRomRev.run m).2.view cmosRomRevMin = m.version.2.1 ∧
    (cmosWriteRomRev.run m).2.view cmosRomRevRev = m.version.2.2 := by
  obtain ⟨m₁, hr₁, hw₁⟩ := cmosWriteByte_spec (i := cmosRomRevMaj) (by decide) (by decide)
    m.version.1 m
  obtain ⟨m₂, hr₂, hw₂⟩ := cmosWriteByte_spec (i := cmosRomRevMin) (by decide) (by decide)
    m.version.2.1 m₁
  obtain ⟨m₃, hr₃, hw₃⟩ := cmosWriteByte_spec (i := cmosRomRevRev) (by decide) (by decide)
    m.version.2.2 m₂
  have hrun : (cmosWriteRomRev.run m).2 = (cmosSetChecksum.run m₃).2 := by
    unfold cmosWriteRomRev
    rw [run_bind_of (get_run m), run_bind_of hr₁, run_bind_of hr₂, run_bind_of hr₃]
  have hcks : ∀ {k}, Covered k → (cmosSetChecksum.run m₃).2.view k = m₃.view k :=
    fun hk => (hk.checksum_at m₃).view
  rw [hrun]
  refine ⟨repairs_cmosSetChecksum m₃, ?_, ?_, ?_⟩
  · rw [hcks ⟨by decide, by decide, by decide⟩, hw₃.view_ne (by decide) (by decide),
      hw₂.view_ne (by decide) (by decide), hw₁.view_self (by decide)]
  · rw [hcks ⟨by decide, by decide, by decide⟩, hw₃.view_ne (by decide) (by decide),
      hw₂.view_self (by decide)]
  · rw [hcks ⟨by decide, by decide, by decide⟩, hw₃.view_self (by decide)]

/-- What follows the serial number sets variables only. -/
theorem initHead_run (m : Machine) : ∃ f : Globals → Globals, (initHead.run m).2 =
    ((setGlob f).run (cmosReadSerialNum.run (initBtoIp.run (updateVersion.run (initVariables.run
      (initVersion.run (cmosWriteRomRev.run
        ((cmosWriteByte cmosBiosDriveInfo 0).run m).2).2).2).2).2).2).2).2 := by
  unfold initHead
  simp only [run_bind_snd]
  exact ⟨_, rfl⟩

theorem setGlob_version (f : Globals → Globals) (m : Machine) :
    ((setGlob f).run m).2.version = m.version := rfl

/-- What the parts between the revision and the address leave alone. -/
theorem middle_at {m₂ m₃ m₄ m₅ : Machine} (h₃ : (initVersion.run m₂).2 = m₃)
    (h₄ : (initVariables.run m₃).2 = m₄) (h₅ : (updateVersion.run m₄).2 = m₅) (hk : Covered k)
    (h0 : k ≠ cmosFlagByte0) (h1 : k ≠ cmosFlagByte1) (hv : k ≠ cmosVersionByte)
    (hcode : k < cmosBtoCode0 ∨ cmosBtoCode0 + 4 ≤ k) : SameAt k m₂ m₅ := by
  have ha₃ : SameAt k m₂ m₃ := h₃ ▸ initVersion_at hk h0 h1 hv m₂
  have ha₄ : SameAt k m₃ m₄ := h₄ ▸ initVariables_at hk m₃
  have ha₅ : SameAt k m₄ m₅ := h₅ ▸ updateVersion_at hk hv hcode m₄
  exact IsTrans.trans m₂ m₃ m₅ ha₃ (IsTrans.trans m₃ m₄ m₅ ha₄ ha₅)

theorem middle_version {m₂ m₃ m₄ m₅ : Machine} (h₃ : (initVersion.run m₂).2 = m₃)
    (h₄ : (initVariables.run m₃).2 = m₄) (h₅ : (updateVersion.run m₄).2 = m₅) :
    m₅.version = m₂.version := by
  have hv₃ : m₃.version = m₂.version := h₃ ▸ (initVersion_ports m₂).version
  have hv₄ : m₄.version = m₃.version := h₄ ▸ (initVariables_frame m₃).version
  have hv₅ : m₅.version = m₄.version := h₅ ▸ (updateVersion_frame m₄).version
  exact hv₅.trans (hv₄.trans hv₃)

theorem Versioned.congr (h : m.Versioned) (hv : m'.view cmosFlagByte0 = m.view cmosFlagByte0) :
    m'.Versioned := by
  rw [Machine.Versioned, hv]
  exact h

/-- Whatever the CMOS holds. -/
theorem initHead_ready (m : Machine) : Ready (initHead.run m).2 := by
  obtain ⟨f, hrun⟩ := initHead_run m
  obtain ⟨m₁, hm₁⟩ : ∃ n, ((cmosWriteByte cmosBiosDriveInfo 0).run m).2 = n := ⟨_, rfl⟩
  obtain ⟨m₂, hm₂⟩ : ∃ n, (cmosWriteRomRev.run m₁).2 = n := ⟨_, rfl⟩
  obtain ⟨m₃, hm₃⟩ : ∃ n, (initVersion.run m₂).2 = n := ⟨_, rfl⟩
  obtain ⟨m₄, hm₄⟩ : ∃ n, (initVariables.run m₃).2 = n := ⟨_, rfl⟩
  obtain ⟨m₅, hm₅⟩ : ∃ n, (updateVersion.run m₄).2 = n := ⟨_, rfl⟩
  obtain ⟨m₆, hm₆⟩ : ∃ n, (initBtoIp.run m₅).2 = n := ⟨_, rfl⟩
  obtain ⟨m₇, hm₇⟩ : ∃ n, ((setGlob f).run (cmosReadSerialNum.run m₆).2).2 = n := ⟨_, rfl⟩
  rw [hm₁, hm₂, hm₃, hm₄, hm₅, hm₆, hm₇] at hrun
  rw [hrun]
  have hkept : Kept m₆ m₇ := hm₇ ▸ (cmosReadSerialNum_kept m₆).trans (setGlob_kept f _)
  have hquiet : Quiet m₆ m₇ :=
    hm₇ ▸ IsTrans.trans m₆ _ _ (cmosReadSerialNum_quiet m₆) (setGlob_quiet f _)
  have hdrive : m₁.view cmosBiosDriveInfo = 0 := by
    obtain ⟨n, hr, hw⟩ := cmosWriteByte_spec (i := cmosBiosDriveInfo) (by decide) (by decide) 0 m
    rw [← hm₁, hr]
    exact hw.view_self (by decide)
  have hforced₁ : m₁.Forced := hm₁ ▸ cmosWriteByte_forced (by decide) (by decide) m
  obtain ⟨hvalid₂, hmaj, hmin, hrev⟩ := cmosWriteRomRev_spec m₁
  rw [hm₂] at hvalid₂ hmaj hmin hrev
  obtain ⟨hvalid₅, hset₅, hver₅⟩ := version_block hvalid₂ hm₃ hm₄ hm₅
  have hback : ∀ k, Covered k → k ≠ cmosFlagByte0 → k ≠ cmosFlagByte1 → k ≠ cmosVersionByte →
      (k < cmosBtoCode0 ∨ cmosBtoCode0 + 4 ≤ k) → (k < cmosBtoIpCsum ∨ cmosBtoIp0 + 4 ≤ k) →
      m₇.view k = m₂.view k := fun k hk h0 h1 hv hcode hip => by
    have hat : SameAt k m₅ m₆ := hm₆ ▸ initBtoIp_at hk hip m₅
    rw [hkept.view k hk.low, hat.view, (middle_at hm₃ hm₄ hm₅ hk h0 h1 hv hcode).view]
  have hfront : ∀ k, Covered k → (k < cmosBtoIpCsum ∨ cmosBtoIp0 + 4 ≤ k) →
      m₇.view k = m₅.view k := fun k hk hip => by
    have hat : SameAt k m₅ m₆ := hm₆ ▸ initBtoIp_at hk hip m₅
    rw [hkept.view k hk.low, hat.view]
  have hcov : Covered cmosBiosDriveInfo := ⟨by decide, by decide, by decide⟩
  have hforced : m₇.Forced := by
    have h₂ : SameAt cmosBiosDriveInfo m₁ m₂ := hm₂ ▸ cmosWriteRomRev_at hcov (by decide) m₁
    have h₅ := middle_at hm₃ hm₄ hm₅ hcov (by decide) (by decide) (by decide) (by decide)
    have h₆ : SameAt cmosBiosDriveInfo m₅ m₆ := hm₆ ▸ initBtoIp_at hcov (by decide) m₅
    have hf₆ := h₆.forced (h₅.forced (h₂.forced hforced₁))
    exact (hquiet hf₆).forced hf₆
  have hversion : m₇.version = m₁.version := by
    have h₂ : m₂.version = m₁.version := hm₂ ▸ (cmosWriteRomRev_ports m₁).version
    have h₆ : m₆.version = m₅.version := hm₆ ▸ (initBtoIp_frame m₅).version
    have h₇ : m₇.version = m₆.version := by
      rw [← hm₇, setGlob_version]
      exact (cmosReadSerialNum_ports m₆).version
    exact h₇.trans (h₆.trans ((middle_version hm₃ hm₄ hm₅).trans h₂))
  have hbto : m₆.Valid ∧ m₆.BtoIpValid := by
    rcases initBtoIp_cases m₅ with ⟨h, hk, -⟩ | ⟨-, h⟩
    · rw [hm₆] at hk
      refine ⟨hk.valid_iff.mpr hvalid₅, ?_⟩
      rw [Machine.BtoIpValid, hk.view _ (by decide), hk.view _ (by decide), hk.view _ (by decide),
        hk.view _ (by decide), hk.view _ (by decide)]
      exact h
    · rwa [hm₆] at h
  have hdrive₂ : m₂.view cmosBiosDriveInfo = 0 := by
    have h₂ : SameAt cmosBiosDriveInfo m₁ m₂ := hm₂ ▸ cmosWriteRomRev_at hcov (by decide) m₁
    rw [h₂.view, hdrive]
  exact {
    forced := hforced
    valid := hkept.valid_iff.mpr hbto.1
    drive := by
      rw [hback _ hcov (by decide) (by decide) (by decide) (by decide) (by decide), hdrive₂]
    revMaj := by
      rw [hback cmosRomRevMaj ⟨by decide, by decide, by decide⟩ (by decide) (by decide)
        (by decide) (by decide) (by decide), hmaj, hversion]
    revMin := by
      rw [hback cmosRomRevMin ⟨by decide, by decide, by decide⟩ (by decide) (by decide)
        (by decide) (by decide) (by decide), hmin, hversion]
    revRev := by
      rw [hback cmosRomRevRev ⟨by decide, by decide, by decide⟩ (by decide) (by decide)
        (by decide) (by decide) (by decide), hrev, hversion]
    versioned := Versioned.congr hset₅ (hfront _ ⟨by decide, by decide, by decide⟩ (by decide))
    current := by
      rw [hfront cmosVersionByte ⟨by decide, by decide, by decide⟩ (by decide), hver₅]
      split
      · rename_i h
        exact h.2
      · exact UInt8.le_refl _
    btoIp := by
      rw [Machine.BtoIpValid, hkept.view _ (by decide), hkept.view _ (by decide),
        hkept.view _ (by decide), hkept.view _ (by decide), hkept.view _ (by decide)]
      exact hbto.2 }

/-! ### The second `cmos_init` -/

/-- A byte written over itself. -/
theorem cmosWriteByte_same (hi : i ≤ 0x7f) (hf : m.Forced)
    (hv : m.view i = v) : SameBytes m ((cmosWriteByte i v).run m).2 := by
  have hn := forceBank0_quiet m hf
  have hbank := (forceBank0_kept m).2
  rw [cmosWriteByte_run hi]
  obtain ⟨n, hn'⟩ : ∃ n, (forceBank0.run m).2 = n := ⟨_, rfl⟩
  rw [hn'] at hn hbank ⊢
  have hreg : (n.outb (UInt8.ofNat i) 0x70).reg = i := index_toNat i hi
  refine hn.trans ?_
  have hnv : n.view i = v := (hn.view i).trans hv
  rw [← hn.away] at hbank
  rw [Machine.outb, if_pos rfl, hreg, (index_kept n _).2, hbank]
  rw [Machine.view] at hnv
  by_cases ha : n.away = true ∧ 0x40 ≤ i
  · rw [if_pos ha] at hnv ⊢
    refine ⟨rfl, rfl, rfl, rfl, ?_⟩
    rw [← hnv]
    exact Function.update_eq_self i n.rtc.apc
  · rw [if_neg ha] at hnv ⊢
    refine ⟨rfl, rfl, rfl, ?_, rfl⟩
    rw [← hnv]
    exact Function.update_eq_self i n.rtc.ram

theorem halves_eq {a b : UInt8} {s : UInt16} (h : s.toNat = a.toNat <<< 8 ||| b.toNat) :
    a = (s >>> 8).toUInt8 ∧ b = (s &&& 0xff).toUInt8 := by
  have h' := halves s
  rw [h] at h'
  have hsplit : ∀ x y : UInt8, x.toNat <<< 8 ||| y.toNat = x.toNat * 256 + y.toNat := by
    intro x y
    rw [← Nat.shiftLeft_add_eq_or_of_lt y.toNat_lt, Nat.shiftLeft_eq]
  rw [hsplit, hsplit] at h'
  have hb := b.toNat_lt
  have hb' := (s &&& 0xff).toUInt8.toNat_lt
  constructor
  · apply UInt8.toNat_inj.mp
    omega
  · apply UInt8.toNat_inj.mp
    omega

/-- A right checksum is written over itself. -/
theorem cmosSetChecksum_same (hf : m.Forced) (hv : m.Valid) :
    SameBytes m (cmosSetChecksum.run m).2 := by
  obtain ⟨hhi, hlo⟩ := halves_eq hv
  obtain ⟨m₁, hr₁, -⟩ := sumBytes_spec (fun _ => mem_cksRange) 0 m
  have h₁ : SameBytes m m₁ := (sumBytes_quiet _ _).of_run hr₁ hf
  have h₂ := cmosWriteByte_same (i := cmosChecksum) (by decide) (h₁.forced hf)
    ((h₁.view _).trans hhi)
  have h₁₂ := h₁.trans h₂
  have h₃ := cmosWriteByte_same (i := cmosChecksum + 1) (by decide) (h₁₂.forced hf)
    ((h₁₂.view _).trans hlo)
  unfold cmosSetChecksum
  rw [run_bind_of hr₁, run_bind_snd, run_bind_snd, run_pure_snd]
  exact h₁₂.trans h₃

theorem cmosWriteRomRev_same (h : Ready m) : SameBytes m (cmosWriteRomRev.run m).2 := by
  have h₁ := cmosWriteByte_same (by decide) h.forced h.revMaj
  have h₂ := h₁.trans (cmosWriteByte_same (by decide) (h₁.forced h.forced)
    ((h₁.view _).trans h.revMin))
  have h₃ := h₂.trans (cmosWriteByte_same (by decide) (h₂.forced h.forced)
    ((h₂.view _).trans h.revRev))
  unfold cmosWriteRomRev
  rw [run_bind_of (get_run m), run_bind_snd, run_bind_snd, run_bind_snd]
  exact h₃.trans (cmosSetChecksum_same (h.congr h₃).forced (h.congr h₃).valid)

/-- Nothing is left to repair. -/
theorem initHead_same (h : Ready m) : SameBytes m (initHead.run m).2 := by
  obtain ⟨f, hrun⟩ := initHead_run m
  obtain ⟨m₁, hm₁⟩ : ∃ n, ((cmosWriteByte cmosBiosDriveInfo 0).run m).2 = n := ⟨_, rfl⟩
  obtain ⟨m₂, hm₂⟩ : ∃ n, (cmosWriteRomRev.run m₁).2 = n := ⟨_, rfl⟩
  obtain ⟨m₃, hm₃⟩ : ∃ n, (initVersion.run m₂).2 = n := ⟨_, rfl⟩
  obtain ⟨m₄, hm₄⟩ : ∃ n, (initVariables.run m₃).2 = n := ⟨_, rfl⟩
  have h₁ : SameBytes m m₁ := hm₁ ▸ cmosWriteByte_same (by decide) h.forced h.drive
  have hready₁ := h.congr h₁
  have h₂ : SameBytes m₁ m₂ := hm₂ ▸ cmosWriteRomRev_same hready₁
  have hready₂ := hready₁.congr h₂
  have h₃ : SameBytes m₂ m₃ := hm₃ ▸ (initVersion_set hready₂.versioned).2.2 hready₂.forced
  have hready₃ := hready₂.congr h₃
  have h₄ : SameBytes m₃ m₄ := hm₄ ▸ initVariables_quiet m₃ hready₃.forced
  have hready₄ := hready₃.congr h₄
  have hver : m₄.glob.cmosVersion = m₃.view cmosVersionByte := hm₄ ▸ initVariables_version m₃
  have hupdate : (updateVersion.run m₄).2 = m₄ := by
    rw [updateVersion_current (by rw [hver]; exact hready₃.current)]
  rw [hm₁, hm₂, hm₃, hm₄, hupdate] at hrun
  obtain ⟨m₆, hm₆⟩ : ∃ n, (initBtoIp.run m₄).2 = n := ⟨_, rfl⟩
  have h₆ : SameBytes m₄ m₆ := by
    rcases initBtoIp_cases m₄ with ⟨-, -, hq⟩ | ⟨hno, -⟩
    · rw [hm₆] at hq
      exact hq hready₄.forced
    · exact absurd hready₄.btoIp hno
  rw [hm₆] at hrun
  rw [hrun]
  have hquiet : Quiet m₆ ((setGlob f).run (cmosReadSerialNum.run m₆).2).2 :=
    IsTrans.trans m₆ _ _ (cmosReadSerialNum_quiet m₆) (setGlob_quiet f _)
  exact h₁.trans (h₂.trans (h₃.trans (h₄.trans (h₆.trans (hquiet (hready₄.congr h₆).forced)))))

/-- Up to the variables, `cmos_init` ends as `initHead` does. -/
theorem cmosInit_run (m : Machine) : ∃ n, (cmosInit.run m).2 =
    ((cmosFlagsSync false).run (initHead.run n).2).2 ∧
      (m.Valid → Quiet m n ∧ n.glob.firstBoot = 0) := by
  obtain ⟨m₁, hr₁, -⟩ := cmosCheckChecksum_spec m
  have hq₁ := cmosCheckChecksum_quiet.of_run hr₁
  unfold cmosInit
  rw [run_bind_of hr₁]
  by_cases hv : m.Valid
  · rw [decide_eq_true hv, Bool.not_true, if_neg Bool.false_ne_true, run_bind_snd, initSettings_run]
    exact ⟨_, rfl, fun _ => ⟨IsTrans.trans m m₁ _ hq₁ (setGlob_quiet _ m₁), rfl⟩⟩
  · rw [decide_eq_false hv, Bool.not_false, if_pos rfl, run_bind_snd, run_bind_snd, run_bind_snd,
      initSettings_run]
    exact ⟨_, rfl, fun h => absurd h hv⟩

theorem cmosInit_ready (m : Machine) : Ready (cmosInit.run m).2 := by
  obtain ⟨n, hn, -⟩ := cmosInit_run m
  rw [hn]
  exact (initHead_ready n).congr (cmosFlagsSync_quiet false _ (initHead_ready n).forced)

/-- From any CMOS: after `cmos_init` the checksum is right and that of the BTO address matches
its bytes; another `cmos_init` changes no byte and does not take this for the first boot. -/
theorem cmosInit_repairs (m : Machine) :
    (cmosCheckChecksum.run (cmosInit.run m).2).1 = true ∧ (cmosInit.run m).2.BtoIpValid ∧
      (cmosInit.run (cmosInit.run m).2).2.rtc.ram = (cmosInit.run m).2.rtc.ram ∧
      (cmosInit.run (cmosInit.run m).2).2.rtc.apc = (cmosInit.run m).2.rtc.apc ∧
      (cmosInit.run (cmosInit.run m).2).2.glob.firstBoot = 0 := by
  have hready := cmosInit_ready m
  obtain ⟨a, ha⟩ : ∃ a, (cmosInit.run m).2 = a := ⟨_, rfl⟩
  rw [ha] at hready ⊢
  obtain ⟨m₁, hr₁, -⟩ := cmosCheckChecksum_spec a
  obtain ⟨n, hn, hvalid⟩ := cmosInit_run a
  have hsame := (hvalid hready.valid).1 hready.forced
  have hhead := initHead_same (hready.congr hsame)
  have hsync := cmosFlagsSync_quiet false _ (hhead.forced (hready.congr hsame).forced)
  have hall := hsame.trans (hhead.trans hsync)
  rw [← hn] at hall
  rw [hr₁]
  exact ⟨decide_eq_true hready.valid, hready.btoIp, hall.ram, hall.apc,
    cmosInit_firstBoot hready.valid⟩

end Cmos
