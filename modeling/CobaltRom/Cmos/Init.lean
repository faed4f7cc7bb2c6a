import CobaltRom.Cmos.Operations

/-! Which bytes the parts of `cmos_init` leave alone. -/
namespace Cmos

/-- Where bank 0 is forced it is selected. -/
def Machine.Forced (m : Machine) : Prop :=
  m.boardtype = .monterey →
    (m.rtc.ram pnpNsRtcCra &&& 0x8f) ||| pnpNsRtcBank0 = m.rtc.ram pnpNsRtcCra

/-- The version flag in the bytes in view. -/
def Machine.Versioned (m : Machine) : Prop := m.view cmosFlagByte0 &&& 2 ≠ 0

instance (m : Machine) : Decidable m.Versioned := inferInstanceAs (Decidable (_ ≠ _))

/-- A program that does not write byte `k`. -/
structure SameAt (k : Nat) (m m' : Machine) : Prop where
  away : m'.away = m.away
  view : m'.view k = m.view k
  forced : m.Forced → m'.Forced

variable {α β : Type} {m m' m'' : Machine} {i k : Nat} {v : UInt8}

instance : Std.Refl (SameAt k) := ⟨fun _ => ⟨rfl, rfl, id⟩⟩

instance : IsTrans Machine (SameAt k) :=
  ⟨fun _ _ _ h h' => ⟨h'.away.trans h.away, h'.view.trans h.view, h'.forced ∘ h.forced⟩⟩

/-! ### Bytes that stay -/

theorem Forced.congr (hb : m'.boardtype = m.boardtype)
    (hc : m'.rtc.ram pnpNsRtcCra = m.rtc.ram pnpNsRtcCra) (h : m.Forced) : m'.Forced := by
  rw [Machine.Forced, hb, hc]
  exact h

theorem forceBank0_forced (m : Machine) : (forceBank0.run m).2.Forced := by
  intro hb
  rw [forceBank0_run] at hb ⊢
  by_cases hm : m.boardtype = .monterey
  · simp only [if_pos hm]
    have hbits : ∀ b : BitVec 8, (((b &&& 0x8f) ||| 0x20) &&& 0x8f) ||| 0x20 =
        (b &&& 0x8f) ||| 0x20 := by
      decide
    change ((Function.update m.rtc.ram 0x0a _ 0x0a) &&& 0x8f) ||| 0x20 =
      Function.update m.rtc.ram 0x0a _ 0x0a
    rw [Function.update_self]
    exact UInt8.toBitVec_inj.1 (hbits (m.rtc.ram 0x0a).toBitVec)
  · simp only [if_neg hm] at hb
    exact absurd hb hm

theorem cmosReadByte_forced (hi : i ≤ 0x7f) (m : Machine) : ((cmosReadByte i).run m).2.Forced := by
  rw [cmosReadByte_run hi]
  exact forceBank0_forced m

/-- Register A is not among the bytes that are written. -/
theorem outb_cra_other (hlow : cmosCksStart ≤ i) (hi : i ≤ 0x7f) (n : Machine) (v : UInt8) :
    ((n.outb (UInt8.ofNat i) 0x70).outb v 0x71).rtc.ram pnpNsRtcCra = n.rtc.ram pnpNsRtcCra := by
  have hreg : (n.outb (UInt8.ofNat i) 0x70).reg = i := index_toNat i hi
  rw [Machine.outb, if_pos rfl, hreg]
  split
  · rfl
  · exact Function.update_of_ne
      (by simp only [cmosCksStart] at hlow; simp only [pnpNsRtcCra]; omega) _ _

theorem cmosWriteByte_forced (hlow : cmosCksStart ≤ i) (hi : i ≤ 0x7f) (m : Machine) :
    ((cmosWriteByte i v).run m).2.Forced := by
  rw [cmosWriteByte_run hi]
  refine Forced.congr ?_ (outb_cra_other hlow hi _ v) (forceBank0_forced m)
  rw [(outb_board _ _ _).2, (outb_board _ _ _).2]

theorem along_at {p : RomM α} (hk : cmosCksStart ≤ k) (h : Along Kept p)
    (hf : ∀ m, m.Forced → (p.run m).2.Forced) : Along (SameAt k) p :=
  fun m => ⟨(h m).away, (h m).view k hk, hf m⟩

theorem setGlob_at (hk : cmosCksStart ≤ k) (f : Globals → Globals) : Along (SameAt k) (setGlob f) :=
  along_at hk (setGlob_kept f) fun _ h => h

theorem cmosReadByte_at (hk : cmosCksStart ≤ k) (i : Nat) : Along (SameAt k) (cmosReadByte i) := by
  refine along_at hk (cmosReadByte_kept i) fun m hm => ?_
  by_cases hi : i ≤ 0x7f
  · exact cmosReadByte_forced hi m
  · unfold cmosReadByte
    rw [if_pos (by simp only [cmosInfoMax]; omega)]
    exact hm

theorem cmosWriteByte_at (hk : cmosCksStart ≤ k) (hlow : cmosCksStart ≤ i) (hi : i ≤ 0x7f)
    (hne : k ≠ i) (v : UInt8) : Along (SameAt k) (cmosWriteByte i v) := by
  intro m
  obtain ⟨m', hr, hw⟩ := cmosWriteByte_spec hi hlow v m
  have hf := cmosWriteByte_forced hlow hi m (v := v)
  rw [hr] at hf ⊢
  exact ⟨hw.away, hw.view_ne hk hne, fun _ => hf⟩

/-- The checksum and the `n` bytes from `i` on. -/
theorem writeBytes_at (hk : cmosCksStart ≤ k) (hlow : cmosCksStart ≤ i) (vs : List UInt8)
    (hi : i + vs.length ≤ 0x80) (hne : k < i ∨ i + vs.length ≤ k) :
    Along (SameAt k) (writeBytes i vs) := by
  induction vs generalizing i with
  | nil => exact .pure _
  | cons v vs ih =>
    rw [List.length_cons] at hi hne
    exact .bind (cmosWriteByte_at hk hlow (by omega) (by omega) v) fun _ =>
      ih (by omega) (by omega) (by omega)

theorem sumBytes_at (hk : cmosCksStart ≤ k) (is : List Nat) (sum : UInt16) :
    Along (SameAt k) (sumBytes is sum) := by
  induction is generalizing sum with
  | nil => exact .pure _
  | cons i is ih => exact .ite (fun _ => ih _) fun _ => .bind (cmosReadByte_at hk i) fun _ => ih _

theorem cmosSetChecksum_at (hk : cmosCksStart ≤ k) (h0 : k ≠ cmosChecksum)
    (h1 : k ≠ cmosChecksum + 1) : Along (SameAt k) cmosSetChecksum :=
  .bind (sumBytes_at hk _ _) fun _ =>
    .bind (cmosWriteByte_at hk (by decide) (by decide) h0 _) fun _ =>
      .bind (cmosWriteByte_at hk (by decide) (by decide) h1 _) fun _ => .pure _

theorem cmosReadFlag_at (hk : cmosCksStart ≤ k) (flag : Int32) :
    Along (SameAt k) (cmosReadFlag flag) :=
  .ite (fun _ => .pure _) fun _ => .bind (.bind (cmosReadByte_at hk _) fun _ =>
    .bind (cmosReadByte_at hk _) fun _ => .pure _) fun _ => .pure _

/-! ### Programs that only read -/

/-- Not a byte differs, and it is the same board. -/
structure SameBytes (m m' : Machine) : Prop where
  systype : m'.systype = m.systype
  boardtype : m'.boardtype = m.boardtype
  version : m'.version = m.version
  ram : m'.rtc.ram = m.rtc.ram
  apc : m'.rtc.apc = m.rtc.apc

theorem SameBytes.refl (m : Machine) : SameBytes m m := ⟨rfl, rfl, rfl, rfl, rfl⟩

theorem SameBytes.trans (h : SameBytes m m') (h' : SameBytes m' m'') : SameBytes m m'' :=
  ⟨h'.systype.trans h.systype, h'.boardtype.trans h.boardtype, h'.version.trans h.version,
    h'.ram.trans h.ram, h'.apc.trans h.apc⟩

theorem SameBytes.forced (h : SameBytes m m') (hm : m.Forced) : m'.Forced :=
  Forced.congr h.boardtype (congrFun h.ram _) hm

theorem SameBytes.away (h : SameBytes m m') : m'.away = m.away :=
  away_congr h.systype h.boardtype (congrFun h.ram _)

theorem SameBytes.view (h : SameBytes m m') (k : Nat) : m'.view k = m.view k := by
  rw [Machine.view, Machine.view, h.away, h.ram, h.apc]

/-- With bank 0 selected wherever it is forced, no byte is changed. -/
def Quiet (m m' : Machine) : Prop := m.Forced → SameBytes m m'

instance : Std.Refl Quiet := ⟨fun m _ => SameBytes.refl m⟩

instance : IsTrans Machine Quiet :=
  ⟨fun _ _ _ h h' hm => (h hm).trans (h' ((h hm).forced hm))⟩

theorem setGlob_quiet (f : Globals → Globals) : Along Quiet (setGlob f) :=
  fun _ _ => ⟨rfl, rfl, rfl, rfl, rfl⟩

theorem forceBank0_quiet : Along Quiet forceBank0 := by
  intro m hm
  rw [forceBank0_run]
  by_cases hb : m.boardtype = .monterey
  · simp only [if_pos hb]
    refine ⟨rfl, rfl, rfl, ?_, rfl⟩
    exact (congrArg (Function.update m.rtc.ram 0x0a) (hm hb)).trans (Function.update_eq_self _ _)
  · simp only [if_neg hb]
    exact SameBytes.refl m

theorem cmosReadByte_quiet (i : Nat) : Along Quiet (cmosReadByte i) :=
  .ite (fun _ => .pure _) fun _ => .bind forceBank0_quiet fun _ =>
    .bind (fun _ _ => ⟨rfl, rfl, rfl, rfl, rfl⟩) fun _ => fun m _ => SameBytes.refl m

theorem readBytes_quiet (i n : Nat) : Along Quiet (readBytes i n) := by
  induction n generalizing i with
  | zero => exact .pure _
  | succ n ih => exact .bind (cmosReadByte_quiet i) fun _ => .bind (ih _) fun _ => .pure _

theorem sumBytes_quiet (is : List Nat) (sum : UInt16) : Along Quiet (sumBytes is sum) := by
  induction is generalizing sum with
  | nil => exact .pure _
  | cons i is ih => exact .ite (fun _ => ih _) fun _ => .bind (cmosReadByte_quiet i) fun _ => ih _

theorem cmosCheckChecksum_quiet : Along Quiet cmosCheckChecksum :=
  .bind (sumBytes_quiet _ _) fun _ => .bind (cmosReadByte_quiet _) fun _ =>
    .bind (cmosReadByte_quiet _) fun _ => .pure _

theorem cmosReadFlag_quiet (flag : Int32) : Along Quiet (cmosReadFlag flag) :=
  .ite (fun _ => .pure _) fun _ => .bind (.bind (cmosReadByte_quiet _) fun _ =>
    .bind (cmosReadByte_quiet _) fun _ => .pure _) fun _ => .pure _

theorem cmosGenCsum_ne_zero (str : List UInt8) : cmosGenCsum str ≠ 0 := by
  have hbits : ∀ b : BitVec 8, (b &&& 0x7f) ^^^ 0xd6 ≠ 0 := by decide
  exact fun h => hbits _ (congrArg UInt8.toBitVec h)

/-- The old place of the checksum is outside of the CMOS and reads as 0, which no serial number
has for checksum: nothing is ever moved. -/
theorem cmosReadSerialNum_along {R : Machine → Machine → Prop} [Std.Refl R] [IsTrans Machine R]
    (hbytes : Along R (readBytes cmosSysSernum0 cmosSysSernumLen))
    (hcsum : Along R (cmosReadByte cmosSysSernumCsum)) : Along R cmosReadSerialNum := by
  have hold : cmosReadByte cmosSysSernumOldCsum = pure 0 := if_pos (by decide)
  unfold cmosReadSerialNum
  simp only [hold, pure_bind]
  refine .bind hbytes fun sernum => .bind hcsum fun _ => .ite (fun _ => ?_) fun _ => .pure _
  refine .bind (.bind .get fun _ => .pure _) fun _ => .ite (fun _ => ?_) fun _ => .pure _
  exact .ite (fun h => absurd h (cmosGenCsum_ne_zero sernum)) fun _ => .pure _

theorem cmosReadSerialNum_kept : Along Kept cmosReadSerialNum :=
  cmosReadSerialNum_along (readBytes_kept _ _) (cmosReadByte_kept _)

theorem cmosReadSerialNum_quiet : Along Quiet cmosReadSerialNum :=
  cmosReadSerialNum_along (readBytes_quiet _ _) (cmosReadByte_quiet _)

theorem cmosFlagsSync_quiet (dir : Bool) : Along Quiet (cmosFlagsSync dir) :=
  fun _ _ => ⟨rfl, rfl, rfl, rfl, rfl⟩

/-- All the flags and three bytes are read and only variables set. -/
theorem initVariables_along {R : Machine → Machine → Prop} [Std.Refl R] [IsTrans Machine R]
    (hflag : ∀ flag, Along R (cmosReadFlag flag)) (hbyte : ∀ i, Along R (cmosReadByte i))
    (hglob : ∀ f, Along R (setGlob f)) : Along R initVariables := by
  unfold initVariables
  iterate 7 refine .bind (hflag _) fun _ => ?_
  iterate 3 refine .bind (hbyte _) fun _ => ?_
  exact hglob _

/-! ### The parts that write -/

variable {p : RomM α}

/-- A byte that counts for the checksum. -/
structure Covered (k : Nat) : Prop where
  low : cmosCksStart ≤ k
  hi : k ≠ cmosChecksum
  lo : k ≠ cmosChecksum + 1

theorem Covered.checksum_at (hk : Covered k) : Along (SameAt k) cmosSetChecksum :=
  cmosSetChecksum_at hk.low hk.hi hk.lo

theorem cmosWriteRomRev_at (hk : Covered k) (hrev : k < cmosRomRevMaj ∨ cmosRomRevRev < k) :
    Along (SameAt k) cmosWriteRomRev := by
  obtain ⟨h0, h1, h2⟩ : k ≠ cmosRomRevMaj ∧ k ≠ cmosRomRevMin ∧ k ≠ cmosRomRevRev := by
    simp only [cmosRomRevMaj, cmosRomRevMin, cmosRomRevRev] at hrev ⊢
    omega
  exact .bind .get fun _ => .bind (cmosWriteByte_at hk.low (by decide) (by decide) h0 _) fun _ =>
    .bind (cmosWriteByte_at hk.low (by decide) (by decide) h1 _) fun _ =>
      .bind (cmosWriteByte_at hk.low (by decide) (by decide) h2 _) fun _ => hk.checksum_at

theorem cmosWriteFlag_at (hk : Covered k) (h0 : k ≠ cmosFlagByte0) (h1 : k ≠ cmosFlagByte1)
    (flag val : Int32) : Along (SameAt k) (cmosWriteFlag flag val) :=
  .ite (fun _ => .pure _) fun _ => .bind (.bind (cmosReadByte_at hk.low _) fun _ =>
    .bind (cmosReadByte_at hk.low _) fun _ => .pure _) fun _ =>
      .bind (.bind (cmosWriteByte_at hk.low (by decide) (by decide) h1 _) fun _ =>
        .bind (cmosWriteByte_at hk.low (by decide) (by decide) h0 _) fun _ => hk.checksum_at)
          fun _ => .pure _

theorem initVersion_at (hk : Covered k) (h0 : k ≠ cmosFlagByte0) (h1 : k ≠ cmosFlagByte1)
    (hv : k ≠ cmosVersionByte) : Along (SameAt k) initVersion :=
  .bind (cmosReadFlag_at hk.low _) fun _ => .ite (fun _ => .bind (cmosWriteFlag_at hk h0 h1 _ _)
    fun _ => .bind (cmosWriteByte_at hk.low (by decide) (by decide) hv _) fun _ => .pure _)
      fun _ => .pure _

theorem initVariables_at (hk : Covered k) : Along (SameAt k) initVariables :=
  initVariables_along (cmosReadFlag_at hk.low) (cmosReadByte_at hk.low) (setGlob_at hk.low)

theorem updateVersion_at (hk : Covered k) (hv : k ≠ cmosVersionByte)
    (hcode : k < cmosBtoCode0 ∨ cmosBtoCode0 + 4 ≤ k) : Along (SameAt k) updateVersion := by
  have htail : Along (SameAt k) (do
      let _ ← cmosWriteByte cmosVersionByte cmosVersionCurrent
      setGlob fun g => { g with cmosVersion := cmosVersionCurrent }
      cmosSetChecksum) :=
    .bind (cmosWriteByte_at hk.low (by decide) (by decide) hv _) fun _ =>
      .bind (setGlob_at hk.low _) fun _ => hk.checksum_at
  refine .bind .get fun _ => .ite (fun _ => ?_) fun _ => .pure _
  exact .ite (fun _ => .bind (writeBytes_at hk.low (by decide) _ (by decide) hcode) fun _ => htail)
    fun _ => htail

theorem initBtoIp_at (hk : Covered k) (hip : k < cmosBtoIpCsum ∨ cmosBtoIp0 + 4 ≤ k) :
    Along (SameAt k) initBtoIp := by
  obtain ⟨hcsum, hbytes⟩ : k ≠ cmosBtoIpCsum ∧ (k < cmosBtoIp0 ∨ cmosBtoIp0 + 4 ≤ k) := by
    simp only [cmosBtoIpCsum, cmosBtoIp0] at hip ⊢
    omega
  unfold initBtoIp
  iterate 5 refine .bind (cmosReadByte_at hk.low _) fun _ => ?_
  refine .ite (fun _ => ?_) fun _ => setGlob_at hk.low _
  exact .bind (writeBytes_at hk.low (by decide) _ (by decide) hbytes) fun _ =>
    .bind (cmosWriteByte_at hk.low (by decide) (by decide) hcsum _) fun _ =>
      .bind hk.checksum_at fun _ => setGlob_at hk.low _

end Cmos
