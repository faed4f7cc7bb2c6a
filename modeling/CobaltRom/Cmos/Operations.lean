import CobaltRom.Cmos.Checksum
import CobaltRom.Cmos.Ports

/-! The checksum over a run of operations. -/
namespace Cmos
open Console

variable {α β : Type} {m m' : Machine} {i k : Nat} {v : UInt8}

/-! ### Programs that leave the bytes in view alone -/

theorem setGlob_kept (f : Globals → Globals) : Along Kept (setGlob f) :=
  fun _ => ⟨rfl, fun _ _ => rfl⟩

theorem cmosFlagsSync_kept (dir : Bool) : Along Kept (cmosFlagsSync dir) :=
  fun _ => ⟨rfl, fun _ _ => rfl⟩

theorem inb_kept (port : Nat) : Along Kept (inb port) := fun m => Kept.refl m

theorem cmosReadByte_kept (i : Nat) : Along Kept (cmosReadByte i) :=
  .ite (fun _ => .pure _) fun _ => .bind (fun m => (forceBank0_kept m).1) fun _ =>
    .bind (fun m => (index_kept m _).1) fun _ => inb_kept _

theorem readBytes_kept (k n : Nat) : Along Kept (readBytes k n) := by
  induction n generalizing k with
  | zero => exact .pure _
  | succ n ih => exact .bind (cmosReadByte_kept k) fun _ => .bind (ih (k + 1)) fun _ => .pure _

theorem cmosReadAllFlags_kept : Along Kept cmosReadAllFlags :=
  .bind (cmosReadByte_kept _) fun _ => .bind (cmosReadByte_kept _) fun _ => .pure _

theorem cmosReadFlag_kept (flag : Int32) : Along Kept (cmosReadFlag flag) :=
  .ite (fun _ => .pure _) fun _ => .bind cmosReadAllFlags_kept fun _ => .pure _

/-! ### Programs that end with the checksum set -/

/-- The checksum is right after `p`, whatever it was before. -/
def Repairs (p : RomM α) : Prop := ∀ m, (p.run m).2.Valid

/-- A right checksum is right again after `p`. -/
def Settled (p : RomM α) : Prop := ∀ m, m.Valid → (p.run m).2.Valid

theorem Repairs.after {p : RomM α} {f : α → RomM β} (h : ∀ a, Repairs (f a)) :
    Repairs (p >>= f) := fun m => h (p.run m).1 (p.run m).2

theorem Repairs.settled {p : RomM α} (h : Repairs p) : Settled p := fun m _ => h m

theorem Repairs.then {p : RomM α} {f : α → RomM β} (h : Repairs p) (hf : ∀ a, Settled (f a)) :
    Repairs (p >>= f) := fun m => hf _ _ (h m)

theorem settled_of_kept {p : RomM α} (h : Along Kept p) : Settled p :=
  fun m hm => (h m).valid_iff.2 hm

theorem Settled.pure (a : α) : Settled (Pure.pure a) := fun _ hm => hm

theorem Settled.bind {p : RomM α} {f : α → RomM β} (h : Settled p) (hf : ∀ a, Settled (f a)) :
    Settled (p >>= f) := fun m hm => hf _ _ (h m hm)

theorem Settled.get : Settled (MonadState.get : RomM Machine) := fun _ hm => hm

theorem repairs_cmosSetChecksum : Repairs cmosSetChecksum := fun m => (cmosSetChecksum_spec m).1

theorem repairs_cmosWriteAllFlags (flags : Int32) : Repairs (cmosWriteAllFlags flags) :=
  .after fun _ => .after fun _ => repairs_cmosSetChecksum

theorem settled_cmosWriteFlag (flag val : Int32) : Settled (cmosWriteFlag flag val) := by
  unfold cmosWriteFlag
  split
  · exact .pure _
  · exact .bind (settled_of_kept cmosReadAllFlags_kept) fun flags =>
      .bind (repairs_cmosWriteAllFlags _).settled fun _ => .pure _

theorem settled_setGlob (f : Globals → Globals) : Settled (setGlob f) :=
  settled_of_kept (setGlob_kept f)

theorem repairs_cmosSetBtoIp (ip : UInt32) : Repairs (cmosSetBtoIp ip) :=
  .after fun _ => .after fun _ => repairs_cmosSetChecksum.then fun _ => settled_setGlob _

theorem repairs_cmosSetDefaults : Repairs cmosSetDefaults := by
  unfold cmosSetDefaults
  iterate 17 refine .after fun _ => ?_
  exact repairs_cmosSetChecksum

theorem repairs_cmosFirstBootDefaultsOnly (resetSn : Int32) :
    Repairs (cmosFirstBootDefaultsOnly resetSn) := by
  unfold cmosFirstBootDefaultsOnly
  iterate 3 refine .after fun _ => ?_
  split
  · iterate 3 refine .after fun _ => ?_
    split
    · exact .after fun _ => repairs_cmosSetChecksum
    · exact repairs_cmosSetChecksum
  · iterate 2 refine .after fun _ => ?_
    split
    · exact .after fun _ => repairs_cmosSetChecksum
    · exact repairs_cmosSetChecksum

/-! ### The commands that end with the checksum set -/

theorem settled_writeCmosFunc {argv : List Name} {p : RomM Int}
    (h : writeCmosFunc argv = some p) : Settled p := by
  unfold writeCmosFunc at h
  split at h
  · cases h
    exact .pure _
  · obtain ⟨r, -, hp⟩ := Option.map_eq_some_iff.1 h
    subst hp
    split
    · split
      · exact .pure _
      · exact (Repairs.after fun _ => repairs_cmosSetChecksum.then fun _ => .pure _).settled
    · exact .pure _

theorem settled_btoIpFunc {argv : List Name} {p : RomM Int}
    (h : btoIpFunc argv = some p) : Settled p := by
  unfold btoIpFunc at h
  split at h
  · cases h
    exact .pure _
  split at h
  · cases h
    exact .pure _
  · obtain ⟨r, -, hp⟩ := Option.map_eq_some_iff.1 h
    subst hp
    split
    · exact .bind (repairs_cmosSetBtoIp _).settled fun _ => .pure _
    · exact .pure _

theorem settled_cmosFlagsFunc (argv : List Name) : Settled (cmosFlagsFunc argv) := by
  unfold cmosFlagsFunc
  split
  · exact .pure _
  · exact .pure _
  · refine .bind (.bind .get fun _ => .pure _) fun k => ?_
    split
    · exact .pure _
    · split
      · exact .bind .get fun _ => .bind (settled_of_kept (cmosReadFlag_kept _)) fun _ =>
          .bind (settled_of_kept (cmosFlagsSync_kept _)) fun _ => .pure _
      · split
        · exact .pure _
        · exact .bind (settled_setGlob _) fun _ => .bind .get fun _ =>
            .bind (settled_cmosWriteFlag _ _) fun _ =>
              .bind (settled_of_kept (cmosFlagsSync_kept _)) fun _ => .pure _
      · exact .pure _

/-! ### `cmos_reset` -/

/-- The same bank is seen. -/
def SameAway (m m' : Machine) : Prop := m'.away = m.away

instance : Std.Refl SameAway := ⟨fun _ => rfl⟩

instance : IsTrans Machine SameAway := ⟨fun _ _ _ h h' => Eq.trans h' h⟩

theorem cmosWriteByte_away (h : cmosCksStart ≤ i) : Along SameAway (cmosWriteByte i v) := by
  intro m
  by_cases hi : i ≤ 0x7f
  · obtain ⟨m', hr, hw⟩ := cmosWriteByte_spec hi h v m
    rw [hr]
    exact hw.away
  · unfold cmosWriteByte
    rw [if_pos (by simp only [cmosInfoMax]; omega)]
    rfl

theorem writeBytes_away (vs : List UInt8) (h : cmosCksStart ≤ k) :
    Along SameAway (writeBytes k vs) := by
  induction vs generalizing k with
  | nil => exact .pure _
  | cons v vs ih => exact .bind (cmosWriteByte_away h) fun _ => ih (Nat.le_succ_of_le h)

theorem cmosSetChecksum_away : Along SameAway cmosSetChecksum :=
  fun m => (cmosSetChecksum_spec m).2

theorem along_away {p : RomM α} (h : Along Kept p) : Along SameAway p := fun m => (h m).away

theorem cmosWriteAllFlags_away (flags : Int32) : Along SameAway (cmosWriteAllFlags flags) :=
  .bind (cmosWriteByte_away (by decide)) fun _ => .bind (cmosWriteByte_away (by decide)) fun _ =>
    cmosSetChecksum_away

theorem cmosWriteFlag_away (flag val : Int32) : Along SameAway (cmosWriteFlag flag val) :=
  .ite (fun _ => .pure _) fun _ => .bind (along_away cmosReadAllFlags_kept) fun _ =>
    .bind (cmosWriteAllFlags_away _) fun _ => .pure _

/-- Other ports do not select a bank. -/
theorem outb_other (m : Machine) {port : Nat} (h : port ≠ 0x70) (h' : port ≠ 0x71) :
    (m.outb v port).rtc = m.rtc ∧ SameAway m (m.outb v port) := by
  rw [Machine.outb, if_neg h', if_neg h]
  exact ⟨rfl, rfl⟩

theorem clearWake_away (ks : List UInt8) : Along SameAway (clearWake ks) := by
  induction ks with
  | nil => exact .pure _
  | cons k ks ih =>
    exact .bind (fun m => (outb_other m (by decide) (by decide)).2) fun _ =>
      .bind (fun m => (outb_other m (by decide) (by decide)).2) fun _ => ih

theorem cmosSetPowerapply_away (state : Bool) : Along SameAway (cmosSetPowerapply state) := by
  unfold cmosSetPowerapply
  refine .bind (.bind .get fun _ => .pure _) fun _ => ?_
  split
  · refine .bind (along_away (inb_kept _)) fun _ => ?_
    exact fun m => (outb_other m (by decide) (by decide)).2
  · exact .pure _

theorem outb_board (m : Machine) (v : UInt8) (port : Nat) :
    (m.outb v port).systype = m.systype ∧ (m.outb v port).boardtype = m.boardtype := by
  unfold Machine.outb
  split
  · split <;> exact ⟨rfl, rfl⟩
  · split <;> exact ⟨rfl, rfl⟩

/-- Register A put back, on the same board. -/
theorem outb_cra {n : Machine} (hs : n.systype = m.systype) (hb : n.boardtype = m.boardtype) :
    SameAway m ((n.outb (UInt8.ofNat pnpNsRtcCra) 0x70).outb
      ((m.outb (UInt8.ofNat pnpNsRtcCra) 0x70).inb 0x71) 0x71) := by
  rw [inb_low m (by decide), outb_low n (by decide)]
  exact away_congr hs hb (Function.update_self pnpNsRtcCra (m.rtc.ram pnpNsRtcCra) n.rtc.ram)

theorem cmosSetPowerfail_away (state : Bool) : Along SameAway (cmosSetPowerfail state) := by
  intro m
  have hcond : systypeIs5k.run m = (decide (m.systype = .s5000), m) := rfl
  unfold cmosSetPowerfail
  rw [run_bind_of hcond]
  by_cases h : m.systype = .s5000
  · rw [decide_eq_true h, if_pos rfl]
    exact outb_cra (by simp only [outb_board]) (by simp only [outb_board])
  · rw [decide_eq_false h, if_neg Bool.false_ne_true]
    rfl

theorem cmosSetDefaults_away : Along SameAway cmosSetDefaults := by
  unfold cmosSetDefaults
  refine .bind (cmosWriteByte_away (by decide)) fun _ => ?_
  refine .bind (cmosWriteByte_away (by decide)) fun _ => ?_
  iterate 4 refine .bind (cmosWriteFlag_away _ _) fun _ => ?_
  refine .bind (cmosWriteByte_away (by decide)) fun _ => ?_
  refine .bind (cmosWriteByte_away (by decide)) fun _ => ?_
  refine .bind (.bind .get fun _ => .pure _) fun _ => ?_
  iterate 4 refine .bind (cmosWriteByte_away (by decide)) fun _ => ?_
  refine .bind (cmosSetPowerapply_away _) fun _ => ?_
  refine .bind (cmosSetPowerfail_away _) fun _ => ?_
  exact .bind (writeBytes_away _ (by decide)) fun _ =>
    .bind (cmosWriteByte_away (by decide)) fun _ => cmosSetChecksum_away

theorem cmosWriteSerialNum_away (sn : Name) : Along SameAway (cmosWriteSerialNum sn) :=
  .bind (writeBytes_away _ (by decide)) fun _ => .bind (cmosWriteByte_away (by decide)) fun _ =>
    cmosSetChecksum_away

theorem cmosFirstBootDefaultsOnly_away (resetSn : Int32) :
    Along SameAway (cmosFirstBootDefaultsOnly resetSn) := by
  have hend : Along SameAway (do
      let _ ← cmosWriteByte cmosBootMethod cmosBootMethodNnet
      if (← boardtype) = .alpine then clearWake ((List.range 0x20).map UInt8.ofNat)
      cmosSetChecksum) := by
    refine .bind (cmosWriteByte_away (by decide)) fun _ => .bind (.bind .get fun _ => .pure _)
      fun _ => ?_
    split
    · exact .bind (clearWake_away _) fun _ => cmosSetChecksum_away
    · exact cmosSetChecksum_away
  unfold cmosFirstBootDefaultsOnly
  refine .bind (writeBytes_away _ (by decide)) fun _ => .bind (writeBytes_away _ (by decide))
    fun _ => .bind (writeBytes_away _ (by decide)) fun _ => ?_
  split
  · exact .bind (cmosWriteSerialNum_away _) fun _ => hend
  · exact hend

/-- `Kept`, as long as bank 0 is seen. -/
def HomeKept (m m' : Machine) : Prop := m.away = false → Kept m m'

instance : Std.Refl HomeKept := ⟨fun m _ => Kept.refl m⟩

instance : IsTrans Machine HomeKept :=
  ⟨fun _ _ _ h h' hm => (h hm).trans (h' ((h hm).away.trans hm))⟩

/-- A clock register, which does not go over to bank 2. -/
theorem outb_home (hi : i < cmosCksStart) (hv : i = pnpNsRtcCra → v &&& 0x70 ≠ pnpNsRtcBank2) :
    HomeKept m ((m.outb (UInt8.ofNat i) 0x70).outb v 0x71) := by
  intro hm
  rw [outb_low m (Nat.lt_trans hi (by decide))]
  have haway : Machine.away ⟨m.systype, m.boardtype, m.version, ⟨UInt8.ofNat i,
      Function.update m.rtc.ram i v, m.rtc.apc⟩, m.ports, m.glob⟩ = false := by
    by_cases h : i = pnpNsRtcCra
    · subst h
      rw [Machine.away, Machine.bank2]
      simp only [Function.update_self, decide_eq_false (hv rfl), Bool.and_false, Bool.false_and]
    · have hcra : Function.update m.rtc.ram i v pnpNsRtcCra = m.rtc.ram pnpNsRtcCra :=
        Function.update_of_ne (Ne.symm h) _ _
      refine Eq.trans (away_congr ?_ ?_ hcra) hm <;> rfl
  refine ⟨haway.trans hm.symm, fun j hj => ?_⟩
  rw [view_eq_ram haway, view_eq_ram hm]
  exact Function.update_of_ne (Nat.ne_of_gt (Nat.lt_of_lt_of_le hi hj)) _ _

theorem rtcBeginSet_home : Along HomeKept rtcBeginSet :=
  fun _ => outb_home (i := 0x0b) (by decide) fun h => absurd h (by decide)

theorem rtcEndSet_home : Along HomeKept rtcEndSet :=
  fun _ => outb_home (i := 0x0b) (by decide) fun h => absurd h (by decide)

theorem setReg_home {p : RomM α} (hi : i < cmosCksStart)
    (hv : i = pnpNsRtcCra → v &&& 0x70 ≠ pnpNsRtcBank2) (hp : Along HomeKept p) :
    Along HomeKept (do
      outb (UInt8.ofNat i) cmosAddrPort
      outb v cmosDataPort
      p) :=
  fun m => IsTrans.trans m _ _ (outb_home hi hv) (hp _)

theorem writeRegs_home (vs : List UInt8) (h : i + vs.length ≤ pnpNsRtcCra) :
    Along HomeKept (writeRegs (UInt8.ofNat i) vs) := by
  induction vs generalizing i with
  | nil => exact .pure _
  | cons v vs ih =>
    simp only [pnpNsRtcCra, List.length_cons] at h
    have hnext : UInt8.ofNat i + 1 = UInt8.ofNat (i + 1) := by simp
    refine setReg_home (by simp only [cmosCksStart]; omega) (fun e => ?_) ?_
    · simp only [pnpNsRtcCra] at e
      omega
    · rw [hnext]
      exact ih (by simp only [pnpNsRtcCra]; omega)

theorem rtcSetVals_home : Along HomeKept (rtcSetVals defaultVals) :=
  .bind rtcBeginSet_home fun _ =>
    .bind (writeRegs_home (i := 0) defaultVals (by decide)) fun _ => rtcEndSet_home

theorem rtcSetDefaults_home : Along HomeKept rtcSetDefaults :=
  .bind rtcBeginSet_home fun _ => .bind rtcSetVals_home fun _ =>
    setReg_home (i := 0x0a) (by decide) (by decide) <|
      setReg_home (i := 0x0b) (by decide) (by decide) <|
        setReg_home (i := 0x0d) (by decide) (by decide) rtcEndSet_home

theorem cmosResetFunc_valid (argv : List Name) (hm : argv.length = 1 → m.away = false)
    (hv : m.Valid) : ((cmosResetFunc argv).run m).2.Valid := by
  unfold cmosResetFunc
  split
  case isTrue => exact hv
  case isFalse hone =>
    have hm := hm (not_not.mp hone)
    have haway := (cmosSetDefaults_away _).trans ((cmosFirstBootDefaultsOnly_away 0 m).trans hm)
    have htail : Along HomeKept (do
        rtcSetDefaults
        pure (0 : Int)) := .bind rtcSetDefaults_home fun _ => .pure _
    rw [run_bind_snd, run_bind_snd]
    exact (htail _ haway).valid_iff.2 (repairs_cmosSetDefaults _)

/-! ### `bto_code` -/

theorem writeBytes_spec (vs : List UInt8) (hk : cmosCksStart ≤ k) (h : k + vs.length ≤ 0x80)
    (m : Machine) : ∃ m', (writeBytes k vs).run m = ((), m') ∧
      ∀ j, cmosCksStart ≤ j →
        m'.view j = if k ≤ j ∧ j < k + vs.length then vs.getD (j - k) 0 else m.view j := by
  induction vs generalizing k m with
  | nil =>
    refine ⟨m, rfl, fun j _ => ?_⟩
    rw [if_neg (by simp only [List.length_nil]; omega)]
  | cons v vs ih =>
    simp only [List.length_cons] at h
    obtain ⟨m₁, hr₁, hw₁⟩ := cmosWriteByte_spec (i := k) (by omega) hk v m
    obtain ⟨m₂, hr₂, hv₂⟩ := ih (k := k + 1) (Nat.le_succ_of_le hk) (by omega) m₁
    refine ⟨m₂, ?_, fun j hj => ?_⟩
    · unfold writeBytes
      rw [run_bind_of hr₁, hr₂]
    · rw [hv₂ j hj]
      simp only [List.length_cons]
      by_cases hjk : j = k
      · subst hjk
        rw [if_neg (by omega), if_pos (by omega), hw₁.view_self hk, Nat.sub_self]
        rfl
      · rw [hw₁.view_ne hj hjk]
        by_cases hin : k + 1 ≤ j ∧ j < k + 1 + vs.length
        · rw [if_pos hin, if_pos (by omega), show j - k = j - (k + 1) + 1 by omega]
          rfl
        · rw [if_neg hin, if_neg (by omega)]

/-- The sum of some bytes. -/
def byteSum (vs : List UInt8) : Nat := (vs.map UInt8.toNat).sum

/-- The bytes that count, at the indices `is`. -/
def counted (f : Nat → UInt8) (is : List Nat) : List UInt8 :=
  is.map fun i => if i = cmosChecksum ∨ i = cmosChecksum + 1 then 0 else f i

theorem cksSum_toNat (f : Nat → UInt8) (is : List Nat) (sum : UInt16) :
    (cksSum f is sum).toNat = (sum.toNat + byteSum (counted f is)) % 2 ^ 16 := by
  induction is generalizing sum with
  | nil =>
    rw [Nat.mod_eq_of_lt]
    · rfl
    · exact sum.toNat_lt
  | cons i is ih =>
    unfold cksSum
    simp only [counted, List.map_cons, byteSum, List.sum_cons] at ih ⊢
    by_cases hi : i = cmosChecksum ∨ i = cmosChecksum + 1
    · rw [if_pos hi, if_pos hi, ih]
      simp
    · rw [if_neg hi, if_neg hi, ih, UInt16.toNat_add, UInt8.toNat_toUInt16, Nat.mod_add_mod,
        Nat.add_assoc]

theorem byteSum_lt (vs : List UInt8) : byteSum vs ≤ 255 * vs.length := by
  induction vs with
  | nil => exact Nat.le_refl _
  | cons v vs ih =>
    have := v.toNat_lt
    simp only [byteSum, List.map_cons, List.sum_cons, List.length_cons] at ih ⊢
    omega

/-- The stored bytes of the BTO code. -/
def Machine.btoBytes (m : Machine) : List UInt8 := (List.range' cmosBtoCode0 4).map m.view

theorem byteSum_range (f : Nat → UInt8) : byteSum (counted f cksRange) =
    byteSum (counted f (List.range' 0x0e 0x45)) + byteSum ((List.range' cmosBtoCode0 4).map f) +
      byteSum (counted f (List.range' 0x57 0x29)) := by
  have hsplit : cksRange = List.range' 0x0e 0x45 ++ (List.range' cmosBtoCode0 4 ++
      List.range' 0x57 0x29) := by decide
  have hmid : counted f (List.range' cmosBtoCode0 4) = (List.range' cmosBtoCode0 4).map f := rfl
  rw [hsplit, ← hmid]
  simp only [counted, byteSum, List.map_append, List.sum_append, Nat.add_assoc]

theorem counted_congr {f f' : Nat → UInt8} {is : List Nat} (h : ∀ i ∈ is, f i = f' i) :
    counted f is = counted f' is :=
  List.map_congr_left fun i hi => by rw [h i hi]

/-- Without a new checksum, new bytes for the BTO code pass only if they have the sum of the
old ones. -/
theorem btoCode_valid_iff (val : UInt32) (hv : m.Valid) :
    ((writeBytes cmosBtoCode0 (btoCodeBytes val)).run m).2.Valid ↔
      byteSum (btoCodeBytes val) = byteSum m.btoBytes := by
  obtain ⟨m', hr, hview⟩ := writeBytes_spec (k := cmosBtoCode0) (btoCodeBytes val) (by decide)
    (show 0x57 ≤ 0x80 by decide) m
  have hoff : ∀ j, cmosCksStart ≤ j → ¬ (0x53 ≤ j ∧ j < 0x57) → m'.view j = m.view j :=
    fun j hj h => (hview j hj).trans (if_neg h)
  have hnew : (List.range' cmosBtoCode0 4).map m'.view = btoCodeBytes val := by
    have h : ∀ j, 0x53 ≤ j ∧ j < 0x57 → m'.view j = (btoCodeBytes val).getD (j - 0x53) 0 :=
      fun j hj => (hview j (Nat.le_trans (by decide) hj.1)).trans (if_pos hj)
    change [m'.view 0x53, m'.view 0x54, m'.view 0x55, m'.view 0x56] = _
    rw [h 0x53 (by decide), h 0x54 (by decide), h 0x55 (by decide), h 0x56 (by decide)]
    rfl
  have hlo : counted m'.view (List.range' 0x0e 0x45) = counted m.view (List.range' 0x0e 0x45) :=
    counted_congr fun i hi => by
      have := List.mem_range'_1.1 hi
      exact hoff i this.1 (by omega)
  have hhi : counted m'.view (List.range' 0x57 0x29) = counted m.view (List.range' 0x57 0x29) :=
    counted_congr fun i hi => by
      have := List.mem_range'_1.1 hi
      exact hoff i (Nat.le_trans (by decide) this.1) (by omega)
  have hsum : m'.Valid ↔ (cksSum m'.view cksRange 0).toNat = (cksSum m.view cksRange 0).toNat := by
    rw [Machine.Valid, hoff cmosChecksum (by decide) (by decide),
      hoff (cmosChecksum + 1) (by decide) (by decide), ← hv]
  rw [hr, hsum, cksSum_toNat, cksSum_toNat, byteSum_range, byteSum_range, hnew, hlo, hhi]
  have hold : byteSum m.btoBytes ≤ 255 * 4 := byteSum_lt m.btoBytes
  have hlt : byteSum (btoCodeBytes val) ≤ 255 * 4 := byteSum_lt _
  simp only [Machine.btoBytes, UInt16.toNat_zero] at hold ⊢
  omega

theorem btoCodeFunc_valid_iff {cmd arg : Name} {n : UInt32} {p : RomM Int}
    (hn : number arg = some (some n)) (h : btoCodeFunc [cmd, arg] = some p) (hv : m.Valid) :
    (p.run m).2.Valid ↔ byteSum (btoCodeBytes n) = byteSum m.btoBytes := by
  have hr : numbers [arg] = some (some [n]) := by
    simp only [numbers, hn, Option.map_some]
  unfold btoCodeFunc at h
  rw [if_neg (by simp), if_neg (by simp), List.tail_cons, hr, Option.map_some] at h
  rw [← Option.some.inj h, run_bind_snd, run_pure_snd]
  exact btoCode_valid_iff n hv

/-! ### Runs -/

/-- A number given to `bto_code` has bytes of the same sum as the stored ones; `cmos_reset`
without arguments finds bank 0 in view. -/
def Op.Safe (m : Machine) : Op → Prop
  | .btoCode [_, arg] => ∀ n, number arg = some (some n) →
      byteSum (btoCodeBytes n) = byteSum m.btoBytes
  | .cmosReset [_] => m.away = false
  | _ => True

/-- What runs of safe operations lead to. -/
inductive Reached (m : Machine) : Machine → Prop where
  | start : Reached m m
  | step {a b : Machine} {o : Op} (h : Reached m a) (hsafe : o.Safe a) (hstep : o.step a = some b) :
    Reached m b

theorem run_discard (p : RomM α) (m : Machine) :
    ((p *> Pure.pure ()).run m).2 = (p.run m).2 := rfl

theorem btoCode_step {argv : List Name} (hsafe : (Op.btoCode argv).Safe m) (hv : m.Valid)
    (hstep : (Op.btoCode argv).step m = some m') : m'.Valid := by
  obtain ⟨q, hq, rfl⟩ := Option.map_eq_some_iff.1 hstep
  obtain ⟨p, hp, rfl⟩ := Option.map_eq_some_iff.1 hq
  rw [run_discard]
  match argv, hsafe, hp with
  | [], _, hp =>
    cases hp
    exact hv
  | [_], _, hp =>
    cases hp
    exact settled_of_kept (.bind (readBytes_kept _ _) fun _ => .pure _) m hv
  | [cmd, arg], hsafe, hp =>
    cases hn : number arg with
    | none =>
      simp [btoCodeFunc, numbers, hn] at hp
    | some r =>
      cases r with
      | none =>
        simp only [btoCodeFunc, List.length_cons, List.length_nil, List.tail_cons,
          numbers, hn] at hp
        cases hp
        exact hv
      | some n => exact (btoCodeFunc_valid_iff hn hp hv).2 (hsafe n hn)
  | _ :: _ :: _ :: _, _, hp =>
    cases hp
    exact hv

theorem step_valid {o : Op} (hsafe : o.Safe m) (hv : m.Valid) (hstep : o.step m = some m') :
    m'.Valid := by
  by_cases hcode : ∃ argv, o = .btoCode argv
  · obtain ⟨argv, rfl⟩ := hcode
    exact btoCode_step hsafe hv hstep
  obtain ⟨q, hq, rfl⟩ := Option.map_eq_some_iff.1 hstep
  cases o with
  | writeCmos argv =>
    obtain ⟨p, hp, rfl⟩ := Option.map_eq_some_iff.1 hq
    rw [run_discard]
    exact settled_writeCmosFunc hp m hv
  | cmosReset argv =>
    cases hq
    rw [run_discard]
    refine cmosResetFunc_valid argv (fun hone => ?_) hv
    obtain ⟨cmd, rfl⟩ := List.length_eq_one_iff.mp hone
    exact hsafe
  | cmosFlags argv =>
    cases hq
    rw [run_discard]
    exact settled_cmosFlagsFunc argv m hv
  | btoIp argv =>
    obtain ⟨p, hp, rfl⟩ := Option.map_eq_some_iff.1 hq
    rw [run_discard]
    exact settled_btoIpFunc hp m hv
  | btoCode argv => exact absurd ⟨argv, rfl⟩ hcode
  | writeFlag flag val =>
    cases hq
    rw [run_discard]
    exact settled_cmosWriteFlag flag val m hv
  | writeAllFlags flags =>
    rw [← Option.some.inj hq]
    exact repairs_cmosWriteAllFlags flags m
  | setBtoIp ip =>
    rw [← Option.some.inj hq]
    exact repairs_cmosSetBtoIp ip m
  | setDefaults =>
    rw [← Option.some.inj hq]
    exact repairs_cmosSetDefaults m
  | firstBootDefaultsOnly resetSn =>
    rw [← Option.some.inj hq]
    exact repairs_cmosFirstBootDefaultsOnly resetSn m

theorem reached_valid (h : Reached m m') (hv : m.Valid) : m'.Valid := by
  induction h with
  | start => exact hv
  | step _ hsafe hstep ih => exact step_valid hsafe ih hstep

/-! ### The next start -/

/-- The first boot flag is left alone. -/
def SameFirstBoot (m m' : Machine) : Prop := m'.glob.firstBoot = m.glob.firstBoot

instance : Std.Refl SameFirstBoot := ⟨fun _ => rfl⟩

instance : IsTrans Machine SameFirstBoot := ⟨fun _ _ _ h h' => Eq.trans h' h⟩

theorem syncFlag_firstBoot (dir : Bool) (g : Globals) (f : CmosFlag) :
    (syncFlag dir g f).1.firstBoot = g.firstBoot := by
  unfold syncFlag
  repeat' split
  all_goals rfl

theorem syncFlags_firstBoot (dir : Bool) (fs : List CmosFlag) (g : Globals) :
    (syncFlags dir g fs).1.firstBoot = g.firstBoot := by
  induction fs generalizing g with
  | nil => rfl
  | cons f fs ih => exact (ih _).trans (syncFlag_firstBoot dir g f)

theorem cmosFlagsSync_firstBoot (dir : Bool) : Along SameFirstBoot (cmosFlagsSync dir) :=
  fun m => syncFlags_firstBoot dir m.glob.cmosFlags m.glob

theorem initSettings_firstBoot : Along SameFirstBoot initSettings := by
  intro m
  rw [initSettings_run]
  exact (cmosFlagsSync_firstBoot false _).trans (initHead_frame m).firstBoot

/-- With a right checksum `cmos_init` does not take this for the first boot. -/
theorem cmosInit_firstBoot (hv : m.Valid) : (cmosInit.run m).2.glob.firstBoot = 0 := by
  obtain ⟨m₁, hr₁, -⟩ := cmosCheckChecksum_spec m
  rw [decide_eq_true hv] at hr₁
  unfold cmosInit
  rw [run_bind_of hr₁, Bool.not_true, if_neg Bool.false_ne_true, run_bind_snd]
  exact initSettings_firstBoot _

/-- The check finds the checksum right in every state that safe operations lead to, and the settings
survive the next start. -/
theorem checksum_along_run (m m' : Machine) (hv : (cmosCheckChecksum.run m).1 = true)
    (hr : Reached m m') : (cmosCheckChecksum.run m').1 = true ∧
      (cmosInit.run m').2.glob.firstBoot = 0 := by
  obtain ⟨m₁, hr₁, -⟩ := cmosCheckChecksum_spec m
  obtain ⟨m₂, hr₂, -⟩ := cmosCheckChecksum_spec m'
  rw [hr₁] at hv
  have hvalid := reached_valid hr (of_decide_eq_true hv)
  rw [hr₂]
  exact ⟨decide_eq_true hvalid, cmosInit_firstBoot hvalid⟩

/-- A board of the 3000 series whose CMOS is all zero. -/
def blank : Machine where
  systype := .s3000
  boardtype := .pacifica
  version := (2, 10, 3)
  rtc := ⟨0, fun _ => 0, fun _ => 0⟩
  ports := fun _ => 0
  glob := ⟨[], 0, 0, 0, 0, 0, 0, 0, 0, 0, 0, 0, 0, initialFlags⟩

/-- "bto_code" and an argument. -/
def btoCodeArgs (arg : Name) : List Name := [[98, 116, 111, 95, 99, 111, 100, 101], arg]

/-- The defaults on a blank CMOS. -/
theorem checksum_along_run_defaults :
    (cmosCheckChecksum.run (cmosSetDefaults.run blank).2).1 = true ∧
      (cmosInit.run (cmosSetDefaults.run blank).2).2.glob.firstBoot = 0 :=
  checksum_along_run blank _ (by decide +kernel)
    (.step (o := .setDefaults) .start trivial rfl)

/-- "bto_code 1" on the blank CMOS: the checksum, right before, is wrong after it. -/
theorem btoCode_breaks : (cmosCheckChecksum.run blank).1 = true ∧
    ((Op.btoCode (btoCodeArgs [49])).step blank).map (fun m =>
      (cmosCheckChecksum.run m).1) = some false := by
  decide +kernel

end Cmos
