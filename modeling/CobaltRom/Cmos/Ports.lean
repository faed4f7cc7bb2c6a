import CobaltRom.Lib.Along
import CobaltRom.Cmos.Monitor

/-! Programs that work on the ports only: the board and the variables stay as they are. The
parts of `cmos_init` that set variables keep some of those. -/
namespace Cmos

structure OnlyPorts (m m' : Machine) : Prop where
  systype : m'.systype = m.systype
  boardtype : m'.boardtype = m.boardtype
  version : m'.version = m.version
  glob : m'.glob = m.glob

variable {α : Type} {m m' m'' : Machine}

theorem OnlyPorts.refl (m : Machine) : OnlyPorts m m := ⟨rfl, rfl, rfl, rfl⟩

theorem OnlyPorts.trans (h : OnlyPorts m m') (h' : OnlyPorts m' m'') : OnlyPorts m m'' :=
  ⟨h'.systype.trans h.systype, h'.boardtype.trans h.boardtype, h'.version.trans h.version,
    h'.glob.trans h.glob⟩

instance : Std.Refl OnlyPorts := ⟨OnlyPorts.refl⟩

instance : IsTrans Machine OnlyPorts := ⟨fun _ _ _ => OnlyPorts.trans⟩

theorem outb_ports (v : UInt8) (port : Nat) : Along OnlyPorts (outb v port) := by
  intro m
  change OnlyPorts m (m.outb v port)
  unfold Machine.outb
  split
  · split <;> exact ⟨rfl, rfl, rfl, rfl⟩
  · split <;> exact ⟨rfl, rfl, rfl, rfl⟩

theorem inb_ports (port : Nat) : Along OnlyPorts (inb port) := fun m => OnlyPorts.refl m

theorem forceBank0_ports : Along OnlyPorts forceBank0 := by
  refine .bind (.bind .get fun _ => .pure _) fun _ => .ite (fun _ => ?_) fun _ => .pure _
  exact .bind (outb_ports _ _) fun _ => .bind (inb_ports _) fun _ => outb_ports _ _

theorem cmosReadByte_ports (i : Nat) : Along OnlyPorts (cmosReadByte i) :=
  .ite (fun _ => .pure _) fun _ => .bind forceBank0_ports fun _ =>
    .bind (outb_ports _ _) fun _ => inb_ports _

theorem cmosWriteByte_ports (i : Nat) (v : UInt8) : Along OnlyPorts (cmosWriteByte i v) :=
  .ite (fun _ => .pure _) fun _ => .bind forceBank0_ports fun _ =>
    .bind (outb_ports _ _) fun _ => .bind (outb_ports _ _) fun _ => .pure _

theorem writeBytes_ports (k : Nat) (vs : List UInt8) : Along OnlyPorts (writeBytes k vs) := by
  induction vs generalizing k with
  | nil => exact .pure _
  | cons v vs ih => exact .bind (cmosWriteByte_ports k v) fun _ => ih (k + 1)

theorem readBytes_ports (k n : Nat) : Along OnlyPorts (readBytes k n) := by
  induction n generalizing k with
  | zero => exact .pure _
  | succ n ih => exact .bind (cmosReadByte_ports k) fun _ => .bind (ih _) fun _ => .pure _

theorem sumBytes_ports (is : List Nat) (sum : UInt16) : Along OnlyPorts (sumBytes is sum) := by
  induction is generalizing sum with
  | nil => exact .pure _
  | cons i is ih => exact .ite (fun _ => ih _) fun _ => .bind (cmosReadByte_ports i) fun _ => ih _

theorem cmosCheckChecksum_ports : Along OnlyPorts cmosCheckChecksum :=
  .bind (sumBytes_ports _ _) fun _ => .bind (cmosReadByte_ports _) fun _ =>
    .bind (cmosReadByte_ports _) fun _ => .pure _

theorem cmosSetChecksum_ports : Along OnlyPorts cmosSetChecksum :=
  .bind (sumBytes_ports _ _) fun _ => .bind (cmosWriteByte_ports _ _) fun _ =>
    .bind (cmosWriteByte_ports _ _) fun _ => .pure _

theorem cmosReadAllFlags_ports : Along OnlyPorts cmosReadAllFlags :=
  .bind (cmosReadByte_ports _) fun _ => .bind (cmosReadByte_ports _) fun _ => .pure _

theorem cmosReadFlag_ports (flag : Int32) : Along OnlyPorts (cmosReadFlag flag) :=
  .ite (fun _ => .pure _) fun _ => .bind cmosReadAllFlags_ports fun _ => .pure _

theorem cmosWriteFlag_ports (flag val : Int32) : Along OnlyPorts (cmosWriteFlag flag val) :=
  .ite (fun _ => .pure _) fun _ => .bind cmosReadAllFlags_ports fun _ =>
    .bind (.bind (cmosWriteByte_ports _ _) fun _ => .bind (cmosWriteByte_ports _ _)
      fun _ => cmosSetChecksum_ports) fun _ => .pure _

theorem cmosWriteRomRev_ports : Along OnlyPorts cmosWriteRomRev :=
  .bind .get fun _ => .bind (cmosWriteByte_ports _ _) fun _ =>
    .bind (cmosWriteByte_ports _ _) fun _ => .bind (cmosWriteByte_ports _ _) fun _ =>
      cmosSetChecksum_ports

theorem cmosReadSerialNum_ports : Along OnlyPorts cmosReadSerialNum := by
  unfold cmosReadSerialNum
  refine .bind (readBytes_ports _ _) fun _ => .bind (cmosReadByte_ports _) fun _ => ?_
  refine .ite (fun _ => .bind (.bind .get fun _ => .pure _) fun _ => .ite (fun _ => ?_)
    fun _ => .pure _) fun _ => .pure _
  refine .bind (cmosReadByte_ports _) fun _ => .ite (fun _ => ?_) fun _ => .pure _
  exact .bind (cmosWriteByte_ports _ _) fun _ => .bind cmosSetChecksum_ports fun _ => .pure _

theorem initVersion_ports : Along OnlyPorts initVersion :=
  .bind (cmosReadFlag_ports _) fun _ => .ite (fun _ => .bind (cmosWriteFlag_ports _ _)
    fun _ => .bind (cmosWriteByte_ports _ _) fun _ => .pure _) fun _ => .pure _

/-! ### The defaults -/

theorem cmosSetPowerapply_ports (state : Bool) : Along OnlyPorts (cmosSetPowerapply state) :=
  .bind (.bind .get fun _ => .pure _) fun _ => .ite (fun _ => .bind (inb_ports _)
    fun _ => outb_ports _ _) fun _ => .pure _

theorem cmosSetPowerfail_ports (state : Bool) : Along OnlyPorts (cmosSetPowerfail state) := by
  unfold cmosSetPowerfail
  refine .bind (.bind .get fun _ => .pure _) fun _ => .ite (fun _ => ?_) fun _ => .pure _
  refine .bind (outb_ports _ _) fun _ => .bind (inb_ports _) fun _ => ?_
  refine .bind (outb_ports _ _) fun _ => .bind (outb_ports _ _) fun _ => ?_
  refine .bind (inb_ports _) fun _ => .bind (outb_ports _ _) fun _ => ?_
  exact .bind (outb_ports _ _) fun _ => outb_ports _ _

theorem cmosSetDefaults_ports : Along OnlyPorts cmosSetDefaults := by
  unfold cmosSetDefaults
  iterate 2 refine .bind (cmosWriteByte_ports _ _) fun _ => ?_
  iterate 4 refine .bind (cmosWriteFlag_ports _ _) fun _ => ?_
  iterate 2 refine .bind (cmosWriteByte_ports _ _) fun _ => ?_
  refine .bind (.bind .get fun _ => .pure _) fun _ => ?_
  iterate 4 refine .bind (cmosWriteByte_ports _ _) fun _ => ?_
  refine .bind (cmosSetPowerapply_ports _) fun _ => .bind (cmosSetPowerfail_ports _) fun _ => ?_
  exact .bind (writeBytes_ports _ _) fun _ => .bind (cmosWriteByte_ports _ _)
    fun _ => cmosSetChecksum_ports

theorem cmosWriteSerialNum_ports (sn : Name) : Along OnlyPorts (cmosWriteSerialNum sn) :=
  .bind (writeBytes_ports _ _) fun _ => .bind (cmosWriteByte_ports _ _)
    fun _ => cmosSetChecksum_ports

theorem clearWake_ports (ks : List UInt8) : Along OnlyPorts (clearWake ks) := by
  induction ks with
  | nil => exact .pure _
  | cons k ks ih =>
    exact .bind (outb_ports _ _) fun _ => .bind (outb_ports _ _) fun _ => ih

theorem cmosFirstBootDefaultsOnly_ports (resetSn : Int32) :
    Along OnlyPorts (cmosFirstBootDefaultsOnly resetSn) := by
  have hend : Along OnlyPorts (do
      let _ ← cmosWriteByte cmosBootMethod cmosBootMethodNnet
      if (← boardtype) = .alpine then clearWake ((List.range 0x20).map UInt8.ofNat)
      cmosSetChecksum) :=
    .bind (cmosWriteByte_ports _ _) fun _ => .bind (.bind .get fun _ => .pure _) fun _ =>
      .ite (fun _ => .bind (clearWake_ports _) fun _ => cmosSetChecksum_ports)
        fun _ => cmosSetChecksum_ports
  unfold cmosFirstBootDefaultsOnly
  iterate 3 refine .bind (writeBytes_ports _ _) fun _ => ?_
  exact .ite (fun _ => .bind (cmosWriteSerialNum_ports _) fun _ => hend) fun _ => hend

theorem rtcBeginSet_ports : Along OnlyPorts rtcBeginSet :=
  .bind (outb_ports _ _) fun _ => .bind (inb_ports _) fun _ => outb_ports _ _

theorem rtcEndSet_ports : Along OnlyPorts rtcEndSet :=
  .bind (outb_ports _ _) fun _ => .bind (inb_ports _) fun _ => outb_ports _ _

theorem writeRegs_ports (k : UInt8) (vs : List UInt8) : Along OnlyPorts (writeRegs k vs) := by
  induction vs generalizing k with
  | nil => exact .pure _
  | cons v vs ih =>
    exact .bind (outb_ports _ _) fun _ => .bind (outb_ports _ _) fun _ => ih _

theorem rtcSetDefaults_ports : Along OnlyPorts rtcSetDefaults := by
  refine .bind rtcBeginSet_ports fun _ => .bind (.bind rtcBeginSet_ports fun _ =>
    .bind (writeRegs_ports _ _) fun _ => rtcEndSet_ports) fun _ => ?_
  iterate 6 refine .bind (outb_ports _ _) fun _ => ?_
  exact rtcEndSet_ports

theorem doFirstBoot_ports : Along OnlyPorts doFirstBoot :=
  .bind cmosSetDefaults_ports fun _ => .bind (cmosFirstBootDefaultsOnly_ports _)
    fun _ => rtcSetDefaults_ports

/-! ### The variables that `cmos_init` keeps -/

/-- The board, the mark of the first boot and the flag table are kept. -/
structure SameFrame (m m' : Machine) : Prop where
  systype : m'.systype = m.systype
  boardtype : m'.boardtype = m.boardtype
  version : m'.version = m.version
  firstBoot : m'.glob.firstBoot = m.glob.firstBoot
  cmosFlags : m'.glob.cmosFlags = m.glob.cmosFlags

instance : Std.Refl SameFrame := ⟨fun _ => ⟨rfl, rfl, rfl, rfl, rfl⟩⟩

instance : IsTrans Machine SameFrame :=
  ⟨fun _ _ _ h h' => ⟨h'.systype.trans h.systype, h'.boardtype.trans h.boardtype,
    h'.version.trans h.version, h'.firstBoot.trans h.firstBoot, h'.cmosFlags.trans h.cmosFlags⟩⟩

theorem OnlyPorts.frame (h : OnlyPorts m m') : SameFrame m m' :=
  ⟨h.systype, h.boardtype, h.version, congrArg Globals.firstBoot h.glob,
    congrArg Globals.cmosFlags h.glob⟩

theorem along_frame {p : RomM α} (h : Along OnlyPorts p) : Along SameFrame p := fun m => (h m).frame

theorem setGlob_frame {f : Globals → Globals} (hb : ∀ g, (f g).firstBoot = g.firstBoot)
    (hf : ∀ g, (f g).cmosFlags = g.cmosFlags) : Along SameFrame (setGlob f) :=
  fun m => ⟨rfl, rfl, rfl, hb m.glob, hf m.glob⟩

theorem initBtoIp_frame : Along SameFrame initBtoIp := by
  unfold initBtoIp
  iterate 5 refine .bind (along_frame (cmosReadByte_ports _)) fun _ => ?_
  refine .ite (fun _ => ?_) fun _ => setGlob_frame (fun _ => rfl) fun _ => rfl
  exact .bind (along_frame (writeBytes_ports _ _)) fun _ =>
    .bind (along_frame (cmosWriteByte_ports _ _)) fun _ =>
      .bind (along_frame cmosSetChecksum_ports) fun _ => setGlob_frame (fun _ => rfl) fun _ => rfl

theorem initVariables_frame : Along SameFrame initVariables := by
  unfold initVariables
  iterate 7 refine .bind (along_frame (cmosReadFlag_ports _)) fun _ => ?_
  iterate 3 refine .bind (along_frame (cmosReadByte_ports _)) fun _ => ?_
  exact setGlob_frame (fun _ => rfl) fun _ => rfl

theorem updateVersion_frame : Along SameFrame updateVersion := by
  have htail : Along SameFrame (do
      let _ ← cmosWriteByte cmosVersionByte cmosVersionCurrent
      setGlob fun g => { g with cmosVersion := cmosVersionCurrent }
      cmosSetChecksum) :=
    .bind (along_frame (cmosWriteByte_ports _ _)) fun _ =>
      .bind (setGlob_frame (fun _ => rfl) fun _ => rfl) fun _ => along_frame cmosSetChecksum_ports
  refine .bind .get fun _ => .ite (fun _ => ?_) fun _ => .pure _
  exact .ite (fun _ => .bind (along_frame (writeBytes_ports _ _)) fun _ => htail) fun _ => htail

/-- `cmos_init` behind the check and up to `cmos_flags_sync (0)`. -/
def initHead : RomM Unit := do
  let _ ← cmosWriteByte cmosBiosDriveInfo 0
  cmosWriteRomRev
  initVersion
  initVariables
  updateVersion
  initBtoIp
  let serialNum ← cmosReadSerialNum
  setGlob fun g => { g with serialNum := serialNum }

theorem initSettings_run (m : Machine) :
    (initSettings.run m).2 = ((cmosFlagsSync false).run (initHead.run m).2).2 := by
  unfold initSettings initHead
  simp only [run_bind_snd, run_pure_snd]

theorem initHead_frame : Along SameFrame initHead :=
  .bind (along_frame (cmosWriteByte_ports _ _)) fun _ =>
    .bind (along_frame cmosWriteRomRev_ports) fun _ =>
      .bind (along_frame initVersion_ports) fun _ => .bind initVariables_frame fun _ =>
        .bind updateVersion_frame fun _ => .bind initBtoIp_frame fun _ =>
          .bind (along_frame cmosReadSerialNum_ports) fun _ =>
            setGlob_frame (fun _ => rfl) fun _ => rfl

end Cmos
