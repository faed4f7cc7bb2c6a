import CobaltRom.Cmos.Init

/-! Reading the serial number, whose checksum older ROMs of the 3000 series kept elsewhere
(`cmos.c`). -/
namespace Cmos

variable {m m' : Machine} {k : Nat}

/-- The serial number in view. -/
def Machine.sernum (m : Machine) : Name :=
  (List.range cmosSysSernumLen).map fun i => m.view (cmosSysSernum0 + i)

/-- The byte behind an index, whether `cmos_read_byte` accepts the index or not. -/
def Machine.behind (m : Machine) (index : Nat) : UInt8 :=
  (m.outb (UInt8.ofNat index) cmosAddrPort).inb cmosDataPort

/-- The checksum of the serial number is at its old location and not at the new one. -/
structure Machine.OldCsum (m : Machine) : Prop where
  old : m.behind cmosSysSernumOldCsum = cmosGenCsum m.sernum
  new : m.view cmosSysSernumCsum ≠ cmosGenCsum m.sernum

/-- The serial number is returned as it is stored and the checksum is at the new location. -/
structure Migrated (m : Machine) (r : Name × Machine) : Prop where
  sernum : r.1 = m.sernum
  csum : r.2.view cmosSysSernumCsum = cmosGenCsum m.sernum
  valid : r.2.Valid

theorem readBytes_spec {n : Nat} (hlow : cmosCksStart ≤ k) (hn : k + n ≤ 0x80) (m : Machine) :
    ∃ m', (readBytes k n).run m = ((List.range n).map fun i => m.view (k + i), m') ∧ Kept m m' := by
  induction n generalizing k m with
  | zero => exact ⟨m, rfl, Kept.refl m⟩
  | succ n ih =>
    obtain ⟨m₁, hr₁, hk₁⟩ := cmosReadByte_spec (show k ≤ 0x7f by omega) hlow m
    obtain ⟨m₂, hr₂, hk₂⟩ := ih (k := k + 1) (by omega) (by omega) m₁
    refine ⟨m₂, ?_, hk₁.trans hk₂⟩
    have hrest : ((List.range n).map fun i => m₁.view (k + 1 + i)) =
        (List.range n).map fun i => m.view (k + (i + 1)) := by
      apply List.map_congr_left
      intro i _
      rw [hk₁.view _ (by omega)]
      congr 1
      omega
    rw [readBytes, run_bind_of hr₁, run_bind_of hr₂, hrest, List.range_succ_eq_map, List.map_cons,
      List.map_map]
    rfl

/-- The old location is outside of what `cmos_read_byte` accepts: nothing is moved, and without
its checksum at the new location a serial number is not returned. -/
theorem cmosReadSerialNum_spec (m : Machine) :
    ∃ m', cmosReadSerialNum.run m =
      (if cmosGenCsum m.sernum = m.view cmosSysSernumCsum then m.sernum else invalidCsum, m') ∧
        Kept m m' := by
  have hold : cmosReadByte cmosSysSernumOldCsum = pure 0 := if_pos (by decide)
  obtain ⟨m₁, hr₁, hk₁⟩ := readBytes_spec (k := cmosSysSernum0) (n := cmosSysSernumLen)
    (by decide) (by decide) m
  obtain ⟨m₂, hr₂, hk₂⟩ := cmosReadByte_spec (i := cmosSysSernumCsum) (by decide) (by decide) m₁
  refine ⟨m₂, ?_, hk₁.trans hk₂⟩
  unfold cmosReadSerialNum
  rw [run_bind_of hr₁, run_bind_of hr₂, hk₁.view _ (by decide)]
  change StateT.run (if cmosGenCsum m.sernum ≠ m.view cmosSysSernumCsum then _ else _) m₂ = _
  by_cases hcsum : cmosGenCsum m.sernum = m.view cmosSysSernumCsum
  · rw [if_neg fun h => h hcsum, if_pos hcsum]
    rfl
  · rw [if_pos hcsum, if_neg hcsum, hold]
    have hsys : systypeIs3k.run m₂ = (decide (m₂.systype = .s3000), m₂) := rfl
    rw [run_bind_of hsys]
    by_cases h3k : m₂.systype = .s3000
    · rw [decide_eq_true h3k, if_pos rfl, pure_bind]
      rw [if_neg fun h => cmosGenCsum_ne_zero _ h]
      rfl
    · rw [decide_eq_false h3k, if_neg Bool.false_ne_true]
      rfl

theorem cmosReadSerialNum_csum (m : Machine) :
    (cmosReadSerialNum.run m).2.view cmosSysSernumCsum = m.view cmosSysSernumCsum := by
  obtain ⟨m', hrun, hkept⟩ := cmosReadSerialNum_spec m
  rw [hrun]
  exact hkept.view _ (by decide)

/-- A checksum at the old location only is never found. -/
theorem cmosReadSerialNum_not_migrated (h : m.OldCsum) :
    ¬ Migrated m (cmosReadSerialNum.run m) := by
  intro hmig
  have hcsum := cmosReadSerialNum_csum m
  rw [hmig.csum] at hcsum
  exact h.new hcsum.symm

/-- A board of the 3000 series with the serial number "AAAAAAAAAAAAA" and its checksum, 0xe2, in
register 0x7e, where index 0xfe leads. -/
def oldRom : Machine :=
  { blank with
    rtc := ⟨0, fun i => if i = 0x7e then 0xe2 else if 0x40 ≤ i ∧ i < 0x4d then 65 else 0,
      fun _ => 0⟩ }

theorem oldRom_oldCsum : oldRom.OldCsum := ⟨by decide, by decide⟩

theorem cmosReadSerialNum_not_migrated_oldRom : ¬ Migrated oldRom (cmosReadSerialNum.run oldRom) :=
  cmosReadSerialNum_not_migrated oldRom_oldCsum

/-- "invalid csum!" comes back, and there is still no checksum where it is looked for. -/
theorem oldRom_invalid : oldRom.systype = .s3000 ∧ oldRom.OldCsum ∧
    (cmosReadSerialNum.run oldRom).1 = invalidCsum ∧
      ¬ Migrated oldRom (cmosReadSerialNum.run oldRom) := by
  have hname : (cmosReadSerialNum.run oldRom).1 = invalidCsum := by
    obtain ⟨m', hrun, -⟩ := cmosReadSerialNum_spec oldRom
    rw [hrun, if_neg oldRom_oldCsum.new.symm]
  refine ⟨rfl, oldRom_oldCsum, hname, ?_⟩
  intro hmig
  exact absurd (hname.symm.trans hmig.sernum) (by decide)

end Cmos
