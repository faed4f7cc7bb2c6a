import CobaltRom.Crfs.InumRange
import CobaltRom.Crfs.OneOwner
import CobaltRom.Crfs.Rounding
import CobaltRom.Crfs.Slots
import CobaltRom.Crfs.Views

/-! What was there before a flush is there when the device is mounted again. -/
namespace Crfs
open WriteBack WriteBack.Prog SlotTree

/-- A call of a proper run that does not flush. -/
def UnflushedStep (t t' : Session) : Prop :=
  ∃ a r, t.step a = some (r, t') ∧ t.Admits a r t' ∧ a ≠ .flush ∧ ∀ f, a ≠ .close f

variable {σ τ : Vol} {s : Shape} {t t' : Session} {c c₀ c₁ : Machine} {sb0 sb1 sb : Block}
  {prev : Int}
  {m m' : Freemap} {n : Nat} {size : UInt32} {disk : BlockId → Block}

/-! ### The super block that is picked -/

theorem pickSuper_first (h0 : validSuper sb0 = true) (hpos : 0 < sb0.sbBlockver)
    (hle : validSuper sb1 = true → sb1.sbBlockver ≤ sb0.sbBlockver) :
    pickSuper sb0 sb1 prev = some (0, sb0) := by
  by_cases h1 : validSuper sb1 = true
  · have hf : [sb0, sb1].filter validSuper = [sb0, sb1] := by simp [h0, h1]
    have hw : bestSuper [sb0, sb1] 0 prev 0 = 0 := by
      rw [bestSuper, if_pos hpos, bestSuper, if_neg (UInt32.not_lt.mpr (hle h1)), bestSuper]
      rfl
    rw [pickSuper, hf, hw]
    rfl
  · have hf : [sb0, sb1].filter validSuper = [sb0] := by simp [h0, h1]
    have hw : bestSuper [sb0] 0 prev 0 = 0 := by
      rw [bestSuper, if_pos hpos, bestSuper]
      rfl
    rw [pickSuper, hf, hw]
    rfl

theorem pickSuper_second (h0 : validSuper sb0 = true) (h1 : validSuper sb1 = true)
    (hlt : sb0.sbBlockver < sb1.sbBlockver) : pickSuper sb0 sb1 prev = some (1, sb1) := by
  have hf : [sb0, sb1].filter validSuper = [sb0, sb1] := by simp [h0, h1]
  have hpos : 0 < sb1.sbBlockver :=
    UInt32.lt_of_le_of_lt (UInt32.le_iff_toNat_le.mpr (Nat.zero_le _)) hlt
  have hw : bestSuper [sb0, sb1] 0 prev 0 = 1 := by
    rw [bestSuper]
    split
    · rw [bestSuper, if_pos hlt, bestSuper]
      rfl
    · rw [bestSuper, if_pos hpos, bestSuper]
      rfl
  rw [pickSuper, hf, hw]
  rfl

/-- After a flush that went well `crfs_init` picks the super block that was written last. -/
theorem Slotted.pick (h : Slotted c) (hf : Slotted.Flushable c) (hne : c.store.cache ≠ []) :
    pickSuper ((cacheFlush c).store.disk 0) ((cacheFlush c).store.disk 16) prev =
      some (nextWhich c.glob.crfsWhichSuper, nextSuper c.glob.superBlock) := by
  obtain ⟨hold, hnew, hlt⟩ := h.flush_slots hf hne
  have hvalid := validSuper_nextSuper h.magic
  have hvold := h.newest.valid
  rw [← hold] at hvold
  rw [h.ver, ← hold] at hlt
  rcases h.which with hw | hw
  · rw [hw, show sbBlocknum 0 = 0 by decide] at hvold hlt
    rw [Machine.target, hw, show sbBlocknum (nextWhich 0) = 16 by decide] at hnew
    rw [hnew, pickSuper_second hvold hvalid hlt, hw]
    rfl
  · rw [hw, show sbBlocknum 1 = 16 by decide] at hvold hlt
    rw [Machine.target, hw, show sbBlocknum (nextWhich 1) = 0 by decide] at hnew
    rw [hnew, pickSuper_first hvalid
      (UInt32.lt_of_le_of_lt (UInt32.le_iff_toNat_le.mpr (Nat.zero_le _)) hlt)
      (fun _ => UInt32.le_of_lt hlt), hw]
    rfl

/-! ### The device after a flush -/

theorem cacheFlush_img (hne : c.store.cache ≠ []) :
    (cacheFlush c).vol.img = imgOf (cacheFlush c).store.disk (nextSuper c.glob.superBlock) := by
  have hsuper : (cacheFlush c).glob.superBlock = nextSuper c.glob.superBlock := if_neg hne
  rw [Vol.img, ← hsuper]
  rfl

theorem blockCount_nextSuper (sb : Block) : blockCount (nextSuper sb) = blockCount sb := by
  rw [blockCount, sbFssize_nextSuper, blockCount]

/-- A flush leaves a well-formed image on the device. -/
theorem Mounted.flush_wfImage (h : Mounted c.vol s) (hc : c.store.Coherent)
    (hw : c.glob.crfsWhichSuper = 0 ∨ c.glob.crfsWhichSuper = 1) (hne : c.store.cache ≠ [])
    (hsize : c.vol.bm.limit = blockCount c.glob.superBlock) (hroom : 16 < c.vol.bm.limit) :
    WfImage (cacheFlush c).store.disk (nextSuper c.glob.superBlock) s := by
  have hm := h.flush hc hw
  have himg := cacheFlush_img hne
  refine ⟨by rw [← himg]; exact hm.inv.tree, by rw [← himg]; exact hm.named,
    by rw [← himg]; exact hm.inv.owned, by rw [← himg]; exact hm.exact, ?_, ?_, ?_⟩
  · intro b hb
    rw [blockCount_nextSuper, ← hsize]
    exact h.inv.blocks.lt_of_own hb
  · rw [blockCount_nextSuper, ← hsize]
    exact hroom
  · rw [blockCount_nextSuper, ← hsize]
    exact h.inv.blocks.limit

/-! ### The maps -/

theorem Freemap.fmMap_eq (h : m.Ok) (h' : m'.Ok) (hsize : m'.limit = m.limit)
    (hlim : m.limit ≤ 65536)
    (hset : ∀ x : UInt16, m'.isset x.toNat = true ↔ m.isset x.toNat = true) :
    m'.fmMap = m.fmMap := by
  rw [Freemap.limit, Freemap.limit] at hsize
  rw [Freemap.limit] at hlim
  refine Bitmap.ext_mem (by rw [h'.lenMap, h.lenMap]; omega) ?_
  intro k hk
  rw [h'.lenMap] at hk
  have hx : (UInt16.ofNat k).toNat = k := UInt16.toNat_ofNat_of_lt (show k < 2 ^ 16 by omega)
  have := hset (UInt16.ofNat k)
  rw [hx] at this
  exact Bool.eq_iff_iff.mpr this

/-- Maps that account for the same blocks are the same. -/
theorem Inv.maps_eq (h : Inv σ s) (h' : Inv τ s) (hb : τ.bm.limit = σ.bm.limit)
    (hi : τ.im.limit = σ.im.limit) : τ.bm.fmMap = σ.bm.fmMap ∧ τ.im.fmMap = σ.im.fmMap :=
  ⟨Freemap.fmMap_eq h.blocks.ok h'.blocks.ok hb h.blocks.limit fun x => by
      rw [h'.blocks.exact, h.blocks.exact],
    Freemap.fmMap_eq h.inums.ok h'.inums.ok hi h.inums.limit fun x => by
      rw [h'.inums.exact, h.inums.exact]⟩

/-! ### Mounting again -/

theorem stable_fssize (f : UInt32) : Stable fun g => g.superBlock.sbFssize = f :=
  ⟨fun _ h => h, fun _ h => h, fun _ _ h => h, fun _ _ h => h, fun _ _ _ h => by
    rw [Block.sbFssize_setSbVtable]
    exact h⟩

theorem flush_fssize {f : UInt32} (c : Machine) (h : c.glob.superBlock.sbFssize = f) :
    (cacheFlush c).glob.superBlock.sbFssize = f := by
  rcases flush_super c with hs | hs
  · rw [hs, h]
  · rw [hs, sbFssize_nextSuper, h]

/-- A flush of a sound session, then `crfs_init` on the device: the same tree and the same maps. -/
theorem Sound.remount (h : Sound t s) (hs : Slotted t.mach) (hf : Slotted.Flushable t.mach)
    (hne : t.mach.store.cache ≠ []) (hsize : t.vol.bm.limit = blockCount t.mach.glob.superBlock)
    (hroom : 16 < t.vol.bm.limit) (him : t.vol.im.limit = 65536)
    (hdisk : c₁.store.disk = (cacheFlush t.mach).store.disk) :
    ∃ c' : Machine, crfsInit c₁ = some (true, c') ∧ Mounted c'.vol s ∧ SeesSame t.vol c'.vol ∧
      c'.vol.bm.fmMap = t.vol.bm.fmMap ∧ c'.vol.im.fmMap = t.vol.im.fmMap := by
  have hwf := h.mounted.flush_wfImage h.coherent h.which hne hsize hroom
  rw [← hdisk] at hwf
  have hpick : pickSuper ((cacheFlush t.mach).store.disk 0) ((cacheFlush t.mach).store.disk 16)
      c₁.glob.crfsWhichSuper =
        some (nextWhich t.mach.glob.crfsWhichSuper, nextSuper t.mach.glob.superBlock) :=
    hs.pick hf hne
  rw [← hdisk] at hpick
  obtain ⟨c', hc', hm, -, -, -, hval, -, hsb, -, -, -, hbl, hil, -⟩ := crfsInit_mounted hwf hpick
  have himg : c'.vol.img = (cacheFlush t.mach).vol.img := by
    rw [cacheFlush_img hne, ← hdisk, ← hval, ← hsb]
    rfl
  have hag := h.mounted.inv.flush_agree h.coherent h.which
  rw [← himg] at hag
  rw [blockCount_nextSuper, ← hsize] at hbl
  obtain ⟨hbm, hinum⟩ := h.mounted.inv.maps_eq hm.inv hbl (by rw [hil, him])
  exact ⟨c', hc', hm, hag.seesSame h.mounted.inv hm.inv, hbm, hinum⟩

/-- What a run without a flush keeps. -/
structure Unflushed (disk : BlockId → Block) (t : Session) : Prop where
  disk : t.mach.store.disk = disk
  cache : t.mach.store.cache ≠ []
  slotted : Slotted t.mach

theorem Unflushed.step (h : Unflushed disk t) (hs : UnflushedStep t t') : Unflushed disk t' := by
  obtain ⟨a, r, hstep, hadm, hflush, hclose⟩ := hs
  rcases Session.step_cases hstep with ⟨α, q, he, hq⟩ | ⟨ha | ⟨f, hf⟩, -⟩ | ⟨rfl, -⟩
  · rw [← h.disk]
    refine ⟨by rw [he, Prog.exec_disk], ?_, ?_⟩
    · rw [he]
      exact exec_cache_ne_nil q h.cache
    · rw [he]
      exact h.slotted.exec fun g => hq _ (stable_sameSuper g)
  · exact absurd ha hflush
  · exact absurd hf (hclose f)
  · exact hadm.2.elim

theorem Unflushed.run (h : Unflushed disk t)
    (hrun : Relation.ReflTransGen UnflushedStep t t') : Unflushed disk t' := by
  induction hrun with
  | refl => exact h
  | tail _ hs ih => exact ih.step hs

theorem UnflushedStep.proper (hs : UnflushedStep t t') : t.ProperStep t' := by
  obtain ⟨a, r, hstep, hadm, -⟩ := hs
  exact ⟨a, r, hstep, hadm⟩

theorem Session.ProperStep.mounted (hs : t.ProperStep t') : MountedStep t t' := by
  obtain ⟨a, r, hstep, hadm⟩ := hs
  refine ⟨a, r, ?_, hstep⟩
  rintro rfl
  exact hadm.2.elim

/-- The versions of the super blocks on a formatted device are far from the largest. -/
theorem mkfsDisk_version {b : BlockId} (hb : b = 0 ∨ b = 16) :
    (mkfsDisk size disk b).sbBlockver ≠ 0xffffffff := by
  rcases hb with rfl | rfl
  · change (nextSuper (mkfsSuper size 1)).sbBlockver ≠ _
    rw [sbBlockver_nextSuper, sbBlockver_mkfsSuper]
    decide
  · change (mkfsSuper size 1).sbBlockver ≠ _
    rw [sbBlockver_mkfsSuper]
    decide

/-- After any proper run on a formatted device, a flush and a fresh `crfs_init` give the tree
and the maps the program had. -/
theorem flush_survives_remount (hsize : GoodSize size n) (disk : BlockId → Block)
    (hc : crfsInit (crfsMkfs size (boot disk)) = some (true, c))
    (hrun : Relation.ReflTransGen UnflushedStep ⟨c, fun _ => none⟩ t)
    (hdisk : c₁.store.disk = (cacheFlush t.mach).store.disk) :
    ∃ c' : Machine, crfsInit c₁ = some (true, c') ∧ SeesSame t.vol c'.vol ∧
      c'.vol.bm.fmMap = t.vol.bm.fmMap ∧ c'.vol.im.fmMap = t.vol.im.fmMap := by
  obtain ⟨c', hc', hm, hcoh, hne, hval, -, hsb, -, -, -, hbl, hil, -⟩ :=
    mkfs_init_mounted hsize disk
  rw [hc] at hc'
  cases hc'
  obtain ⟨hd, -⟩ := crfsMkfs_boot size disk
  have hproper := Relation.ReflTransGen.mono (fun _ _ hs => UnflushedStep.proper hs) _ _ hrun
  have hmounted :=
    Relation.ReflTransGen.mono (fun _ _ hs => Session.ProperStep.mounted hs) _ _ hproper
  obtain ⟨s, h⟩ := (sound_start hsize disk hc).run hproper
  -- the super blocks on the device are still those of `crfs_mkfs`
  have hstart : Unflushed (mkfsDisk size disk) ⟨c, fun _ => none⟩ := by
    obtain ⟨-, -, -, -, -, hdc, -⟩ := crfsInit_super hc
    refine ⟨by rw [← hd]; exact hdc, hne, slotted_init hc ?_⟩
    rw [hd]
    exact validSuper_nextSuper (magicOk_mkfsSuper _ _)
  have hu := hstart.run hrun
  have hslot := hu.slotted.newest.slot
  have hflush : Slotted.Flushable t.mach := by
    refine ⟨h.slots _ hslot, ?_⟩
    rw [hu.slotted.ver, hu.disk]
    exact mkfsDisk_version hslot
  -- the block map is as long as the super block says
  have hmap : MapSize n t.mach.glob := by
    refine MapSize.run (t := ⟨c, fun _ => none⟩) ⟨hm.inv.blocks.ok, ?_⟩ hmounted
    rw [Freemap.limit] at hbl
    exact Nat.eq_of_mul_eq_mul_left (by decide) hbl
  have hcount : blockCount t.mach.glob.superBlock = 8 * n := by
    have hfs : t.mach.glob.superBlock.sbFssize = (nextSuper (mkfsSuper size 1)).sbFssize := by
      refine MountedStep.run_keeps (stable_fssize _) flush_fssize hmounted ?_
      exact congrArg Block.sbFssize hsb
    rw [blockCount, hfs]
    exact hsize.blockCount 1
  have hlimit : t.vol.bm.limit = 8 * n := by
    rw [Freemap.limit]
    exact congrArg (8 * ·) hmap.2
  have hlow := hsize.low
  have him : InumMap t.mach.glob :=
    MountedStep.run_keeps stable_inumMap (fun _ h => h) hmounted (inumMap_mounted hc)
  obtain ⟨c', hc', -, hsame, hb, hi⟩ := h.remount hu.slotted hflush hu.cache
    (by rw [hlimit, hcount]) (by omega) him.2 hdisk
  exact ⟨c', hc', hsame, hb, hi⟩

/-- The run on the small device, a flush and a fresh `crfs_init`. -/
theorem flush_survives_remount_run : ∃ (c : Machine) (t : Session) (c' : Machine),
    crfsInit (crfsMkfs 98304 (boot fun _ => zeroBlock)) = some (true, c) ∧
      Relation.ReflTransGen (Session.StepOf smallCalls) ⟨c, fun _ => none⟩ t ∧
      t.vol = removedVol ∧ crfsInit (cacheFlush t.mach) = some (true, c') ∧
      SeesSame t.vol c'.vol ∧ c'.vol.bm.fmMap = t.vol.bm.fmMap ∧
      c'.vol.im.fmMap = t.vol.im.fmMap := by
  obtain ⟨c, t, hc, hrun, hvol⟩ := small_run
  -- none of the calls flushes
  have hunflushed : ∀ t t' : Session, Session.StepOf smallCalls t t' → UnflushedStep t t' := by
    rintro t t' ⟨a, ha, r, hstep, hadm⟩
    refine ⟨a, r, hstep, hadm, ?_, ?_⟩
    · rintro rfl
      simp [smallCalls, smallEdits] at ha
    · rintro f rfl
      simp [smallCalls, smallEdits] at ha
  obtain ⟨c', hc', hsame, hb, hi⟩ := flush_survives_remount goodSize_small _ hc
    (Relation.ReflTransGen.mono hunflushed _ _ hrun) rfl
  exact ⟨c, t, c', hc, hrun, hvol, hc', hsame, hb, hi⟩

end Crfs
