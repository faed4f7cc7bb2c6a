import CobaltRom.Crfs.Session

/-! The size `crfs_mkfs` records, and the blocks a program gets on such a device. -/
namespace Crfs
open WriteBack WriteBack.Prog

variable {P : Globals → Prop} {t t' : Session} {size : UInt32} {disk : BlockId → Block}

/-! ### Globals along a session -/

theorem exec_keeps {α : Type} {q : FsM α} (h : Keeps P q) {c : Machine} (hc : P c.glob) :
    P (q.exec c).2.glob := by
  have hk := h c.vol hc
  rw [← (exec_vol q c).2] at hk
  exact hk

/-- A call other than mounting keeps what file operations and flushes keep. -/
theorem Session.step_keeps (hs : Stable P)
    (hflush : ∀ c : Machine, P c.glob → P (cacheFlush c).glob) {a : Call} {r : Except Errno Nat}
    (ha : a ≠ .remount) (h : t.step a = some (r, t')) (ht : P t.mach.glob) : P t'.mach.glob := by
  rcases Session.step_cases h with ⟨α, q, he, hq⟩ | ⟨-, he⟩ | ⟨hm, -⟩
  · rw [he]
    exact exec_keeps (hq P hs) ht
  · rw [he]
    exact hflush _ ht
  · exact absurd hm ha

/-- The calls after one mount. -/
def MountedStep (t t' : Session) : Prop := ∃ a r, a ≠ .remount ∧ t.step a = some (r, t')

theorem MountedStep.run_keeps (hs : Stable P)
    (hflush : ∀ c : Machine, P c.glob → P (cacheFlush c).glob)
    (hrun : Relation.ReflTransGen MountedStep t t') (h : P t.mach.glob) : P t'.mach.glob := by
  induction hrun with
  | refl => exact h
  | tail _ hstep ih =>
    obtain ⟨a, r, ha, hstep⟩ := hstep
    exact Session.step_keeps hs hflush ha hstep ih

/-- The block map is sound and has `n` bytes. -/
def MapSize (n : Nat) (g : Globals) : Prop := g.blockFreemap.Ok ∧ g.blockFreemap.fmMapsize = n

theorem stable_mapSize (n : Nat) : Stable (MapSize n) := by
  refine ⟨?_, fun _ h => h, fun _ k h => ⟨Freemap.ok_unmark h.1 k, h.2⟩, fun _ _ h => h,
    fun _ _ _ h => h⟩
  intro g h
  rcases Freemap.freemapNext_spec h.1 with ⟨k, -, ht⟩ | ⟨-, hb, he⟩
  · exact ⟨ht.ok, ht.size.trans h.2⟩
  · change Freemap.Ok (freemapNext g.blockFreemap).2 ∧ _
    rw [he]
    exact ⟨⟨h.1.lenMap, h.1.lenFreed, Nat.le_refl _, fun k hk => hb k hk⟩, h.2⟩

theorem flush_mapSize {n : Nat} (c : Machine) (h : MapSize n c.glob) :
    MapSize n (cacheFlush c).glob := by
  have hb : (cacheFlush c).glob.blockFreemap = freemapFlush (freemapFlush c.glob.blockFreemap) :=
    rfl
  rw [MapSize, hb]
  exact ⟨Freemap.ok_flush (Freemap.ok_flush h.1), h.2⟩

theorem MapSize.run {n : Nat} (h : MapSize n t.mach.glob)
    (hrun : Relation.ReflTransGen MountedStep t t') : MapSize n t'.mach.glob :=
  MountedStep.run_keeps (stable_mapSize n) flush_mapSize hrun h

/-! ### Formatting -/

theorem blockCount_mkfs (size : UInt32) :
    blockCount (nextSuper (mkfsSuper size 1)) = 8 * (size.toNat / 32768) := by
  rw [blockCount, sbFssize_nextSuper, sbFssize_mkfsSuper, fssize_toNat]
  simp only [crfsBlockSize]
  omega

theorem sbFssize_mkfsDisk {slot : BlockId} (h : slot = 0 ∨ slot = 16) :
    (mkfsDisk size disk slot).sbFssize.toNat =
      8192 * (size.toNat / 8192) + size.toNat % 4096 := by
  rw [← fssize_toNat]
  rcases h with rfl | rfl
  · change (nextSuper (mkfsSuper size 1)).sbFssize.toNat = _
    rw [sbFssize_nextSuper, sbFssize_mkfsSuper]
  · change (mkfsSuper size 1).sbFssize.toNat = _
    rw [sbFssize_mkfsSuper]

/-- After mounting a freshly formatted device no search returns a block beyond it. -/
theorem mkfs_blocks_inside (hlow : 24 * 4096 ≤ size.toNat) (hhigh : size.toNat < 2 ^ 28)
    (disk : BlockId → Block) :
    ∃ c : Machine, crfsInit (crfsMkfs size (boot disk)) = some (true, c) ∧
      ∀ t : Session, Relation.ReflTransGen MountedStep ⟨c, fun _ => none⟩ t →
        ∀ k : Nat, (freemapNext t.vol.bm).1 = k → 4096 * (k + 1) ≤ size.toNat := by
  obtain ⟨hdisk, hwhich⟩ := crfsMkfs_boot size disk
  have hcount := blockCount_mkfs size
  have hwf : WfImage (crfsMkfs size (boot disk)).store.disk (nextSuper (mkfsSuper size 1))
      mkfsShape := by
    rw [hdisk]
    exact mkfs_wfImage_of (by omega) (by omega)
  obtain ⟨c, hc, hm, -, -, -, -, -, -, -, -, -, hbl, -⟩ :=
    crfsInit_mounted hwf (by rw [hdisk, hwhich]; exact pickSuper_mkfs size disk 0)
  refine ⟨c, hc, ?_⟩
  intro t hrun k hk
  have hsize : MapSize (size.toNat / 32768) c.glob := by
    refine ⟨hm.inv.blocks.ok, ?_⟩
    rw [Freemap.limit, hcount] at hbl
    exact Nat.eq_of_mul_eq_mul_left (by decide) hbl
  obtain ⟨hok, hn⟩ := hsize.run hrun
  rcases Freemap.freemapNext_spec hok with ⟨j, hj, ht⟩ | ⟨hj, -⟩
  · have hlt := ht.lt
    rw [Freemap.limit, hn] at hlt
    have hjk : j = k := by
      rw [show t.vol.bm = t.mach.glob.blockFreemap from rfl, hj] at hk
      exact Int.ofNat.inj hk
    omega
  · rw [show t.vol.bm = t.mach.glob.blockFreemap from rfl, hj] at hk
    omega

/-- `crfs_mkfs` records the size rounded down to whole blocks exactly if it is a multiple
of two blocks. -/
theorem mkfs_rounds_iff (hlow : 24 * 4096 ≤ size.toNat) (hhigh : size.toNat < 2 ^ 28)
    (disk : BlockId → Block) :
    ((∀ slot : BlockId, slot = 0 ∨ slot = 16 →
        ((crfsMkfs size (boot disk)).store.disk slot).sbFssize.toNat = 4096 * (size.toNat / 4096)) ∧
      ∃ c : Machine, crfsInit (crfsMkfs size (boot disk)) = some (true, c) ∧
        ∀ t : Session, Relation.ReflTransGen MountedStep ⟨c, fun _ => none⟩ t →
          ∀ k : Nat, (freemapNext t.vol.bm).1 = k → 4096 * (k + 1) ≤ size.toNat) ↔
    size.toNat % 8192 = 0 := by
  rw [(crfsMkfs_boot size disk).1]
  constructor
  · rintro ⟨hsize, -⟩
    have h := hsize 0 (Or.inl rfl)
    rw [sbFssize_mkfsDisk (Or.inl rfl)] at h
    omega
  · intro h
    refine ⟨?_, mkfs_blocks_inside hlow hhigh disk⟩
    intro slot hslot
    rw [sbFssize_mkfsDisk hslot]
    omega

/-- A device of 24 blocks. -/
theorem mkfs_rounds_small :
    ((crfsMkfs 98304 (boot fun _ => zeroBlock)).store.disk 0).sbFssize.toNat = 98304 :=
  ((mkfs_rounds_iff (by decide) (by decide) fun _ => zeroBlock).mpr (by decide)).1 0 (Or.inl rfl)

/-- On a device of 25 blocks one is missing from the size. -/
theorem mkfs_loses_block :
    ((crfsMkfs 102400 (boot fun _ => zeroBlock)).store.disk 0).sbFssize.toNat ≠
      4096 * (102400 / 4096) := by
  rw [(crfsMkfs_boot 102400 _).1, sbFssize_mkfsDisk (Or.inl rfl)]
  decide

end Crfs
