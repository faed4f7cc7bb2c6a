import CobaltRom.Crfs.Remount
import CobaltRom.Crfs.CacheRefine
import CobaltRom.Crfs.Create

/-! A freshly formatted device: `crfs_mkfs` and the `crfs_init` after it. -/
namespace Crfs
open WriteBack WriteBack.Prog SlotTree ByteBuf

/-! ### Super blocks -/

@[simp] theorem crfsChecksum_setSbChecksum (b : Block) (v : UInt32) :
    crfsChecksum (b.setSbChecksum v) = crfsChecksum b := by
  refine congrArg (fun sum : UInt32 => ~~~ (sum - 1)) (List.foldl_ext _ _ _ ?_)
  intro sum i _
  by_cases h2 : i = 2
  · simp only [h2, ne_eq, not_true_eq_false, if_false]
  · simp only [ne_eq, h2, not_false_eq_true, if_true, Block.word_setSbChecksum h2]

theorem validSuper_checksum {b : Block} (h : b.magicOk = true) :
    validSuper (b.setSbChecksum (crfsChecksum b)) = true := by
  have hm : (b.setSbChecksum (crfsChecksum b)).magicOk = b.magicOk :=
    Block.magicOk_put (by decide) _
  simp [validSuper, hm, h]

/-- The super block of a flush is valid. -/
theorem validSuper_nextSuper {b : Block} (h : b.magicOk = true) :
    validSuper (nextSuper b) = true := by
  refine validSuper_checksum ?_
  rw [Block.setSbBlockver, Block.magicOk_put (by decide), h]

@[simp] theorem sbVtable_nextSuper (b : Block) (k : Nat) :
    (nextSuper b).sbVtable k = b.sbVtable k := by
  simp [nextSuper]

@[simp] theorem sbRoot_nextSuper (b : Block) : (nextSuper b).sbRoot = b.sbRoot := by
  simp [nextSuper]

@[simp] theorem sbFssize_nextSuper (b : Block) : (nextSuper b).sbFssize = b.sbFssize := by
  simp [nextSuper]

@[simp] theorem sbBlockver_nextSuper (b : Block) :
    (nextSuper b).sbBlockver = b.sbBlockver + 1 := by
  simp [nextSuper]

theorem magicOk_nextSuper (b : Block) : (nextSuper b).magicOk = b.magicOk := by
  rw [nextSuper, Block.setSbChecksum, Block.magicOk_put (by decide), Block.setSbBlockver,
    Block.magicOk_put (by decide)]

variable {size v : UInt32}

theorem magicOk_mkfsSuper (size v : UInt32) : (mkfsSuper size v).magicOk = true := by
  have hbase : Block.magicOk (put zeroBlock 0 Block.crfsMagic) = true := by
    rw [Block.magicOk_iff]
    decide
  unfold mkfsSuper
  simp only [Block.setSbChecksum, Block.setSbBlockver, Block.setSbVtable, Block.setSbRoot,
    Block.setSbFssize]
  iterate 5 rw [Block.magicOk_put (by decide)]
  exact hbase

theorem validSuper_mkfsSuper (size v : UInt32) : validSuper (mkfsSuper size v) = true := by
  have h := magicOk_mkfsSuper size v
  unfold mkfsSuper at h ⊢
  simp only at h ⊢
  rw [Block.setSbChecksum, Block.magicOk_put (by decide)] at h
  exact validSuper_checksum h

@[simp] theorem sbBlockver_mkfsSuper : (mkfsSuper size v).sbBlockver = v := by simp [mkfsSuper]

@[simp] theorem sbRoot_mkfsSuper : (mkfsSuper size v).sbRoot = 1 := by simp [mkfsSuper]

@[simp] theorem sbFssize_mkfsSuper : (mkfsSuper size v).sbFssize = size &&& ~~~ 0x1000 := by
  simp [mkfsSuper]

theorem sbVtable_mkfsSuper (k : Nat) (hk : k < 256) :
    (mkfsSuper size v).sbVtable k = if k = 0 then 2 else 0 := by
  have hbase : Block.sbVtable (put zeroBlock 0 Block.crfsMagic) k = 0 := by
    rw [Block.sbVtable, slice_put_disjoint (by simp [Block.crfsMagic]; omega)]
    have h2 : slice zeroBlock (22 + 2 * k) 2 = [0, 0] := by
      simp [slice, List.range_succ, byte, zeroBlock]
    rw [h2]
    decide
  simp [mkfsSuper, hbase]

/-! ### The formatted device -/

/-- The inode table and the root directory `crfs_mkfs` writes. -/
def mkfsTable : Block := zeroBlock.setItInode 1 ⟨1, 3, 3, 0, fmaskDir⟩

/-- The device behind `crfs_mkfs`. -/
def mkfsDisk (size : UInt32) (disk : BlockId → Block) : BlockId → Block :=
  fun b => if b = 0 then nextSuper (mkfsSuper size 1) else if b = 3 then newDirectory 1 1
    else if b = 2 then mkfsTable else if b = 16 then mkfsSuper size 1 else disk b

theorem mkfsBody_eval (size : UInt32) (σ : Vol) : ((mkfsBody size).eval σ).2 =
    ⟨Function.update (Function.update (Function.update (Function.update σ.val 0 (mkfsSuper size 0))
        16 (mkfsSuper size 1)) 2 mkfsTable) 3 (newDirectory 1 1),
      Function.update (Function.update (Function.update (Function.update σ.dirty 0 true)
        16 true) 2 true) 3 true,
      { σ.glob with crfsWhichSuper := 1, superBlock := mkfsSuper size 1 }⟩ := by
  have h0 : sbBlocknum 0 = 0 := by decide
  have h1 : sbBlocknum 1 = 16 := by decide
  unfold mkfsBody
  simp only [h0, h1, Prog.eval_bind, crfsWriteBlock_eval, Prog.eval_getGlob, Prog.eval_setGlob]
  rfl

theorem crfsMkfs_boot (size : UInt32) (disk : BlockId → Block) :
    (crfsMkfs size (boot disk)).store.disk = mkfsDisk size disk ∧
      (crfsMkfs size (boot disk)).glob.crfsWhichSuper = 0 := by
  have hf := (exec_flat (boot disk) (mkfsBody size)).2
  have hcoh := exec_coherent (mkfsBody size) (c := boot disk) (Store.coherent_empty disk)
  have hne : ((mkfsBody size).exec (boot disk)).2.store.cache ≠ [] := by
    obtain ⟨p, hp⟩ : ∃ p : FsM Unit, (mkfsBody size).exec (boot disk) =
        p.exec ⟨Store.write ⟨disk, []⟩ (sbBlocknum 0) (mkfsSuper size 0), (boot disk).glob⟩ :=
      ⟨_, rfl⟩
    rw [hp]
    exact exec_cache_ne_nil p (c := ⟨Store.write ⟨disk, []⟩ (sbBlocknum 0) (mkfsSuper size 0),
      (boot disk).glob⟩) (Store.write_cache_ne_nil _ _ _)
  rw [mkfsBody_eval] at hf
  generalize hrun : ((mkfsBody size).exec (boot disk)).2 = c at hf hcoh hne
  have hrd : c.store.rd = Function.update (Function.update (Function.update
      (Function.update disk 0 (mkfsSuper size 0)) 16 (mkfsSuper size 1)) 2 mkfsTable) 3
        (newDirectory 1 1) := congrArg Flat.val hf
  have hglob : c.glob = { (boot disk).glob with
      crfsWhichSuper := 1, superBlock := mkfsSuper size 1 } := congrArg Flat.glob hf
  have hslot : sbBlocknum (nextWhich 1) = 0 := by decide
  rw [crfsMkfs, hrun]
  refine ⟨?_, ?_⟩
  · rw [cacheFlush_disk hcoh, flushSuper, if_neg hne, hglob, hrd]
    simp only [hslot, apply_cons, apply_nil]
    funext b
    unfold mkfsDisk
    by_cases h0 : b = 0
    · simp [h0]
    · by_cases h3 : b = 3
      · simp [h3]
      · by_cases h2 : b = 2
        · simp [h2]
        · by_cases h16 : b = 16
          · simp [h16]
          · simp [h0, h2, h3, h16, Function.update_of_ne]
  · change (if c.store.cache = [] then _ else nextWhich c.glob.crfsWhichSuper) = (0 : Int)
    rw [if_neg hne, hglob]
    change nextWhich 1 = 0
    decide

theorem pickSuper_mkfs (size : UInt32) (disk : BlockId → Block) (prev : Int) :
    pickSuper (mkfsDisk size disk 0) (mkfsDisk size disk 16) prev =
      some (0, nextSuper (mkfsSuper size 1)) := by
  have h0 : mkfsDisk size disk 0 = nextSuper (mkfsSuper size 1) := rfl
  have h16 : mkfsDisk size disk 16 = mkfsSuper size 1 := rfl
  have hf : [nextSuper (mkfsSuper size 1), mkfsSuper size 1].filter validSuper =
      [nextSuper (mkfsSuper size 1), mkfsSuper size 1] := by
    simp [validSuper_nextSuper (magicOk_mkfsSuper size 1), validSuper_mkfsSuper]
  have hb : bestSuper [nextSuper (mkfsSuper size 1), mkfsSuper size 1] 0 prev 0 = 0 := by
    simp only [bestSuper, sbBlockver_nextSuper, sbBlockver_mkfsSuper]
    rw [if_pos (by decide), if_neg (by decide)]
    rfl
  rw [h0, h16, pickSuper]
  simp only [hf, hb]
  rfl

/-- The shape of a fresh volume: the root directory and one inode table. -/
def mkfsShape : Shape where
  live i := i = 1
  num i := i = 1
  own b := if b = 2 then some (.itable 0) else if b = 3 then some (.dir 1) else none

variable {disk : BlockId → Block} {n : Nat}

/-- The sizes `crfs_mkfs` is called with: whole bytes of the block map, room for both
slots, and block numbers of 16 bits. -/
structure GoodSize (size : UInt32) (n : Nat) : Prop where
  eq : size.toNat = 32768 * n
  low : 3 ≤ n
  high : n ≤ 8192

/-- The mask clears bit 12 and no other. -/
theorem fssize_toNat (size : UInt32) :
    (size &&& ~~~ 0x1000).toNat = 8192 * (size.toNat / 8192) + size.toNat % 4096 := by
  have hlt : size.toNat / 2 ^ 13 < 2 ^ 19 := by
    have := size.toNat_lt
    omega
  have hmask : (~~~ (0x1000 : UInt32)).toNat = (2 ^ 19 - 1) * 2 ^ 13 + (2 ^ 12 - 1) := by decide
  have hhigh : (size.toNat &&& ((2 ^ 19 - 1) * 2 ^ 13 + (2 ^ 12 - 1))) / 2 ^ 13 =
      size.toNat / 2 ^ 13 := by
    rw [Nat.and_div_two_pow, show ((2 ^ 19 - 1) * 2 ^ 13 + (2 ^ 12 - 1)) / 2 ^ 13 = 2 ^ 19 - 1 by
      decide, Nat.and_two_pow_sub_one_eq_mod, Nat.mod_eq_of_lt hlt]
  have hlow : (size.toNat &&& ((2 ^ 19 - 1) * 2 ^ 13 + (2 ^ 12 - 1))) % 2 ^ 13 =
      size.toNat % 4096 := by
    rw [Nat.and_mod_two_pow, show ((2 ^ 19 - 1) * 2 ^ 13 + (2 ^ 12 - 1)) % 2 ^ 13 = 2 ^ 12 - 1 by
      decide, Nat.and_two_pow_sub_one_eq_mod]
    omega
  rw [UInt32.toNat_and, hmask]
  have := Nat.div_add_mod (size.toNat &&& ((2 ^ 19 - 1) * 2 ^ 13 + (2 ^ 12 - 1))) (2 ^ 13)
  rw [hhigh, hlow] at this
  exact this.symm

theorem GoodSize.fssize (h : GoodSize size n) : size &&& ~~~ 0x1000 = size := by
  have heq := h.eq
  apply UInt32.toNat_inj.mp
  rw [fssize_toNat]
  omega

theorem GoodSize.blockCount (h : GoodSize size n) (v : UInt32) :
    blockCount (nextSuper (mkfsSuper size v)) = 8 * n := by
  rw [Crfs.blockCount, sbFssize_nextSuper, sbFssize_mkfsSuper, h.fssize, h.eq]
  simp only [crfsBlockSize]
  omega

/-- The image on a formatted device. -/
abbrev mkfsImg (size : UInt32) (disk : BlockId → Block) : Img :=
  imgOf (mkfsDisk size disk) (nextSuper (mkfsSuper size 1))

theorem mkfsImg_vt (k : Nat) (hk : k < 256) :
    (mkfsImg size disk).vt k = if k = 0 then 2 else 0 := by
  change (nextSuper (mkfsSuper size 1)).sbVtable k = _
  rw [sbVtable_nextSuper, sbVtable_mkfsSuper k hk]

theorem mkfsImg_ino : (mkfsImg size disk).ino 1 = ⟨1, 3, 3, 0, fmaskDir⟩ := by
  change ((mkfsDisk size disk) ((nextSuper (mkfsSuper size 1)).sbVtable 0)).itInode 1 = _
  rw [sbVtable_nextSuper, sbVtable_mkfsSuper 0 (by decide)]
  exact Block.itInode_setItInode_self (by decide) _ _

theorem mkfsImg_isDir : (mkfsImg size disk).isDir 1 = true := by
  rw [Img.isDir, mkfsImg_ino]
  decide

theorem mkfsImg_ent : (mkfsImg size disk).ent 1 = (newDirectory 1 1).dirent := by
  funext k
  rw [Img.ent, mkfsImg_ino]
  rfl

theorem mkfsImg_kids (k : Nat) : (mkfsImg size disk).kids 1 k = none := by
  rw [Img.kids, if_neg]
  rintro ⟨-, h2, h64, h0⟩
  rw [mkfsImg_ent] at h0
  exact h0 ((newDirectory_ok (by decide) (by decide)).2.2 k h2 h64)

theorem mkfs_treed : Treed (mkfsImg size disk) mkfsShape.live := by
  have hroot : (mkfsImg size disk).root = 1 := by
    change (nextSuper (mkfsSuper size 1)).sbRoot = 1
    simp
  have hok := newDirectory_ok (x := 1) (p := 1) (by decide) (by decide)
  refine ⟨⟨hroot, ?_, ?_, ?_, ?_⟩, ?_, ?_, ?_, ?_, ?_⟩
  · rintro d k x rfl hk
    rw [mkfsImg_kids] at hk
    cases hk
  · rintro x rfl
    rw [hroot]
    exact .refl
  · rintro d k e l x rfl rfl hk -
    rw [mkfsImg_kids] at hk
    cases hk
  · rintro d k rfl hk
    rw [mkfsImg_kids] at hk
    cases hk
  · rw [hroot]
    exact mkfsImg_isDir
  · rintro i rfl
    exact ⟨by decide, by rw [mkfsImg_ino]⟩
  · rintro i rfl -
    rw [mkfsImg_ent]
    exact hok.1
  · rw [hroot, mkfsImg_ent]
    exact hok.2.1
  · rintro d k i rfl hk
    rw [mkfsImg_kids] at hk
    cases hk

theorem mkfs_named : Named (mkfsImg size disk) mkfsShape.live := by
  rintro i rfl - k hk hne
  have hok := newDirectory_ok (x := 1) (p := 1) (by decide) (by decide)
  rw [mkfsImg_ent] at hne ⊢
  have h2 : k < 2 := by
    by_contra h2
    exact hne (hok.2.2 k (by omega) hk)
  interval_cases k
  · rw [hok.1.dot.2]
    decide
  · rw [hok.1.dotdot.2]
    decide

theorem mkfs_owned : Owned (mkfsImg size disk) mkfsShape := by
  refine ⟨?_, ?_, ?_, ?_, ?_, rfl, rfl⟩
  · rintro i rfl
    rw [show (1 : InodeId).toNat / 256 = 0 by decide, mkfsImg_vt 0 (by decide)]
    decide
  · intro k b
    change (if b = 2 then _ else if b = 3 then _ else _ : Option Owner) = _ ↔ _
    constructor
    · intro h
      split at h
      · rename_i hb
        cases h
        exact ⟨by decide, by rw [mkfsImg_vt 0 (by decide), hb]; rfl, by rw [hb]; decide⟩
      · split at h <;> cases h
    · rintro ⟨hk, hv, h0⟩
      rw [mkfsImg_vt k hk] at hv
      split at hv
      · rename_i hk0
        rw [if_pos hv.symm, hk0]
      · exact absurd hv.symm h0
  · intro i b
    change (if b = 2 then _ else if b = 3 then _ else _ : Option Owner) = _ ↔ i = 1 ∧ _
    constructor
    · intro h
      split at h
      · cases h
      · split at h
        · rename_i hb
          cases h
          exact ⟨rfl, mkfsImg_isDir, by rw [mkfsImg_ino]; exact hb.symm⟩
        · cases h
    · rintro ⟨rfl, -, hf⟩
      rw [mkfsImg_ino] at hf
      simp only at hf
      rw [← hf]
      decide
  · intro i b h
    change (if b = 2 then _ else if b = 3 then _ else _ : Option Owner) = _ at h
    split at h
    · cases h
    · split at h <;> cases h
  · rintro i rfl hd
    rw [mkfsImg_isDir] at hd
    cases hd

theorem mkfs_exact : Exact (mkfsImg size disk) mkfsShape := by
  refine ⟨fun i => Iff.rfl, ?_, ?_, ?_⟩
  · intro b h
    change (if b = 2 then _ else if b = 3 then _ else _ : Option Owner) = _ at h
    split at h
    · cases h
    · split at h <;> cases h
  · rintro i rfl hd
    rw [mkfsImg_isDir] at hd
    cases hd
  · intro k hk hne
    rw [mkfsImg_vt k hk] at hne
    split at hne
    · rename_i h0
      rw [h0]
      decide
    · exact absurd rfl hne

theorem mkfs_wfImage_of (hslot : 16 < blockCount (nextSuper (mkfsSuper size 1)))
    (hcount : blockCount (nextSuper (mkfsSuper size 1)) ≤ 65536) :
    WfImage (mkfsDisk size disk) (nextSuper (mkfsSuper size 1)) mkfsShape := by
  refine ⟨mkfs_treed, mkfs_named, mkfs_owned, mkfs_exact, ?_, hslot, hcount⟩
  intro b hb
  change (if b = 2 then _ else if b = 3 then _ else _ : Option Owner) ≠ _ at hb
  have hlt : b.toNat < 4 := by
    split at hb
    · rename_i he
      rw [he]
      decide
    · split at hb
      · rename_i he
        rw [he]
        decide
      · exact absurd rfl hb
  omega

theorem mkfs_wfImage (h : GoodSize size n) :
    WfImage (mkfsDisk size disk) (nextSuper (mkfsSuper size 1)) mkfsShape := by
  have hlow := h.low
  have hhigh := h.high
  have hcount := h.blockCount 1
  exact mkfs_wfImage_of (by omega) (by omega)

/-- Formatting and mounting gives the empty volume. -/
theorem mkfs_init_mounted (h : GoodSize size n) (disk : BlockId → Block) :
    ∃ c' : Machine, crfsInit (crfsMkfs size (boot disk)) = some (true, c') ∧
      Mounted c'.vol mkfsShape ∧ c'.store.Coherent ∧ c'.store.cache ≠ [] ∧
      c'.vol.val = mkfsDisk size disk ∧ (∀ b, c'.vol.dirty b = false) ∧
      c'.glob.superBlock = nextSuper (mkfsSuper size 1) ∧ c'.glob.crfsWhichSuper = 0 ∧
      c'.vol.bm.Fresh ∧ c'.vol.im.Fresh ∧ c'.vol.bm.limit = 8 * n ∧ c'.vol.im.limit = 65536 ∧
      ¬ c'.glob.Full ∧ ¬ c'.glob.Stray := by
  obtain ⟨hdisk, hwhich⟩ := crfsMkfs_boot size disk
  have hwf : WfImage (crfsMkfs size (boot disk)).store.disk (nextSuper (mkfsSuper size 1))
      mkfsShape := by
    rw [hdisk]
    exact mkfs_wfImage h
  obtain ⟨c', hc, hm, -, hcoh, hne, hval, hdirty, hsb, hw, hfb, hfi, hbl, hil, hfull⟩ :=
    crfsInit_mounted hwf (by rw [hdisk, hwhich]; exact pickSuper_mkfs size disk 0)
  exact ⟨c', hc, hm, hcoh, hne, hval.trans hdisk, hdirty, hsb, hw, hfb, hfi,
    hbl.trans (h.blockCount 1), hil, hfull⟩

/-- The volume of a freshly formatted device. -/
def freshVol (size : UInt32) (n : Nat) (disk : BlockId → Block) : Vol where
  val := mkfsDisk size disk
  dirty _ := false
  glob :=
    { blockFreemap := ⟨0, n, 13 :: 0 :: 1 :: List.replicate (n - 3) 0,
      List.replicate n 0, false, false⟩
      inodeFreemap := ⟨0, 8192, 3 :: List.replicate 8191 0, List.replicate 8192 0, false, false⟩
      superBlock := nextSuper (mkfsSuper size 1)
      crfsWhichSuper := 0
      crfsPwd := 1 }

/-- A fresh map is known by its size and the numbers in use. -/
theorem Freemap.Fresh.eq_of_isset {m : Freemap} {l : List UInt8} (h : m.Fresh) (hok : m.Ok)
    (hsize : m.fmMapsize = n) (hfull : m.fmFull = false) (hstray : m.fmStray = false)
    (hlen : l.length = n)
    (hset : ∀ k, k < 8 * n → m.isset k = Bitmap.mem l k) :
    m = ⟨0, n, l, List.replicate n 0, false, false⟩ := by
  have hmap : m.fmMap = l := by
    refine Bitmap.ext_mem (by rw [hok.lenMap, hsize, hlen]) ?_
    intro k hk
    rw [hok.lenMap, hsize] at hk
    exact hset k hk
  have hfreed := h.freed
  have hcur := h.cur
  obtain ⟨cur, size, map, freed, full, stray⟩ := m
  simp only at hsize hfull hstray hmap hfreed hcur
  subst hsize hfull hstray hmap hcur hfreed
  rfl

theorem mem_freshBlocks (k : Nat) (n : Nat) :
    Bitmap.mem (13 :: 0 :: 1 :: List.replicate n 0) k =
      decide (k = 0 ∨ k = 2 ∨ k = 3 ∨ k = 16) := by
  by_cases hk : k < 24
  · have h3 : (13 :: 0 :: 1 :: List.replicate n 0 : List UInt8).getD (k / 8) 0 =
        ([13, 0, 1] : List UInt8).getD (k / 8) 0 := by
      have h8 : k / 8 = 0 ∨ k / 8 = 1 ∨ k / 8 = 2 := by omega
      rcases h8 with h8 | h8 | h8 <;> rw [h8] <;> rfl
    rw [Bitmap.mem, h3]
    clear h3
    revert k
    decide
  · have hz : (13 :: 0 :: 1 :: List.replicate n 0 : List UInt8).getD (k / 8) 0 = 0 := by
      obtain ⟨j, hj⟩ : ∃ j, k / 8 = j + 3 := ⟨k / 8 - 3, by omega⟩
      rw [hj]
      simp only [List.getD_eq_getElem?_getD, List.getElem?_cons_succ, List.getElem?_replicate]
      split <;> rfl
    rw [Bitmap.mem, hz, Bitmap.bit_zero]
    symm
    rw [decide_eq_false_iff_not]
    omega

theorem mem_freshInums (k : Nat) (n : Nat) :
    Bitmap.mem (3 :: List.replicate n 0) k = decide (k = 0 ∨ k = 1) := by
  rw [Bitmap.mem_cons_replicate]
  by_cases hk : k < 8
  · revert k
    decide
  · rw [Bitmap.bit_eq_false (by omega)]
    symm
    rw [decide_eq_false_iff_not]
    omega

theorem mkfsShape_own (b : BlockId) :
    mkfsShape.own b ≠ none ∨ b = 0 ∨ b = 16 ↔ b = 0 ∨ b = 2 ∨ b = 3 ∨ b = 16 := by
  unfold mkfsShape
  by_cases h2 : b = 2
  · simp [h2]
  · by_cases h3 : b = 3
    · simp [h3]
    · simp [h2, h3]

/-- The machine after formatting and mounting shows the fresh volume. -/
theorem mkfs_init_vol (h : GoodSize size n) (disk : BlockId → Block) :
    ∃ c' : Machine, crfsInit (crfsMkfs size (boot disk)) = some (true, c') ∧
      c'.vol = freshVol size n disk ∧ Mounted c'.vol mkfsShape ∧ c'.store.Coherent ∧
      c'.store.cache ≠ [] := by
  obtain ⟨c', hc, hm, hcoh, hne, hval, hdirty, hsb, hw, hfb, hfi, hbl, hil, hfull,
      hstray⟩ := mkfs_init_mounted h disk
  have hlow := h.low
  have hhigh := h.high
  refine ⟨c', hc, ?_, hm, hcoh, hne⟩
  have hbm : c'.vol.bm =
      ⟨0, n, 13 :: 0 :: 1 :: List.replicate (n - 3) 0, List.replicate n 0, false, false⟩ := by
    refine hfb.eq_of_isset hm.inv.blocks.ok ?_ ?_ ?_ ?_ ?_
    · rw [Freemap.limit] at hbl
      omega
    · exact Bool.of_not_eq_true fun hf => hfull (Or.inl hf)
    · exact Bool.of_not_eq_true fun hf => hstray (Or.inl hf)
    · simp only [List.length_cons, List.length_replicate]
      omega
    · intro k hk
      have hb := hm.inv.blocks.exact (UInt16.ofNat k)
      rw [UInt16.toNat_ofNat_of_lt' (by simp only [UInt16.size]; omega), mkfsShape_own] at hb
      rw [mem_freshBlocks, Bool.eq_iff_iff, hb, decide_eq_true_eq]
      simp only [← UInt16.toNat_inj, UInt16.toNat_ofNat_of_lt' (show k < UInt16.size by
        simp only [UInt16.size]; omega)]
      rfl
  have him : c'.vol.im =
      ⟨0, 8192, 3 :: List.replicate 8191 0, List.replicate 8192 0, false, false⟩ := by
    refine hfi.eq_of_isset hm.inv.inums.ok ?_ ?_ ?_ ?_ ?_
    · rw [Freemap.limit] at hil
      omega
    · exact Bool.of_not_eq_true fun hf => hfull (Or.inr hf)
    · exact Bool.of_not_eq_true fun hf => hstray (Or.inr hf)
    · simp only [List.length_cons, List.length_replicate]
    · intro k hk
      have hb := hm.inv.inums.exact (UInt16.ofNat k)
      rw [UInt16.toNat_ofNat_of_lt' (by simp only [UInt16.size]; omega)] at hb
      rw [mem_freshInums, Bool.eq_iff_iff, hb, decide_eq_true_eq]
      change UInt16.ofNat k = 1 ∨ UInt16.ofNat k = 0 ↔ _
      simp only [← UInt16.toNat_inj, UInt16.toNat_ofNat_of_lt' (show k < UInt16.size by
        simp only [UInt16.size]; omega)]
      exact or_comm
  have hpwd : c'.glob.crfsPwd = 1 := by
    rw [show c'.glob.crfsPwd = c'.vol.img.root from hm.inv.pwd]
    change c'.glob.superBlock.sbRoot = 1
    rw [hsb]
    simp
  have hglob : c'.glob = (freshVol size n disk).glob := by
    change c'.glob = ⟨_, _, _, _, _⟩
    rw [← hbm, ← him, ← hsb, ← hw, ← hpwd]
    rfl
  change (⟨c'.vol.val, c'.vol.dirty, c'.glob⟩ : Vol) = _
  rw [hval, hglob, show c'.vol.dirty = fun _ => false from funext hdirty]
  rfl

end Crfs
