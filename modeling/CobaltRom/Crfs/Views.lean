import CobaltRom.Crfs.Placed
import CobaltRom.Crfs.Slashes

/-! What a program that only looks can see of a volume: names, masks, sizes and bytes. -/
namespace Crfs
open WriteBack SlotTree

/-- Successive `crfs_read` calls on a handle: return values and bytes. -/
def crfsReads : CoFile → List Nat → FsM (List (Except Errno Nat × List UInt8))
  | _, [] => pure []
  | fp, n :: ns => do
    let r ← crfsRead fp n
    let rs ← crfsReads r.2.2 ns
    pure ((r.1, r.2.1) :: rs)

/-- A file opened and read. -/
def readFile (fname : Name) (ns : List Nat) :
    FsM (Except Errno (List (Except Errno Nat × List UInt8))) := do
  match ← crfsOpen fname with
  | .error e => pure (.error e)
  | .ok fp => do
    let rs ← crfsReads fp ns
    pure (.ok rs)

/-- Successive `crfs_readdir` calls. -/
def crfsReaddirs : CoDir → Nat → FsM (List (Except Errno (Option Dirent)))
  | _, 0 => pure []
  | dir, n + 1 => do
    let r ← crfsReaddir dir
    let rs ← crfsReaddirs r.2 n
    pure (r.1 :: rs)

/-- A directory opened and listed. -/
def listDir (dname : Name) (n : Nat) :
    FsM (Except Errno (List (Except Errno (Option Dirent)))) := do
  match ← crfsOpendir dname with
  | .error e => pure (.error e)
  | .ok dir => do
    let rs ← crfsReaddirs dir n
    pure (.ok rs)

/-- Looking at `τ` shows what looking at `σ` does. -/
structure SeesSame (σ τ : Vol) : Prop where
  stat : ∀ p : Path, ((crfsStat p.name).eval τ).1 = ((crfsStat p.name).eval σ).1
  files : ∀ (p : Path) (ns : List Nat),
    ((readFile p.name ns).eval τ).1 = ((readFile p.name ns).eval σ).1
  dirs : ∀ (p : Path) (n : Nat), ((listDir p.name n).eval τ).1 = ((listDir p.name n).eval σ).1

variable {σ τ : Vol} {s : Shape} {fp : CoFile} {i : InodeId} {p : Path} {n : Nat}

theorem SeesSame.refl (σ : Vol) : SeesSame σ σ := ⟨fun _ => rfl, fun _ _ => rfl, fun _ _ => rfl⟩

/-! ### Reading a file that is the same -/

/-- File `i` is the same on both volumes. -/
structure SameFile (s : Shape) (i : InodeId) (σ τ : Vol) : Prop where
  ino : τ.img.ino i = σ.img.ino i
  val : ∀ b, s.own b = some (.file i) → τ.val b = σ.val b

theorem nextFblock_same (h : Inv σ s) (hh : Handle σ s fp) (hs : SameFile s fp.fInode σ τ) :
    ((nextFblock fp).eval τ).1 = ((nextFblock fp).eval σ).1 ∧
      ∀ fp', ((nextFblock fp).eval σ).1 = some fp' → Handle σ s fp' ∧ fp'.fInode = fp.fInode := by
  rw [nextFblock_eval, nextFblock_eval]
  by_cases hn : fp.fFblock.fbNext ≠ 0
  · rw [if_pos hn, if_pos hn]
    refine ⟨by rw [hs.val _ (hh.next.resolve_left hn)], ?_⟩
    rintro fp' ⟨⟩
    exact ⟨hh.advance h hn, rfl⟩
  · rw [if_neg hn, if_neg hn]
    exact ⟨rfl, fun fp' hf => by cases hf⟩

theorem Handle.setFpos (hh : Handle σ s fp) (q : UInt32) : Handle σ s { fp with fFpos := q } :=
  ⟨hh.magic, hh.live, hh.file, hh.cur, hh.next⟩

theorem readStep_same (h : Inv σ s) (hh : Handle σ s fp) (hs : SameFile s fp.fInode σ τ)
    (o size : Nat) (out : List UInt8) :
    ((readStep fp o size out).eval τ).1 = ((readStep fp o size out).eval σ).1 ∧
      Handle σ s ((readStep fp o size out).eval σ).1.fp ∧
      ((readStep fp o size out).eval σ).1.fp.fInode = fp.fInode := by
  unfold readStep
  obtain ⟨he, hnext⟩ := nextFblock_same h
    (hh.setFpos (fp.fFpos + UInt32.ofNat (crfsFblockData - o))) hs
  rw [Prog.eval_bind, Prog.eval_bind, he]
  cases hr : ((nextFblock { fp with fFpos := fp.fFpos + UInt32.ofNat (crfsFblockData - o) }).eval
      σ).1 with
  | none => exact ⟨rfl, hh.setFpos _, rfl⟩
  | some fp' =>
    obtain ⟨hh', hi⟩ := hnext fp' hr
    exact ⟨rfl, hh', hi⟩

theorem readBlocks_same (h : Inv σ s) (hs : SameFile s i σ τ) (fuel : Nat) : ∀ r : ReadState,
    Handle σ s r.fp → r.fp.fInode = i →
    ((readBlocks fuel r).eval τ).1 = ((readBlocks fuel r).eval σ).1 ∧
      Handle σ s ((readBlocks fuel r).eval σ).1.fp ∧
      ((readBlocks fuel r).eval σ).1.fp.fInode = i := by
  induction fuel with
  | zero => exact fun r hh hi => ⟨rfl, hh, hi⟩
  | succ fuel ih =>
    intro r hh hi
    unfold readBlocks
    by_cases hc : r.bad = false ∧ r.size ≥ crfsFblockData
    · rw [if_pos hc, Prog.eval_bind, Prog.eval_bind, readOnly_readStep _ _ _ _ τ,
        readOnly_readStep _ _ _ _ σ]
      obtain ⟨he, hh', hi'⟩ := readStep_same h hh (by rw [hi]; exact hs) 0 r.size r.out
      rw [he]
      exact ih _ hh' (hi'.trans hi)
    · rw [if_neg hc]
      exact ⟨rfl, hh, hi⟩

/-- `crfs_read` looks at the blocks of its file only. -/
theorem crfsRead_same (h : Inv σ s) (hh : Handle σ s fp) (hs : SameFile s fp.fInode σ τ) (n : Nat) :
    ((crfsRead fp n).eval τ).1 = ((crfsRead fp n).eval σ).1 ∧
      Handle σ s ((crfsRead fp n).eval σ).1.2.2 ∧
      ((crfsRead fp n).eval σ).1.2.2.fInode = fp.fInode := by
  unfold crfsRead
  rw [if_neg (not_not.mpr hh.magic), Prog.eval_bind, Prog.eval_bind, crfsLookupInode_eval,
    crfsLookupInode_eval, hs.ino]
  dsimp only
  generalize (if (fp.fFpos.toNat + n) % 2 ^ 32 > (σ.img.ino fp.fInode).inFsize.toNat
    then (σ.img.ino fp.fInode).inFsize.toNat - fp.fFpos.toNat else n) = m
  simp only [Prog.eval_ite]
  split
  · exact ⟨rfl, hh, rfl⟩
  split
  · exact ⟨rfl, hh, rfl⟩
  split
  · obtain ⟨he, hh', hi'⟩ := readStep_same h hh hs (fp.fFpos.toNat % crfsFblockData) m []
    obtain ⟨he', hh'', hi''⟩ := readBlocks_same h hs m _ hh' hi'
    simp only [Prog.eval_bind, readOnly_readStep _ _ _ _ τ, readOnly_readStep _ _ _ _ σ, he, he',
      readOnly_readBlocks _ _ τ, readOnly_readBlocks _ _ σ, Prog.eval_ite]
    split
    · exact ⟨rfl, hh'', hi''⟩
    · exact ⟨rfl, hh''.setFpos _, hi''⟩
  · exact ⟨rfl, hh.setFpos _, rfl⟩

theorem crfsReads_same (h : Inv σ s) (hs : SameFile s i σ τ) (ns : List Nat) : ∀ fp : CoFile,
    Handle σ s fp → fp.fInode = i →
    ((crfsReads fp ns).eval τ).1 = ((crfsReads fp ns).eval σ).1 := by
  induction ns with
  | nil => exact fun _ _ _ => rfl
  | cons n ns ih =>
    intro fp hh hi
    obtain ⟨he, hh', hi'⟩ := crfsRead_same h hh (by rw [hi]; exact hs) n
    unfold crfsReads
    simp only [Prog.eval_bind, readOnly_crfsRead fp n τ, readOnly_crfsRead fp n σ, he]
    rw [ih _ hh' (hi'.trans hi)]
    rfl

theorem SameFile.openHandle (hs : SameFile s i σ τ) (h : Inv σ s) (hl : s.live i)
    (hf : σ.img.isDir i = false) : openHandle τ i = openHandle σ i := by
  rw [Crfs.openHandle, Crfs.openHandle, hs.ino]
  by_cases h0 : (σ.img.ino i).inFirst ≠ 0
  · rw [if_pos h0, if_pos h0, hs.val _ ((h.owned.first i hl hf).resolve_left h0)]
  · rw [if_neg h0, if_neg h0]

theorem readFile_eval (p : Name) (ns : List Nat) (σ : Vol) : ((readFile p ns).eval σ).1 =
    ((crfsOpen p).eval σ).1.map fun fp => ((crfsReads fp ns).eval σ).1 := by
  unfold readFile
  rw [Prog.eval_bind, readOnly_crfsOpen p σ]
  cases ((crfsOpen p).eval σ).1 with
  | error e => rfl
  | ok fp => simp only [Prog.eval_bind, Prog.eval_pure, Except.map]

/-! ### Listing a directory that is the same -/

/-- The block of directory `d` is the same on both volumes. -/
def SameDir (d : InodeId) (σ τ : Vol) : Prop :=
  τ.val (τ.img.ino d).inFirst = σ.val (σ.img.ino d).inFirst

theorem crfsReaddir_same {dir : CoDir} (hs : SameDir dir.dInode σ τ) :
    ((crfsReaddir dir).eval τ).1 = ((crfsReaddir dir).eval σ).1 ∧
      ((crfsReaddir dir).eval σ).1.2.dInode = dir.dInode := by
  unfold crfsReaddir
  by_cases hm : dir.dMagic ≠ coDirMagic
  · rw [if_pos hm]
    exact ⟨rfl, rfl⟩
  · rw [SameDir] at hs
    simp only [if_neg hm, Prog.eval_bind, crfsLookupInode_eval, crfsReadBlock_eval, hs]
    split <;> exact ⟨rfl, rfl⟩

theorem crfsReaddirs_same {d : InodeId} (hs : SameDir d σ τ) (n : Nat) : ∀ dir : CoDir,
    dir.dInode = d → ((crfsReaddirs dir n).eval τ).1 = ((crfsReaddirs dir n).eval σ).1 := by
  induction n with
  | zero => exact fun _ _ => rfl
  | succ n ih =>
    intro dir hd
    obtain ⟨he, hd'⟩ := crfsReaddir_same (by rw [hd]; exact hs)
    unfold crfsReaddirs
    simp only [Prog.eval_bind, readOnly_crfsReaddir dir τ, readOnly_crfsReaddir dir σ, he]
    rw [ih _ (hd'.trans hd)]
    rfl

theorem listDir_eval (p : Name) (n : Nat) (σ : Vol) : ((listDir p n).eval σ).1 =
    ((crfsOpendir p).eval σ).1.map fun dir => ((crfsReaddirs dir n).eval σ).1 := by
  unfold listDir
  rw [Prog.eval_bind, readOnly_crfsOpendir p σ]
  cases ((crfsOpendir p).eval σ).1 with
  | error e => rfl
  | ok dir => simp only [Prog.eval_bind, Prog.eval_pure, Except.map]

/-- A directory a name stands for is in the tree. -/
theorem Treed.nodeAt_dir {I : Img} {live : InodeId → Prop} {d : InodeId} {nm : Name}
    (h : Treed I live) (hd : live d) (hdir : I.isDir d = true)
    (hn : (I.nodeAt d nm).isDir = true) :
    ∃ e, live e ∧ I.isDir e = true ∧ (I.nodeAt d nm).inInode = e := by
  rw [Img.nodeAt] at hn ⊢
  split at hn
  · rename_i hnil
    rw [if_pos hnil]
    exact ⟨d, hd, hdir, (h.inum d hd).2⟩
  · rename_i hnil
    rw [if_neg hnil]
    cases hl : crfsLookupDirent (I.val (I.ino d).inFirst) nm with
    | none =>
      rw [hl] at hn
      have hno : (⟨0, 0, 0, 0, 0⟩ : Inode).isDir = false := by decide
      exact absurd hn (by rw [hno]; decide)
    | some de =>
      rw [hl] at hn
      have hlive := (h.lookup_live hd hdir hl).1
      exact ⟨de.deInode, hlive, hn, (h.inum _ hlive).2⟩

/-- What `crfs_opendir` returns for a path that leads to directory `d`. -/
theorem crfsOpendir_of_namei {d : InodeId} {nm p : Name}
    (h : σ.img.namei σ.glob.crfsPwd p = .ok (nm, d)) : (crfsOpendir p).eval σ =
      (if nm.length > crfsFilenameMax then .error .ENAMETOOLONG
        else if (σ.img.nodeAt d nm).isDir then .ok ⟨coDirMagic, (σ.img.nodeAt d nm).inInode, 0⟩
        else .error .ENOTDIR, σ) := by
  unfold crfsOpendir
  rw [Prog.eval_bind, crfsNamei_eval, h]
  simp only [Except.map, Prog.eval_ite]
  by_cases hlen : nm.length > crfsFilenameMax
  · rw [if_pos hlen, if_pos hlen]
    rfl
  · rw [if_neg hlen, if_neg hlen, Prog.eval_bind, inodeLookupFromNamei_eval, Prog.eval_ite]
    split <;> rfl

/-! ### Volumes with the same tree -/

theorem Agree.sameDirs (h : Agree s σ.img τ.img) (ho : Owned σ.img s) :
    SameDirs s.live σ.img τ.img := by
  refine ⟨h.root, ?_, fun i hi => h.isDir hi, fun i hi => by rw [h.ino i hi]⟩
  intro d hd hdir
  rw [h.ino d hd, h.dir d _ (ho.dirBlock hd hdir)]

theorem Agree.sameFile (h : Agree s σ.img τ.img) (hi : s.live i) : SameFile s i σ τ :=
  ⟨h.ino i hi, h.file i⟩

/-- On volumes with the same blocks in use a program sees the same. -/
theorem Agree.seesSame (ha : Agree s σ.img τ.img) (h : Inv σ s) (h' : Inv τ s) :
    SeesSame σ τ := by
  have hdirs := ha.sameDirs h.owned
  have hpwd : τ.glob.crfsPwd = σ.glob.crfsPwd := by rw [h'.pwd, ha.root, h.pwd]
  have hnamei : ∀ p : Name, τ.img.namei τ.glob.crfsPwd p = σ.img.namei σ.glob.crfsPwd p := by
    intro p
    rw [hpwd, hdirs.namei h.tree h.pwd]
  have hnode : ∀ d nm, s.live d → σ.img.isDir d = true → τ.img.nodeAt d nm = σ.img.nodeAt d nm := by
    intro d nm hd hdir
    rw [Img.nodeAt, Img.nodeAt, hdirs.dir d hd hdir]
    split
    · exact ha.ino d hd
    · cases hl : crfsLookupDirent (σ.img.val (σ.img.ino d).inFirst) nm with
      | none => rfl
      | some de => exact ha.ino _ (h.tree.lookup_live hd hdir hl).1
  refine ⟨?_, ?_, ?_⟩
  · intro p
    cases hr : σ.img.namei σ.glob.crfsPwd p.name with
    | error e =>
      rw [crfsStat, Prog.eval_bind, Prog.eval_bind, crfsNamei_eval, crfsNamei_eval, hnamei, hr]
      rfl
    | ok r =>
      obtain ⟨nm, d⟩ := r
      obtain ⟨hd, hdir, -⟩ := h.namei p.nul hr
      have hblock := hdirs.dir d hd hdir
      rw [Vol.img_val, Vol.img_val] at hblock
      rw [crfsStat_of_namei hr, crfsStat_of_namei ((hnamei p.name).trans hr), hblock]
      split
      · rfl
      · cases hl : crfsLookupDirent (σ.val (σ.img.ino d).inFirst) nm with
        | none => rfl
        | some de =>
          dsimp only
          rw [ha.ino _ (h.tree.lookup_live hd hdir hl).1]
  · intro p ns
    rw [readFile_eval, readFile_eval, crfsOpen_eval h p.nul, crfsOpen_eval h' p.nul, hpwd,
      hdirs.opened h.tree h.pwd p.nul]
    have hcases := crfsOpen_cases h p.nul
    rw [crfsOpen_eval h p.nul] at hcases
    rcases hcases with ⟨e, he⟩ | ⟨d, nm, j, hfile, he⟩
    · cases hr : σ.img.opened σ.glob.crfsPwd p.name with
      | error e' => rfl
      | ok x =>
        rw [hr] at he
        cases (Prod.mk.inj he).1
    · cases hr : σ.img.opened σ.glob.crfsPwd p.name with
      | error e' =>
        rw [hr] at he
        cases (Prod.mk.inj he).1
      | ok x =>
        rw [hr] at he
        have hx : openHandle σ x = openHandle σ j := Except.ok.inj (Prod.mk.inj he).1
        have hxj : x = j := congrArg CoFile.fInode hx
        subst hxj
        have hsame := ha.sameFile hfile.liveFile
        simp only [Except.map, hsame.openHandle h hfile.liveFile hfile.file]
        rw [crfsReads_same h hsame ns _ (h.openHandle hfile.liveFile hfile.file) rfl]
  · intro p n
    rw [listDir_eval, listDir_eval]
    cases hr : σ.img.namei σ.glob.crfsPwd p.name with
    | error e =>
      rw [crfsOpendir, Prog.eval_bind, Prog.eval_bind, crfsNamei_eval, crfsNamei_eval, hnamei, hr]
      rfl
    | ok r =>
      obtain ⟨nm, d⟩ := r
      obtain ⟨hd, hdir, -⟩ := h.namei p.nul hr
      rw [crfsOpendir_of_namei hr, crfsOpendir_of_namei ((hnamei p.name).trans hr),
        hnode d nm hd hdir]
      split
      · rfl
      · split
        · rename_i hnd
          obtain ⟨e, he, hed, hei⟩ := h.tree.nodeAt_dir hd hdir hnd
          simp only [Except.map]
          rw [crfsReaddirs_same (d := e) ?_ n _ hei]
          have hb := hdirs.dir e he hed
          rwa [Vol.img_val, Vol.img_val] at hb
        · rfl

end Crfs
