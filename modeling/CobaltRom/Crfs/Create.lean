import CobaltRom.Crfs.Link

/-! What a successful `crfs_create` or `crfs_mkdir` does to a volume. -/
namespace Crfs
open WriteBack SlotTree

variable {σ τ υ : Vol} {s s' s'' : Shape} {m' : Freemap} {b n nb : BlockId} {c : Block}
  {d i x : InodeId} {y : Inode} {k : Nat} {nm fname : Name} {new new' : BlockId → Prop}

/-- Everything the tree of `σ` uses is in `τ` as it was. Blocks may have been set
aside, those in `new`, and inode tables may have moved. -/
structure Keep (new : BlockId → Prop) (σ : Vol) (s : Shape) (τ : Vol) (s' : Shape) : Prop where
  live : s'.live = s.live
  num : ∀ i, s.num i → s'.num i
  root : τ.img.root = σ.img.root
  tabs : TablesFor s'.num σ τ
  ino : ∀ i, s.live i → τ.img.ino i = σ.img.ino i
  owner : ∀ b o, (∀ k, o ≠ .itable k) → o ≠ .held → (s'.own b = some o ↔ s.own b = some o)
  held : ∀ b, s'.own b = some .held → s.own b = some .held ∨ new b
  val : ∀ b o, s.own b = some o → (∀ k, o ≠ .itable k) → o ≠ .held → τ.val b = σ.val b
  grow : Grow (fun _ => False) σ s.own τ s'.own

theorem Keep.trans (h : Keep new σ s τ s') (h' : Keep new' τ s' υ s'') :
    Keep (fun b => new b ∨ new' b) σ s υ s'' := by
  refine ⟨h'.live.trans h.live, fun i hi => h'.num i (h.num i hi), h'.root.trans h.root,
    h.tabs.trans h'.tabs h'.num, ?_, ?_, ?_, ?_, h.grow.trans h'.grow⟩
  · intro i hi
    rw [h'.ino i (h.live ▸ hi), h.ino i hi]
  · intro b o hk hh
    rw [h'.owner b o hk hh, h.owner b o hk hh]
  · intro b hb
    rcases h'.held b hb with hb | hb
    · exact (h.held b hb).imp_right Or.inl
    · exact Or.inr (Or.inr hb)
  · intro b o ho hk hh
    rw [h'.val b o ((h.owner b o hk hh).mpr ho) hk hh, h.val b o ho hk hh]

theorem keep_holdInum (σ : Vol) (s : Shape) (m' : Freemap) (num : InodeId → Prop)
    (hn : ∀ i, s.num i → num i) : Keep (fun _ => False) σ s (σ.setIm m') { s with num := num } :=
  ⟨rfl, hn, rfl, TablesFor.refl _ _, fun _ _ => rfl, fun _ _ _ _ => Iff.rfl, fun _ hb => Or.inl hb,
    fun _ _ _ _ _ => rfl,
    ⟨rfl, fun _ hk => hk, fun _ hd => Or.inl hd, fun _ hd => Or.inl hd, fun _ => Or.inl rfl⟩⟩

/-- A block is handed out and written. -/
theorem Inv.keep_holdWrite (h : Inv σ s) (ht : σ.bm.Took n.toNat m') (c : Block) :
    Keep (· = n) σ s ((σ.setBm m').write n c) (s.give n .held) := by
  obtain ⟨hn, h0, h16⟩ := h.blocks.fresh ht
  have hown : ∀ b o, o ≠ .held → ((s.give n .held).own b = some o ↔ s.own b = some o) := by
    intro b o ho
    by_cases he : b = n
    · subst he
      simp [Shape.give, hn, Ne.symm ho]
    · simp [Shape.give, Function.update_of_ne he]
  refine ⟨rfl, fun _ hi => hi, rfl, TablesFor.refl _ _, ?_, fun b o _ ho => hown b o ho, ?_, ?_, ?_⟩
  · intro i hi
    refine Vol.write_ino ?_ c
    exact h.table_ne (h.owned.table i hi) (by rw [hn]; simp)
  · intro b hb
    by_cases he : b = n
    · exact Or.inr he
    · simp only [Shape.give, Function.update_of_ne he] at hb
      exact Or.inl hb
  · intro b o ho _ _
    have he : b ≠ n := by
      rintro rfl
      rw [hn] at ho
      cases ho
    exact Function.update_of_ne he _ _
  · exact (Grow.took _ ht .held).write ht.lt (Or.inr (Or.inl ht.free)) rfl rfl

/-- An inode that is not in the tree is stored. -/
theorem Inv.keep_wroteInode (h : Inv σ s) (hw : WroteInode σ y nb τ) (hy : ¬ s.live y.inInode)
    (hn : s.num y.inInode) :
    Keep (fun _ => False) σ s τ (s.retable (y.inInode.toNat / 256) nb) := by
  obtain ⟨-, -, hnb⟩ := hw.target h.blocks h.owned.ownTable
  have hown : ∀ b o, (∀ k, o ≠ .itable k) →
      ((s.retable (y.inInode.toNat / 256) nb).own b = some o ↔ s.own b = some o) :=
    fun b o ho => retable_other hnb ho
  refine ⟨rfl, fun _ hi => hi, hw.root, hw.tablesFor hn, ?_, fun b o hk _ => hown b o hk, ?_, ?_,
    hw.grow h.blocks h.owned.ownTable _⟩
  · intro i hi
    have hne : i ≠ y.inInode := fun he => hy (he ▸ hi)
    rw [hw.ino h.blocks h.owned.ownTable i (h.owned.table i hi), if_neg hne]
  · intro b hb
    exact Or.inl ((hown b _ (by simp)).mp hb)
  · intro b o ho hk _
    have he : b ≠ nb := by
      rintro rfl
      rcases hnb with hnb | hnb <;> rw [hnb] at ho
      · cases ho
      · exact hk _ (Option.some.inj ho).symm
    exact hw.val_ne he

/-- The new inode was entered as `nm` in directory `d`. -/
structure Linked (σ : Vol) (s : Shape) (d : InodeId) (nm : Name) (x : InodeId) (τ : Vol)
    (s' : Shape) : Prop where
  inv : Inv τ s'
  entered : ∃ k, Entered σ.img s.live d k nm x τ.img
  live : s'.live = fun i => s.live i ∨ i = x
  num : s'.num = fun i => s.num i ∨ i = x
  unused : ¬ s.num x
  tabs : TablesFor s'.num σ τ
  ino : ∀ i, s.live i → i ≠ d → τ.img.ino i = σ.img.ino i
  inoDir : ∃ f l, τ.img.ino d = { σ.img.ino d with inFirst := f, inLast := l }
  inoNew : (τ.img.ino x).inFsize = 0 ∧ (τ.img.ino x).inLast = (τ.img.ino x).inFirst
  ownFile : ∀ i b, s'.own b = some (.file i) ↔ s.own b = some (.file i)
  valFile : ∀ i b, s.own b = some (.file i) → τ.val b = σ.val b
  newFirst : τ.img.isDir x = false → (τ.img.ino x).inFirst = 0
  held : ∀ b, s'.own b = some .held → s.own b = some .held
  grow : Grow (fun _ => False) σ s.own τ s'.own

/-- Entry `k` of the committed block is the new name, everything else is kept. -/
theorem Inv.entered (h : Inv σ s) (hd : s.live d) (hdir : σ.img.isDir d = true)
    (hslot : (σ.val (σ.img.ino d).inFirst).freeSlot = some k)
    (hnone : crfsLookupDirent (σ.val (σ.img.ino d).inFirst) nm = none) (hnul : (0 : UInt8) ∉ nm)
    (hlen : nm.length ≤ 59) (hx : ¬ s.live x) (hx0 : x ≠ 0) (hk : Keep new σ s τ s')
    (hinv : Inv τ s') (hc : Committed τ s' d
      ((σ.val (σ.img.ino d).inFirst).setDirent k x nm) υ s'')
    (htab : τ.tableOf x ≠ 0) (hnum : (τ.img.ino x).inInode = x)
    (hnew : υ.img.isDir x = true → DirOk (υ.img.ent x) x ∧ (υ.img.ent x 1).deInode = d ∧
      ∀ j, 2 ≤ j → j < 64 → (υ.img.ent x j).deInode = 0) :
    Entered σ.img s.live d k nm x υ.img := by
  obtain ⟨hlt, hfree⟩ := freeSlot_some hslot
  have hxd : x ≠ d := fun he => hx (he ▸ hd)
  have hlive : ∀ i, s.live i → s'.live i := fun i hi => by rw [hk.live]; exact hi
  obtain ⟨f, l, hinoD, hval⟩ := hc.inoDir
  rw [hk.ino d hd] at hinoD
  have hino : ∀ i, s.live i → i ≠ d → υ.img.ino i = σ.img.ino i := by
    intro i hi hid
    rw [hc.ino i hid (hinv.owned.table i (hlive i hi)), hk.ino i hi]
  refine ⟨hc.root.trans hk.root, hd, hdir, hlt, hfree, hx, hx0, ?_, ?_, ?_, ?_, hnul,
    hlen, ?_, hnew⟩
  · rintro i (hi | rfl)
    · by_cases hid : i = d
      · subst hid
        rw [hinoD]
        exact (h.tree.inum i hi).2
      · rw [hino i hi hid]
        exact (h.tree.inum i hi).2
    · rw [hc.ino i hxd htab]
      exact hnum
  · intro i hi
    by_cases hid : i = d
    · subst hid
      rw [Img.isDir, hinoD]
      rfl
    · rw [Img.isDir, hino i hi hid, Img.isDir]
  · intro i hi hdi hid
    funext j
    have ho := h.owned.dirBlock hi hdi
    have ho' := (hk.owner _ _ (by simp) (by simp)).mpr ho
    have hv : υ.val (σ.img.ino i).inFirst = σ.val (σ.img.ino i).inFirst := by
      rw [hc.kept _ _ ho' (by simp) (by simpa using hid), hk.val _ _ ho (by simp) (by simp)]
    rw [Img.ent, Img.ent, hino i hi hid]
    exact congrArg (Block.dirent · j) hv
  · intro j
    have he : υ.img.ent d j =
        ((σ.val (σ.img.ino d).inFirst).setDirent k x nm).dirent j := by
      rw [Img.ent, hinoD]
      exact congrArg (Block.dirent · j) hval
    rw [he]
    by_cases hj : j = k
    · subst hj
      rw [if_pos rfl, Block.dirent_setDirent_self hlt]
    · rw [if_neg hj, Block.dirent_setDirent_ne hj]
      rfl
  · intro j hj hne
    exact crfsLookupDirent_none hnone hlen hj hne

/-- The fields of `Linked` that do not depend on what was created. -/
theorem Linked.assemble (h : Inv σ s) (hd : s.live d) (hk : Keep new σ s τ s') (hinv : Inv τ s')
    (hc : Committed τ s' d c υ s'') (he : Entered σ.img s.live d k nm x υ.img)
    (hxn : ¬ s.num x) (hnum : s'.num = fun i => s.num i ∨ i = x) (htab : τ.tableOf x ≠ 0)
    (hsize : (τ.img.ino x).inFsize = 0 ∧ (τ.img.ino x).inLast = (τ.img.ino x).inFirst)
    (hfirst : τ.img.isDir x = false → (τ.img.ino x).inFirst = 0)
    {own : BlockId → Option Owner} (hnone : ∀ b, own b = none ↔ s''.own b = none)
    (howned : Owned υ.img ⟨fun i => s''.live i ∨ i = x, s''.num, own⟩)
    (hfile : ∀ i b, own b = some (.file i) ↔ s''.own b = some (.file i))
    (hheld : ∀ b, own b = some .held → s''.own b = some .held ∧ ¬ new b)
    (hgrow : ∀ b, own b = s''.own b ∨ σ.bm.blocked b.toNat = false) :
    Linked σ s d nm x υ ⟨fun i => s''.live i ∨ i = x, s''.num, own⟩ := by
  have hxd : x ≠ d := fun hx => he.fresh (hx ▸ hd)
  have hlive : s''.live = s.live := hc.live.trans hk.live
  have hinox : υ.img.ino x = τ.img.ino x := hc.ino x hxd htab
  obtain ⟨f, l, hinoD, -⟩ := hc.inoDir
  rw [hk.ino d hd] at hinoD
  have hfile2 : ∀ i b, own b = some (.file i) ↔ s.own b = some (.file i) := by
    intro i b
    rw [hfile, hc.owner b _ (by simp) (by simp), hk.owner b _ (by simp) (by simp)]
  have hg := hk.grow.trans hc.grow
  have htabs : TablesFor s''.num σ υ :=
    hk.tabs.trans (hc.num ▸ hc.tabs) (fun i hi => by rw [hc.num]; exact hi)
  refine ⟨⟨?_, howned, hc.blocks.congr hnone, ?_, ?_, ?_⟩, ⟨k, he⟩, ?_, hc.num.trans hnum,
    hxn, htabs, ?_,
    ⟨f, l, hinoD⟩, by rw [hinox]; exact hsize, hfile2, ?_, ?_, ?_,
    ⟨hg.limit, hg.blocked, hg.range, hg.dirty, ?_⟩⟩
  · change Treed υ.img (fun i => s''.live i ∨ i = x)
    rw [hlive]
    exact h.tree.link he
  · change InumLedger υ.im s''.num
    rw [hc.num, hc.im]
    exact hinv.inums
  · change ∀ i, s''.live i ∨ i = x → s''.num i
    rw [hc.num, hnum, hlive]
    exact fun i hi => hi.imp_left (h.live i)
  · rw [hc.pwd, hinv.pwd, hc.root]
  · change (fun i => s''.live i ∨ i = x) = _
    rw [hlive]
  · intro i hi hid
    rw [hc.ino i hid (hinv.owned.table i (by rw [hk.live]; exact hi)), hk.ino i hi]
  · intro i b hb
    have hb' := (hk.owner b _ (by simp) (by simp)).mpr hb
    rw [hc.kept b _ hb' (by simp) (by simp), hk.val b _ hb (by simp) (by simp)]
  · rw [Img.isDir, hinox]
    exact hfirst
  · intro b hb
    obtain ⟨hb1, hb2⟩ := hheld b hb
    exact (hk.held b ((hc.owner b _ (by simp) (by simp)).mp hb1)).resolve_right hb2
  · intro b
    rcases hgrow b with hb | hb
    · change own b = _ ∨ own b = none ∨ _
      rw [hb]
      exact hg.owner b
    · exact Or.inr (Or.inr hb)

/-! ### `crfs_create` -/

/-- The inode of a new file. -/
def fileInode (x : InodeId) : Inode := ⟨x, 0, 0, 0, fmaskFile⟩

theorem fileInode_isDir (x : InodeId) : (fileInode x).isDir = false := by
  change (fmaskFile &&& fmaskDir != 0) = false
  decide

/-- What follows once the inode of a new file is stored. -/
theorem createInum_stored {r : Except Errno Unit × Vol} {dirnode : Inode} {blk : Block}
    (hr : (crfsWriteInode (fileInode x)).eval σ = r) :
    (createInum nm dirnode blk k x.toNat).eval σ =
      (match r.1 with
        | .error e => pure (.error e)
        | .ok () => linkDirent dirnode blk k x nm : FsM (Except Errno Unit)).eval r.2 := by
  obtain ⟨r, υ⟩ := r
  simp only [createInum, Prog.eval_bind, ofInt_toNat]
  cases r <;> erw [hr]

/-- How `crfs_create` ends once a slot is found: there is no inode number, no block
for the inode table, no block for the directory, or the file is entered. -/
theorem createInum_cases (h : Inv σ s) (hd : s.live d) (hdir : σ.img.isDir d = true)
    (hslot : (σ.val (σ.img.ino d).inFirst).freeSlot = some k)
    (hnone : crfsLookupDirent (σ.val (σ.img.ino d).inFirst) nm = none) (hnul : (0 : UInt8) ∉ nm)
    (hlen : nm.length ≤ 59) (ht : σ.im.Took x.toNat m') :
    ((createInum nm (σ.img.ino d) (σ.val (σ.img.ino d).inFirst) k x.toNat).eval (σ.setIm m') =
        (.error .ENOSPC, (σ.setIm m').setBm σ.bm.exhausted) ∧
      (∀ k, k < σ.bm.limit → σ.bm.blocked k = true) ∧
      (σ.tableOf x = 0 ∨ σ.dirty (σ.tableOf x) = false)) ∨
    (∃ (nb : BlockId) (τ : Vol), WroteInode (σ.setIm m') (fileInode x) nb τ ∧ Stuck τ d ∧
      ((createInum nm (σ.img.ino d) (σ.val (σ.img.ino d).inFirst) k x.toNat).eval
        (σ.setIm m')).2.glob.Full) ∨
    ∃ (τ : Vol) (s' : Shape),
      (createInum nm (σ.img.ino d) (σ.val (σ.img.ino d).inFirst) k x.toNat).eval
        (σ.setIm m') = (.ok (), τ) ∧ Linked σ s d nm x τ s' ∧ τ.img.isDir x = false := by
  obtain ⟨hxn, hx0⟩ := h.inums.fresh ht
  have hxl : ¬ s.live x := fun hl => hxn (h.live x hl)
  have hxd : x ≠ d := fun he => hxl (he ▸ hd)
  have h1 := h.holdInum ht
  rcases crfsWriteInode_cases h1.blocks.ok h1.blocks.limit (fileInode x) with
    ⟨nb, τ, hwe, hw⟩ | ⟨hwe, hfull, htab⟩
  · rw [createInum_stored hwe]
    have h2 := h1.wroteInode hw (fun hl => absurd hl hxl)
    have hk := (keep_holdInum σ s m' _ fun i => Or.inl).trans
      (h1.keep_wroteInode hw hxl (Or.inr rfl))
    have hdir2 : τ.img.isDir d = true := by
      rw [Img.isDir, hk.ino d hd]
      exact hdir
    have hlink := linkDirent_cases h2 hd hdir2 (σ.val (σ.img.ino d).inFirst) k x nm
    rw [hk.ino d hd] at hlink
    rcases hlink with ⟨υ, s2, hle, hc⟩ | ⟨hfull, hst⟩
    · have hinox : τ.img.ino x = fileInode x := hw.ino_self
      have htab : τ.tableOf x ≠ 0 := hw.table_ne_zero h1.blocks h1.owned.ownTable
      have hinoυ : υ.img.ino x = fileInode x := (hc.ino x hxd htab).trans hinox
      have hdirx : υ.img.isDir x = false := by
        rw [Img.isDir, hinoυ]
        exact fileInode_isDir x
      have he := h.entered hd hdir hslot hnone hnul hlen hxl hx0 hk h2 hc htab
        (by rw [hinox]; rfl) (fun hx => by rw [hdirx] at hx; cases hx)
      have htabυ := hc.table x htab
      refine Or.inr (Or.inr ⟨υ, ?shape, hle, ?linked, hdirx⟩)
      case linked =>
        refine Linked.assemble h hd hk h2 hc he hxn rfl htab (by rw [hinox]; exact ⟨rfl, rfl⟩)
          (fun _ => by rw [hinox]; rfl) (fun _ => Iff.rfl) ?_ (fun _ _ => Iff.rfl)
          (fun b hb => ⟨hb, by simp⟩) (fun b => Or.inl rfl)
        refine hc.owned.addFile ?_ hdirx (by rw [hinoυ]; rfl) htabυ
        rw [hc.live]
        exact hxl
    · exact Or.inr (Or.inl ⟨nb, τ, hw, hst, hfull⟩)
  · left
    rw [createInum_stored hwe]
    exact ⟨rfl, hfull, htab⟩

/-! ### `crfs_mkdir` -/

/-- The inode of a new directory in block `n`. -/
def dirInode (x : InodeId) (n : BlockId) : Inode := ⟨x, n, n, 0, fmaskDir⟩

theorem dirInode_isDir (x : InodeId) (n : BlockId) : (dirInode x n).isDir = true := by
  change (fmaskDir &&& fmaskDir != 0) = true
  decide

theorem newDirectory_dirent (x p : InodeId) (j : Nat) (hj : j < 64) :
    (newDirectory x p).dirent j = if j = 1 then ⟨p, Dirent.pad [46, 46]⟩
      else if j = 0 then ⟨x, Dirent.pad [46]⟩ else ⟨0, List.replicate 60 0⟩ := by
  unfold newDirectory
  by_cases h1 : j = 1
  · subst h1
    rw [if_pos rfl, Block.dirent_setDirent_self (by decide)]
  · rw [if_neg h1, Block.dirent_setDirent_ne h1]
    by_cases h0 : j = 0
    · subst h0
      rw [if_pos rfl, Block.dirent_setDirent_self (by decide)]
    · rw [if_neg h0, Block.dirent_setDirent_ne h0, Block.dirent_zeroBlock]

/-- A new directory holds its dot entries and nothing else. -/
theorem newDirectory_ok {p : InodeId} (hx : x ≠ 0) (hp : p ≠ 0) :
    DirOk (newDirectory x p).dirent x ∧ ((newDirectory x p).dirent 1).deInode = p ∧
      ∀ j, 2 ≤ j → j < 64 → ((newDirectory x p).dirent j).deInode = 0 := by
  have h0 : (newDirectory x p).dirent 0 = ⟨x, Dirent.pad [46]⟩ := by
    rw [newDirectory_dirent x p 0 (by decide)]
    rfl
  have h1 : (newDirectory x p).dirent 1 = ⟨p, Dirent.pad [46, 46]⟩ := by
    rw [newDirectory_dirent x p 1 (by decide)]
    rfl
  have h2 : ∀ j, 2 ≤ j → j < 64 → (newDirectory x p).dirent j = ⟨0, List.replicate 60 0⟩ := by
    intro j hj hj64
    rw [newDirectory_dirent x p j hj64, if_neg (by omega), if_neg (by omega)]
  have hn0 : Dirent.name ⟨x, Dirent.pad [46]⟩ = [46] := Dirent.cstr_pad (by decide) (by decide)
  have hn1 : Dirent.name ⟨p, Dirent.pad [46, 46]⟩ = [46, 46] :=
    Dirent.cstr_pad (by decide) (by decide)
  have hlt : ∀ j, j < 64 → ((newDirectory x p).dirent j).deInode ≠ 0 → j = 0 ∨ j = 1 := by
    intro j hj hne
    by_contra hc
    exact hne (by rw [h2 j (by omega) hj])
  refine ⟨⟨?_, ?_, ?_, ?_⟩, by rw [h1], fun j hj hj64 => by rw [h2 j hj hj64]⟩
  · rw [h0]
    exact ⟨rfl, hn0⟩
  · rw [h1]
    exact ⟨hp, hn1⟩
  · intro j hj hz
    by_cases hj2 : 2 ≤ j
    · rw [h2 j hj2 hj]
      rfl
    · obtain rfl | rfl : j = 0 ∨ j = 1 := by omega
      · rw [h0] at hz
        exact absurd hz hx
      · rw [h1] at hz
        exact absurd hz hp
  · intro a b ha hb hna hnb hn
    rcases hlt a ha hna with rfl | rfl <;> rcases hlt b hb hnb with rfl | rfl
    · rfl
    · rw [h0, h1, hn0, hn1] at hn
      cases hn
    · rw [h0, h1, hn0, hn1] at hn
      cases hn
    · rfl

/-- What follows once the inode of a new directory is stored. -/
theorem mkdirInum_stored {r : Except Errno Unit × Vol} {dirnode : Inode} {blk : Block}
    (hd : dirnode.inInode = d)
    (hr : (crfsWriteInode (dirInode x n)).eval (σ.write n (newDirectory x d)) = r) :
    (mkdirInum nm dirnode blk k x.toNat n.toNat).eval σ =
      (match r.1 with
        | .error e => pure (.error e)
        | .ok () => linkDirent dirnode blk k x nm : FsM (Except Errno Unit)).eval r.2 := by
  obtain ⟨r, υ⟩ := r
  simp only [mkdirInum, Prog.eval_bind, ofInt_toNat, crfsWriteBlock_eval, hd]
  cases r <;> erw [hr]

/-- How `crfs_mkdir` ends once both numbers are handed out. -/
theorem mkdirInum_cases (h : Inv σ s) (hd : s.live d) (hdir : σ.img.isDir d = true)
    (hslot : (σ.val (σ.img.ino d).inFirst).freeSlot = some k)
    (hnone : crfsLookupDirent (σ.val (σ.img.ino d).inFirst) nm = none) (hnul : (0 : UInt8) ∉ nm)
    (hlen : nm.length ≤ 59) (ht : σ.im.Took x.toNat m') {m₁ : Freemap}
    (htn : σ.bm.Took n.toNat m₁) :
    ((mkdirInum nm (σ.img.ino d) (σ.val (σ.img.ino d).inFirst) k x.toNat n.toNat).eval
        ((σ.setIm m').setBm m₁) = (.error .ENOSPC,
          (((σ.setIm m').setBm m₁).write n (newDirectory x d)).setBm m₁.exhausted) ∧
      (∀ k, k < m₁.limit → m₁.blocked k = true) ∧
      (σ.tableOf x = 0 ∨ σ.dirty (σ.tableOf x) = false)) ∨
    (∃ (nb : BlockId) (τ : Vol), WroteInode (((σ.setIm m').setBm m₁).write n (newDirectory x d))
        (dirInode x n) nb τ ∧ Stuck τ d ∧
      ((mkdirInum nm (σ.img.ino d) (σ.val (σ.img.ino d).inFirst) k x.toNat n.toNat).eval
        ((σ.setIm m').setBm m₁)).2.glob.Full) ∨
    ∃ (τ : Vol) (s' : Shape), (mkdirInum nm (σ.img.ino d) (σ.val (σ.img.ino d).inFirst) k x.toNat
        n.toNat).eval ((σ.setIm m').setBm m₁) = (.ok (), τ) ∧ Linked σ s d nm x τ s' ∧
          τ.img.isDir x = true := by
  obtain ⟨hxn, hx0⟩ := h.inums.fresh ht
  have hxl : ¬ s.live x := fun hl => hxn (h.live x hl)
  have hxd : x ≠ d := fun he => hxl (he ▸ hd)
  obtain ⟨hd0, hdnum⟩ := h.tree.inum d hd
  have h1 := h.holdInum ht
  have htn' : (σ.setIm m').bm.Took n.toNat m₁ := htn
  have hheld : ((Shape.mk s.live (fun i => s.num i ∨ i = x) s.own).give n .held).own n =
      some .held := by simp [Shape.give]
  have h2 := (h1.holdBlock htn').writeHeld hheld (newDirectory x d)
  have hk2 := (keep_holdInum σ s m' (fun i => s.num i ∨ i = x) fun i => Or.inl).trans
    (h1.keep_holdWrite htn' (newDirectory x d))
  generalize hσ2 : ((σ.setIm m').setBm m₁).write n (newDirectory x d) = σ2 at *
  generalize hs2 : (Shape.mk s.live (fun i => s.num i ∨ i = x) s.own).give n .held = s2 at *
  have hbm2 : σ2.bm = m₁ := by rw [← hσ2]; rfl
  have hval2 : σ2.val n = newDirectory x d := by
    rw [← hσ2]
    exact Function.update_self _ _ _
  have hnum2 : s2.num = fun i => s.num i ∨ i = x := by rw [← hs2]; rfl
  have htab2 : σ2.tableOf x = σ.tableOf x := by rw [← hσ2]; rfl
  have hxl2 : ¬ s2.live x := by rw [hk2.live]; exact hxl
  rcases crfsWriteInode_cases h2.blocks.ok h2.blocks.limit (dirInode x n) with
    ⟨nb, τ, hwe, hw⟩ | ⟨hwe, hfull, htab⟩
  · rw [mkdirInum_stored hdnum ((congrArg (crfsWriteInode (dirInode x n)).eval hσ2).trans hwe)]
    have h3 := h2.wroteInode hw (fun hl => absurd hl hxl2)
    have hk := hk2.trans (h2.keep_wroteInode hw hxl2 (by rw [hnum2]; exact Or.inr rfl))
    have hd3 : (s2.retable ((dirInode x n).inInode.toNat / 256) nb).live d := by
      rw [hk.live]
      exact hd
    have hdir2 : τ.img.isDir d = true := by
      rw [Img.isDir, hk.ino d hd]
      exact hdir
    have hlink := linkDirent_cases h3 hd3 hdir2 (σ.val (σ.img.ino d).inFirst) k x nm
    rw [hk.ino d hd] at hlink
    obtain ⟨-, -, hnbo⟩ := hw.target h2.blocks h2.owned.ownTable
    have hnnb : n ≠ nb := by
      rintro rfl
      rcases hnbo with ho | ho <;> rw [hheld] at ho <;> cases ho
    rcases hlink with ⟨υ, s3, hle, hc⟩ | ⟨hfull, hst⟩
    · have hinox : τ.img.ino x = dirInode x n := hw.ino_self
      have htab : τ.tableOf x ≠ 0 := hw.table_ne_zero h2.blocks h2.owned.ownTable
      have hinoυ : υ.img.ino x = dirInode x n := (hc.ino x hxd htab).trans hinox
      have hheld3 : (s2.retable ((dirInode x n).inInode.toNat / 256) nb).own n = some .held :=
        (retable_other hnbo (by simp)).mpr hheld
      have hvalυ : υ.val n = newDirectory x d := by
        rw [hc.kept n _ hheld3 (by simp) (by simp), hw.val_ne hnnb, hval2]
      have hentx : υ.img.ent x = (newDirectory x d).dirent := by
        funext j
        rw [Img.ent, hinoυ]
        exact congrArg (Block.dirent · j) hvalυ
      have hdirx : υ.img.isDir x = true := by
        rw [Img.isDir, hinoυ]
        exact dirInode_isDir x n
      have he := h.entered hd hdir hslot hnone hnul hlen hxl hx0 hk h3 hc htab
        (by rw [hinox]; rfl) (fun _ => by rw [hentx]; exact newDirectory_ok hx0 hd0)
      have hheldυ : s3.own n = some .held := (hc.owner n _ (by simp) (by simp)).mpr hheld3
      refine Or.inr (Or.inr ⟨υ, ?shape, hle, ?linked, hdirx⟩)
      case linked =>
        refine Linked.assemble h hd hk h3 hc he hxn hnum2 htab (by rw [hinox]; exact ⟨rfl, rfl⟩)
          (fun hf => ?_) ?_ (hc.owned.addDir ?_ hdirx (by rw [hinoυ]; rfl) hheldυ
            (hc.blocks.ne_zero (by rw [hheldυ]; simp)) (hc.blocks.ne_slot (by rw [hheldυ]; simp))
            (hc.table x htab)) ?_ ?_ ?_
        · rw [Img.isDir, hinox, dirInode_isDir] at hf
          cases hf
        · intro b
          by_cases hb : b = n
          · subst hb; simp [Shape.give, hheldυ]
          · simp [Shape.give, Function.update_of_ne hb]
        · rw [hc.live, hk.live]
          exact hxl
        · intro i b
          by_cases hb : b = n
          · subst hb; simp [Shape.give, hheldυ]
          · simp [Shape.give, Function.update_of_ne hb]
        · intro b hb
          by_cases hbn : b = n
          · subst hbn
            simp [Shape.give] at hb
          · simp only [Shape.give, Function.update_of_ne hbn] at hb
            exact ⟨hb, by simp [hbn]⟩
        · intro b
          by_cases hb : b = n
          · exact Or.inr (hb ▸ htn.free)
          · exact Or.inl (by simp only [Shape.give, Function.update_of_ne hb])
    · exact Or.inr (Or.inl ⟨nb, τ, hw, hst, hfull⟩)
  · left
    rw [mkdirInum_stored hdnum ((congrArg (crfsWriteInode (dirInode x n)).eval hσ2).trans hwe)]
    rw [hbm2] at hfull
    refine ⟨?_, hfull, ?_⟩
    · rw [hbm2]
      rfl
    · have hdt : σ2.dirty (σ.tableOf x) = false → σ.dirty (σ.tableOf x) = false := by
        intro hd2
        rw [← hσ2] at hd2
        by_cases hne : σ.tableOf x = n
        · rw [hne] at hd2
          simp [Vol.write] at hd2
        · simpa [Vol.write, Vol.setBm, Vol.setIm, Function.update_of_ne hne] using hd2
      have htab' : σ2.tableOf x = 0 ∨ σ2.dirty (σ2.tableOf x) = false := htab
      rw [htab2] at htab'
      exact htab'.imp_right hdt

/-! ### The calls -/

/-- The path leads to a directory `d` with room for a new entry `nm` in slot `k`. -/
structure Room (σ : Vol) (s : Shape) (fname : Name) (d : InodeId) (nm : Name) (k : Nat) :
    Prop where
  namei : σ.img.namei σ.glob.crfsPwd fname = .ok (nm, d)
  live : s.live d
  isDir : σ.img.isDir d = true
  nul : (0 : UInt8) ∉ nm
  slash : (47 : UInt8) ∉ nm
  short : nm.length ≤ 59
  slot : (σ.val (σ.img.ino d).inFirst).freeSlot = some k
  unused : crfsLookupDirent (σ.val (σ.img.ino d).inFirst) nm = none

/-- The inode a name in a directory stands for. -/
def Img.nodeAt (I : Img) (d : InodeId) (nm : Name) : Inode :=
  if nm = [] then I.ino d
  else
    match crfsLookupDirent (I.val (I.ino d).inFirst) nm with
    | none => ⟨0, 0, 0, 0, 0⟩
    | some de => I.ino de.deInode

theorem inodeLookupFromNamei_eval (σ : Vol) (d : InodeId) (nm : Name) :
    (inodeLookupFromNamei (σ.img.ino d) nm).eval σ = (σ.img.nodeAt d nm, σ) := by
  unfold inodeLookupFromNamei Img.nodeAt
  rw [Prog.eval_ite]
  by_cases hn : nm = []
  · rw [if_pos hn, if_pos hn]
    rfl
  · rw [if_neg hn, if_neg hn, Prog.eval_bind, crfsReadBlock_eval]
    simp only [Vol.img_val]
    cases crfsLookupDirent (σ.val (σ.img.ino d).inFirst) nm <;> rfl

theorem isDir_eval (σ : Vol) (d : InodeId) (nm : Name) :
    (isDir (σ.img.ino d) nm).eval σ = ((σ.img.nodeAt d nm).isDir, σ) := by
  rw [isDir, Prog.eval_bind, inodeLookupFromNamei_eval]
  rfl

/-- Where `crfs_create` puts a new entry: directory, name and slot. -/
def Vol.createAt (σ : Vol) (fname : Name) : Except Errno (InodeId × Name × Nat) :=
  match σ.img.namei σ.glob.crfsPwd fname with
  | .error e => .error e
  | .ok (nm, d) =>
    if nm.length > crfsFilenameMax then .error .ENAMETOOLONG
    else if (σ.img.nodeAt d nm).isDir then .error .EISDIR
    else if (crfsLookupDirent (σ.val (σ.img.ino d).inFirst) nm).isSome then .error .EEXIST
    else
      match (σ.val (σ.img.ino d).inFirst).freeSlot with
      | none => .error .ENOSPC
      | some k => .ok (d, nm, k)

/-- Where `crfs_mkdir` puts a new entry. It does not ask for a directory of that name,
so an empty name is not refused. -/
def Vol.mkdirAt (σ : Vol) (path : Name) : Except Errno (InodeId × Name × Nat) :=
  match σ.img.namei σ.glob.crfsPwd path with
  | .error e => .error e
  | .ok (nm, d) =>
    if nm.length > crfsFilenameMax then .error .ENAMETOOLONG
    else if (crfsLookupDirent (σ.val (σ.img.ino d).inFirst) nm).isSome then .error .EEXIST
    else
      match (σ.val (σ.img.ino d).inFirst).freeSlot with
      | none => .error .ENOSPC
      | some k => .ok (d, nm, k)

/-- Up to the first allocation `crfs_create` only looks. -/
theorem crfsCreate_eval (σ : Vol) (fname : Name) (mem mem' : Bool) :
    (crfsCreate fname mem mem').eval σ =
      match σ.createAt fname with
      | .error e => (.error e, σ)
      | .ok (d, nm, k) =>
        (createInum nm (σ.img.ino d) (σ.val (σ.img.ino d).inFirst) k (nextInode.eval σ).1
          mem mem').eval (nextInode.eval σ).2 := by
  unfold crfsCreate Vol.createAt
  rw [Prog.eval_bind, crfsNamei_eval]
  cases σ.img.namei σ.glob.crfsPwd fname with
  | error e => rfl
  | ok r =>
    obtain ⟨nm, d⟩ := r
    simp only [Except.map, Prog.eval_ite]
    by_cases hlen : nm.length > crfsFilenameMax
    · rw [if_pos hlen, if_pos hlen]
      rfl
    rw [if_neg hlen, if_neg hlen, Prog.eval_bind, isDir_eval, Prog.eval_ite]
    by_cases hdir : (σ.img.nodeAt d nm).isDir = true
    · simp only [hdir, if_true]
      rfl
    simp only [hdir, if_false, Bool.false_eq_true]
    rw [Prog.eval_bind, crfsReadBlock_eval, Prog.eval_ite]
    by_cases hl : (crfsLookupDirent (σ.val (σ.img.ino d).inFirst) nm).isSome = true
    · rw [if_pos hl, if_pos hl]
      rfl
    rw [if_neg hl, if_neg hl]
    cases (σ.val (σ.img.ino d).inFirst).freeSlot with
    | none => rfl
    | some k =>
      simp only
      rw [Prog.eval_bind]

theorem crfsMkdir_eval (σ : Vol) (path : Name) (mem mem' : Bool) :
    (crfsMkdir path mem mem').eval σ =
      match σ.mkdirAt path with
      | .error e => (.error e, σ)
      | .ok (d, nm, k) =>
        (mkdirInum nm (σ.img.ino d) (σ.val (σ.img.ino d).inFirst) k (nextInode.eval σ).1
          (nextBlock.eval (nextInode.eval σ).2).1 mem mem').eval
            (nextBlock.eval (nextInode.eval σ).2).2 := by
  unfold crfsMkdir Vol.mkdirAt
  rw [Prog.eval_bind, crfsNamei_eval]
  cases σ.img.namei σ.glob.crfsPwd path with
  | error e => rfl
  | ok r =>
    obtain ⟨nm, d⟩ := r
    simp only [Except.map, Prog.eval_ite]
    by_cases hlen : nm.length > crfsFilenameMax
    · rw [if_pos hlen, if_pos hlen]
      rfl
    rw [if_neg hlen, if_neg hlen, Prog.eval_bind, crfsReadBlock_eval, Prog.eval_ite]
    by_cases hl : (crfsLookupDirent (σ.val (σ.img.ino d).inFirst) nm).isSome = true
    · rw [if_pos hl, if_pos hl]
      rfl
    rw [if_neg hl, if_neg hl]
    cases (σ.val (σ.img.ino d).inFirst).freeSlot with
    | none => rfl
    | some k =>
      simp only
      rw [Prog.eval_bind, Prog.eval_bind]

theorem mkdirAt_room (h : Inv σ s) (hz : (0 : UInt8) ∉ fname)
    (hat : σ.mkdirAt fname = .ok (d, nm, k)) : Room σ s fname d nm k := by
  unfold Vol.mkdirAt at hat
  cases hr : σ.img.namei σ.glob.crfsPwd fname with
  | error e =>
    rw [hr] at hat
    cases hat
  | ok r =>
    obtain ⟨nm', d'⟩ := r
    rw [hr] at hat
    simp only at hat
    split at hat
    · cases hat
    rename_i hlen
    split at hat
    · cases hat
    rename_i hl
    cases hs : (σ.val (σ.img.ino d').inFirst).freeSlot with
    | none =>
      rw [hs] at hat
      cases hat
    | some k' =>
      rw [hs] at hat
      cases hat
      obtain ⟨hd, hdir, hnul, hsl⟩ := h.namei hz hr
      simp only [crfsFilenameMax] at hlen
      exact ⟨hr, hd, hdir, hnul, hsl, by omega, hs, by simpa using hl⟩

/-- A place for a new file is one for a new directory; a directory on that name has
been ruled out, so the name is not empty. -/
theorem createAt_mkdirAt (hat : σ.createAt fname = .ok (d, nm, k)) :
    σ.mkdirAt fname = .ok (d, nm, k) ∧ (σ.img.nodeAt d nm).isDir = false := by
  unfold Vol.createAt at hat
  unfold Vol.mkdirAt
  cases hr : σ.img.namei σ.glob.crfsPwd fname with
  | error e =>
    rw [hr] at hat
    cases hat
  | ok r =>
    obtain ⟨nm', d'⟩ := r
    rw [hr] at hat
    simp only at hat ⊢
    split at hat
    · cases hat
    rename_i hlen
    rw [if_neg hlen]
    split at hat
    · cases hat
    rename_i hdir
    split at hat
    · cases hat
    rename_i hl
    rw [if_neg hl]
    refine ⟨hat, ?_⟩
    cases hs : (σ.val (σ.img.ino d').inFirst).freeSlot with
    | none =>
      rw [hs] at hat
      cases hat
    | some k' =>
      rw [hs] at hat
      cases hat
      simpa using hdir

theorem createAt_room (h : Inv σ s) (hz : (0 : UInt8) ∉ fname)
    (hat : σ.createAt fname = .ok (d, nm, k)) : Room σ s fname d nm k ∧ nm ≠ [] := by
  obtain ⟨hm, hnode⟩ := createAt_mkdirAt hat
  have hroom := mkdirAt_room h hz hm
  refine ⟨hroom, ?_⟩
  intro hn
  rw [Img.nodeAt, if_pos hn] at hnode
  rw [show (σ.img.ino d).isDir = true from hroom.isDir] at hnode
  cases hnode

/-- `crfs_create` fails without touching anything, or starts to create. -/
theorem crfsCreate_start (h : Inv σ s) (hz : (0 : UInt8) ∉ fname) :
    (∃ e, (crfsCreate fname).eval σ = (.error e, σ)) ∨
    ∃ d nm k, Room σ s fname d nm k ∧ nm ≠ [] ∧ (crfsCreate fname).eval σ =
      (createInum nm (σ.img.ino d) (σ.val (σ.img.ino d).inFirst) k (nextInode.eval σ).1).eval
        (nextInode.eval σ).2 := by
  rw [crfsCreate_eval]
  cases hat : σ.createAt fname with
  | error e => exact Or.inl ⟨e, rfl⟩
  | ok r =>
    obtain ⟨d, nm, k⟩ := r
    obtain ⟨hroom, hne⟩ := createAt_room h hz hat
    exact Or.inr ⟨d, nm, k, hroom, hne, rfl⟩

/-- Without a failed search `crfs_create` changes nothing or enters the file. -/
theorem crfsCreate_spec (h : Inv σ s) (hz : (0 : UInt8) ∉ fname)
    (hfull : ¬ ((crfsCreate fname).eval σ).2.glob.Full) :
    (∃ e, (crfsCreate fname).eval σ = (.error e, σ)) ∨
    ∃ (d : InodeId) (nm : Name) (k : Nat) (x : InodeId) (τ : Vol) (s' : Shape),
      (crfsCreate fname).eval σ = (.ok (), τ) ∧ Room σ s fname d nm k ∧ nm ≠ [] ∧
        Linked σ s d nm x τ s' ∧ τ.img.isDir x = false ∧ ∃ m', σ.im.Took x.toNat m' := by
  rcases crfsCreate_start h hz with he | ⟨d, nm, k, hroom, hne, he⟩
  · exact Or.inl he
  rw [he] at hfull ⊢
  rcases nextInode_cases h.inums.ok h.inums.limit with ⟨x, m', ht, hx⟩ | ⟨hx, -⟩
  · rw [hx] at hfull ⊢
    rcases createInum_cases h hroom.live hroom.isDir hroom.slot hroom.unused hroom.nul hroom.short
      ht with ⟨hr, -, -⟩ | ⟨-, -, -, -, hr⟩ | ⟨τ, s', hr, hl, hx⟩
    · rw [hr] at hfull
      exact absurd (Or.inl rfl) hfull
    · exact absurd hr hfull
    · exact Or.inr ⟨d, nm, k, x, τ, s', hr, hroom, hne, hl, hx, m', ht⟩
  · rw [hx] at hfull
    exact absurd (keeps_createInum stable_full.block _ _ _ _ _ _ (Or.inr rfl)) hfull

/-- With a place for it and no failed search `crfs_mkdir` enters the directory. -/
theorem crfsMkdir_entered (h : Inv σ s) (hz : (0 : UInt8) ∉ fname)
    (hat : σ.mkdirAt fname = .ok (d, nm, k))
    (hfull : ¬ ((crfsMkdir fname).eval σ).2.glob.Full) :
    ∃ (x : InodeId) (τ : Vol) (s' : Shape), (crfsMkdir fname).eval σ = (.ok (), τ) ∧
      Linked σ s d nm x τ s' ∧ τ.img.isDir x = true ∧ ∃ m', σ.im.Took x.toNat m' := by
  have hroom := mkdirAt_room h hz hat
  have he : (crfsMkdir fname).eval σ =
      (mkdirInum nm (σ.img.ino d) (σ.val (σ.img.ino d).inFirst) k (nextInode.eval σ).1
        (nextBlock.eval (nextInode.eval σ).2).1).eval (nextBlock.eval (nextInode.eval σ).2).2 := by
    rw [crfsMkdir_eval, hat]
  rw [he] at hfull ⊢
  rcases nextInode_cases h.inums.ok h.inums.limit with ⟨x, m', ht, hx⟩ | ⟨hx, -⟩
  · rw [hx] at hfull ⊢
    rcases nextBlock_cases (σ := σ.setIm m') h.blocks.ok h.blocks.limit with
      ⟨n, m₁, htn, hn⟩ | ⟨hn, -⟩
    · rw [hn] at hfull ⊢
      rcases mkdirInum_cases h hroom.live hroom.isDir hroom.slot hroom.unused hroom.nul hroom.short
        ht htn with ⟨hr, -, -⟩ | ⟨-, -, -, -, hr⟩ | ⟨τ, s', hr, hl, hx⟩
      · rw [hr] at hfull
        exact absurd (Or.inl rfl) hfull
      · exact absurd hr hfull
      · exact ⟨x, τ, s', hr, hl, hx, m', ht⟩
    · rw [hn] at hfull
      exact absurd (keeps_mkdirInum stable_full.block _ _ _ _ _ _ _ (Or.inl rfl)) hfull
  · rw [hx] at hfull
    exact absurd (keeps_mkdirInum stable_full.block _ _ _ _ _ _ _
      (keeps_nextBlock stable_full.block _ (Or.inr rfl))) hfull

theorem crfsMkdir_spec (h : Inv σ s) (hz : (0 : UInt8) ∉ fname)
    (hfull : ¬ ((crfsMkdir fname).eval σ).2.glob.Full) :
    (∃ e, (crfsMkdir fname).eval σ = (.error e, σ)) ∨
    ∃ (d : InodeId) (nm : Name) (k : Nat) (x : InodeId) (τ : Vol) (s' : Shape),
      (crfsMkdir fname).eval σ = (.ok (), τ) ∧ Room σ s fname d nm k ∧ Linked σ s d nm x τ s' ∧
        τ.img.isDir x = true ∧ ∃ m', σ.im.Took x.toNat m' := by
  cases hat : σ.mkdirAt fname with
  | error e =>
    refine Or.inl ⟨e, ?_⟩
    rw [crfsMkdir_eval, hat]
  | ok r =>
    obtain ⟨d, nm, k⟩ := r
    obtain ⟨x, τ, s', hr, hl, hx, ht⟩ := crfsMkdir_entered h hz hat hfull
    exact Or.inr ⟨d, nm, k, x, τ, s', hr, mkdirAt_room h hz hat, hl, hx, ht⟩

end Crfs
