import CobaltRom.Crfs.Keeps
import CobaltRom.Crfs.Namei

/-! `crfs_create` and `crfs_mkdir`: what they leave of the invariant and what they
change. -/
namespace Crfs
open WriteBack SlotTree

/-- What matters about the image a block write leaves. -/
def Vol.write (σ : Vol) (b : BlockId) (c : Block) : Vol :=
  { σ with val := Function.update σ.val b c, dirty := Function.update σ.dirty b true }

variable {σ τ : Vol} {s s' : Shape} {m m' : Freemap} {b n nb : BlockId} {c : Block}
  {d i x : InodeId} {y : Inode} {k : Nat} {nm : Name}

/-! ### Single steps -/

theorem Inv.holdBlock (h : Inv σ s) (ht : σ.bm.Took n.toNat m') :
    Inv (σ.setBm m') (s.give n .held) := by
  obtain ⟨hn, h0, h16⟩ := h.blocks.fresh ht
  exact ⟨h.tree, h.owned.hold hn h0 h16, h.blocks.give ht _, h.inums, h.live, h.pwd⟩

theorem Inv.holdInum (h : Inv σ s) (ht : σ.im.Took x.toNat m') :
    Inv (σ.setIm m') { s with num := fun i => s.num i ∨ i = x } :=
  ⟨h.tree, h.owned.withNum _, h.blocks, h.inums.give ht, fun i hi => Or.inl (h.live i hi), h.pwd⟩

theorem Inv.exhaustBm (h : Inv σ s) (hb : ∀ k, k < σ.bm.limit → σ.bm.blocked k = true) :
    Inv (σ.setBm σ.bm.exhausted) s :=
  ⟨h.tree, h.owned, h.blocks.exhausted hb, h.inums, h.live, h.pwd⟩

/-- Writing a block that is set aside. -/
theorem Inv.writeHeld (h : Inv σ s) (hb : s.own b = some .held) (c : Block) :
    Inv (σ.write b c) s := by
  have ha : Agree s σ.img (σ.write b c).img := by
    refine agree_imgOf h.owned rfl rfl ?_
    intro e _ hne
    have heb : e ≠ b := by
      rintro rfl
      exact hne hb
    exact Function.update_of_ne heb _ _
  exact ⟨ha.treed h.owned h.tree, ha.owned h.owned, h.blocks, h.inums, h.live, h.pwd⟩

/-- Storing an inode that is not in the tree, or one in use that keeps its place
and, if it is a file, starts with a block of its own. -/
theorem Inv.wroteInode (h : Inv σ s) (hw : WroteInode σ y nb τ)
    (hy : s.live y.inInode → y.Alike (σ.img.ino y.inInode) ∧
      (σ.img.isDir y.inInode = false →
        y.inFirst = 0 ∨ s.own y.inFirst = some (.file y.inInode))) :
    Inv τ (s.retable (y.inInode.toNat / 256) nb) := by
  have hT := h.owned.ownTable
  obtain ⟨h0, h16, hnb⟩ := hw.target h.blocks hT
  have hino : ∀ i, s.live i → τ.img.ino i = (σ.img.setIno y.inInode y).ino i := by
    intro i hi
    rw [hw.ino h.blocks hT i (h.owned.table i hi)]
    simp only [Img.setIno, Function.update_apply]
  have ho1 : Owned (σ.img.setIno y.inInode y) s := by
    exact h.owned.setIno (fun hl => (hy hl).1.2.1) (fun hl hd => (hy hl).1.2.2 hd)
      (fun hl hd => (hy hl).2 hd)
  have ht1 : Treed (σ.img.setIno y.inInode y) s.live := h.tree.setIno fun hl => (hy hl).1
  have hval : ∀ b, b ≠ nb → τ.img.val b = (σ.img.setIno y.inInode y).val b :=
    fun b hb => hw.val_ne hb
  have hdirne : ∀ i, s.live i → (σ.img.setIno y.inInode y).isDir i = true →
      ((σ.img.setIno y.inInode y).ino i).inFirst ≠ nb := by
    intro i hi hd he
    have hd2 := ho1.dirBlock hi hd
    rw [he] at hd2
    rcases hnb with hnb | hnb <;> rw [hnb] at hd2 <;> cases hd2
  refine ⟨?_, ?_, hw.ledger h.blocks hT, by rw [hw.im]; exact h.inums, h.live, ?_⟩
  · refine ht1.congr hw.root (fun i hi => by rw [hino i hi]; exact (ht1.inum i hi).2)
      (fun i hi => by rw [Img.isDir, Img.isDir, hino i hi]) ?_
    intro i hi hd
    funext j
    rw [Img.ent, Img.ent, hino i hi, hval _ (hdirne i hi hd)]
  · refine ho1.retable (inum_div_lt _) h0 h16 ?_ hino hval hw.vt
    rcases hnb with hnb | hnb
    · exact Or.inr hnb
    · exact Or.inl ((hT _ _).mp hnb).2.1.symm
  · rw [hw.pwd, h.pwd]
    exact hw.root.symm

theorem Vol.write_val_self (σ : Vol) (b : BlockId) (c : Block) : (σ.write b c).val b = c :=
  Function.update_self _ _ _

theorem Vol.write_val_ne {e : BlockId} (he : e ≠ b) (c : Block) :
    (σ.write b c).val e = σ.val e := Function.update_of_ne he _ _

theorem Vol.write_ino (hb : σ.tableOf i ≠ b) (c : Block) :
    (σ.write b c).img.ino i = σ.img.ino i := by
  change ((Function.update σ.val b c) (σ.tableOf i)).itInode (i.toNat % 256) = _
  rw [Function.update_of_ne hb]
  rfl

/-- The table of an inode is a block of its own. -/
theorem Inv.table_ne (h : Inv σ s) (hi : σ.tableOf i ≠ 0) (hb : ∀ k, s.own b ≠ some (.itable k)) :
    σ.tableOf i ≠ b := by
  intro he
  exact hb _ ((h.owned.ownTable (i.toNat / 256) b).mpr ⟨inum_div_lt i, he, he ▸ hi⟩)

/-! ### Storing a changed directory block -/

/-- `τ` is `σ` with the block of directory `d` replaced by `c`, in place or moved. -/
structure Committed (σ : Vol) (s : Shape) (d : InodeId) (c : Block) (τ : Vol) (s' : Shape) :
    Prop where
  owned : Owned τ.img s'
  blocks : Ledger τ.bm s'.own
  live : s'.live = s.live
  num : s'.num = s.num
  im : τ.im = σ.im
  root : τ.img.root = σ.img.root
  pwd : τ.glob.crfsPwd = σ.glob.crfsPwd
  ino : ∀ i, i ≠ d → σ.tableOf i ≠ 0 → τ.img.ino i = σ.img.ino i
  inoDir : ∃ f l, τ.img.ino d = { σ.img.ino d with inFirst := f, inLast := l } ∧ τ.val f = c
  table : ∀ i, σ.tableOf i ≠ 0 → τ.tableOf i ≠ 0
  tabs : TablesFor s.num σ τ
  owner : ∀ b o, (∀ k, o ≠ .itable k) → o ≠ .dir d → (s'.own b = some o ↔ s.own b = some o)
  kept : ∀ b o, s.own b = some o → (∀ k, o ≠ .itable k) → o ≠ .dir d → τ.val b = σ.val b
  grow : Grow (fun _ => False) σ s.own τ s'.own

/-- The directory is already in a new block. -/
theorem Inv.commitDirty (h : Inv σ s) (hd : s.live d) (hdir : σ.img.isDir d = true)
    (hdirty : σ.dirty (σ.img.ino d).inFirst = true) (c : Block) :
    Committed σ s d c (σ.write (σ.img.ino d).inFirst c) s := by
  have hb := h.owned.dirBlock hd hdir
  have hnt : ∀ k, s.own (σ.img.ino d).inFirst ≠ some (.itable k) := by
    intro k hk
    rw [hb] at hk
    cases hk
  have hino : ∀ i, σ.tableOf i ≠ 0 →
      (σ.write (σ.img.ino d).inFirst c).img.ino i = σ.img.ino i :=
    fun i hi => Vol.write_ino (h.table_ne hi hnt) c
  have hval : ∀ b o, s.own b = some o → o ≠ .dir d →
      (σ.write (σ.img.ino d).inFirst c).val b = σ.val b := by
    intro b o ho hne
    have hbd : b ≠ (σ.img.ino d).inFirst := by
      rintro rfl
      rw [hb] at ho
      exact hne (Option.some.inj ho).symm
    exact Function.update_of_ne hbd _ _
  refine ⟨?_, h.blocks, rfl, rfl, rfl, rfl, rfl, fun i _ hi => hino i hi, ?_, fun i hi => hi,
    TablesFor.refl _ _, fun _ _ _ _ => Iff.rfl, fun b o ho _ hne => hval b o ho hne, ?_⟩
  · refine h.owned.congr rfl (fun i hi => hino i (h.owned.table i hi)) ?_
    intro i b hb
    change ((σ.write (σ.img.ino d).inFirst c).val b).fbNext = (σ.val b).fbNext
    rw [hval b _ hb (by simp)]
  · refine ⟨(σ.img.ino d).inFirst, (σ.img.ino d).inLast, hino d (h.owned.table d hd), ?_⟩
    exact Function.update_self _ _ _
  · exact (Grow.refl _ σ s.own).write (h.blocks.lt_of_own (by rw [hb]; simp))
      (Or.inl hdirty) rfl rfl

/-- The directory moves to the block `n` just handed out. -/
theorem Inv.commitMoved (h : Inv σ s) (hd : s.live d) (hdir : σ.img.isDir d = true)
    (ht : σ.bm.Took n.toNat m') {υ : Vol} (hnum : y.inInode = d) (hydir : y.isDir = true)
    (hfst : y.inFirst = n) (hw : WroteInode
      (σ.setBm (freemapUnmark m' (σ.img.ino d).inFirst.toNat)) y nb υ) (c : Block)
    (hy : ∃ f l, y = { σ.img.ino d with inFirst := f, inLast := l }) :
    Committed σ s d c (υ.write n c)
      (((s.take (σ.img.ino d).inFirst).give n (.dir d)).retable (d.toNat / 256) nb) := by
  have hb := h.owned.dirBlock hd hdir
  obtain ⟨hn, hn0, hn16⟩ := h.blocks.fresh ht
  have hb0 := h.owned.dirBlock_ne_zero hd hdir
  have hb16 : (σ.img.ino d).inFirst ≠ 16 := h.blocks.ne_slot (by rw [hb]; simp)
  have hnb : n ≠ (σ.img.ino d).inFirst := by
    rintro rfl
    rw [hb] at hn
    cases hn
  -- the maps follow the program: hand out `n`, release the old block, store the inode
  have hL3 : Ledger (freemapUnmark m' (σ.img.ino d).inFirst.toNat)
      ((s.take (σ.img.ino d).inFirst).give n (.dir d)).own := by
    have hL := (h.blocks.give ht (.dir d)).take hb0 hb16
    rwa [Function.update_comm hnb] at hL
  have ho2 : Owned ((σ.img.setVal n c).setIno d y)
      ((s.take (σ.img.ino d).inFirst).give n (.dir d)) := by
    have hs : Owned (σ.img.setVal n c) s := by
      refine h.owned.setVal ?_
      intro i hi
      rw [hn] at hi
      cases hi
    exact hs.moveDir hd hdir hn hn0 hn16 hydir hfst
  have hother : ∀ b, b ≠ n → b ≠ (σ.img.ino d).inFirst →
      ((s.take (σ.img.ino d).inFirst).give n (.dir d)).own b = s.own b := by
    intro b hbn hbd
    simp only [Shape.give, Shape.take, Function.update_of_ne hbn, Function.update_of_ne hbd]
  have hnd : ((s.take (σ.img.ino d).inFirst).give n (.dir d)).own n = some (.dir d) := by
    simp [Shape.give]
  have hbd : ((s.take (σ.img.ino d).inFirst).give n (.dir d)).own (σ.img.ino d).inFirst = none := by
    simp [Shape.give, Shape.take, Function.update_of_ne (Ne.symm hnb)]
  generalize hs2 : (s.take (σ.img.ino d).inFirst).give n (.dir d) = s2 at *
  have hlive2 : s2.live = s.live := by rw [← hs2]; rfl
  have hnum2 : s2.num = s.num := by rw [← hs2]; rfl
  have hT3 : Tables σ.glob.superBlock.sbVtable s2.own := ho2.ownTable
  obtain ⟨hnb0, hnb16, hnbo⟩ := hw.target hL3 hT3
  have htab := hw.tables hL3 hT3
  have hinow := hw.ino hL3 hT3
  have hvt := hw.vt
  have hled := hw.ledger hL3 hT3
  have hgr := hw.grow hL3 hT3 (fun _ => False)
  rw [hnum] at hnbo htab hvt hled hgr
  have hnn : n ≠ nb := by
    rintro rfl
    rcases hnbo with h2 | h2 <;> rw [hnd] at h2 <;> cases h2
  have htable : ∀ i, σ.tableOf i ≠ 0 → υ.tableOf i ≠ 0 := by
    intro i hi
    change υ.glob.superBlock.sbVtable (i.toNat / 256) ≠ 0
    rw [hvt]
    split
    · exact hnb0
    · exact hi
  have hino : ∀ i, σ.tableOf i ≠ 0 →
      (υ.write n c).img.ino i = if i = d then y else σ.img.ino i := by
    intro i hi
    have h1 := hinow i hi
    rw [hnum] at h1
    refine Eq.trans (Vol.write_ino ?_ c) h1
    intro he
    have ho := (htab (i.toNat / 256) n).mpr ⟨inum_div_lt i, he, hn0⟩
    rw [retable, if_neg hnn, hnd] at ho
    simp at ho
  have hval : ∀ b, b ≠ nb → (υ.write n c).val b = (σ.img.setVal n c).val b := by
    intro b hbb
    change (Function.update υ.val n c) b = Function.update σ.val n c b
    by_cases hbn : b = n
    · subst hbn; simp
    · rw [Function.update_of_ne hbn, Function.update_of_ne hbn, hw.val_ne hbb]
      rfl
  have howner : ∀ b o, (∀ k, o ≠ .itable k) → o ≠ .dir d →
      ((s2.retable (d.toNat / 256) nb).own b = some o ↔ s.own b = some o) := by
    intro b o hk hod
    refine (retable_other hnbo hk).trans ?_
    by_cases hbn : b = n
    · subst hbn
      simp [hnd, hn, Ne.symm hod]
    · by_cases hbf : b = (σ.img.ino d).inFirst
      · subst hbf
        simp [hbd, hb, Ne.symm hod]
      · rw [hother b hbn hbf]
  have htabs : TablesFor s.num σ (υ.write n c) := hw.tablesFor (by rw [hnum]; exact h.live d hd)
  refine ⟨?_, ?_, hlive2, hnum2, hw.im, hw.root, hw.pwd, ?_, ?_, htable, htabs, howner, ?_, ?_⟩
  · refine ho2.retable (inum_div_lt d) hnb0 hnb16 ?_ ?_ hval hvt
    · rcases hnbo with h2 | h2
      · exact Or.inr h2
      · exact Or.inl ((hT3 _ _).mp h2).2.1.symm
    · intro i hi
      rw [hlive2] at hi
      rw [hino i (h.owned.table i hi)]
      simp only [Img.setIno, Function.update_apply]
      rfl
  · exact hled
  · intro i hid hi
    rw [hino i hi, if_neg hid]
  · obtain ⟨f, l, hy⟩ := hy
    refine ⟨f, l, ?_, ?_⟩
    · rw [hino d (h.owned.table d hd), if_pos rfl, hy]
    · have hf : f = n := by rw [← hfst, hy]
      rw [hf]
      exact Function.update_self _ _ _
  · intro b o ho hk hod
    have hbn : b ≠ n := by
      rintro rfl
      rw [hn] at ho
      cases ho
    have hbnb : b ≠ nb := by
      have := (howner b o hk hod).mpr ho
      rintro rfl
      simp only [Shape.retable, retable, if_true] at this
      exact hk _ (Option.some.inj this).symm
    rw [hval b hbnb]
    exact Function.update_of_ne hbn _ _
  · have g1 : Grow (fun _ => False) σ s.own
        (σ.setBm (freemapUnmark m' (σ.img.ino d).inFirst.toNat)) s2.own := by
      refine ⟨ht.limit_eq, ?_, fun _ hk => Or.inl hk, fun _ hk => Or.inl hk, ?_⟩
      · intro k hk
        change (freemapUnmark m' _).blocked k = true
        rw [Freemap.blocked_unmark ht.ok, ht.blocked, hk]
        rfl
      · intro b
        by_cases hbn : b = n
        · exact Or.inr (Or.inr (hbn ▸ ht.free))
        · by_cases hbf : b = (σ.img.ino d).inFirst
          · exact Or.inr (Or.inl (by rw [hbf]; exact hbd))
          · exact Or.inl (hother b hbn hbf)
    exact (g1.trans hgr).write ht.lt (Or.inr (Or.inl ht.free)) rfl rfl

/-- The directory has to move and there is no block for it or for its table. -/
def Stuck (σ : Vol) (d : InodeId) : Prop :=
  σ.dirty (σ.img.ino d).inFirst = false ∧
    ((∀ k, k < σ.bm.limit → σ.bm.blocked k = true) ∨
      ∃ n : BlockId, ∃ m', σ.bm.Took n.toNat m' ∧ σ.dirty (σ.tableOf d) = false ∧
        ∀ k, k < m'.limit → m'.blocked k = true)

/-- Both endings of the common part of `crfs_create` and `crfs_mkdir`. -/
theorem linkDirent_cases (h : Inv σ s) (hd : s.live d) (hdir : σ.img.isDir d = true)
    (blk : Block) (slot : Nat) (x : InodeId) (nm : Name) :
    (∃ (τ : Vol) (s' : Shape), (linkDirent (σ.img.ino d) blk slot x nm).eval σ = (.ok (), τ) ∧
      Committed σ s d (blk.setDirent slot x nm) τ s') ∨
    (((linkDirent (σ.img.ino d) blk slot x nm).eval σ).2.glob.Full ∧ Stuck σ d) := by
  have hnum : (σ.img.ino d).inInode = d := (h.tree.inum d hd).2
  by_cases hdirty : σ.dirty (σ.img.ino d).inFirst = true
  · refine Or.inl ⟨_, _, ?_, h.commitDirty hd hdir hdirty _⟩
    simp only [linkDirent, Prog.eval_bind, blockIsDirty_eval, hdirty, if_true]
    rfl
  · have hdirty' : σ.dirty (σ.img.ino d).inFirst = false := by simpa using hdirty
    have heval : ∀ r : Int × Vol, nextBlock.eval σ = r →
        (linkDirent (σ.img.ino d) blk slot x nm).eval σ =
          (moveDirent (σ.img.ino d) blk slot x nm (UInt16.ofInt r.1)).eval r.2 := by
      intro r hr
      simp only [linkDirent, Prog.eval_bind, blockIsDirty_eval, hdirty', Bool.false_eq_true,
        if_false, hr]
    rcases nextBlock_cases h.blocks.ok h.blocks.limit with ⟨n, m', ht, he⟩ | ⟨he, hfull⟩
    · rw [heval _ he, ofInt_toNat]
      have hok : (σ.setBm (freemapUnmark m' (σ.img.ino d).inFirst.toNat)).bm.Ok :=
        Freemap.ok_unmark ht.ok _
      have hlim : (σ.setBm (freemapUnmark m' (σ.img.ino d).inFirst.toNat)).bm.limit ≤ 65536 := by
        change m'.limit ≤ 65536
        rw [ht.limit_eq]
        exact h.blocks.limit
      rcases crfsWriteInode_cases hok hlim { σ.img.ino d with inFirst := n, inLast := n } with
        ⟨nb, υ, hwe, hw⟩ | ⟨hwe, hfull, htab⟩
      · have hc := h.commitMoved (y := { σ.img.ino d with inFirst := n, inLast := n }) hd hdir ht
          hnum hdir rfl hw (blk.setDirent slot x nm) ⟨n, n, rfl⟩
        refine Or.inl ⟨_, _, ?_, hc⟩
        simp only [moveDirent, Prog.eval_bind, unmarkBlock_eval]
        erw [hwe]
        rfl
      · right
        refine ⟨?_, hdirty', Or.inr ⟨n, m', ht, ?_, ?_⟩⟩
        · simp only [moveDirent, Prog.eval_bind, unmarkBlock_eval]
          erw [hwe]
          exact Or.inl rfl
        · rw [hnum] at htab
          exact htab.resolve_left (h.owned.table d hd)
        · intro k hk
          rw [← Freemap.blocked_unmark ht.ok (σ.img.ino d).inFirst.toNat]
          exact hfull k hk
    · rw [heval _ he]
      refine Or.inr ⟨keeps_moveDirent stable_full.block _ _ _ _ _ _ _ (Or.inl rfl),
        hdirty', Or.inl hfull⟩

end Crfs
