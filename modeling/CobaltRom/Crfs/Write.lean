import CobaltRom.Crfs.Create

/-! What opening and writing a file can reach: the file's own blocks, its inode and
blocks that were free, whether or not the disk fills up on the way. -/
namespace Crfs
open WriteBack SlotTree

variable {σ τ υ : Vol} {s s' s'' : Shape} {m' : Freemap} {b n nb : BlockId} {c : Block}
  {i : InodeId} {y : Inode} {fp : CoFile}

/-- From `σ` to `τ` at most file `i` changed. -/
structure Touch (i : InodeId) (σ : Vol) (s : Shape) (τ : Vol) (s' : Shape) : Prop where
  live : s'.live = s.live
  num : s'.num = s.num
  root : τ.img.root = σ.img.root
  im : τ.im = σ.im
  tabs : TablesFor s.num σ τ
  ino : ∀ j, s.live j → j ≠ i → τ.img.ino j = σ.img.ino j
  mask : (τ.img.ino i).inFmask = (σ.img.ino i).inFmask
  own : ∀ b o, (∀ k, o ≠ .itable k) → o ≠ .file i → (s'.own b = some o ↔ s.own b = some o)
  ownFile : ∀ b, s.own b = some (.file i) → s'.own b = some (.file i)
  val : ∀ b o, s.own b = some o → (∀ k, o ≠ .itable k) → o ≠ .file i → τ.val b = σ.val b
  grow : Grow (· = i) σ s.own τ s'.own

theorem Touch.refl (i : InodeId) (σ : Vol) (s : Shape) : Touch i σ s σ s :=
  ⟨rfl, rfl, rfl, rfl, TablesFor.refl _ _, fun _ _ _ => rfl, rfl, fun _ _ _ _ => Iff.rfl,
    fun _ h => h, fun _ _ _ _ _ => rfl, Grow.refl _ _ _⟩

theorem Touch.trans (h : Touch i σ s τ s') (h' : Touch i τ s' υ s'') : Touch i σ s υ s'' := by
  refine ⟨h'.live.trans h.live, h'.num.trans h.num, h'.root.trans h.root, h'.im.trans h.im,
    h.tabs.trans (h.num ▸ h'.tabs) (fun _ hi => hi), ?_, h'.mask.trans h.mask, ?_,
    fun b hb => h'.ownFile b (h.ownFile b hb), ?_,
    h.grow.trans h'.grow⟩
  · intro j hj hji
    rw [h'.ino j (h.live ▸ hj) hji, h.ino j hj hji]
  · intro b o hk hi
    rw [h'.own b o hk hi, h.own b o hk hi]
  · intro b o ho hk hi
    rw [h'.val b o ((h.own b o hk hi).mpr ho) hk hi, h.val b o ho hk hi]

theorem Touch.exhausted (i : InodeId) (σ : Vol) (s : Shape) :
    Touch i σ s (σ.setBm σ.bm.exhausted) s :=
  ⟨rfl, rfl, rfl, rfl, TablesFor.refl _ _, fun _ _ _ => rfl, rfl, fun _ _ _ _ => Iff.rfl,
    fun _ h => h, fun _ _ _ _ _ => rfl, Grow.exhausted _ _ _⟩

theorem Touch.isDir (h : Touch i σ s τ s') : τ.img.isDir i = σ.img.isDir i := by
  simp only [Img.isDir, Inode.isDir, h.mask]

/-- An open handle: its file is in the tree and the blocks it knows are the file's. -/
structure Handle (σ : Vol) (s : Shape) (fp : CoFile) : Prop where
  magic : fp.fMagic = coFileMagic
  live : s.live fp.fInode
  file : σ.img.isDir fp.fInode = false
  cur : fp.fCurblock = 0 ∨ s.own fp.fCurblock = some (.file fp.fInode)
  next : fp.fFblock.fbNext = 0 ∨ s.own fp.fFblock.fbNext = some (.file fp.fInode)

/-- A handle outlives what happens to any file, its own included. -/
theorem Handle.touch (h : Handle σ s fp) (ht : Touch i σ s τ s') : Handle τ s' fp := by
  have hown : ∀ b, s.own b = some (.file fp.fInode) → s'.own b = some (.file fp.fInode) := by
    intro b hb
    by_cases hi : fp.fInode = i
    · rw [hi] at hb ⊢
      exact ht.ownFile b hb
    · exact (ht.own b _ (by simp) (by simpa using hi)).mpr hb
  refine ⟨h.magic, by rw [ht.live]; exact h.live, ?_, h.cur.imp_right (hown _),
    h.next.imp_right (hown _)⟩
  by_cases hi : fp.fInode = i
  · have hf := h.file
    rw [hi] at hf ⊢
    rw [ht.isDir]
    exact hf
  · rw [Img.isDir, ht.ino _ h.live hi]
    exact h.file

/-! ### Single steps -/

/-- A block handed out and written becomes a block of the file. -/
theorem Inv.claimBlock (h : Inv σ s) (hi : s.live i) (hf : σ.img.isDir i = false)
    (ht : σ.bm.Took n.toNat m') (hc : c.fbNext = 0) :
    Inv ((σ.setBm m').write n c) (s.give n (.file i)) ∧
      Touch i σ s ((σ.setBm m').write n c) (s.give n (.file i)) := by
  obtain ⟨hn, h0, h16⟩ := h.blocks.fresh ht
  have hino : ∀ j, s.live j → ((σ.setBm m').write n c).img.ino j = σ.img.ino j := by
    intro j hj
    exact Vol.write_ino (h.table_ne (h.owned.table j hj) (by rw [hn]; simp)) c
  have hval : ∀ b o, s.own b = some o → ((σ.setBm m').write n c).val b = σ.val b := by
    intro b o hb
    refine Vol.write_val_ne ?_ c
    rintro rfl
    rw [hn] at hb
    cases hb
  have hag : Agree s σ.img ((σ.setBm m').write n c).img :=
    ⟨rfl, rfl, hino, fun j b hb => hval b _ hb, fun j b hb => hval b _ hb⟩
  have hown : ∀ b o, o ≠ .file i → ((s.give n (.file i)).own b = some o ↔ s.own b = some o) := by
    intro b o ho
    by_cases he : b = n
    · subst he
      simp [Shape.give, hn, Ne.symm ho]
    · simp [Shape.give, Function.update_of_ne he]
  refine ⟨⟨hag.treed h.owned h.tree, ?_, h.blocks.give ht _, h.inums, h.live, h.pwd⟩,
    rfl, rfl, rfl, rfl, TablesFor.refl _ _, fun j hj _ => hino j hj, by rw [hino i hi],
    fun b o _ ho => hown b o ho,
    ?_, fun b o hb _ _ => hval b o hb, ?_⟩
  · refine (hag.owned h.owned).claim hn h0 h16 hi (by rw [hag.isDir hi]; exact hf) ?_
    rw [Vol.img_val, Vol.write_val_self]
    exact hc
  · intro b hb
    have he : b ≠ n := by
      rintro rfl
      rw [hn] at hb
      cases hb
    simpa [Shape.give, Function.update_of_ne he] using hb
  · exact (Grow.took _ ht (.file i)).write ht.lt (Or.inr (Or.inl ht.free)) rfl rfl

/-- Writing a block of the file. -/
theorem Inv.writeFile (h : Inv σ s) (hb : s.own b = some (.file i))
    (hc : c.fbNext = 0 ∨ s.own c.fbNext = some (.file i)) :
    Inv (σ.write b c) s ∧ Touch i σ s (σ.write b c) s := by
  obtain ⟨hi, hf, -⟩ := h.owned.ownFile i b hb
  have hino : ∀ j, s.live j → (σ.write b c).img.ino j = σ.img.ino j := by
    intro j hj
    exact Vol.write_ino (h.table_ne (h.owned.table j hj) (by rw [hb]; simp)) c
  have hval : ∀ e o, s.own e = some o → o ≠ .file i → (σ.write b c).val e = σ.val e := by
    intro e o he ho
    refine Vol.write_val_ne ?_ c
    rintro rfl
    rw [hb] at he
    exact ho (Option.some.inj he).symm
  refine ⟨⟨?_, ?_, h.blocks, h.inums, h.live, h.pwd⟩, rfl, rfl, rfl, rfl, TablesFor.refl _ _,
    fun j hj _ => hino j hj,
    by rw [hino i hi], fun _ _ _ _ => Iff.rfl, fun _ hb => hb, fun e o he _ ho => hval e o he ho,
    (Grow.refl _ σ s.own).write (h.blocks.lt_of_own (by rw [hb]; simp))
      (Or.inr (Or.inr ⟨i, rfl, hb⟩)) rfl rfl⟩
  · refine h.tree.congr rfl (fun j hj => by rw [hino j hj]; exact (h.tree.inum j hj).2)
      (fun j hj => by rw [Img.isDir, Img.isDir, hino j hj]) ?_
    intro j hj hd
    funext k
    rw [Img.ent, Img.ent, hino j hj, Vol.img_val, Vol.img_val,
      hval _ _ (h.owned.dirBlock hj hd) (by simp)]
  · refine h.owned.relink rfl hino ?_
    intro j e he
    rw [Vol.img_val]
    by_cases heb : e = b
    · subst heb
      rw [hb] at he
      cases he
      rw [Vol.write_val_self]
      exact hc
    · rw [Vol.write_val_ne heb]
      exact (h.owned.ownFile j e he).2.2

/-- Storing the inode of the file; nothing happens if there is no block for its table. -/
theorem Inv.storeInode (h : Inv σ s) (hi : s.live i) (hf : σ.img.isDir i = false)
    (hy : y.inInode = i) (hm : y.inFmask = (σ.img.ino i).inFmask)
    (hfst : y.inFirst = 0 ∨ s.own y.inFirst = some (.file i)) :
    ∃ s', Inv ((crfsWriteInode y).eval σ).2 s' ∧ Touch i σ s ((crfsWriteInode y).eval σ).2 s' ∧
      (∀ b, s'.own b = some (.file i) ↔ s.own b = some (.file i)) ∧
      (∀ b, s.own b = some (.file i) → ((crfsWriteInode y).eval σ).2.val b = σ.val b) ∧
      (Vol.img ((crfsWriteInode y).eval σ).2).ino i =
        (match ((crfsWriteInode y).eval σ).1 with | .ok () => y | .error _ => σ.img.ino i) ∧
      (¬ ((crfsWriteInode y).eval σ).2.glob.Full → ((crfsWriteInode y).eval σ).1 = .ok ()) := by
  rcases crfsWriteInode_cases h.blocks.ok h.blocks.limit y with ⟨nb, τ, he, hw⟩ | ⟨he, hfull, -⟩
  · rw [he]
    obtain ⟨-, -, hnb⟩ := hw.target h.blocks h.owned.ownTable
    have hown : ∀ b o, (∀ k, o ≠ .itable k) →
        ((s.retable (y.inInode.toNat / 256) nb).own b = some o ↔ s.own b = some o) :=
      fun b o ho => retable_other hnb ho
    have hval : ∀ b o, s.own b = some o → (∀ k, o ≠ .itable k) → τ.val b = σ.val b := by
      intro b o ho hk
      refine hw.val_ne ?_
      rintro rfl
      rcases hnb with hnb | hnb <;> rw [hnb] at ho
      · cases ho
      · exact hk _ (Option.some.inj ho).symm
    have hino : ∀ j, s.live j → τ.img.ino j = if j = i then y else σ.img.ino j := by
      intro j hj
      rw [hw.ino h.blocks h.owned.ownTable j (h.owned.table j hj), hy]
    have hself : τ.img.ino i = y := by rw [hino i hi, if_pos rfl]
    have hisDir : y.isDir = σ.img.isDir i := by simp only [Img.isDir, Inode.isDir, hm]
    refine ⟨s.retable (y.inInode.toNat / 256) nb, h.wroteInode hw ?_, ⟨rfl, rfl, hw.root, hw.im,
      hw.tablesFor (by rw [hy]; exact h.live i hi), ?_, ?_, fun b o hk _ => hown b o hk,
      fun b hb => (hown b _ (by simp)).mpr hb,
      fun b o ho hk _ => hval b o ho hk, hw.grow h.blocks h.owned.ownTable _⟩,
      fun b => hown b _ (by simp), fun b hb => hval b _ hb (by simp), hself, fun _ => rfl⟩
    · intro _
      rw [hy]
      refine ⟨⟨hy.trans (h.tree.inum i hi).2.symm, hisDir, ?_⟩, fun _ => hfst⟩
      intro hd
      rw [show (σ.img.ino i).isDir = false from hf] at hd
      cases hd
    · intro j hj hji
      rw [hino j hj, if_neg hji]
    · rw [hself, hm]
  · rw [he]
    refine ⟨s, h.exhaustBm hfull, Touch.exhausted i σ s, fun _ => Iff.rfl, fun _ _ => rfl,
      rfl, fun hn => absurd (Or.inl rfl) hn⟩

/-! ### Appending a block -/

@[simp] theorem fbNext_freshFblock (b : Block) (p : BlockId) : (freshFblock b p).fbNext = 0 := by
  simp [freshFblock]

@[simp] theorem fbPrev_freshFblock (b : Block) (p : BlockId) : (freshFblock b p).fbPrev = p := by
  simp [freshFblock]

theorem fbData_freshFblock (b : Block) (p : BlockId) :
    (freshFblock b p).fbData = List.replicate 4080 0 := by
  have hd : ∀ l : List UInt8, l.length = 4080 →
      l.drop (0 + (List.replicate 4080 (0 : UInt8)).length) = [] := by
    intro l hl
    rw [List.length_replicate, Nat.zero_add]
    exact List.drop_of_length_le (by omega)
  rw [freshFblock, Block.fbData_setFbData (by rw [List.length_replicate, Nat.zero_add]),
    List.take_zero,
    List.nil_append, hd _ (Block.fbData_length _), List.append_nil]

/-- The block `append_fblock` writes at the end of the chain. -/
def appendNew (fp : CoFile) (n : BlockId) : Block :=
  if fp.fCurblock ≠ 0 then
    freshFblock ((fp.fFblock.setFbNext n).setFbOffset ((fp.fFblock.setFbNext n).fbOffset + 1))
      fp.fCurblock
  else freshFblock (fp.fFblock.setFbOffset 0) fp.fCurblock

/-- The inode it stores. -/
def appendInode (fp : CoFile) (n : BlockId) (y : Inode) : Inode :=
  if fp.fCurblock ≠ 0 then { y with inLast := n } else { y with inFirst := n, inLast := n }

/-- The volume just before it stores the inode. -/
def appendVol (σ : Vol) (m' : Freemap) (fp : CoFile) (n : BlockId) : Vol :=
  if fp.fCurblock ≠ 0 then
    ((σ.setBm m').write fp.fCurblock (fp.fFblock.setFbNext n)).write n (appendNew fp n)
  else (σ.setBm m').write n (appendNew fp n)

theorem appendNew_fbNext (fp : CoFile) (n : BlockId) : (appendNew fp n).fbNext = 0 := by
  unfold appendNew
  split <;> simp

/-- Both outcomes of `append_fblock`. -/
theorem appendFblock_eval (fp : CoFile) (hok : σ.bm.Ok) (hlim : σ.bm.limit ≤ 65536) :
    (∃ (n : BlockId) (m' : Freemap), σ.bm.Took n.toNat m' ∧
      (appendFblock fp).eval σ =
        ((.ok (), { fp with fNospc := false, fCurblock := n, fFblock := appendNew fp n }),
          ((crfsWriteInode (appendInode fp n (σ.img.ino fp.fInode))).eval
            (appendVol σ m' fp n)).2)) ∨
    ((appendFblock fp).eval σ = ((.error .ENOSPC, { fp with fNospc := true }),
      σ.setBm σ.bm.exhausted) ∧ ∀ k, k < σ.bm.limit → σ.bm.blocked k = true) := by
  have hnat : ∀ n : BlockId, ¬ ((n.toNat : Int) < 0) := fun n => by omega
  rcases nextBlock_cases hok hlim with ⟨n, m', ht, he⟩ | ⟨he, hb⟩
  · refine Or.inl ⟨n, m', ht, ?_⟩
    unfold appendFblock
    rw [Prog.eval_bind, he]
    simp only [hnat, if_false, ofInt_toNat, Prog.eval_bind, crfsLookupInode_eval]
    by_cases hc : fp.fCurblock ≠ 0
    · simp only [if_pos hc, appendInode, appendVol, appendNew, Prog.eval_bind, crfsWriteBlock_eval]
      rfl
    · simp only [if_neg hc, appendInode, appendVol, appendNew, Prog.eval_bind, crfsWriteBlock_eval]
      rfl
  · refine Or.inr ⟨?_, hb⟩
    unfold appendFblock
    rw [Prog.eval_bind, he]
    rfl

theorem Vol.write_comm (σ : Vol) (hbn : b ≠ n) (c e : Block) :
    (σ.write b c).write n e = (σ.write n e).write b c := by
  simp only [Vol.write]
  rw [Function.update_comm hbn, Function.update_comm hbn]

/-- The new block and the link to it. -/
theorem Inv.appendVol (h : Inv σ s) (hh : Handle σ s fp) (ht : σ.bm.Took n.toNat m') :
    Inv (appendVol σ m' fp n) (s.give n (.file fp.fInode)) ∧
      Touch fp.fInode σ s (appendVol σ m' fp n) (s.give n (.file fp.fInode)) := by
  obtain ⟨hn, -, -⟩ := h.blocks.fresh ht
  obtain ⟨h1, t1⟩ := h.claimBlock hh.live hh.file ht (appendNew_fbNext fp n)
  unfold Crfs.appendVol
  by_cases hc : fp.fCurblock ≠ 0
  · rw [if_pos hc]
    have hcur := hh.cur.resolve_left hc
    have hne : fp.fCurblock ≠ n := by
      intro he
      rw [he, hn] at hcur
      cases hcur
    rw [Vol.write_comm _ hne]
    obtain ⟨h2, t2⟩ := h1.writeFile (c := fp.fFblock.setFbNext n) (t1.ownFile _ hcur)
      (Or.inr (by simp [Shape.give]))
    exact ⟨h2, t1.trans t2⟩
  · rw [if_neg hc]
    exact ⟨h1, t1⟩

theorem Inv.appendVol_ino (h : Inv σ s) (hh : Handle σ s fp) (ht : σ.bm.Took n.toNat m') :
    (Crfs.appendVol σ m' fp n).img.ino fp.fInode = σ.img.ino fp.fInode := by
  obtain ⟨hn, -, -⟩ := h.blocks.fresh ht
  have hnt : ∀ b, (∀ k, s.own b ≠ some (.itable k)) → σ.tableOf fp.fInode ≠ b :=
    fun b hb => h.table_ne (h.owned.table _ hh.live) hb
  have hnn : σ.tableOf fp.fInode ≠ n := hnt n (by rw [hn]; simp)
  unfold Crfs.appendVol
  split
  · rename_i hc
    have hcur := hnt fp.fCurblock (by rw [hh.cur.resolve_left hc]; simp)
    refine (Vol.write_ino ?_ _).trans ((Vol.write_ino ?_ _).trans rfl)
    · exact hnn
    · exact hcur
  · refine (Vol.write_ino ?_ _).trans rfl
    exact hnn

/-- `append_fblock` touches only the file. -/
theorem appendFblock_touch (h : Inv σ s) (hh : Handle σ s fp) :
    ∃ s', Inv ((appendFblock fp).eval σ).2 s' ∧
      Touch fp.fInode σ s ((appendFblock fp).eval σ).2 s' ∧
      Handle ((appendFblock fp).eval σ).2 s' ((appendFblock fp).eval σ).1.2 ∧
      ((appendFblock fp).eval σ).1.2.fInode = fp.fInode ∧
      (((appendFblock fp).eval σ).1.1 = .ok () ∨ fp.fCurblock ≠ 0 →
        ((appendFblock fp).eval σ).1.2.fCurblock ≠ 0) := by
  rcases appendFblock_eval fp h.blocks.ok h.blocks.limit with ⟨n, m', ht, he⟩ | ⟨he, hfull⟩
  · rw [he]
    obtain ⟨-, h0, -⟩ := h.blocks.fresh ht
    obtain ⟨h1, t1⟩ := h.appendVol hh ht
    have hino := h.appendVol_ino hh ht
    have hl1 : (s.give n (.file fp.fInode)).live fp.fInode := hh.live
    have hnum := (h.tree.inum _ hh.live).2
    have hfst : (appendInode fp n (σ.img.ino fp.fInode)).inFirst = 0 ∨
        (s.give n (.file fp.fInode)).own (appendInode fp n (σ.img.ino fp.fInode)).inFirst =
          some (.file fp.fInode) := by
      unfold appendInode
      split
      · exact (h.owned.first _ hh.live hh.file).imp_right (t1.ownFile _)
      · exact Or.inr (by simp [Shape.give])
    obtain ⟨s', h2, t2, hown, -, -, -⟩ :=
      h1.storeInode (y := appendInode fp n (σ.img.ino fp.fInode))
      hl1 (t1.isDir.trans hh.file) (by unfold appendInode; split <;> exact hnum)
      (by rw [hino]; unfold appendInode; split <;> rfl) hfst
    refine ⟨s', h2, t1.trans t2, ?_, rfl, fun _ => h0⟩
    refine ⟨hh.magic, by rw [t2.live]; exact hl1, (t1.trans t2).isDir.trans hh.file, Or.inr ?_,
      Or.inl (appendNew_fbNext fp n)⟩
    exact (hown n).mpr (by simp [Shape.give])
  · rw [he]
    refine ⟨s, h.exhaustBm hfull, Touch.exhausted _ σ s,
      ⟨hh.magic, hh.live, hh.file, hh.cur, hh.next⟩, rfl, ?_⟩
    rintro (hr | hr)
    · cases hr
    · exact hr

/-! ### Writing -/

/-- What a part of `crfs_write` leaves of the invariant and the handle. -/
structure Wrote (σ : Vol) (s : Shape) (fp : CoFile) (τ : Vol) (s' : Shape) (fp' : CoFile) :
    Prop where
  inv : Inv τ s'
  touch : Touch fp.fInode σ s τ s'
  handle : Handle τ s' fp'
  inode : fp'.fInode = fp.fInode

theorem Wrote.trans {fp' fp'' : CoFile} (h : Wrote σ s fp τ s' fp')
    (h' : Wrote τ s' fp' υ s'' fp'') :
    Wrote σ s fp υ s'' fp'' :=
  ⟨h'.inv, h.touch.trans (h.inode ▸ h'.touch), h'.handle, h'.inode.trans h.inode⟩

/-- The handle moves to the next block of its chain. -/
theorem Handle.advance (h : Inv σ s) (hh : Handle σ s fp) (hn : fp.fFblock.fbNext ≠ 0) :
    Handle σ s { fp with fCurblock := fp.fFblock.fbNext, fFblock := σ.val fp.fFblock.fbNext } := by
  have hown := hh.next.resolve_left hn
  exact ⟨hh.magic, hh.live, hh.file, Or.inr hown, (h.owned.ownFile _ _ hown).2.2⟩

theorem nextFblock_eval (fp : CoFile) (σ : Vol) : (nextFblock fp).eval σ =
    (if fp.fFblock.fbNext ≠ 0 then
      some { fp with fCurblock := fp.fFblock.fbNext, fFblock := σ.val fp.fFblock.fbNext }
    else none, σ) := by
  unfold nextFblock
  split <;> rfl

/-- The block under the handle is filled and written. -/
theorem Inv.fill (h : Inv σ s) (hh : Handle σ s fp) (hc : fp.fCurblock ≠ 0) (o : Nat)
    (l : List UInt8) (p : UInt32) :
    Wrote σ s fp (σ.write fp.fCurblock (fp.fFblock.setFbData o l)) s
      { fp with fFblock := fp.fFblock.setFbData o l, fFpos := p } := by
  have hnext : (fp.fFblock.setFbData o l).fbNext = 0 ∨
      s.own (fp.fFblock.setFbData o l).fbNext = some (.file fp.fInode) := by
    rw [Block.fbNext_setFbData]
    exact hh.next
  obtain ⟨h1, t1⟩ := h.writeFile (hh.cur.resolve_left hc) hnext
  exact ⟨h1, t1, ⟨hh.magic, hh.live, t1.isDir.trans hh.file, hh.cur, hnext⟩, rfl⟩

/-- The handle after `buf` was copied into its block from `o` on. -/
def fillHandle (fp : CoFile) (o : Nat) (buf : List UInt8) : CoFile :=
  { fp with
    fFblock := fp.fFblock.setFbData o (buf.take (crfsFblockData - o))
    fFpos := fp.fFpos + UInt32.ofNat (crfsFblockData - o) }

/-- `writeStep` without the monad: the three ways it goes on after the block is written. -/
theorem writeStep_eval (σ : Vol) (fp : CoFile) (o : Nat) (buf : List UInt8) (nw : Nat) :
    (writeStep fp o buf nw).eval σ =
      if buf.drop (crfsFblockData - o) = [] then
        (⟨fillHandle fp o buf, [], .ok (nw + (crfsFblockData - o))⟩,
          σ.write fp.fCurblock (fillHandle fp o buf).fFblock)
      else if fp.fFblock.fbNext ≠ 0 then
        (⟨{ fillHandle fp o buf with
            fCurblock := fp.fFblock.fbNext
            fFblock := (σ.write fp.fCurblock (fillHandle fp o buf).fFblock).val
              fp.fFblock.fbNext },
          buf.drop (crfsFblockData - o), .ok (nw + (crfsFblockData - o))⟩,
          σ.write fp.fCurblock (fillHandle fp o buf).fFblock)
      else
        let r := (appendFblock (fillHandle fp o buf)).eval
          (σ.write fp.fCurblock (fillHandle fp o buf).fFblock)
        (match r.1.1 with
          | .ok () => ⟨r.1.2, buf.drop (crfsFblockData - o), .ok (nw + (crfsFblockData - o))⟩
          | .error e => ⟨r.1.2, [], .error e⟩, r.2) := by
  have hnext : (fillHandle fp o buf).fFblock.fbNext = fp.fFblock.fbNext :=
    Block.fbNext_setFbData _ _ _
  unfold writeStep
  rw [Prog.eval_bind, crfsWriteBlock_eval]
  by_cases hb : buf.drop (crfsFblockData - o) = []
  · rw [if_pos hb, if_pos hb, hb]
    rfl
  · rw [if_neg hb, if_neg hb, Prog.eval_bind]
    have hnf : ∀ τ : Vol, (nextFblock (fillHandle fp o buf)).eval τ =
        (if fp.fFblock.fbNext ≠ 0 then
          some { fillHandle fp o buf with
            fCurblock := fp.fFblock.fbNext, fFblock := τ.val fp.fFblock.fbNext }
        else none, τ) := by
      intro τ
      rw [nextFblock_eval, hnext]
    by_cases hn : fp.fFblock.fbNext ≠ 0
    · simp only [if_pos hn] at hnf ⊢
      erw [hnf]
      rfl
    · simp only [if_neg hn] at hnf ⊢
      erw [hnf]
      rw [Prog.eval_bind]
      rcases hr : (appendFblock (fillHandle fp o buf)).eval
        (σ.write fp.fCurblock (fillHandle fp o buf).fFblock) with ⟨⟨r, fp'⟩, τ⟩
      erw [hr]
      cases r <;> rfl

theorem writeStep_wrote (h : Inv σ s) (hh : Handle σ s fp) (hc : fp.fCurblock ≠ 0) (o : Nat)
    (buf : List UInt8) (nw : Nat) :
    ∃ s', Wrote σ s fp ((writeStep fp o buf nw).eval σ).2 s' ((writeStep fp o buf nw).eval σ).1.fp ∧
      ((writeStep fp o buf nw).eval σ).1.fp.fCurblock ≠ 0 := by
  have hw : Wrote σ s fp (σ.write fp.fCurblock (fillHandle fp o buf).fFblock) s
      (fillHandle fp o buf) := h.fill hh hc o _ _
  rw [writeStep_eval]
  split
  · exact ⟨s, hw, hc⟩
  · split
    · rename_i hn
      have hn' : (fillHandle fp o buf).fFblock.fbNext = fp.fFblock.fbNext :=
        Block.fbNext_setFbData _ _ _
      have ha := hw.handle.advance hw.inv (by rw [hn']; exact hn)
      rw [hn'] at ha
      exact ⟨s, ⟨hw.inv, hw.touch, ha, rfl⟩, hn⟩
    · obtain ⟨s', h2, t2, hh2, hi2, hc2⟩ := appendFblock_touch hw.inv hw.handle
      have hc3 := hc2 (Or.inr hc)
      have hw2 := hw.trans ⟨h2, t2, hh2, hi2⟩
      refine ⟨s', ?_⟩
      dsimp only
      split
      · exact ⟨hw2, hc3⟩
      · exact ⟨hw2, hc3⟩

theorem writeBlocks_wrote (fuel : Nat) : ∀ (w : WriteState) (σ : Vol) (s : Shape), Inv σ s →
    Handle σ s w.fp → w.fp.fCurblock ≠ 0 →
    ∃ s', Wrote σ s w.fp ((writeBlocks fuel w).eval σ).2 s' ((writeBlocks fuel w).eval σ).1.fp ∧
      ((writeBlocks fuel w).eval σ).1.fp.fCurblock ≠ 0 := by
  induction fuel with
  | zero => exact fun w σ s h hh hc => ⟨s, ⟨h, Touch.refl _ _ _, hh, rfl⟩, hc⟩
  | succ fuel ih =>
    intro w σ s h hh hc
    unfold writeBlocks
    split
    · exact ⟨s, ⟨h, Touch.refl _ _ _, hh, rfl⟩, hc⟩
    · rename_i n _
      split
      · rw [Prog.eval_bind]
        obtain ⟨s1, h1, hc1⟩ := writeStep_wrote h hh hc 0 w.buf n
        obtain ⟨s2, h2, hc2⟩ := ih _ _ s1 h1.inv h1.handle hc1
        exact ⟨s2, h1.trans h2, hc2⟩
      · exact ⟨s, ⟨h, Touch.refl _ _ _, hh, rfl⟩, hc⟩

/-- The handle with which `writeTail` writes the block. -/
def tailHandle (w : WriteState) (o : Nat) : CoFile :=
  if w.buf = [] then w.fp
  else { w.fp with
    fFblock := w.fp.fFblock.setFbData o w.buf
    fFpos := w.fp.fFpos + UInt32.ofNat w.buf.length }

/-- `writeTail` without the monad. -/
theorem writeTail_eval (σ : Vol) (w : WriteState) (o : Nat) :
    (writeTail w o).eval σ = ((w.nwrote.map (· + w.buf.length), tailHandle w o),
      let σ₁ := σ.write (tailHandle w o).fCurblock (tailHandle w o).fFblock
      let y := σ₁.img.ino (tailHandle w o).fInode
      if y.inFsize < (tailHandle w o).fFpos then
        ((crfsWriteInode { y with inFsize := (tailHandle w o).fFpos }).eval σ₁).2
      else σ₁) := by
  unfold writeTail
  rw [Prog.eval_bind, crfsWriteBlock_eval, Prog.eval_bind, crfsLookupInode_eval]
  change Prog.eval (if ((Vol.img (σ.write (tailHandle w o).fCurblock
    (tailHandle w o).fFblock)).ino (tailHandle w o).fInode).inFsize < (tailHandle w o).fFpos
    then _ else _) (σ.write (tailHandle w o).fCurblock (tailHandle w o).fFblock) = _
  dsimp only
  by_cases hlt : ((Vol.img (σ.write (tailHandle w o).fCurblock (tailHandle w o).fFblock)).ino
      (tailHandle w o).fInode).inFsize < (tailHandle w o).fFpos
  · rw [if_pos hlt, if_pos hlt, Prog.eval_bind]
    rfl
  · rw [if_neg hlt, if_neg hlt]
    rfl

theorem writeTail_wrote {w : WriteState} (h : Inv σ s) (hh : Handle σ s w.fp)
    (hc : w.fp.fCurblock ≠ 0) (o : Nat) :
    ∃ s', Wrote σ s w.fp ((writeTail w o).eval σ).2 s' ((writeTail w o).eval σ).1.2 ∧
      ((writeTail w o).eval σ).1.2.fCurblock ≠ 0 := by
  have hw : Wrote σ s w.fp (σ.write (tailHandle w o).fCurblock (tailHandle w o).fFblock) s
      (tailHandle w o) := by
    unfold tailHandle
    split
    · obtain ⟨h1, t1⟩ := h.writeFile (hh.cur.resolve_left hc) hh.next
      exact ⟨h1, t1, hh.touch t1, rfl⟩
    · exact h.fill hh hc o _ _
  have hc' : (tailHandle w o).fCurblock ≠ 0 := by
    unfold tailHandle
    split <;> exact hc
  rw [writeTail_eval]
  dsimp only
  split
  · obtain ⟨s', h2, t2, -, -, -, -⟩ := hw.inv.storeInode (y := { (Vol.img (σ.write
      (tailHandle w o).fCurblock (tailHandle w o).fFblock)).ino (tailHandle w o).fInode with
        inFsize := (tailHandle w o).fFpos }) hw.handle.live hw.handle.file
      (hw.inv.tree.inum _ hw.handle.live).2 rfl
      (hw.inv.owned.first _ hw.handle.live hw.handle.file)
    exact ⟨s', hw.trans ⟨h2, t2, hw.handle.touch t2, rfl⟩, hc'⟩
  · exact ⟨s, hw, hc'⟩

theorem writeData_wrote (h : Inv σ s) (hh : Handle σ s fp) (hc : fp.fCurblock ≠ 0)
    (buf : List UInt8) :
    ∃ s', Wrote σ s fp ((writeData fp buf).eval σ).2 s' ((writeData fp buf).eval σ).1.2 := by
  unfold writeData
  dsimp only
  split
  · rw [Prog.eval_bind, Prog.eval_bind]
    obtain ⟨s1, h1, hc1⟩ := writeStep_wrote h hh hc (fp.fFpos.toNat % crfsFblockData) buf 0
    obtain ⟨s2, h2, hc2⟩ := writeBlocks_wrote buf.length _ _ s1 h1.inv h1.handle hc1
    obtain ⟨s3, h3, -⟩ := writeTail_wrote h2.inv h2.handle hc2 0
    exact ⟨s3, (h1.trans h2).trans h3⟩
  · obtain ⟨s1, h1, -⟩ := writeTail_wrote (w := ⟨fp, buf, .ok 0⟩) h hh hc
      (fp.fFpos.toNat % crfsFblockData)
    exact ⟨s1, h1⟩

/-- `crfs_write` keeps the invariant and reaches only its own file, on a full disk too. -/
theorem crfsWrite_wrote (h : Inv σ s) (hh : Handle σ s fp) (buf : List UInt8) :
    ∃ s', Wrote σ s fp ((crfsWrite fp buf).eval σ).2 s' ((crfsWrite fp buf).eval σ).1.2 := by
  unfold crfsWrite
  rw [if_neg (not_not.mpr hh.magic)]
  split
  · obtain ⟨s1, h1, t1, hh1, hi1, hc1⟩ := appendFblock_touch h hh
    rw [Prog.eval_bind]
    revert h1 t1 hh1 hi1 hc1
    rcases (appendFblock fp).eval σ with ⟨⟨r, fp'⟩, τ⟩
    intro h1 t1 hh1 hi1 hc1
    cases r with
    | error e => exact ⟨s1, h1, t1, hh1, hi1⟩
    | ok u =>
      obtain ⟨s2, h2⟩ := writeData_wrote h1 hh1 (hc1 (Or.inl rfl)) buf
      exact ⟨s2, Wrote.trans ⟨h1, t1, hh1, hi1⟩ h2⟩
  · rename_i hc
    push Not at hc
    exact writeData_wrote h hh hc.1 buf

end Crfs
