import CobaltRom.Crfs.Extend

/-! Open handles from one call to the next, when no file has two of them. -/
namespace Crfs
open WriteBack LinkChain SlotTree

/-- A handle that knows no block, of a file that has none, or that has loaded a block of its
file as it is. -/
structure Placed (σ : Vol) (s : Shape) (fp : CoFile) : Prop where
  magic : fp.fMagic = coFileMagic
  live : s.live fp.fInode
  file : σ.img.isDir fp.fInode = false
  nospc : fp.fNospc = false
  place : (fp.fCurblock = 0 ∧ fp.fFblock.fbNext = 0 ∧ (σ.img.ino fp.fInode).inFirst = 0) ∨
    ∃ pre post, Cursor σ.val (σ.img.ino fp.fInode).inFirst fp pre post

/-- From `fp` to `fp'` the handle at most moved along its chain. -/
structure Moved (σ : Vol) (fp fp' : CoFile) : Prop where
  magic : fp'.fMagic = fp.fMagic
  inode : fp'.fInode = fp.fInode
  nospc : fp'.fNospc = fp.fNospc
  none : fp.fCurblock = 0 → fp.fFblock.fbNext = 0 → fp'.fCurblock = 0 ∧ fp'.fFblock.fbNext = 0
  cursor : ∀ a pre post, Cursor σ.val a fp pre post →
    ∃ pre' post', Cursor σ.val a fp' pre' post'

variable {σ τ : Vol} {s s' : Shape} {a : BlockId} {d i j x : InodeId} {nm : Name} {k : Nat}
  {fp fp' fp'' : CoFile} {pre post l : List BlockId} {buf : List UInt8}

/-! ### Calls on other files -/

/-- A handle stays where it is while its file does. -/
theorem Placed.frame (h : Placed σ s fp) (ho : Owned σ.img s) (hl : s'.live fp.fInode)
    (hdir : τ.img.isDir fp.fInode = σ.img.isDir fp.fInode)
    (hfirst : (τ.img.ino fp.fInode).inFirst = (σ.img.ino fp.fInode).inFirst)
    (hval : ∀ b, s.own b = some (.file fp.fInode) → τ.val b = σ.val b) : Placed τ s' fp := by
  have ha := ho.first _ h.live h.file
  refine ⟨h.magic, hl, by rw [hdir, h.file], h.nospc, ?_⟩
  rw [hfirst]
  rcases h.place with hz | ⟨pre, post, hc⟩
  · exact Or.inl hz
  · refine Or.inr ⟨pre, post, ?_, ?_⟩
    · exact ho.isChain_congr ha (fun b hb => congrArg Block.fbNext (hval b hb)) hc.chain
    · have hmem : fp.fCurblock ∈ pre ++ fp.fCurblock :: post := by simp
      have hown := ho.onChain ha ((IsChain.onChain_iff hc.chain).mpr hmem)
      rw [hc.block, hval _ hown]

theorem Placed.touch (h : Placed σ s fp) (ho : Owned σ.img s) (ht : Touch i σ s τ s')
    (hne : fp.fInode ≠ i) : Placed τ s' fp := by
  have hino := ht.ino _ h.live hne
  refine h.frame ho (by rw [ht.live]; exact h.live) (by rw [Img.isDir, hino, Img.isDir])
    (by rw [hino]) ?_
  intro b hb
  refine ht.val b _ hb (by simp) ?_
  intro he
  exact hne (Owner.file.inj he)

theorem Placed.linked (h : Placed σ s fp) (ho : Owned σ.img s) (hl : Linked σ s d nm x τ s') :
    Placed τ s' fp := by
  obtain ⟨k, he⟩ := hl.entered
  have hne : fp.fInode ≠ d := by
    intro hd
    have hdir := he.isDir
    rw [← hd, h.file] at hdir
    cases hdir
  refine h.frame ho ?_ (he.dirs _ h.live) (by rw [hl.ino _ h.live hne]) (hl.valFile _)
  rw [hl.live]
  exact Or.inl h.live

theorem Placed.removed (h : Placed σ s fp) (ho : Owned σ.img s) (hr : Removed σ s d k j τ s')
    (hl : s'.live fp.fInode) : Placed τ s' fp := by
  refine h.frame ho hl (hr.erased.dirs _ h.live) (by rw [hr.ino _ (ho.table _ h.live)]) ?_
  intro b hb
  have hne : b ≠ (σ.img.ino d).inFirst := by
    rintro rfl
    rw [ho.dirBlock hr.erased.dir hr.erased.isDir] at hb
    cases hb
  rw [hr.val, Function.update_of_ne hne]

theorem Placed.agree (h : Placed σ s fp) (ho : Owned σ.img s) (ha : Agree s σ.img τ.img) :
    Placed τ s fp :=
  h.frame ho h.live (ha.isDir h.live) (by rw [ha.ino _ h.live]) (ha.file _)

/-! ### Opening and reading -/

theorem Mounted.openHandle_placed (h : Mounted σ s) (hl : s.live i) (hf : σ.img.isDir i = false) :
    Placed σ s (openHandle σ i) := by
  refine ⟨rfl, hl, hf, rfl, ?_⟩
  obtain ⟨l, hch, -⟩ := h.exact.chain i hl hf
  cases l with
  | nil =>
    have hz : (σ.img.ino i).inFirst = 0 := hch
    refine Or.inl ⟨hz, ?_, hz⟩
    change (if (σ.img.ino i).inFirst ≠ 0 then _ else zeroBlock).fbNext = 0
    rw [if_neg (not_not.mpr hz)]
    exact zeroBlock_fbNext
  | cons b l => exact Or.inr ⟨[], l, (openHandle_cursor hch).2⟩

theorem Moved.refl (σ : Vol) (fp : CoFile) (p : UInt32) : Moved σ fp { fp with fFpos := p } :=
  ⟨rfl, rfl, rfl, fun h h' => ⟨h, h'⟩, fun _ pre post hc => ⟨pre, post, hc.chain, hc.block⟩⟩

theorem Moved.trans (h : Moved σ fp fp') (h' : Moved σ fp' fp'') : Moved σ fp fp'' := by
  refine ⟨h'.magic.trans h.magic, h'.inode.trans h.inode, h'.nospc.trans h.nospc, ?_, ?_⟩
  · intro hc hn
    obtain ⟨hc', hn'⟩ := h.none hc hn
    exact h'.none hc' hn'
  · intro a pre post hc
    obtain ⟨pre', post', hc'⟩ := h.cursor a pre post hc
    exact h'.cursor a pre' post' hc'

theorem readStep_moved (σ : Vol) (fp : CoFile) (o size : Nat) (out : List UInt8) :
    Moved σ fp ((readStep fp o size out).eval σ).1.fp := by
  unfold readStep
  rw [Prog.eval_bind, nextFblock_eval]
  have hpos := Moved.refl σ fp (fp.fFpos + UInt32.ofNat (crfsFblockData - o))
  by_cases hn : fp.fFblock.fbNext ≠ 0
  · simp only [if_pos hn, Prog.eval_pure]
    refine hpos.trans ⟨rfl, rfl, rfl, fun _ h0 => absurd h0 hn, ?_⟩
    intro a pre post hc
    cases post with
    | nil => exact absurd hc.fbNext_nil hn
    | cons b post =>
      obtain ⟨hb, -⟩ := hc.fbNext_cons
      have hadv := hc.advance
      rw [← hb] at hadv
      exact ⟨_, post, hadv⟩
  · simp only [if_neg hn, Prog.eval_pure]
    exact hpos

theorem readBlocks_moved (σ : Vol) (fuel : Nat) : ∀ r : ReadState,
    Moved σ r.fp ((readBlocks fuel r).eval σ).1.fp := by
  induction fuel with
  | zero => exact fun r => Moved.refl σ r.fp r.fp.fFpos
  | succ fuel ih =>
    intro r
    unfold readBlocks
    rw [Prog.eval_ite]
    split
    · rw [Prog.eval_bind, readOnly_readStep _ _ _ _ σ]
      exact (readStep_moved σ r.fp 0 r.size r.out).trans (ih _)
    · exact Moved.refl σ r.fp r.fp.fFpos

/-- `crfs_read` moves the handle along its chain, whatever it returns. -/
theorem crfsRead_moved (σ : Vol) (fp : CoFile) (size : Nat) :
    Moved σ fp ((crfsRead fp size).eval σ).1.2.2 := by
  have hrefl := Moved.refl σ fp fp.fFpos
  unfold crfsRead
  by_cases hm : fp.fMagic ≠ coFileMagic
  · rw [if_pos hm]
    exact hrefl
  rw [if_neg hm, Prog.eval_bind, crfsLookupInode_eval]
  dsimp only
  generalize (if (fp.fFpos.toNat + size) % 2 ^ 32 > (σ.img.ino fp.fInode).inFsize.toNat
    then (σ.img.ino fp.fInode).inFsize.toNat - fp.fFpos.toNat else size) = m
  simp only [Prog.eval_ite]
  split
  · exact hrefl
  split
  · exact hrefl
  split
  · rw [Prog.eval_bind, readOnly_readStep _ _ _ _ σ, Prog.eval_bind, readOnly_readBlocks _ _ σ]
    have hloop := (readStep_moved σ fp (fp.fFpos.toNat % crfsFblockData) m []).trans
      (readBlocks_moved σ m _)
    rw [Prog.eval_ite]
    split
    · exact hloop
    · exact hloop.trans (Moved.refl σ _ _)
  · exact Moved.refl σ fp _

theorem Placed.moved (h : Placed σ s fp) (hm : Moved σ fp fp') : Placed σ s fp' := by
  refine ⟨hm.magic.trans h.magic, by rw [hm.inode]; exact h.live, by rw [hm.inode]; exact h.file,
    hm.nospc.trans h.nospc, ?_⟩
  rw [hm.inode]
  rcases h.place with ⟨hc, hn, hz⟩ | ⟨pre, post, hc⟩
  · obtain ⟨hc', hn'⟩ := hm.none hc hn
    exact Or.inl ⟨hc', hn', hz⟩
  · exact Or.inr (hm.cursor _ pre post hc)

/-! ### Writing -/

/-- A call on a file that leaves the file with the blocks of its chain. -/
theorem Mounted.touched (h : Mounted σ s) (ht : Touch i σ s τ s')
    (hf : σ.img.isDir i = false) (hs : Seat τ s' (τ.img.ino i).inFirst fp pre post)
    (hi : fp.fInode = i) : Mounted τ s' := by
  have hsame := ht.sameDirs h.inv hs.inv hf
  refine ⟨hs.inv, ?_, ?_, ?_, ?_, ?_⟩
  · intro d hd hdir
    rw [ht.live] at hd
    rw [hsame.mask d hd] at hdir
    intro k hk
    rw [show τ.img.ent d k = σ.img.ent d k from
      congrArg (fun b : Block => b.dirent k) (hsame.dir d hd hdir)]
    exact h.named d hd hdir k hk
  · intro j
    rw [ht.num, ht.live]
    exact h.exact.num j
  · intro b hb
    exact h.exact.held b ((ht.own b _ (by simp) (by simp)).mp hb)
  · intro j hj hjd
    by_cases hji : j = i
    · subst hji
      exact ⟨_, hs.cursor.chain, fun b => by rw [← hi]; exact hs.blocks b⟩
    · rw [ht.live] at hj
      rw [hsame.mask j hj] at hjd
      obtain ⟨l, hl, hown⟩ := h.exact.chain j hj hjd
      refine ⟨l, ?_, fun b => ?_⟩
      · rw [ht.ino j hj hji]
        refine h.inv.owned.isChain_congr (h.inv.owned.first j hj hjd) ?_ hl
        intro b hb
        have hv := ht.val b _ hb (by simp) (fun he => hji (Owner.file.inj he))
        exact congrArg Block.fbNext hv
      · rw [ht.own b _ (by simp) (fun he => hji (Owner.file.inj he)), hown]
  · intro k hk hne
    rcases ht.tabs k hne with hv | ⟨j, hj, rfl⟩
    · exact h.exact.tables k hk hv
    · exact h.exact.tables _ hk (h.inv.owned.table j ((h.exact.num j).mp hj))

/-- What a successful write leaves. -/
structure Kept (σ : Vol) (s : Shape) (fp : CoFile) (τ : Vol) (s' : Shape) (fp' : CoFile) :
    Prop where
  mounted : Mounted τ s'
  touch : Touch fp.fInode σ s τ s'
  inode : fp'.fInode = fp.fInode
  placed : Placed τ s' fp'

/-- The data and the size of a write whose first block is there. -/
theorem Seat.write_kept (h : Mounted σ s) (hf : σ.img.isDir fp.fInode = false) {υ : Vol}
    {s₁ : Shape} {fp₁ : CoFile} (hs : Seat υ s₁ a fp₁ pre post)
    (ht : Touch fp.fInode σ s υ s₁) (hi : fp₁.fInode = fp.fInode) (hn : fp₁.fNospc = false)
    (ha : (υ.img.ino fp.fInode).inFirst = a) (buf : List UInt8)
    (hfull : ¬ ((writeData fp₁ buf).eval υ).2.glob.Full) :
    ∃ (fp' : CoFile) (τ : Vol) (s' : Shape),
      (writeData fp₁ buf).eval υ = ((.ok buf.length, fp'), τ) ∧ Kept σ s fp τ s' fp' := by
  rcases writeData_outcome hs rfl buf with
    ⟨fp', ω, τ, s₂, s', pre', post', o', hw, hfill, -, -, hsz⟩ | ⟨fp', τ, e, hw, hfl, -⟩
  · have hseat := hsz.seat hfill.seat
    have hin : fp'.fInode = fp.fInode := hfill.inode.trans hi
    have hft := hfill.touch
    have hzt := hsz.touch
    rw [hi] at hft
    rw [hin] at hzt
    have hall := (ht.trans hft).trans hzt
    have hfirst : (τ.img.ino fp.fInode).inFirst = a := by
      rw [← hin, hsz.first hfill.seat, hin, ← hi, hfill.first, hi, ha]
    rw [← hfirst] at hseat
    have hm := h.touched hall hf hseat hin
    refine ⟨fp', τ, s', hw, hm, hall, hin, hseat.handle.magic, hseat.handle.live, hseat.handle.file,
      hfill.nospc hn, Or.inr ⟨pre', post', ?_⟩⟩
    rw [hin]
    exact hseat.cursor
  · rw [hw] at hfull
    exact absurd hfl hfull

/-- `crfs_write` in a state in which every search succeeds: the whole buffer is written, and
the handle is left on a block of its file. -/
theorem Placed.write (hp : Placed σ s fp) (h : Mounted σ s) (buf : List UInt8)
    (hfull : ¬ ((crfsWrite fp buf).eval σ).2.glob.Full) :
    ∃ (fp' : CoFile) (τ : Vol) (s' : Shape),
      (crfsWrite fp buf).eval σ = ((.ok buf.length, fp'), τ) ∧ Kept σ s fp τ s' fp' := by
  obtain ⟨l, hl, hown⟩ := h.exact.chain _ hp.live hp.file
  rcases hp.place with ⟨hc, hnx, hz⟩ | ⟨pre, post, hcur⟩
  · -- the first block of the file is taken on the way
    rw [hz] at hl
    obtain rfl : l = [] := hl.unique (l := l) (m := []) rfl
    have hempty : ∀ b, s.own b ≠ some (.file fp.fInode) := by
      intro b hb
      exact absurd ((hown b).mp hb) List.not_mem_nil
    have hh : Handle σ s fp := ⟨hp.magic, hp.live, hp.file, Or.inl hc, Or.inl hnx⟩
    rcases h.inv.startChain hh hc hempty with ⟨he, -⟩ | ⟨n, υ, s₁, he, hseat, ht, -, -, -, hst⟩
    · rw [crfsWrite_refused hp.magic (Or.inl hc) he] at hfull
      exact absurd (Or.inl rfl) hfull
    · rw [crfsWrite_append hp.magic (Or.inl hc) he] at hfull ⊢
      refine Seat.write_kept h hp.file hseat ht rfl rfl ?_ buf hfull
      rw [Stores, (h.inv.tree.inum _ hp.live).2] at hst
      rcases hst with ⟨hino, -⟩ | ⟨-, -, -, -, hfl⟩
      · rw [hino]
      · exact absurd (keeps_writeData stable_full.block _ buf υ hfl) hfull
  · obtain rfl := hl.unique hcur.chain
    have hmem : s.own fp.fCurblock = some (.file fp.fInode) := (hown _).mpr (by simp)
    have hh : Handle σ s fp := by
      refine ⟨hp.magic, hp.live, hp.file, Or.inr hmem, ?_⟩
      rw [hcur.block]
      exact (h.inv.owned.ownFile _ _ hmem).2.2
    rw [crfsWrite_here hp.magic hcur.ne_zero hp.nospc] at hfull ⊢
    exact Seat.write_kept h hp.file ⟨h.inv, hh, hcur, hown⟩ (Touch.refl _ _ _) rfl hp.nospc rfl
      buf hfull

end Crfs
