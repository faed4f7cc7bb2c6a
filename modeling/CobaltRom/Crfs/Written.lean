import CobaltRom.Crfs.Append
import CobaltRom.Crfs.Session

/-! The outcomes of a whole `crfs_write`, and the chain one write leaves behind. -/
namespace Crfs
open WriteBack LinkChain

/-- The size of the file follows the handle, unless there is no block for the inode. -/
structure Sized (σ : Vol) (s : Shape) (fp : CoFile) (τ : Vol) (s' : Shape) : Prop where
  inv : Inv τ s'
  touch : Touch fp.fInode σ s τ s'
  blocks : ∀ b, s'.own b = some (.file fp.fInode) ↔ s.own b = some (.file fp.fInode)
  val : ∀ b, s.own b = some (.file fp.fInode) → τ.val b = σ.val b
  full : σ.glob.Full → τ.glob.Full
  size : fp.fFpos ≤ (σ.img.ino fp.fInode).inFsize ∧ τ = σ ∨
    (σ.img.ino fp.fInode).inFsize < fp.fFpos ∧
      Stores σ 0 { σ.img.ino fp.fInode with inFsize := fp.fFpos } τ

variable {σ τ υ : Vol} {s s' s₁ : Shape} {a n : BlockId} {i : InodeId} {fp fp' : CoFile}
  {pre post pre' post' : List BlockId} {buf r : List UInt8} {o o' o₁ k : Nat}

theorem Sized.seat (h : Sized σ s fp τ s') (hs : Seat σ s a fp pre post) :
    Seat τ s' a fp pre post := by
  have hval : ∀ b ∈ pre ++ fp.fCurblock :: post, τ.val b = σ.val b :=
    fun b hb => h.val b ((hs.blocks b).mpr hb)
  refine ⟨h.inv, hs.handle.touch h.touch, ⟨hs.cursor.chain.congr ?_, ?_⟩, ?_⟩
  · intro b hb
    exact congrArg Block.fbNext (hval b hb)
  · rw [hs.cursor.block, hval _ (by simp)]
  · intro b
    rw [h.blocks, hs.blocks]

theorem Sized.first (h : Sized σ s fp τ s') (hs : Seat σ s a fp pre post) :
    (τ.img.ino fp.fInode).inFirst = (σ.img.ino fp.fInode).inFirst := by
  rcases h.size with ⟨-, rfl⟩ | ⟨-, hst⟩
  · rfl
  · have hyi : ({ σ.img.ino fp.fInode with inFsize := fp.fFpos } : Inode).inInode = fp.fInode :=
      (hs.inv.tree.inum _ hs.handle.live).2
    rw [Stores, hyi] at hst
    rcases hst with ⟨hino, -⟩ | ⟨hino, -⟩ <;> rw [hino]

/-- The end of `crfs_write`: the rest of the buffer, then the size. -/
theorem writeTail_outcome (h : Seat σ s a fp pre post) (hr : r = [] ∨ o₁ = o)
    (ho : o + r.length ≤ 4080) (nw : Except Errno Nat) :
    ∃ (fp' : CoFile) (υ τ : Vol) (s' : Shape),
      (writeTail ⟨fp, r, nw⟩ o₁).eval σ = ((nw.map (· + r.length), fp'), τ) ∧
      Filled σ s a fp pre post o r υ s fp' pre post (o + r.length) ∧ Sized υ s fp' τ s' := by
  have hput : Filled σ s a fp pre post o r
      (σ.write fp.fCurblock (tailHandle ⟨fp, r, nw⟩ o₁).fFblock) s (tailHandle ⟨fp, r, nw⟩ o₁) pre
      post (o + r.length) := by
    unfold tailHandle
    rcases hr with rfl | rfl
    · exact h.put rfl rfl rfl (by simp) ho (by simp)
    · by_cases hb : r = []
      · subst hb
        exact h.put rfl rfl rfl (by simp) ho (by simp)
      · simp only [if_neg hb]
        exact h.put (Block.fbNext_setFbData _ _ _) (Block.fbPrev_setFbData _ _ _)
          (Block.fbOffset_setFbData _ _ _) (Block.fbData_setFbData ho _) ho rfl
  have hcur : (tailHandle ⟨fp, r, nw⟩ o₁).fCurblock = fp.fCurblock := by
    unfold tailHandle
    split <;> rfl
  rw [writeTail_eval]
  simp only [hcur]
  generalize tailHandle ⟨fp, r, nw⟩ o₁ = fp' at *
  generalize σ.write fp.fCurblock fp'.fFblock = υ at *
  have hs := hput.seat
  by_cases hlt : (υ.img.ino fp'.fInode).inFsize < fp'.fFpos
  · rw [if_pos hlt]
    obtain ⟨e, τ, s', he, hinv, ht, hown, hval, hst⟩ := hs.inv.storeInode_outcome
      (y := { υ.img.ino fp'.fInode with inFsize := fp'.fFpos }) hs.handle.live hs.handle.file
      (hs.inv.tree.inum _ hs.handle.live).2 rfl (hs.inv.owned.first _ hs.handle.live hs.handle.file)
    refine ⟨fp', υ, τ, s', by rw [he], hput, hinv, ht, hown, hval, ?_, Or.inr ⟨hlt, hst⟩⟩
    intro hf
    have hk := keeps_crfsWriteInode stable_full.block
      { υ.img.ino fp'.fInode with inFsize := fp'.fFpos } υ hf
    rwa [he] at hk
  · rw [if_neg hlt]
    exact ⟨fp', υ, υ, s, rfl, hput, hs.inv, Touch.refl _ _ _, fun _ => Iff.rfl, fun _ _ => rfl,
      fun hf => hf, Or.inl ⟨UInt32.not_lt.mp hlt, rfl⟩⟩

theorem writeTail_error (fp : CoFile) (e : Errno) (o : Nat) (σ : Vol) (hf : σ.glob.Full) :
    ∃ (fp' : CoFile) (τ : Vol), (writeTail ⟨fp, [], .error e⟩ o).eval σ = ((.error e, fp'), τ) ∧
      τ.glob.Full := by
  have hk := keeps_writeTail stable_full.block ⟨fp, [], .error e⟩ o σ hf
  have he := writeTail_eval σ ⟨fp, [], .error e⟩ o
  exact ⟨_, _, he, by rwa [he] at hk⟩

/-- Everything was written, or an append found no block. -/
theorem writeData_outcome (h : Seat σ s a fp pre post) (ho : fp.fFpos.toNat % 4080 = o)
    (buf : List UInt8) :
    (∃ (fp' : CoFile) (υ τ : Vol) (s₁ s' : Shape) (pre' post' : List BlockId) (o' : Nat),
      (writeData fp buf).eval σ = ((.ok buf.length, fp'), τ) ∧
      Filled σ s a fp pre post o buf υ s₁ fp' pre' post' o' ∧ o' ≤ 4080 ∧ (buf ≠ [] → 0 < o') ∧
      Sized υ s₁ fp' τ s') ∨
    (∃ (fp' : CoFile) (τ : Vol) (e : Errno), (writeData fp buf).eval σ = ((.error e, fp'), τ) ∧
      τ.glob.Full ∧ Short σ fp.fInode ((o + buf.length - 1) / 4080 - post.length)) := by
  have hlt : o < 4080 := by
    rw [← ho]
    exact Nat.mod_lt _ (by decide)
  unfold writeData
  simp only [crfsFblockData, ho]
  by_cases hbig : buf.length ≥ 4080 - o
  -- the block is filled up, and the loop goes on
  · rw [if_pos hbig, Prog.eval_bind]
    have hlen : (buf.take (4080 - o)).length = 4080 - o := by
      rw [List.length_take]
      omega
    rcases writeStep_outcome h hlt hbig 0 with
      ⟨fp₁, τ₁, s₁, pre₁, post₁, o₁, he, hfill, hend⟩ | ⟨fp₁, τ₁, e, he, hfull, hp, hz, hmore⟩
    · rw [he, Prog.eval_bind]
      simp only [Nat.zero_add]
      rcases hend with ⟨hnil, rfl⟩ | ⟨hmore, rfl⟩
      · have hloop : ∀ (fuel : Nat) (τ : Vol),
            (writeBlocks fuel ⟨fp₁, [], .ok (4080 - o)⟩).eval τ =
              (⟨fp₁, [], .ok (4080 - o)⟩, τ) := by
          intro fuel τ
          cases fuel <;> rfl
        rw [hnil, hloop]
        obtain ⟨fp', υ, τ, s', ht, hrest, hsz⟩ := writeTail_outcome hfill.seat (r := []) (o := 4080)
          (show ([] : List UInt8) = [] ∨ 0 = 4080 from Or.inl rfl) (by simp) (.ok (4080 - o))
        have hall := hfill.trans hrest
        have hbuf : buf.take (4080 - o) ++ [] = buf := by
          rw [← hnil, List.take_append_drop]
        rw [hbuf] at hall
        left
        refine ⟨fp', υ, τ, s₁, s', pre₁, post₁, 4080, ?_, hall, Nat.le_refl _,
          fun _ => by decide, hsz⟩
        rw [ht, ← hbuf, List.append_nil, hlen]
        rfl
      · rcases writeBlocks_outcome buf.length fp₁ (buf.drop (4080 - o)) (4080 - o) τ₁ s₁ pre₁ post₁
            hfill.seat (by rw [List.length_drop]; omega) hmore with
          ⟨fp₂, l, r, τ₂, s₂, pre₂, post₂, o₂, he₂, hfill₂, hsplit, hr, hend₂⟩ |
            ⟨fp₂, τ₂, e, he₂, hfull, hshort⟩
        · rw [he₂]
          obtain ⟨fp', υ, τ, s', ht, hrest, hsz⟩ := writeTail_outcome hfill₂.seat (r := r)
            (show r = [] ∨ 0 = o₂ from hend₂.imp (fun h => h.1) fun h => h.2.symm)
            (by rcases hend₂ with ⟨rfl, rfl⟩ | ⟨-, rfl⟩
                · exact Nat.le_refl _
                · omega)
            (.ok (4080 - o + l.length))
          have hall := (hfill.trans hfill₂).trans hrest
          have hbuf : buf.take (4080 - o) ++ l ++ r = buf := by
            rw [List.append_assoc, hsplit, List.take_append_drop]
          rw [hbuf] at hall
          left
          refine ⟨fp', υ, τ, s₂, s', pre₂, post₂, _, ?_, hall, ?_, ?_, hsz⟩
          · have htotal := congrArg List.length hbuf
            rw [List.length_append, List.length_append, hlen] at htotal
            rw [ht, ← htotal]
            rfl
          · rcases hend₂ with ⟨rfl, rfl⟩ | ⟨-, rfl⟩
            · simp
            · omega
          · intro _
            rcases hend₂ with ⟨rfl, rfl⟩ | ⟨hr0, rfl⟩
            · simp
            · have := List.length_pos_of_ne_nil hr0
              omega
        · rw [he₂]
          obtain ⟨fp', τ, ht, hf⟩ := writeTail_error fp₂ e 0 τ₂ hfull
          right
          refine ⟨fp', τ, e, ht, hf, ?_⟩
          have hs := hshort
          rw [hfill.inode] at hs
          obtain ⟨k, hk, hkp, hsp⟩ := hfill.grown
          have hpos := hfill.pos
          rw [hlen] at hpos
          have hmorelen := List.length_pos_of_ne_nil hmore
          rw [List.length_drop] at hs hmorelen
          have hcount : (o + buf.length - 1) / 4080 - post.length =
              k + ((buf.length - (4080 - o) - 1) / 4080 - post₁.length) := by
            rcases hkp with rfl | rfl
            · omega
            · simp only [List.length_nil] at hk ⊢
              omega
          rw [hcount]
          exact hsp.short hs
    · have hloop : ∀ (fuel : Nat) (τ : Vol),
          (writeBlocks fuel ⟨fp₁, [], .error e⟩).eval τ = (⟨fp₁, [], .error e⟩, τ) := by
        intro fuel τ
        cases fuel <;> rfl
      rw [he, Prog.eval_bind, hloop]
      obtain ⟨fp', τ, ht, hf⟩ := writeTail_error fp₁ e 0 τ₁ hfull
      right
      refine ⟨fp', τ, e, ht, hf, ?_⟩
      have hpos : 0 < (o + buf.length - 1) / 4080 := Nat.div_pos (by omega) (by decide)
      rw [hp, List.length_nil, Nat.sub_zero]
      exact ⟨hpos, by omega, fun _ => hz⟩
  -- the buffer fits into the block
  · rw [if_neg hbig]
    obtain ⟨fp', υ, τ, s', ht, hrest, hsz⟩ := writeTail_outcome h (r := buf) (o := o)
      (show buf = [] ∨ o = o from Or.inr rfl) (by omega) (.ok 0)
    left
    refine ⟨fp', υ, τ, s, s', pre, post, _, ?_, hrest, by omega, ?_, hsz⟩
    · rw [ht]
      simp only [Except.map, Nat.zero_add]
    · intro hb
      have := List.length_pos_of_ne_nil hb
      omega

/-! ### Entering `crfs_write` -/

section
variable {fp₁ : CoFile} {e : Errno}

theorem crfsWrite_append (hm : fp.fMagic = coFileMagic) (hc : fp.fCurblock = 0 ∨ fp.fNospc = true)
    (he : (appendFblock fp).eval σ = ((.ok (), fp₁), τ)) (buf : List UInt8) :
    (crfsWrite fp buf).eval σ = (writeData fp₁ buf).eval τ := by
  unfold crfsWrite
  rw [if_neg (not_not.mpr hm), if_pos hc, Prog.eval_bind, he]

theorem crfsWrite_refused (hm : fp.fMagic = coFileMagic) (hc : fp.fCurblock = 0 ∨ fp.fNospc = true)
    (he : (appendFblock fp).eval σ = ((.error e, fp₁), τ)) (buf : List UInt8) :
    (crfsWrite fp buf).eval σ = ((.error e, fp₁), τ) := by
  unfold crfsWrite
  rw [if_neg (not_not.mpr hm), if_pos hc, Prog.eval_bind, he]
  rfl

theorem crfsWrite_here (hm : fp.fMagic = coFileMagic) (hc : fp.fCurblock ≠ 0)
    (hn : fp.fNospc = false) (buf : List UInt8) :
    (crfsWrite fp buf).eval σ = (writeData fp buf).eval σ := by
  unfold crfsWrite
  rw [if_neg (not_not.mpr hm), if_neg (by simp [hc, hn])]

end

/-! ### The chain behind one write -/

/-- The blocks `l` of a file: linked both ways, numbered, and known to the inode. -/
structure FileChain (val : BlockId → Block) (y : Inode) (l : List BlockId) : Prop where
  nodup : l.Nodup
  first : y.inFirst = l.getD 0 0
  last : y.inLast = l.getD (l.length - 1) 0
  next : ∀ k < l.length, (val (l.getD k 0)).fbNext = l.getD (k + 1) 0
  prev : ∀ k < l.length, (val (l.getD k 0)).fbPrev = (0 :: l).getD k 0
  offset : ∀ k < l.length, (val (l.getD k 0)).fbOffset.toNat = k

theorem isChain_get {val : BlockId → Block} {l : List BlockId} (h : IsChain val a l) :
    a = l.getD 0 0 ∧ ∀ k < l.length, (val (l.getD k 0)).fbNext = l.getD (k + 1) 0 := by
  induction l generalizing a with
  | nil => exact ⟨h, fun k hk => absurd hk (Nat.not_lt_zero k)⟩
  | cons b l ih =>
    obtain ⟨rfl, -, hl⟩ := h
    obtain ⟨hfirst, hnext⟩ := ih hl
    refine ⟨rfl, ?_⟩
    intro k hk
    cases k with
    | zero => exact hfirst
    | succ k => exact hnext k (by simpa using hk)

theorem BackLinked.get {val : BlockId → Block} {l : List BlockId} {p : BlockId}
    (h : BackLinked val p k l) : ∀ j < l.length, (val (l.getD j 0)).fbPrev = (p :: l).getD j 0 ∧
      (val (l.getD j 0)).fbOffset = UInt16.ofNat (k + j) := by
  induction l generalizing p k with
  | nil => exact fun j hj => absurd hj (Nat.not_lt_zero j)
  | cons b l ih =>
    obtain ⟨h1, h2, h3⟩ := h
    intro j hj
    cases j with
    | zero => exact ⟨h1, h2⟩
    | succ j =>
      obtain ⟨h4, h5⟩ := ih h3 j (by simpa using hj)
      refine ⟨h4, ?_⟩
      rw [List.getD_cons_succ, h5]
      congr 1
      omega

theorem chain_length_lt {val : BlockId → Block} {l : List BlockId} (h : IsChain val a l) :
    l.length < 65536 := by
  have hnd : (0 :: l).Nodup := List.nodup_cons.mpr ⟨fun h0 => h.ne_end h0 rfl, h.nodup⟩
  have := nodup_inums_length hnd
  rw [List.length_cons] at this
  omega

theorem FileChain.of_isChain {val : BlockId → Block} {y : Inode} {l : List BlockId}
    (h : IsChain val y.inFirst (l ++ [n])) (hb : BackLinked val 0 0 (l ++ [n]))
    (hl : y.inLast = n) : FileChain val y (l ++ [n]) := by
  obtain ⟨hfirst, hnext⟩ := isChain_get h
  refine ⟨h.nodup, hfirst, ?_, hnext, fun k hk => (hb.get k hk).1, ?_⟩
  · rw [hl, List.length_append, List.length_singleton, Nat.add_sub_cancel,
      List.getD_append_right _ _ _ _ (Nat.le_refl _),
      Nat.sub_self]
    rfl
  · intro k hk
    have hlt := chain_length_lt h
    rw [(hb.get k hk).2, Nat.zero_add, UInt16.toNat_ofNat', Nat.mod_eq_of_lt (by omega)]

/-- The blocks of a file without a first block belong to nobody. -/
theorem Inv.orphan (h : Inv σ s) (he : (σ.img.ino i).inFirst = 0) :
    ∃ s', Inv σ s' ∧ s'.live = s.live ∧ ∀ b, s'.own b ≠ some (.file i) := by
  have hiff : ∀ b o, o ≠ .file i → o ≠ .held →
      ((if s.own b = some (.file i) then some Owner.held else s.own b) = some o ↔
        s.own b = some o) := by
    intro b o h1 h2
    by_cases hb : s.own b = some (.file i)
    · rw [if_pos hb, hb]
      simp [Ne.symm h1, Ne.symm h2]
    · rw [if_neg hb]
  have hnone : ∀ b, (if s.own b = some (.file i) then some Owner.held else s.own b) ≠
      some (.file i) := by
    intro b
    split
    · simp
    · assumption
  refine ⟨{ s with own := fun b => if s.own b = some (.file i) then some .held else s.own b },
    ⟨h.tree, ⟨h.owned.table, ?_, ?_, ?_, ?_, ?_, ?_⟩, ?_, h.inums, h.live, h.pwd⟩, rfl, hnone⟩
  · intro k b
    rw [← h.owned.ownTable k b]
    exact hiff b _ (by simp) (by simp)
  · intro j b
    rw [← h.owned.ownDir j b]
    exact hiff b _ (by simp) (by simp)
  · intro j b hb
    have hji : j ≠ i := by
      rintro rfl
      exact hnone b hb
    have hb' := (hiff b _ (by simpa using hji) (by simp)).mp hb
    obtain ⟨h1, h2, h3⟩ := h.owned.ownFile j b hb'
    exact ⟨h1, h2, h3.imp_right (hiff _ _ (by simpa using hji) (by simp)).mpr⟩
  · intro j hj hd
    by_cases hji : j = i
    · rw [hji]
      exact Or.inl he
    · exact (h.owned.first j hj hd).imp_right (hiff _ _ (by simpa using hji) (by simp)).mpr
  · change (if s.own 0 = some (.file i) then _ else _) = none
    rw [h.owned.ownZero]
    rfl
  · change (if s.own 16 = some (.file i) then _ else _) = none
    rw [h.owned.ownSlot]
    rfl
  · refine h.blocks.congr ?_
    intro b
    change (if s.own b = some (.file i) then some Owner.held else s.own b) = none ↔ _
    by_cases hb : s.own b = some (.file i)
    · rw [if_pos hb, hb]
      simp
    · rw [if_neg hb]

theorem Freemap.avail_le (m : Freemap) : m.avail ≤ m.limit := by
  have h := Finset.card_filter_le (Finset.range m.limit) fun k => m.blocked k = false
  rwa [Finset.card_range] at h

theorem Stores.stored {y : Inode} (h : Stores σ k y τ)
    (hroom : k + tableCost σ y.inInode ≤ σ.bm.avail) : τ.img.ino y.inInode = y ∧
      ¬ NeedsTable τ y.inInode ∧ τ.bm.avail + k + tableCost σ y.inInode = σ.bm.avail := by
  rcases h with h | ⟨-, hn, ha, -⟩
  · exact h
  · rw [tableCost, if_pos hn] at hroom
    omega

/-- The bytes of a chain whose last block is filled up to `o` and zero from there on. -/
theorem chainData_filled {v : BlockId → Block} {pre : List BlockId} {b : BlockId} {o : Nat}
    (hbytes : chainData v pre ++ (v b).fbData.take o = buf)
    (hrest : ∀ x ∈ (v b).fbData.drop o, x = 0) (hlen : buf.length = 4080 * pre.length + o) :
    chainData v (pre ++ [b]) =
      buf ++ List.replicate (4080 * (pre ++ [b]).length - buf.length) 0 := by
  have hzero : (v b).fbData.drop o = List.replicate (4080 - o) 0 :=
    List.eq_replicate_iff.mpr ⟨by rw [List.length_drop, Block.fbData_length], hrest⟩
  rw [chainData_append, chainData_cons, chainData_nil, List.append_nil,
    ← List.take_append_drop o (v b).fbData, ← List.append_assoc, hbytes, hzero,
    List.length_append, List.length_singleton,
    show 4080 * (pre.length + 1) - buf.length = 4080 - o by omega]

/-- What one write to a new, empty file leaves: the blocks up to the one the handle is in, linked
both ways, and the bytes in them. -/
theorem crfsWrite_leaves (h : Inv σ s) (hi : s.live i) (hf : σ.img.isDir i = false)
    (hfirst : (σ.img.ino i).inFirst = 0) (hsize : (σ.img.ino i).inFsize = 0) (hb : buf ≠ [])
    (hroom : (buf.length + 4079) / 4080 + tableCost σ i ≤ σ.bm.avail) :
    ∃ (fp' : CoFile) (τ : Vol) (pre : List BlockId),
      (crfsWrite (openHandle σ i) buf).eval σ = ((.ok buf.length, fp'), τ) ∧
      (pre ++ [fp'.fCurblock]).length = (buf.length + 4079) / 4080 ∧
      IsChain τ.val (τ.img.ino i).inFirst (pre ++ [fp'.fCurblock]) ∧
      BackLinked τ.val 0 0 (pre ++ [fp'.fCurblock]) ∧ (τ.img.ino i).inLast = fp'.fCurblock ∧
      (∀ b ∈ pre ++ [fp'.fCurblock], σ.bm.blocked b.toNat = false) ∧
      chainData τ.val (pre ++ [fp'.fCurblock]) =
        buf ++ List.replicate (4080 * (pre ++ [fp'.fCurblock]).length - buf.length) 0 ∧
      (τ.img.ino i).inFsize.toNat = buf.length := by
  have hlen := List.length_pos_of_ne_nil hb
  have hav := σ.bm.avail_le
  have hlim := h.blocks.limit
  obtain ⟨s₀, h₀, hlive, hempty⟩ := h.orphan hfirst
  have hi₀ : s₀.live i := by rwa [hlive]
  have hh : Handle σ s₀ (openHandle σ i) := h₀.openHandle hi₀ hf
  have hnum : (σ.img.ino i).inInode = i := (h.tree.inum i hi).2
  rcases h₀.startChain hh hfirst hempty with ⟨-, hz⟩ |
    ⟨n, υ₁, s₁, he, hseat, ht₁, hdata₁, hlink₁, -, hst⟩
  · omega
  obtain ⟨hino₁, hneeds₁, hav₁⟩ := hst.stored (by simp only [openHandle, hnum]; omega)
  simp only [openHandle, hnum] at hino₁ hneeds₁ hav₁
  rw [crfsWrite_append hh.magic (Or.inl hfirst) he]
  rcases writeData_outcome hseat (o := 0) (by rfl) buf with
    ⟨fp', υ, τ, s₂, s', pre, post, o', hw, hfill, ho', hpos', hsz⟩ | ⟨fp', τ, e, hw, -, hshort⟩
  · have hpost := hfill.post_nil
    subst hpost
    have hinode : fp'.fInode = i := hfill.inode
    have hseat' := hsz.seat hfill.seat
    have hpos := hfill.pos
    rw [List.length_nil] at hpos
    have hfpos : fp'.fFpos.toNat = buf.length := by
      rw [hfill.fpos]
      exact (toNat_add_ofNat (p := 0) (by simp; omega)).trans (Nat.zero_add _)
    -- every search found a block, so the inode was stored each time
    obtain ⟨k, hk, -, hsp⟩ := hfill.grown
    have hneeds : ¬ NeedsTable υ i := by
      rcases hsp with ⟨-, hn, -⟩ | ⟨-, hn, -⟩ | ⟨-, hn, -⟩
      · exact fun hn' => hneeds₁ (hn.mp hn')
      · exact hn
      · exact absurd hn hneeds₁
    have hsizeυ : (υ.img.ino i).inFsize = 0 := by
      rw [show i = (appended (openHandle σ i) n).fInode from rfl, hfill.size]
      exact (congrArg Inode.inFsize hino₁).trans hsize
    have hfirstυ : (υ.img.ino i).inFirst = n := by
      rw [show i = (appended (openHandle σ i) n).fInode from rfl, hfill.first]
      exact congrArg Inode.inFirst hino₁
    have hlastυ : (υ.img.ino i).inLast = fp'.fCurblock :=
      hfill.last rfl (fun hs => hneeds hs.1) (congrArg Inode.inLast hino₁)
    have hino : τ.img.ino i = { υ.img.ino i with inFsize := fp'.fFpos } := by
      have hnumυ := (hfill.seat.inv.tree.inum _ hfill.seat.handle.live).2
      rw [hinode] at hnumυ
      have hsize' := hsz.size
      rw [hinode, hsizeυ] at hsize'
      rcases hsize' with ⟨hle, -⟩ | ⟨-, hst'⟩
      · have := UInt32.le_iff_toNat_le.mp hle
        rw [hfpos] at this
        exact absurd this (by simp; omega)
      · have hyi : ({ υ.img.ino i with inFsize := fp'.fFpos } : Inode).inInode = i := hnumυ
        rw [Stores, hyi] at hst'
        rcases hst' with ⟨h3, -, -⟩ | ⟨-, hn, -⟩
        · exact h3
        · exact absurd hn hneeds
    have hval : ∀ b ∈ pre ++ [fp'.fCurblock], τ.val b = υ.val b :=
      fun b hb => hsz.val b ((hfill.seat.blocks b).mpr hb)
    refine ⟨fp', τ, pre, hw, ?_, ?_, ?_, ?_, ?_, ?_, ?_⟩
    · have := hpos' hb
      rw [List.length_append, List.length_singleton]
      omega
    · rw [hino]
      change IsChain τ.val (υ.img.ino i).inFirst _
      rw [hfirstυ]
      exact hseat'.cursor.chain
    · exact (hfill.links hlink₁).congr (fun b hb => by rw [hval b hb])
        (fun b hb => by rw [hval b hb])
    · rw [hino]
      exact hlastυ
    · intro b hmem
      have hown := (hseat'.blocks b).mpr hmem
      have htouch := hsz.touch
      rw [hinode] at hown htouch
      have hgrow := ((ht₁.trans hfill.touch).trans htouch).grow.owner b
      rw [hown] at hgrow
      rcases hgrow with hg | hg | hg
      · exact absurd hg.symm (hempty b)
      · cases hg
      · exact hg
    · have hrest := hfill.rest rfl (by
        intro x hx
        rw [show (appended (openHandle σ i) n).fCurblock = n from rfl, hdata₁] at hx
        exact List.eq_of_mem_replicate (List.mem_of_mem_drop hx))
      rw [chainData_congr fun b hb => by rw [hval b hb]]
      exact chainData_filled hfill.data hrest (by omega)
    · rw [hino]
      exact hfpos
  · obtain ⟨hk, hlt, -⟩ := hshort
    rw [List.length_nil, show (appended (openHandle σ i) n).fInode = i from rfl, tableCost,
      if_neg hneeds₁] at hlt
    omega

/-- A single `crfs_write` to a new, empty file with enough free blocks: the file has
exactly the blocks its bytes need, all of them new, and the rest of the last one is zero. -/
theorem crfsWrite_builds_chain (h : Inv σ s) (hi : s.live i) (hf : σ.img.isDir i = false)
    (hfirst : (σ.img.ino i).inFirst = 0) (hsize : (σ.img.ino i).inFsize = 0) (hb : buf ≠ [])
    (hroom : (buf.length + 4079) / 4080 + tableCost σ i ≤ σ.bm.avail) :
    ∃ (fp' : CoFile) (τ : Vol) (l : List BlockId),
      (crfsWrite (openHandle σ i) buf).eval σ = ((.ok buf.length, fp'), τ) ∧
      l.length = (buf.length + 4079) / 4080 ∧ FileChain τ.val (τ.img.ino i) l ∧
      (∀ b ∈ l, σ.bm.blocked b.toNat = false) ∧
      chainData τ.val l = buf ++ List.replicate (4080 * l.length - buf.length) 0 ∧
      (τ.img.ino i).inFsize.toNat = buf.length := by
  obtain ⟨fp', τ, pre, he, hlen, hchain, hback, hlast, hnew, hdata, hfsize⟩ :=
    crfsWrite_leaves h hi hf hfirst hsize hb hroom
  exact ⟨fp', τ, _, he, hlen, .of_isChain hchain hback hlast, hnew, hdata, hfsize⟩

/-- Bytes for two blocks. -/
def longText : List UInt8 := List.replicate 4080 1 ++ List.replicate 920 2

theorem length_longText : longText.length = 5000 := by
  rw [longText, List.length_append, List.length_replicate, List.length_replicate]

theorem longText_ne_nil : longText ≠ [] :=
  List.ne_nil_of_length_pos (by rw [length_longText]; decide)

/-- 5000 bytes written to the new file "a" take two blocks. -/
theorem crfsWrite_builds_chain_long : ∃ (fp' : CoFile) (τ : Vol) (l : List BlockId),
    (crfsWrite (openHandle createdVol 2) longText).eval createdVol = ((.ok 5000, fp'), τ) ∧
      l.length = 2 ∧ FileChain τ.val (τ.img.ino 2) l ∧
      chainData τ.val l = longText ++ List.replicate 3160 0 := by
  obtain ⟨s, hm, hlive⟩ := createdVol_mounted
  obtain ⟨fp', τ, l, he, hl, hc, -, hdata, -⟩ := crfsWrite_builds_chain hm.inv hlive
    (by decide +kernel) (by decide +kernel) (by decide +kernel) longText_ne_nil
    (by rw [length_longText]; decide +kernel)
  rw [length_longText] at he hl hdata
  rw [hl] at hdata
  exact ⟨fp', τ, l, he, hl, hc, hdata⟩

end Crfs
