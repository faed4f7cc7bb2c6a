import CobaltRom.Crfs.Shortage
import CobaltRom.Crfs.Cursor

/-! What `crfs_write` puts into the chain of a file, block by block, also on a disk
that fills up on the way. -/
namespace Crfs
open WriteBack LinkChain

/-- The handle is at a block of its file, and the file owns the blocks of its chain. -/
structure Seat (σ : Vol) (s : Shape) (a : BlockId) (fp : CoFile) (pre post : List BlockId) :
    Prop where
  inv : Inv σ s
  handle : Handle σ s fp
  cursor : Cursor σ.val a fp pre post
  blocks : ∀ b, s.own b = some (.file fp.fInode) ↔ b ∈ pre ++ fp.fCurblock :: post

/-- The inode cannot be stored: its table has to move and no block is free. -/
def Starved (σ : Vol) (i : InodeId) : Prop := NeedsTable σ i ∧ σ.bm.avail = 0

/-- Inode `y` was stored, or left out on a full disk, after `k` blocks were taken. -/
def Stores (σ : Vol) (k : Nat) (y : Inode) (τ : Vol) : Prop :=
  (τ.img.ino y.inInode = y ∧ ¬ NeedsTable τ y.inInode ∧
    τ.bm.avail + k + tableCost σ y.inInode = σ.bm.avail) ∨
  (τ.img.ino y.inInode = σ.img.ino y.inInode ∧ NeedsTable σ y.inInode ∧ σ.bm.avail = k ∧
    Starved τ y.inInode ∧ τ.glob.Full)

variable {σ τ υ : Vol} {s s' s'' : Shape} {m' : Freemap} {a b c n nb : BlockId} {d : Block}
  {i : InodeId} {y : Inode} {fp fp' : CoFile} {pre post l : List BlockId} {k : Nat}

/-! ### Storing the inode of the file -/

/-- Writing a block that is not an inode table leaves the tables where they are. -/
theorem Inv.needsTable_write (h : Inv σ s) (hi : s.live i)
    (hb : ∀ k, s.own b ≠ some (.itable k)) (d : Block) :
    NeedsTable (σ.write b d) i ↔ NeedsTable σ i := by
  have hne : σ.tableOf i ≠ b := h.table_ne (h.owned.table i hi) hb
  have hd : (σ.write b d).dirty (σ.tableOf i) = σ.dirty (σ.tableOf i) :=
    Function.update_of_ne hne _ _
  rw [NeedsTable, NeedsTable, ← hd]
  rfl

theorem Inv.storeInode_outcome (h : Inv σ s) (hi : s.live i) (hf : σ.img.isDir i = false)
    (hy : y.inInode = i) (hm : y.inFmask = (σ.img.ino i).inFmask)
    (hfst : y.inFirst = 0 ∨ s.own y.inFirst = some (.file i)) :
    ∃ (r : Except Errno Unit) (τ : Vol) (s' : Shape), (crfsWriteInode y).eval σ = (r, τ) ∧
      Inv τ s' ∧ Touch i σ s τ s' ∧ (∀ b, s'.own b = some (.file i) ↔ s.own b = some (.file i)) ∧
      (∀ b, s.own b = some (.file i) → τ.val b = σ.val b) ∧ Stores σ 0 y τ := by
  obtain ⟨s', hinv, ht, hown, hval, hino, -⟩ := h.storeInode hi hf hy hm hfst
  rcases crfsWriteInode_outcome h.blocks.ok h.blocks.limit y with
    ⟨nb, τ, he, hw, -, -, hav, -⟩ | ⟨he, hneeds, hz⟩
  · rw [he] at hinv ht hval hino
    refine ⟨_, τ, s', he, hinv, ht, hown, hval, Or.inl ⟨by rw [hy]; exact hino, ?_, by omega⟩⟩
    rw [hw.needsTable h.blocks h.owned.ownTable]
    exact fun hn => hn.1 rfl
  · rw [he] at hinv ht hval hino
    exact ⟨_, _, s', he, hinv, ht, hown, hval,
      Or.inr ⟨by rw [hy]; exact hino, hneeds, hz, ⟨hneeds, hz⟩, Or.inl rfl⟩⟩

/-! ### Appending a block -/

/-- The handle behind `append_fblock`. -/
def appended (fp : CoFile) (n : BlockId) : CoFile :=
  { fp with fNospc := false, fCurblock := n, fFblock := appendNew fp n }

@[simp] theorem fbOffset_freshFblock (b : Block) (p : BlockId) :
    (freshFblock b p).fbOffset = b.fbOffset := by
  simp [freshFblock]

theorem fbData_appendNew (fp : CoFile) (n : BlockId) :
    (appendNew fp n).fbData = List.replicate 4080 0 := by
  unfold appendNew
  split <;> exact fbData_freshFblock _ _

theorem appendVol_bm (σ : Vol) (m' : Freemap) (fp : CoFile) (n : BlockId) :
    (appendVol σ m' fp n).bm = m' := by
  unfold appendVol
  split <;> rfl

theorem Inv.needsTable_appendVol (h : Inv σ s) (hh : Handle σ s fp) (ht : σ.bm.Took n.toNat m') :
    NeedsTable (Crfs.appendVol σ m' fp n) fp.fInode ↔ NeedsTable σ fp.fInode := by
  obtain ⟨hn, -, -⟩ := h.blocks.fresh ht
  obtain ⟨h1, -⟩ := h.claimBlock hh.live hh.file ht (appendNew_fbNext fp n)
  have hbase : NeedsTable ((σ.setBm m').write n (appendNew fp n)) fp.fInode ↔
      NeedsTable σ fp.fInode :=
    (h.holdBlock ht).needsTable_write hh.live (by simp [Shape.give]) _
  unfold Crfs.appendVol
  by_cases hc : fp.fCurblock ≠ 0
  · rw [if_pos hc]
    have hcur := hh.cur.resolve_left hc
    have hne : fp.fCurblock ≠ n := by
      intro he
      rw [he, hn] at hcur
      cases hcur
    rw [Vol.write_comm _ hne, h1.needsTable_write hh.live]
    · exact hbase
    · simp [Shape.give, Function.update_of_ne hne, hcur]
  · rw [if_neg hc]
    exact hbase

/-- Both outcomes of `append_fblock` for a file in the tree. -/
theorem appendFblock_outcome (h : Inv σ s) (hh : Handle σ s fp) :
    ((appendFblock fp).eval σ = ((.error .ENOSPC, { fp with fNospc := true }),
      σ.setBm σ.bm.exhausted) ∧ σ.bm.avail = 0) ∨
    ∃ (n : BlockId) (m' : Freemap) (τ : Vol) (s' : Shape), σ.bm.Took n.toNat m' ∧
      (appendFblock fp).eval σ = ((.ok (), appended fp n), τ) ∧ Inv τ s' ∧
      Touch fp.fInode σ s τ s' ∧ Handle τ s' (appended fp n) ∧
      (∀ b, s'.own b = some (.file fp.fInode) ↔ s.own b = some (.file fp.fInode) ∨ b = n) ∧
      (∀ b, s.own b = some (.file fp.fInode) ∨ b = n →
        τ.val b = (appendVol σ m' fp n).val b) ∧
      Stores σ 1 (appendInode fp n (σ.img.ino fp.fInode)) τ := by
  rcases appendFblock_eval fp h.blocks.ok h.blocks.limit with ⟨n, m', ht, he⟩ | ⟨he, hfull⟩
  · right
    obtain ⟨hn, h0, -⟩ := h.blocks.fresh ht
    obtain ⟨h1, t1⟩ := h.appendVol hh ht
    have hino := h.appendVol_ino hh ht
    have hnum := (h.tree.inum _ hh.live).2
    have hi : (appendInode fp n (σ.img.ino fp.fInode)).inInode = fp.fInode := by
      unfold appendInode
      split <;> exact hnum
    have hfst : (appendInode fp n (σ.img.ino fp.fInode)).inFirst = 0 ∨
        (s.give n (.file fp.fInode)).own (appendInode fp n (σ.img.ino fp.fInode)).inFirst =
          some (.file fp.fInode) := by
      unfold appendInode
      split
      · exact (h.owned.first _ hh.live hh.file).imp_right (t1.ownFile _)
      · exact Or.inr (by simp [Shape.give])
    obtain ⟨r, τ, s', hτ, h2, t2, hown, hval, hst⟩ := h1.storeInode_outcome hh.live
      (t1.isDir.trans hh.file) hi (by rw [hino]; unfold appendInode; split <;> rfl) hfst
    have hown' : ∀ b, s'.own b = some (.file fp.fInode) ↔
        s.own b = some (.file fp.fInode) ∨ b = n := by
      intro b
      rw [hown]
      by_cases hb : b = n
      · simp [Shape.give, hb]
      · simp [Shape.give, hb]
    refine ⟨n, m', τ, s', ht, by rw [he, hτ]; rfl, h2, t1.trans t2, ?_, hown', ?_, ?_⟩
    · exact ⟨hh.magic, by rw [(t1.trans t2).live]; exact hh.live,
        (t1.trans t2).isDir.trans hh.file, Or.inr ((hown' n).mpr (Or.inr rfl)),
        Or.inl (appendNew_fbNext fp n)⟩
    · intro b hb
      exact hval b ((hown b).mp ((hown' b).mpr hb))
    · have hav := ht.avail
      have hbm := appendVol_bm σ m' fp n
      have hneeds := h.needsTable_appendVol hh ht
      have hcost : tableCost (Crfs.appendVol σ m' fp n) fp.fInode = tableCost σ fp.fInode := by
        simp only [tableCost, hneeds]
      rw [Stores, hi, hbm, hino, hneeds, hcost] at hst
      rw [Stores, hi]
      rcases hst with ⟨h3, h4, h5⟩ | ⟨h3, h4, h5, h6⟩
      · exact Or.inl ⟨h3, h4, by omega⟩
      · exact Or.inr ⟨h3, h4, by omega, h6⟩
  · exact Or.inl ⟨he, Freemap.avail_eq_zero.mpr hfull⟩

/-! ### From one place in the chain to the next -/

/-- The bytes in front of offset `o` of block `c`, which comes behind `pre`. -/
def bytesTo (val : BlockId → Block) (pre : List BlockId) (c : BlockId) (o : Nat) : List UInt8 :=
  chainData val pre ++ (val c).fbData.take o

/-- The price of `k` more blocks for file `i`: the blocks, and one for its table; or the
last free block went to the file and none was left for the table. -/
def Spent (σ τ : Vol) (i : InodeId) (k : Nat) : Prop :=
  (k = 0 ∧ (NeedsTable τ i ↔ NeedsTable σ i) ∧ τ.bm.avail = σ.bm.avail) ∨
  (0 < k ∧ ¬ NeedsTable τ i ∧ τ.bm.avail + k + tableCost σ i = σ.bm.avail) ∨
  (k = 1 ∧ NeedsTable σ i ∧ σ.bm.avail = 1 ∧ Starved τ i ∧ τ.glob.Full)

/-- Every block names the one before it and its place in the file. -/
def BackLinked (val : BlockId → Block) : BlockId → Nat → List BlockId → Prop
  | _, _, [] => True
  | p, k, b :: l =>
    (val b).fbPrev = p ∧ (val b).fbOffset = UInt16.ofNat k ∧ BackLinked val b (k + 1) l

/-- From offset `o` of the block behind `pre` to offset `o'` of the one behind `pre'`
the bytes `l` were written. -/
structure Filled (σ : Vol) (s : Shape) (a : BlockId) (fp : CoFile) (pre post : List BlockId)
    (o : Nat) (l : List UInt8) (τ : Vol) (s' : Shape) (fp' : CoFile) (pre' post' : List BlockId)
    (o' : Nat) : Prop where
  seat : Seat τ s' a fp' pre' post'
  touch : Touch fp.fInode σ s τ s'
  inode : fp'.fInode = fp.fInode
  nospc : fp.fNospc = false → fp'.fNospc = false
  fpos : fp'.fFpos = fp.fFpos + UInt32.ofNat l.length
  pos : 4080 * pre'.length + o' = 4080 * pre.length + o + l.length
  forward : pre.length ≤ pre'.length
  data : bytesTo τ.val pre' fp'.fCurblock o' = bytesTo σ.val pre fp.fCurblock o ++ l
  size : (τ.img.ino fp.fInode).inFsize = (σ.img.ino fp.fInode).inFsize
  first : (τ.img.ino fp.fInode).inFirst = (σ.img.ino fp.fInode).inFirst
  full : σ.glob.Full → τ.glob.Full
  links : BackLinked σ.val 0 0 (pre ++ fp.fCurblock :: post) →
    BackLinked τ.val 0 0 (pre' ++ fp'.fCurblock :: post')
  rest : post = [] → (∀ x ∈ (σ.val fp.fCurblock).fbData.drop o, x = 0) →
    ∀ x ∈ (τ.val fp'.fCurblock).fbData.drop o', x = 0
  last : post = [] → ¬ Starved τ fp.fInode → (σ.img.ino fp.fInode).inLast = fp.fCurblock →
    (τ.img.ino fp.fInode).inLast = fp'.fCurblock
  grown : ∃ k, pre'.length + post'.length = pre.length + post.length + k ∧
    (k = 0 ∨ post' = []) ∧ Spent σ τ fp.fInode k

section
variable {pre' post' pre'' post'' l' : List BlockId} {fp'' : CoFile} {k' o o' o'' : Nat}
  {buf bytes bytes' : List UInt8}

theorem Spent.trans (h : Spent σ τ i k) (h' : Spent τ υ i k') (hfull : τ.glob.Full → υ.glob.Full) :
    Spent σ υ i (k + k') := by
  have hcost : ∀ {ρ : Vol}, ¬ NeedsTable ρ i → tableCost ρ i = 0 := fun hn => if_neg hn
  have hsame : (NeedsTable τ i ↔ NeedsTable σ i) → tableCost τ i = tableCost σ i := by
    intro hn
    simp only [tableCost, hn]
  rcases h with ⟨rfl, hn, ha⟩ | ⟨hk, hn, ha⟩ | ⟨rfl, hn, ha, hs, hf⟩
  · rw [Nat.zero_add]
    rcases h' with ⟨rfl, hn', ha'⟩ | ⟨hk', hn', ha'⟩ | ⟨rfl, hn', ha', hs', hf'⟩
    · exact Or.inl ⟨rfl, hn'.trans hn, ha'.trans ha⟩
    · rw [hsame hn, ha] at ha'
      exact Or.inr (Or.inl ⟨hk', hn', ha'⟩)
    · exact Or.inr (Or.inr ⟨rfl, hn.mp hn', ha ▸ ha', hs', hf'⟩)
  · rcases h' with ⟨rfl, hn', ha'⟩ | ⟨hk', hn', ha'⟩ | ⟨rfl, hn', ha', hs', hf'⟩
    · exact Or.inr (Or.inl ⟨hk, fun h => hn (hn'.mp h), by omega⟩)
    · rw [hcost hn] at ha'
      exact Or.inr (Or.inl ⟨by omega, hn', by omega⟩)
    · exact absurd hn' hn
  · rcases h' with ⟨rfl, hn', ha'⟩ | ⟨hk', hn', ha'⟩ | ⟨rfl, hn', ha', hs', hf'⟩
    · exact Or.inr (Or.inr ⟨rfl, hn, ha, ⟨hn'.mpr hs.1, ha'.trans hs.2⟩, hfull hf⟩)
    · have := hs.2
      omega
    · rw [hs.2] at ha'
      cases ha'

/-- Without a free block nothing changes that any more. -/
theorem Spent.starved (h : Spent σ τ i k) (hs : Starved σ i) : Starved τ i := by
  obtain ⟨hn, hz⟩ := hs
  rcases h with ⟨-, hn', ha⟩ | ⟨hk, -, ha⟩ | ⟨-, -, ha, -⟩
  · exact ⟨hn'.mpr hn, ha.trans hz⟩
  · omega
  · omega

theorem BackLinked.congr {val val' : BlockId → Block} {p : BlockId}
    (h : BackLinked val p k l) (hp : ∀ b ∈ l, (val' b).fbPrev = (val b).fbPrev)
    (ho : ∀ b ∈ l, (val' b).fbOffset = (val b).fbOffset) : BackLinked val' p k l := by
  induction l generalizing p k with
  | nil => trivial
  | cons b l ih =>
    obtain ⟨h1, h2, h3⟩ := h
    exact ⟨(hp b List.mem_cons_self).trans h1, (ho b List.mem_cons_self).trans h2,
      ih h3 (fun c hc => hp c (List.mem_cons_of_mem _ hc))
        (fun c hc => ho c (List.mem_cons_of_mem _ hc))⟩

theorem BackLinked.snoc {val val' : BlockId → Block} {p : BlockId}
    (h : BackLinked val p k (l ++ [c])) (hp : ∀ b ∈ l ++ [c], (val' b).fbPrev = (val b).fbPrev)
    (ho : ∀ b ∈ l ++ [c], (val' b).fbOffset = (val b).fbOffset) (hn : (val' n).fbPrev = c)
    (hno : (val' n).fbOffset = (val c).fbOffset + 1) : BackLinked val' p k (l ++ [c] ++ [n]) := by
  induction l generalizing p k with
  | nil =>
    obtain ⟨h1, h2, -⟩ := h
    refine ⟨(hp c List.mem_cons_self).trans h1, (ho c List.mem_cons_self).trans h2, hn, ?_, trivial⟩
    rw [hno, h2, UInt16.ofNat_add]
    rfl
  | cons b l ih =>
    obtain ⟨h1, h2, h3⟩ := h
    exact ⟨(hp b List.mem_cons_self).trans h1, (ho b List.mem_cons_self).trans h2,
      ih h3 (fun c hc => hp c (List.mem_cons_of_mem _ hc))
        (fun c hc => ho c (List.mem_cons_of_mem _ hc))⟩

/-- At the end of the chain the handle stays there. -/
theorem Filled.post_nil (h : Filled σ s a fp pre [] o bytes τ s' fp' pre' post' o') :
    post' = [] := by
  obtain ⟨k, hk, hend, -⟩ := h.grown
  have hfwd := h.forward
  rcases hend with rfl | he
  · rw [List.length_nil] at hk
    exact List.length_eq_zero_iff.mp (by omega)
  · exact he

theorem Filled.trans (h : Filled σ s a fp pre post o bytes τ s' fp' pre' post' o')
    (h' : Filled τ s' a fp' pre' post' o' bytes' υ s'' fp'' pre'' post'' o'') :
    Filled σ s a fp pre post o (bytes ++ bytes') υ s'' fp'' pre'' post'' o'' := by
  have hi := h.inode
  obtain ⟨k, hk, hend, hsp⟩ := h.grown
  obtain ⟨k', hk', hend', hsp'⟩ := h'.grown
  have htouch := h'.touch
  have hsize := h'.size
  have hfirst := h'.first
  have hlast := h'.last
  rw [hi] at hsp' htouch hsize hfirst hlast
  refine ⟨h'.seat, h.touch.trans htouch, h'.inode.trans hi, fun hn => h'.nospc (h.nospc hn), ?_, ?_,
    h.forward.trans h'.forward, ?_, hsize.trans h.size, hfirst.trans h.first,
    fun hf => h'.full (h.full hf), fun hl => h'.links (h.links hl), ?_, ?_, k + k', by omega, ?_,
    hsp.trans hsp' h'.full⟩
  · rw [h'.fpos, h.fpos, List.length_append, UInt32.ofNat_add]
    exact UInt32.add_assoc _ _ _
  · rw [h'.pos, h.pos, List.length_append]
    omega
  · rw [h'.data, h.data, List.append_assoc]
  · rintro rfl hz
    exact h'.rest h.post_nil (h.rest rfl hz)
  · rintro rfl hf hl
    exact hlast h.post_nil hf (h.last rfl (fun hs => hf (hsp'.starved hs)) hl)
  · rcases hend' with rfl | he
    · rcases hend with rfl | he
      · exact Or.inl rfl
      · rw [he, List.length_nil] at hk'
        have hfwd := h'.forward
        exact Or.inr (List.length_eq_zero_iff.mp (by omega))
    · exact Or.inr he

theorem bytesTo_self (hc : Cursor σ.val a fp pre post) (o : Nat) :
    bytesTo σ.val pre fp.fCurblock o = chainData σ.val pre ++ fp.fFblock.fbData.take o := by
  rw [bytesTo, hc.block]

/-- The block under the handle is written with `bytes` put in at `o`. -/
theorem Seat.put (h : Seat σ s a fp pre post) {p : UInt32} (hn : d.fbNext = fp.fFblock.fbNext)
    (hp : d.fbPrev = fp.fFblock.fbPrev) (hoff : d.fbOffset = fp.fFblock.fbOffset)
    (hd : d.fbData = fp.fFblock.fbData.take o ++ bytes ++ fp.fFblock.fbData.drop (o + bytes.length))
    (ho : o + bytes.length ≤ 4080) (hpos : p = fp.fFpos + UInt32.ofNat bytes.length) :
    Filled σ s a fp pre post o bytes (σ.write fp.fCurblock d) s
      { fp with fFblock := d, fFpos := p } pre post (o + bytes.length) := by
  have hmem : s.own fp.fCurblock = some (.file fp.fInode) := (h.blocks _).mpr (by simp)
  have hnext : d.fbNext = 0 ∨ s.own d.fbNext = some (.file fp.fInode) := by
    rw [hn]
    exact h.handle.next
  obtain ⟨h1, t1⟩ := h.inv.writeFile hmem hnext
  have hval : ∀ b, b ≠ fp.fCurblock → (σ.write fp.fCurblock d).val b = σ.val b :=
    fun b hb => Vol.write_val_ne hb d
  have hself : (σ.write fp.fCurblock d).val fp.fCurblock = d := Vol.write_val_self _ _ _
  have hnd := h.cursor.chain.nodup
  have hpre : fp.fCurblock ∉ pre := by
    intro hin
    exact (List.nodup_append.mp hnd).2.2 _ hin _ List.mem_cons_self rfl
  have hchain : IsChain (σ.write fp.fCurblock d).val a (pre ++ fp.fCurblock :: post) := by
    refine h.cursor.chain.congr ?_
    intro b _
    by_cases hb : b = fp.fCurblock
    · rw [hb, hself, hn, h.cursor.block]
    · rw [hval b hb]
  have hino : (σ.write fp.fCurblock d).img.ino fp.fInode = σ.img.ino fp.fInode :=
    Vol.write_ino (h.inv.table_ne (h.inv.owned.table _ h.handle.live) (by rw [hmem]; simp)) d
  refine ⟨⟨h1, ⟨h.handle.magic, h.handle.live, t1.isDir.trans h.handle.file, h.handle.cur, hnext⟩,
    ⟨hchain, hself.symm⟩, h.blocks⟩, t1, rfl, fun hs => hs, hpos, by omega, Nat.le_refl _, ?_,
    by rw [hino], by rw [hino], fun hf => hf, ?_, ?_, fun _ _ hl => by rw [hino]; exact hl, 0, rfl,
    Or.inl rfl, Or.inl ⟨rfl, h.inv.needsTable_write h.handle.live (by rw [hmem]; simp) d, rfl⟩⟩
  · have hlen : (fp.fFblock.fbData.take o).length = o := by
      rw [List.length_take, Block.fbData_length]
      omega
    have htake : d.fbData.take (o + bytes.length) = fp.fFblock.fbData.take o ++ bytes := by
      rw [hd, List.take_append_of_le_length (by rw [List.length_append, hlen]),
        List.take_of_length_le (by rw [List.length_append, hlen])]
    have hdata : chainData (σ.write fp.fCurblock d).val pre = chainData σ.val pre :=
      chainData_congr fun b hb => by rw [hval b (fun he => hpre (he ▸ hb))]
    rw [bytesTo_self h.cursor, bytesTo, hself, htake, hdata, List.append_assoc]
  · intro hl
    refine hl.congr ?_ ?_
    · intro b _
      by_cases hb : b = fp.fCurblock
      · rw [hb, hself, hp, h.cursor.block]
      · rw [hval b hb]
    · intro b _
      by_cases hb : b = fp.fCurblock
      · rw [hb, hself, hoff, h.cursor.block]
      · rw [hval b hb]
  · intro _ hz x hx
    have hlen : (fp.fFblock.fbData.take o ++ bytes).length = o + bytes.length := by
      rw [List.length_append, List.length_take, Block.fbData_length]
      omega
    rw [hself, hd, List.drop_append, hlen, Nat.sub_self, List.drop_zero,
      List.drop_of_length_le (by rw [hlen]), List.nil_append] at hx
    refine hz x ?_
    rw [← h.cursor.block]
    rw [← List.drop_drop] at hx
    exact List.mem_of_mem_drop hx

/-- The handle moves on to the next block of the chain. -/
theorem Seat.advance (h : Seat σ s a fp pre (c :: post)) :
    Filled σ s a fp pre (c :: post) 4080 [] σ s
      { fp with fCurblock := c, fFblock := σ.val c } (pre ++ [fp.fCurblock]) post 0 := by
  obtain ⟨hn, h0⟩ := h.cursor.fbNext_cons
  have ha := h.handle.advance h.inv (by rw [hn]; exact h0)
  rw [hn] at ha
  refine ⟨⟨h.inv, ha, h.cursor.advance, ?_⟩, Touch.refl _ _ _, rfl, fun hs => hs, ?_,
    ?_, ?_, ?_, rfl,
    rfl, fun hf => hf, ?_, nofun, nofun, 0, ?_, Or.inl rfl, Or.inl ⟨rfl, Iff.rfl, rfl⟩⟩
  · intro b
    rw [h.blocks]
    simp
  · simp
  · simp only [List.length_append, List.length_cons, List.length_nil]
    omega
  · rw [List.length_append]
    omega
  · rw [bytesTo, bytesTo, List.append_nil, List.take_zero, List.append_nil, chainData_append,
      chainData_cons, chainData_nil, List.append_nil,
      List.take_of_length_le (by rw [Block.fbData_length])]
  · intro hl
    rwa [List.append_cons] at hl
  · rw [List.length_append, List.length_cons, List.length_cons, List.length_nil]
    omega

/-- A block is appended behind the last one. -/
theorem Seat.append (h : Seat σ s a fp pre []) :
    ((appendFblock fp).eval σ = ((.error .ENOSPC, { fp with fNospc := true }),
      σ.setBm σ.bm.exhausted) ∧ σ.bm.avail = 0) ∨
    ∃ (n : BlockId) (τ : Vol) (s' : Shape),
      (appendFblock fp).eval σ = ((.ok (), appended fp n), τ) ∧
      Filled σ s a fp pre [] 4080 [] τ s' (appended fp n) (pre ++ [fp.fCurblock]) [] 0 := by
  rcases appendFblock_outcome h.inv h.handle with he | ⟨n, m', τ, s', ht, he, h2, t2, hh2, hown,
    hval, hst⟩
  · exact Or.inl he
  right
  have hc := h.cursor.ne_zero
  obtain ⟨hn, h0, -⟩ := h.inv.blocks.fresh ht
  have hmem : s.own fp.fCurblock = some (.file fp.fInode) := (h.blocks _).mpr (by simp)
  have hne : fp.fCurblock ≠ n := by
    rintro he
    rw [he, hn] at hmem
    cases hmem
  have hvn : τ.val n = appendNew fp n := by
    rw [hval n (Or.inr rfl), appendVol, if_pos hc]
    exact Vol.write_val_self _ _ _
  have hvc : τ.val fp.fCurblock = fp.fFblock.setFbNext n := by
    rw [hval _ (Or.inl hmem), appendVol, if_pos hc, Vol.write_val_ne hne]
    exact Vol.write_val_self _ _ _
  have hvp : ∀ b ∈ pre, τ.val b = σ.val b := by
    intro b hb
    have hbown : s.own b = some (.file fp.fInode) := (h.blocks _).mpr (by simp [hb])
    have hbn : b ≠ n := by
      rintro rfl
      rw [hn] at hbown
      cases hbown
    have hbc : b ≠ fp.fCurblock := by
      rintro rfl
      exact (List.nodup_append.mp h.cursor.chain.nodup).2.2 _ hb _ List.mem_cons_self rfl
    rw [hval b (Or.inl hbown), appendVol, if_pos hc, Vol.write_val_ne hbn, Vol.write_val_ne hbc]
    rfl
  have hi : (appendInode fp n (σ.img.ino fp.fInode)).inInode = fp.fInode := by
    rw [appendInode, if_pos hc]
    exact (h.inv.tree.inum _ h.handle.live).2
  have hkept : (τ.img.ino fp.fInode).inFsize = (σ.img.ino fp.fInode).inFsize ∧
      (τ.img.ino fp.fInode).inFirst = (σ.img.ino fp.fInode).inFirst ∧
      Spent σ τ fp.fInode 1 := by
    rw [Stores, hi] at hst
    rcases hst with ⟨h3, h4, h5⟩ | ⟨h3, h4, h5, h6, h7⟩
    · rw [h3, appendInode, if_pos hc]
      exact ⟨rfl, rfl, Or.inr (Or.inl ⟨Nat.one_pos, h4, h5⟩)⟩
    · rw [h3]
      exact ⟨rfl, rfl, Or.inr (Or.inr ⟨rfl, h4, h5, h6, h7⟩)⟩
  refine ⟨n, τ, s', he, ⟨h2, hh2, ⟨?_, hvn.symm⟩, ?_⟩, t2, rfl, fun _ => rfl, ?_, ?_, ?_, ?_,
    hkept.1, hkept.2.1, ?_, ?_, ?_, ?_, 1, ?_, Or.inr rfl, hkept.2.2⟩
  · rw [List.append_assoc]
    refine h.cursor.chain.snoc h0 ?_ ?_ ?_
    · change (τ.val fp.fCurblock).fbNext = n
      rw [hvc, Block.fbNext_setFbNext]
    · change (τ.val n).fbNext = 0
      rw [hvn, appendNew_fbNext]
    · intro b hb
      exact congrArg Block.fbNext (hvp b hb)
  · intro b
    rw [show (appended fp n).fInode = fp.fInode from rfl, hown, h.blocks]
    simp [appended, or_assoc]
  · simp [appended]
  · simp only [List.length_append, List.length_cons, List.length_nil]
    omega
  · rw [List.length_append]
    omega
  · rw [bytesTo, bytesTo, List.append_nil, List.take_zero, List.append_nil, chainData_append,
      chainData_cons, chainData_nil, List.append_nil, hvc, Block.fbData_setFbNext,
      List.take_of_length_le (by rw [Block.fbData_length]), h.cursor.block,
      chainData_congr fun b hb => by rw [hvp b hb]]
  · intro hf
    have hk := keeps_appendFblock stable_full.block fp σ hf
    rwa [he] at hk
  · intro hl
    refine hl.snoc (n := n) ?_ ?_ ?_ ?_
    · intro b hb
      rcases List.mem_append.mp hb with hb | hb
      · rw [hvp b hb]
      · rw [List.mem_singleton.mp hb, hvc, Block.fbPrev_setFbNext, h.cursor.block]
    · intro b hb
      rcases List.mem_append.mp hb with hb | hb
      · rw [hvp b hb]
      · rw [List.mem_singleton.mp hb, hvc, Block.fbOffset_setFbNext, h.cursor.block]
    · rw [hvn, appendNew, if_pos hc, fbPrev_freshFblock]
    · rw [hvn, appendNew, if_pos hc, fbOffset_freshFblock, Block.fbOffset_setFbOffset,
        Block.fbOffset_setFbNext, h.cursor.block]
  · intro _ _ x hx
    rw [show (appended fp n).fCurblock = n from rfl, hvn, fbData_appendNew, List.drop_zero] at hx
    exact List.eq_of_mem_replicate hx
  · intro _ hf _
    rw [Stores, hi] at hst
    rcases hst with ⟨h3, -, -⟩ | ⟨-, -, -, h6, -⟩
    · rw [h3, appendInode, if_pos hc]
      rfl
    · exact absurd h6 hf
  · rw [List.length_append, List.length_cons, List.length_nil]

/-- The first block of an empty file. -/
theorem Inv.startChain (h : Inv σ s) (hh : Handle σ s fp) (hc : fp.fCurblock = 0)
    (hempty : ∀ b, s.own b ≠ some (.file fp.fInode)) :
    ((appendFblock fp).eval σ = ((.error .ENOSPC, { fp with fNospc := true }),
      σ.setBm σ.bm.exhausted) ∧ σ.bm.avail = 0) ∨
    ∃ (n : BlockId) (τ : Vol) (s' : Shape),
      (appendFblock fp).eval σ = ((.ok (), appended fp n), τ) ∧
      Seat τ s' n (appended fp n) [] [] ∧ Touch fp.fInode σ s τ s' ∧
      (τ.val n).fbData = List.replicate 4080 0 ∧ BackLinked τ.val 0 0 [n] ∧
      (σ.glob.Full → τ.glob.Full) ∧
      Stores σ 1 { σ.img.ino fp.fInode with inFirst := n, inLast := n } τ := by
  rcases appendFblock_outcome h hh with he | ⟨n, m', τ, s', ht, he, h2, t2, hh2, hown, hval, hst⟩
  · exact Or.inl he
  right
  obtain ⟨hn, h0, -⟩ := h.blocks.fresh ht
  have hne : ¬ fp.fCurblock ≠ 0 := not_not.mpr hc
  have hvn : τ.val n = appendNew fp n := by
    rw [hval n (Or.inr rfl), Crfs.appendVol, if_neg hne]
    exact Vol.write_val_self _ _ _
  rw [appendInode, if_neg hne] at hst
  refine ⟨n, τ, s', he, ⟨h2, hh2, ⟨⟨rfl, h0, ?_⟩, hvn.symm⟩, ?_⟩, t2, ?_, ?_, ?_, hst⟩
  · change (τ.val n).fbNext = 0
    rw [hvn, appendNew_fbNext]
  · intro b
    rw [show (appended fp n).fInode = fp.fInode from rfl, hown]
    simp [appended, hempty]
  · rw [hvn, fbData_appendNew]
  · rw [BackLinked, hvn, appendNew, if_neg hne, fbPrev_freshFblock, fbOffset_freshFblock,
      Block.fbOffset_setFbOffset]
    exact ⟨hc, rfl, trivial⟩
  · intro hf
    have hk := keeps_appendFblock stable_full.block fp σ hf
    rwa [he] at hk

theorem Filled.refl (h : Seat σ s a fp pre post) (o : Nat) :
    Filled σ s a fp pre post o [] σ s fp pre post o :=
  ⟨h, Touch.refl _ _ _, rfl, fun hs => hs,
    by simp, rfl, Nat.le_refl _, (List.append_nil _).symm, rfl,
    rfl, fun hf => hf, fun hl => hl, fun _ hz => hz, fun _ _ hl => hl, 0, rfl, Or.inl rfl,
    Or.inl ⟨rfl, Iff.rfl, rfl⟩⟩

/-! ### The loop -/

/-- There are not enough blocks to append `k` of them to file `i`. -/
def Short (σ : Vol) (i : InodeId) (k : Nat) : Prop :=
  0 < k ∧ σ.bm.avail < k + tableCost σ i ∧ (k = 1 → σ.bm.avail = 0)

theorem Spent.short (h : Spent σ τ i k) (hs : Short τ i k') : Short σ i (k + k') := by
  obtain ⟨hk', hlt, hone⟩ := hs
  rcases h with ⟨rfl, hn, ha⟩ | ⟨hk, hn, ha⟩ | ⟨rfl, hn, ha, hst, -⟩
  · have hcost : tableCost τ i = tableCost σ i := by simp only [tableCost, hn]
    rw [Nat.zero_add]
    exact ⟨hk', by rw [← hcost, ← ha]; exact hlt, fun h1 => ha ▸ hone h1⟩
  · have hcost : tableCost τ i = 0 := if_neg hn
    exact ⟨by omega, by omega, by omega⟩
  · have hcost : tableCost σ i = 1 := if_pos hn
    exact ⟨by omega, by omega, by omega⟩

/-- One block filled to its end, and the move to the next one if there is more to write. -/
theorem writeStep_outcome (h : Seat σ s a fp pre post) (ho : o < 4080)
    (hl : 4080 - o ≤ buf.length) (nw : Nat) :
    (∃ (fp' : CoFile) (τ : Vol) (s' : Shape) (pre' post' : List BlockId) (o' : Nat),
      (writeStep fp o buf nw).eval σ =
        (⟨fp', buf.drop (4080 - o), .ok (nw + (4080 - o))⟩, τ) ∧
      Filled σ s a fp pre post o (buf.take (4080 - o)) τ s' fp' pre' post' o' ∧
      (buf.drop (4080 - o) = [] ∧ o' = 4080 ∨ buf.drop (4080 - o) ≠ [] ∧ o' = 0)) ∨
    (∃ (fp' : CoFile) (τ : Vol) (e : Errno),
      (writeStep fp o buf nw).eval σ = (⟨fp', [], .error e⟩, τ) ∧ τ.glob.Full ∧ post = [] ∧
      σ.bm.avail = 0 ∧ 4080 - o < buf.length) := by
  have hlen : (buf.take (4080 - o)).length = 4080 - o := by
    rw [List.length_take]
    omega
  have hput := h.put (o := o)
    (d := fp.fFblock.setFbData o (buf.take (4080 - o))) (p := fp.fFpos + UInt32.ofNat (4080 - o))
    (Block.fbNext_setFbData _ _ _) (Block.fbPrev_setFbData _ _ _) (Block.fbOffset_setFbData _ _ _)
    (Block.fbData_setFbData (by omega) _) (by omega) (by rw [hlen])
  rw [hlen, show o + (4080 - o) = 4080 by omega] at hput
  rw [writeStep_eval]
  simp only [crfsFblockData]
  by_cases hb : buf.drop (4080 - o) = []
  · rw [if_pos hb]
    exact Or.inl ⟨_, _, s, pre, post, 4080, by rw [hb]; rfl, hput, Or.inl ⟨hb, rfl⟩⟩
  rw [if_neg hb]
  cases post with
  | cons c post =>
    obtain ⟨hn, h0⟩ := h.cursor.fbNext_cons
    rw [hn, if_pos h0]
    have hmove := hput.trans hput.seat.advance
    rw [List.append_nil] at hmove
    exact Or.inl ⟨_, _, s, _, post, 0, rfl, hmove, Or.inr ⟨hb, rfl⟩⟩
  | nil =>
    rw [if_neg (not_not.mpr h.cursor.fbNext_nil)]
    rcases hput.seat.append with ⟨he, hz⟩ | ⟨n, τ, s', he, hmove⟩
    · right
      refine ⟨{ fillHandle fp o buf with fNospc := true },
        (σ.write fp.fCurblock (fillHandle fp o buf).fFblock).setBm σ.bm.exhausted, .ENOSPC, ?_,
        Or.inl rfl, rfl, hz, ?_⟩
      · erw [he]
        rfl
      · have := List.length_pos_of_ne_nil hb
        rw [List.length_drop] at this
        omega
    · left
      have hall := hput.trans hmove
      rw [List.append_nil] at hall
      refine ⟨_, τ, s', _, [], 0, ?_, hall, Or.inr ⟨hb, rfl⟩⟩
      erw [he]

/-- An append leaves less than a block of the buffer, at the start of a block, or
nothing, at the end of one. -/
theorem writeBlocks_outcome (fuel : Nat) : ∀ (fp : CoFile) (buf : List UInt8) (nw : Nat) (σ : Vol)
    (s : Shape) (pre post : List BlockId), Seat σ s a fp pre post → buf.length ≤ fuel → buf ≠ [] →
    (∃ (fp' : CoFile) (l r : List UInt8) (τ : Vol) (s' : Shape) (pre' post' : List BlockId)
        (o' : Nat), (writeBlocks fuel ⟨fp, buf, .ok nw⟩).eval σ =
          (⟨fp', r, .ok (nw + l.length)⟩, τ) ∧
        Filled σ s a fp pre post 0 l τ s' fp' pre' post' o' ∧ l ++ r = buf ∧ r.length < 4080 ∧
        (r = [] ∧ o' = 4080 ∨ r ≠ [] ∧ o' = 0)) ∨
    (∃ (fp' : CoFile) (τ : Vol) (e : Errno), (writeBlocks fuel ⟨fp, buf, .ok nw⟩).eval σ =
        (⟨fp', [], .error e⟩, τ) ∧ τ.glob.Full ∧
        Short σ fp.fInode ((buf.length - 1) / 4080 - post.length)) := by
  induction fuel with
  | zero =>
    intro fp buf nw σ s pre post _ hf hb
    exact absurd (List.length_eq_zero_iff.mp (by omega)) hb
  | succ fuel ih =>
    intro fp buf nw σ s pre post h hf hb
    unfold writeBlocks
    simp only
    by_cases hge : buf.length ≥ crfsFblockData
    · rw [if_pos hge, Prog.eval_bind]
      simp only [crfsFblockData] at hge
      rcases writeStep_outcome h (o := 0) (by omega) hge nw with
        ⟨fp₁, τ₁, s₁, pre₁, post₁, o₁, he, hfill, hend⟩ | ⟨fp₁, τ₁, e, he, hfull, hp, hz, hlt⟩
      · rw [he]
        have hlen : (buf.take 4080).length = 4080 := by
          rw [List.length_take]
          omega
        rw [Nat.sub_zero] at hfill hend ⊢
        rcases hend with ⟨hnil, ho⟩ | ⟨hmore, rfl⟩
        · left
          refine ⟨fp₁, buf.take 4080, [], τ₁, s₁, pre₁, post₁, o₁, ?_, hfill, ?_, by simp,
            Or.inl ⟨rfl, ho⟩⟩
          · rw [hnil, hlen]
            cases fuel with
            | zero => rfl
            | succ fuel => rfl
          · rw [← hnil, List.take_append_drop]
        · rcases ih fp₁ (buf.drop 4080) (nw + 4080) τ₁ s₁ pre₁ post₁ hfill.seat
              (by rw [List.length_drop]; omega) hmore with
            ⟨fp₂, l, r, τ₂, s₂, pre₂, post₂, o₂, he₂, hfill₂, hsplit, hr, hend₂⟩ |
              ⟨fp₂, τ₂, e, he₂, hfull, hshort⟩
          · left
            refine ⟨fp₂, buf.take 4080 ++ l, r, τ₂, s₂, pre₂, post₂, o₂, ?_, hfill.trans hfill₂, ?_,
              hr, hend₂⟩
            · rw [he₂, List.length_append, hlen, Nat.add_assoc]
            · rw [List.append_assoc, hsplit, List.take_append_drop]
          · right
            refine ⟨fp₂, τ₂, e, he₂, hfull, ?_⟩
            have hs := hshort
            rw [hfill.inode] at hs
            obtain ⟨k, hk, hkp, hsp⟩ := hfill.grown
            have hpos := hfill.pos
            rw [hlen] at hpos
            have hmorelen := List.length_pos_of_ne_nil hmore
            rw [List.length_drop] at hs hmorelen
            have hcount : (buf.length - 1) / 4080 - post.length =
                k + ((buf.length - 4080 - 1) / 4080 - post₁.length) := by
              rcases hkp with rfl | rfl
              · omega
              · simp only [List.length_nil] at hk ⊢
                omega
            rw [hcount]
            exact hsp.short hs
      · right
        rw [he]
        refine ⟨fp₁, τ₁, e, ?_, hfull, ?_⟩
        · cases fuel with
          | zero => rfl
          | succ fuel => rfl
        · have hpos : 0 < (buf.length - 1) / 4080 := Nat.div_pos (by omega) (by decide)
          rw [hp, List.length_nil, Nat.sub_zero]
          exact ⟨hpos, by omega, fun _ => hz⟩
    · rw [if_neg hge]
      simp only [crfsFblockData] at hge
      left
      have hnone := Filled.refl h 0
      exact ⟨fp, [], buf, σ, s, pre, post, 0, rfl, hnone, rfl, by omega, Or.inr ⟨hb, rfl⟩⟩

end

end Crfs
