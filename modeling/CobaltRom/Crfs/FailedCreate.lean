import CobaltRom.Crfs.Shortage
import CobaltRom.Crfs.Filled

/-! What a creation that fails leaves behind. -/
namespace Crfs
open WriteBack WriteBack.Prog

/-- The fields of a map the code keeps are the same. -/
structure Freemap.Same (m m' : Freemap) : Prop where
  cur : m'.fmCur = m.fmCur
  size : m'.fmMapsize = m.fmMapsize
  map : m'.fmMap = m.fmMap
  freed : m'.fmFreed = m.fmFreed

/-- Both maps, the table vector and the dirty blocks are as before. -/
structure Unchanged (σ τ : Vol) : Prop where
  bm : σ.bm.Same τ.bm
  im : σ.im.Same τ.im
  vtable : ∀ k, τ.glob.superBlock.sbVtable k = σ.glob.superBlock.sbVtable k
  dirty : ∀ b, τ.dirty b = σ.dirty b
  val : ∀ b, σ.dirty b = true → τ.val b = σ.val b

/-- The search cursor is at the end of the map. -/
def Freemap.Spent (m : Freemap) : Prop := m.fmCur = m.fmMapsize

variable {σ τ σ₁ : Vol} {s : Shape} {m : Freemap} {own : BlockId → Option Owner} {y : Inode}
  {d x : InodeId} {n nb b : BlockId} {p nm : Name} {k : Nat}

theorem Freemap.Same.refl (m : Freemap) : m.Same m := ⟨rfl, rfl, rfl, rfl⟩

theorem Freemap.Same.isset {m' : Freemap} (h : m.Same m') (k : Nat) : m'.isset k = m.isset k := by
  rw [Freemap.isset, h.map, Freemap.isset]

theorem Unchanged.refl (σ : Vol) : Unchanged σ σ :=
  ⟨.refl _, .refl _, fun _ => rfl, fun _ => rfl, fun _ _ => rfl⟩

theorem Freemap.Spent.blocked (h : m.Spent) (hok : m.Ok) (hk : k < m.limit) :
    m.blocked k = true := by
  refine hok.scanned k ?_
  rw [show m.fmCur = m.fmMapsize from h]
  exact hk

theorem same_exhausted : m.Same m.exhausted ↔ m.Spent :=
  ⟨fun h => h.cur.symm, fun h => ⟨h.symm, rfl, rfl, rfl⟩⟩

/-- A search leaves the map alone only if it starts at the end. -/
theorem same_next (hok : m.Ok) : m.Same (freemapNext m).2 ↔ m.Spent := by
  rcases Freemap.freemapNext_spec hok with ⟨n, -, ht⟩ | ⟨-, -, he⟩
  · constructor
    · intro h
      have hset := h.isset n
      rw [ht.isset_self] at hset
      have hfree := ht.free
      rw [Freemap.blocked_of_isset hset.symm] at hfree
      cases hfree
    · intro h
      have hfree := ht.free
      rw [h.blocked hok ht.lt] at hfree
      cases hfree
  · rw [he]
    exact same_exhausted

/-- A search makes nothing available. -/
theorem blocked_next (hok : m.Ok) {k : Nat} (h : m.blocked k = true) :
    (freemapNext m).2.blocked k = true := by
  rcases Freemap.freemapNext_spec hok with ⟨n, -, ht⟩ | ⟨-, -, he⟩
  · rw [ht.blocked, h, Bool.true_or]
  · rw [he]
    exact h

/-- The inode number the next creation gets; 65535 if there is none left. -/
def Vol.nextInum (σ : Vol) : InodeId := UInt16.ofInt (freemapNext σ.im).1

/-- The next block number; 65535 if there is none left. -/
def Vol.nextBnum (σ : Vol) : BlockId := UInt16.ofInt (freemapNext σ.bm).1

/-- The block of a directory is not the one a table goes to. -/
theorem WroteInode.dirty_dir (h : WroteInode σ y nb τ) (hL : Ledger σ.bm own)
    (hT : Tables σ.glob.superBlock.sbVtable own) (hb : own b = some (.dir d)) :
    τ.dirty b = σ.dirty b := by
  obtain ⟨-, -, hown⟩ := h.target hL hT
  rw [h.dirty, Function.update_of_ne]
  rintro rfl
  rw [hb] at hown
  rcases hown with hown | hown <;> cases hown

/-- The end of both creations: store the new inode, then enter the name. -/
def storeLink (y dirnode : Inode) (blk : Block) (slot : Nat) (nm : Name)
    (mem mem' : Bool := true) : FsM (Except Errno Unit) := do
  match ← crfsWriteInode y mem with
  | .error e => pure (.error e)
  | .ok () => linkDirent dirnode blk slot y.inInode nm mem'

/-- The inode has no table, and there is no memory to make one. -/
def NoMemory (σ : Vol) (i : InodeId) (mem : Bool) : Prop := mem = false ∧ σ.tableOf i = 0

/-- Storing the new inode and entering the name, with memory for a table, from a volume `σ₁` with
the owners of a well-formed one: it fails for want of a table block, with only the search to show
for it, or when the directory has given up its block. -/
theorem store_link_served (σ₁ : Vol) (own : BlockId → Option Owner) (hL : Ledger σ₁.bm own)
    (hT : Tables σ₁.glob.superBlock.sbVtable own)
    (dirnode : Inode) (hd : own dirnode.inFirst = some (.dir d)) (hdn : dirnode.inInode = d)
    (blk : Block) (slot : Nat) (nm : Name) (y : Inode) :
    ((∃ τ, (storeLink y dirnode blk slot nm).eval σ₁ = (.ok (), τ)) ∧
      ¬ (NeedsTable σ₁ y.inInode ∧ σ₁.bm.avail = 0) ∧
      ¬ (σ₁.dirty dirnode.inFirst = false ∧ d.toNat / 256 ≠ y.inInode.toNat / 256 ∧
        NeedsTable σ₁ d ∧ σ₁.bm.avail ≤ tableCost σ₁ y.inInode + 1)) ∨
    ((storeLink y dirnode blk slot nm).eval σ₁ = (.error .ENOSPC, σ₁.setBm σ₁.bm.exhausted) ∧
      NeedsTable σ₁ y.inInode ∧ σ₁.bm.avail = 0) ∨
    ((∃ τ : Vol, (storeLink y dirnode blk slot nm).eval σ₁ = (.error .ENOSPC, τ) ∧
        τ.bm.isset dirnode.inFirst.toNat = false) ∧
      ¬ (NeedsTable σ₁ y.inInode ∧ σ₁.bm.avail = 0) ∧
      (σ₁.dirty dirnode.inFirst = false ∧ d.toNat / 256 ≠ y.inInode.toNat / 256 ∧
        NeedsTable σ₁ d ∧ σ₁.bm.avail ≤ tableCost σ₁ y.inInode + 1)) := by
  rw [storeLink, Prog.eval_bind]
  rcases crfsWriteInode_outcome hL.ok hL.limit y with
    ⟨nb, υ, he, hw, hok, hlim, hav, hnot⟩ | ⟨he, hneeds, hz⟩
  · rw [he]
    have hstr : Stranded υ dirnode.inInode dirnode.inFirst ↔
        σ₁.dirty dirnode.inFirst = false ∧ d.toNat / 256 ≠ y.inInode.toNat / 256 ∧
          NeedsTable σ₁ d ∧ σ₁.bm.avail ≤ tableCost σ₁ y.inInode + 1 := by
      rw [Stranded, hdn, hw.needsTable hL hT, hw.dirty_dir hL hT hd]
      constructor
      · rintro ⟨h1, ⟨h2, h3⟩, h4⟩
        exact ⟨h1, h2, h3, by omega⟩
      · rintro ⟨h1, h2, h3, h4⟩
        exact ⟨h1, ⟨h2, h3⟩, by omega⟩
    rcases linkDirent_outcome hok (hlim.trans_le hL.limit) dirnode blk slot y.inInode nm with
      ⟨τ, hτ, -, -, -, hns⟩ | ⟨τ, hτ, hs, hset⟩
    · exact Or.inl ⟨⟨τ, hτ⟩, hnot, fun h => hns (hstr.mpr h)⟩
    · exact Or.inr (Or.inr ⟨⟨τ, hτ, hset⟩, hnot, hstr.mp hs⟩)
  · rw [he]
    exact Or.inr (Or.inl ⟨rfl, hneeds, hz⟩)

/-- Where the new inode has a table or gets one, memory makes no difference: the directory has its
table. -/
theorem storeLink_table (σ₁ : Vol) (own : BlockId → Option Owner) (hL : Ledger σ₁.bm own)
    (hT : Tables σ₁.glob.superBlock.sbVtable own) {dirnode : Inode}
    (hd0 : σ₁.tableOf dirnode.inInode ≠ 0) (blk : Block) (slot : Nat) (nm : Name) (y : Inode)
    {mem : Bool} (mem' : Bool) (hmem : ¬ NoMemory σ₁ y.inInode mem) :
    (storeLink y dirnode blk slot nm mem mem').eval σ₁ =
      (storeLink y dirnode blk slot nm).eval σ₁ := by
  have hwrite : (crfsWriteInode y mem).eval σ₁ = (crfsWriteInode y).eval σ₁ := by
    cases mem with
    | true => rfl
    | false => exact crfsWriteInode_table (fun h0 => hmem ⟨rfl, h0⟩) false
  unfold storeLink
  rw [Prog.eval_bind, Prog.eval_bind, hwrite]
  rcases crfsWriteInode_cases hL.ok hL.limit y with ⟨nb, υ, he, hw⟩ | ⟨he, -, -⟩
  · rw [he]
    have htab : υ.tableOf dirnode.inInode ≠ 0 := by
      change υ.glob.superBlock.sbVtable (dirnode.inInode.toNat / 256) ≠ 0
      rw [hw.vt]
      split
      · exact (hw.target hL hT).1
      · exact hd0
    exact linkDirent_table htab _ _ _ _ _
  · rw [he]

/-- Without memory for the table the call fails, and a block has been taken for it. -/
theorem store_link_nomem (σ₁ : Vol) (hok : σ₁.bm.Ok) (hlim : σ₁.bm.limit ≤ 65536)
    (dirnode : Inode) (blk : Block) (slot : Nat) (nm : Name) (y : Inode) {mem : Bool} (mem' : Bool)
    (hmem : NoMemory σ₁ y.inInode mem) :
    (∃ (n : BlockId) (m' : Freemap) (τ : Vol), σ₁.bm.Took n.toNat m' ∧
      (storeLink y dirnode blk slot nm mem mem').eval σ₁ = (.error .ENOMEM, τ) ∧ τ.bm = m' ∧
      σ₁.bm.avail ≠ 0) ∨
    ((storeLink y dirnode blk slot nm mem mem').eval σ₁ =
        (.error .ENOSPC, σ₁.setBm σ₁.bm.exhausted) ∧
      NeedsTable σ₁ y.inInode ∧ σ₁.bm.avail = 0) := by
  obtain ⟨rfl, h0⟩ := hmem
  unfold storeLink
  rw [Prog.eval_bind]
  rcases crfsWriteInode_nomem hok hlim y h0 with ⟨n, m', τ, ht, he, hbm⟩ | ⟨he, hz⟩
  · rw [he]
    have hav := ht.avail
    exact Or.inl ⟨n, m', τ, ht, rfl, hbm, by omega⟩
  · rw [he]
    exact Or.inr ⟨rfl, Or.inl h0, hz⟩

/-- The outcomes together: the block of a table taken in vain shows in the map. -/
theorem store_link_outcome (σ₁ : Vol) (own : BlockId → Option Owner) (hL : Ledger σ₁.bm own)
    (hT : Tables σ₁.glob.superBlock.sbVtable own) (dirnode : Inode)
    (hd : own dirnode.inFirst = some (.dir d)) (hdn : dirnode.inInode = d)
    (hd0 : σ₁.tableOf d ≠ 0) (blk : Block) (slot : Nat) (nm : Name) (y : Inode)
    (mem mem' : Bool) :
    ((∃ τ, (storeLink y dirnode blk slot nm mem mem').eval σ₁ = (.ok (), τ)) ∧
      ¬ (NeedsTable σ₁ y.inInode ∧ σ₁.bm.avail = 0) ∧
      ¬ (σ₁.dirty dirnode.inFirst = false ∧ d.toNat / 256 ≠ y.inInode.toNat / 256 ∧
        NeedsTable σ₁ d ∧ σ₁.bm.avail ≤ tableCost σ₁ y.inInode + 1) ∧
      ¬ NoMemory σ₁ y.inInode mem) ∨
    ((storeLink y dirnode blk slot nm mem mem').eval σ₁ =
        (.error .ENOSPC, σ₁.setBm σ₁.bm.exhausted) ∧
      NeedsTable σ₁ y.inInode ∧ σ₁.bm.avail = 0) ∨
    ((∃ (e : Errno) (τ : Vol), (storeLink y dirnode blk slot nm mem mem').eval σ₁ = (.error e, τ) ∧
        (τ.bm.isset dirnode.inFirst.toNat = false ∨
          ∃ n, σ₁.bm.blocked n = false ∧ τ.bm.isset n = true)) ∧
      ¬ (NeedsTable σ₁ y.inInode ∧ σ₁.bm.avail = 0) ∧
      ((σ₁.dirty dirnode.inFirst = false ∧ d.toNat / 256 ≠ y.inInode.toNat / 256 ∧
        NeedsTable σ₁ d ∧ σ₁.bm.avail ≤ tableCost σ₁ y.inInode + 1) ∨
        NoMemory σ₁ y.inInode mem)) := by
  by_cases hmem : NoMemory σ₁ y.inInode mem
  · rcases store_link_nomem σ₁ hL.ok hL.limit dirnode blk slot nm y mem' hmem with
      ⟨n, m', τ, ht, he, hbm, hav⟩ | h
    · refine Or.inr (Or.inr ⟨⟨_, τ, he, Or.inr ⟨n.toNat, ht.free, ?_⟩⟩, fun h => hav h.2,
        Or.inr hmem⟩)
      rw [hbm]
      exact ht.isset_self
    · exact Or.inr (Or.inl h)
  · rw [storeLink_table σ₁ own hL hT (hdn ▸ hd0) blk slot nm y mem' hmem]
    rcases store_link_served σ₁ own hL hT dirnode hd hdn blk slot nm y with
      ⟨h, hA, hB⟩ | h | ⟨⟨τ, hτ, hset⟩, hA, hB⟩
    · exact Or.inl ⟨h, hA, hB, hmem⟩
    · exact Or.inr (Or.inl h)
    · exact Or.inr (Or.inr ⟨⟨_, τ, hτ, Or.inl hset⟩, hA, Or.inl hB⟩)

/-! ### The calls -/

/-- When `crfs_create` changes nothing unless it succeeds: it stops while looking, it
has the blocks and the memory it needs, or both searches were at their end before. -/
def CreateClean (σ : Vol) (p : Name) (mem : Bool) : Prop :=
  match σ.createAt p with
  | .error _ => True
  | .ok (d, _, _) =>
    let x := σ.nextInum
    let noTable := NeedsTable σ x ∧ σ.bm.avail = 0
    let noMove := σ.dirty (σ.img.ino d).inFirst = false ∧ d.toNat / 256 ≠ x.toNat / 256 ∧
      NeedsTable σ d ∧ σ.bm.avail ≤ tableCost σ x + 1
    ¬ noTable ∧ ¬ noMove ∧ ¬ NoMemory σ x mem ∨ noTable ∧ σ.im.Spent ∧ σ.bm.Spent

/-- The volume once the block of a new directory in `d` is written. -/
def Vol.withDirectory (σ : Vol) (d : InodeId) : Vol :=
  σ.write σ.nextBnum (newDirectory σ.nextInum d)

/-- The same for `crfs_mkdir`, which takes and writes the new block first. -/
def MkdirClean (σ : Vol) (p : Name) (mem : Bool) : Prop :=
  match σ.mkdirAt p with
  | .error _ => True
  | .ok (d, _, _) =>
    let x := σ.nextInum
    let υ := σ.withDirectory d
    let noTable := NeedsTable υ x ∧ σ.bm.avail ≤ 1
    let noMove := υ.dirty (σ.img.ino d).inFirst = false ∧ d.toNat / 256 ≠ x.toNat / 256 ∧
      NeedsTable υ d ∧ σ.bm.avail - 1 ≤ tableCost υ x + 1
    ¬ noTable ∧ ¬ noMove ∧ ¬ NoMemory υ x mem ∨
      noTable ∧ σ.im.Spent ∧ σ.bm.Spent ∧ σ.dirty σ.nextBnum = true ∧
        σ.val σ.nextBnum = newDirectory x d

theorem Inv.dir_isset (h : Inv σ s) (hd : s.live d) (hdir : σ.img.isDir d = true) :
    σ.bm.isset (σ.img.ino d).inFirst.toNat = true := by
  rw [h.blocks.exact, h.owned.dirBlock hd hdir]
  exact Or.inl (by simp)

theorem createInum_eq (nm : Name) (dirnode : Inode) (blk : Block) (k : Nat) (i : Int)
    (mem mem' : Bool) : createInum nm dirnode blk k i mem mem' =
      storeLink (fileInode (UInt16.ofInt i)) dirnode blk k nm mem mem' := rfl

/-- A block that was given up or newly taken shows in the map. -/
theorem not_same_of_shown {m' : Freemap} {k : Nat} (hset : m.isset k = true)
    (h : m'.isset k = false ∨ ∃ n, m.blocked n = false ∧ m'.isset n = true) : ¬ m.Same m' := by
  intro hsame
  rcases h with h | ⟨n, hfree, hn⟩
  · rw [hsame.isset, hset] at h
    cases h
  · rw [hsame.isset] at hn
    rw [Freemap.blocked_of_isset hn] at hfree
    cases hfree

/-- A failed `crfs_create` leaves no trace exactly on these volumes. -/
theorem crfsCreate_clean_iff (h : Inv σ s) (hz : (0 : UInt8) ∉ p) (mem mem' : Bool) :
    (∀ e τ, (crfsCreate p mem mem').eval σ = (.error e, τ) → Unchanged σ τ) ↔
      CreateClean σ p mem := by
  rw [crfsCreate_eval, CreateClean]
  cases hat : σ.createAt p with
  | error e =>
    refine ⟨fun _ => trivial, ?_⟩
    rintro - e' τ he
    cases he
    exact .refl _
  | ok r =>
    obtain ⟨d, nm, k⟩ := r
    obtain ⟨hroom, -⟩ := createAt_room h hz hat
    have hset := h.dir_isset hroom.live hroom.isDir
    have hnext : nextInode.eval σ = ((freemapNext σ.im).1, σ.setIm (freemapNext σ.im).2) := rfl
    simp only
    rw [hnext, createInum_eq]
    have hout := store_link_outcome (σ.setIm (freemapNext σ.im).2) s.own h.blocks
      h.owned.ownTable (σ.img.ino d) (h.owned.dirBlock hroom.live hroom.isDir)
      (h.tree.inum d hroom.live).2 (h.owned.table d hroom.live)
      (σ.val (σ.img.ino d).inFirst) k nm (fileInode σ.nextInum) mem mem'
    rcases hout with ⟨⟨τ, hτ⟩, hA, hB, hC⟩ | ⟨hτ, hA⟩ | ⟨⟨e, τ, hτ, hτs⟩, hA, hB⟩
    · refine ⟨fun _ => Or.inl ⟨hA, hB, hC⟩, ?_⟩
      intro _ e τ' he
      have he' := hτ.symm.trans he
      cases he'
    · constructor
      · intro hun
        have hu := hun _ _ hτ
        exact Or.inr ⟨hA, (same_next h.inums.ok).mp hu.im, same_exhausted.mp hu.bm⟩
      · rintro (⟨hnA, -⟩ | ⟨-, hsi, hsb⟩)
        · exact absurd hA hnA
        · intro e τ' he
          have he' := hτ.symm.trans he
          cases he'
          exact ⟨same_exhausted.mpr hsb, (same_next h.inums.ok).mpr hsi, fun _ => rfl,
            fun _ => rfl, fun _ _ => rfl⟩
    · constructor
      · intro hun
        exact absurd (hun _ _ hτ).bm (not_same_of_shown hset hτs)
      · rintro (⟨-, hnB, hnC⟩ | ⟨hA', -⟩)
        · exact absurd hB (not_or.mpr ⟨hnB, hnC⟩)
        · exact absurd hA' hA

/-- The owners after `crfs_mkdir` has asked for its block, whether it got one or not. -/
theorem Inv.nextBlock_ledger (h : Inv σ s) : ∃ own : BlockId → Option Owner,
    Ledger (freemapNext σ.bm).2 own ∧ Tables σ.glob.superBlock.sbVtable own ∧
      (∀ b i, s.own b = some (.dir i) → own b = some (.dir i)) ∧
      (freemapNext σ.bm).2.avail = σ.bm.avail - 1 ∧
      (σ.bm.Same (freemapNext σ.bm).2.exhausted ↔ σ.bm.Spent) := by
  rcases nextBlock_cases h.blocks.ok h.blocks.limit with ⟨n, m', ht, he⟩ | ⟨he, hb⟩
  · have hm : (freemapNext σ.bm).2 = m' := congrArg (fun r => r.2.glob.blockFreemap) he
    obtain ⟨hown, h0, h16⟩ := h.blocks.fresh ht
    rw [hm]
    refine ⟨_, (h.holdBlock ht).blocks, (h.holdBlock ht).owned.ownTable, ?_, ?_, ?_⟩
    · intro b i hb
      have hne : b ≠ n := by
        rintro rfl
        rw [hown] at hb
        cases hb
      simpa [Shape.give, Function.update_of_ne hne] using hb
    · have := ht.avail
      omega
    · constructor
      · intro hs
        have hset := hs.isset n.toNat
        rw [show m'.exhausted.isset n.toNat = m'.isset n.toNat from rfl, ht.isset_self] at hset
        have hfree := ht.free
        rw [Freemap.blocked_of_isset hset.symm] at hfree
        cases hfree
      · intro hs
        have hfree := ht.free
        rw [hs.blocked h.blocks.ok ht.lt] at hfree
        cases hfree
  · have hm : (freemapNext σ.bm).2 = σ.bm.exhausted :=
      congrArg (fun r => r.2.glob.blockFreemap) he
    rw [hm]
    refine ⟨s.own, h.blocks.exhausted hb, h.owned.ownTable, fun _ _ hb => hb, ?_, same_exhausted⟩
    have := Freemap.avail_eq_zero.mpr hb
    rw [Freemap.avail_exhausted]
    omega

/-- `crfs_mkdir` once both numbers are there: the block is written first. -/
theorem mkdirInum_eval (nm : Name) (dirnode : Inode) (blk : Block) (k : Nat) (i j : Int)
    (mem mem' : Bool) (σ : Vol) : (mkdirInum nm dirnode blk k i j mem mem').eval σ =
      (storeLink (dirInode (UInt16.ofInt i) (UInt16.ofInt j)) dirnode blk k nm mem mem').eval
        (σ.write (UInt16.ofInt j) (newDirectory (UInt16.ofInt i) dirnode.inInode)) := rfl

/-- A failed `crfs_mkdir` leaves no trace exactly on these volumes. -/
theorem crfsMkdir_clean_iff (h : Inv σ s) (hz : (0 : UInt8) ∉ p) (mem mem' : Bool) :
    (∀ e τ, (crfsMkdir p mem mem').eval σ = (.error e, τ) → Unchanged σ τ) ↔
      MkdirClean σ p mem := by
  rw [crfsMkdir_eval, MkdirClean]
  cases hat : σ.mkdirAt p with
  | error e =>
    refine ⟨fun _ => trivial, ?_⟩
    rintro - e' τ he
    cases he
    exact .refl _
  | ok r =>
    obtain ⟨d, nm, k⟩ := r
    have hroom := mkdirAt_room h hz hat
    have hset := h.dir_isset hroom.live hroom.isDir
    have hdn := (h.tree.inum d hroom.live).2
    obtain ⟨own, hL, hT, hown, hav, hsame⟩ := h.nextBlock_ledger
    simp only
    rw [mkdirInum_eval, hdn]
    -- the volume on which the inode is stored
    generalize hσ₁ : Vol.write (nextBlock.eval (nextInode.eval σ).2).2
      (UInt16.ofInt (nextBlock.eval (nextInode.eval σ).2).1)
      (newDirectory (UInt16.ofInt (nextInode.eval σ).1) d) = σ₁
    have hσ₁' : σ₁ = ((σ.setIm (freemapNext σ.im).2).setBm (freemapNext σ.bm).2).write σ.nextBnum
        (newDirectory σ.nextInum d) := hσ₁.symm
    have hout := store_link_outcome σ₁ own (by rw [hσ₁']; exact hL)
      (by rw [hσ₁']; exact hT) (σ.img.ino d) (hown _ _ (h.owned.dirBlock hroom.live hroom.isDir))
      hdn (by rw [hσ₁']; exact h.owned.table d hroom.live) (σ.val (σ.img.ino d).inFirst) k nm
      (dirInode σ.nextInum σ.nextBnum) mem mem'
    have hbm : σ₁.bm = (freemapNext σ.bm).2 := by rw [hσ₁']; rfl
    have havail : σ₁.bm.avail = σ.bm.avail - 1 := by rw [hbm, hav]
    have hdirty : σ₁.dirty = (σ.withDirectory d).dirty := by rw [hσ₁']; rfl
    have hneeds : ∀ i, NeedsTable σ₁ i ↔ NeedsTable (σ.withDirectory d) i := by
      intro i
      rw [hσ₁']
      exact Iff.rfl
    have hcost : ∀ i, tableCost σ₁ i = tableCost (σ.withDirectory d) i := by
      intro i
      simp only [tableCost, hneeds]
    have hmem : NoMemory σ₁ (dirInode σ.nextInum σ.nextBnum).inInode mem ↔
        NoMemory (σ.withDirectory d) σ.nextInum mem := by
      rw [hσ₁']
      exact Iff.rfl
    rw [havail, hdirty, hcost, hneeds, hneeds, hmem] at hout
    have hone : σ.bm.avail - 1 = 0 ↔ σ.bm.avail ≤ 1 := by omega
    rw [hone] at hout
    rcases hout with ⟨⟨τ, hτ⟩, hA, hB, hC⟩ | ⟨hτ, hA⟩ | ⟨⟨e, τ, hτ, hτs⟩, hA, hB⟩
    · refine ⟨fun _ => Or.inl ⟨hA, hB, hC⟩, ?_⟩
      intro _ e τ' he
      have he' := hτ.symm.trans he
      cases he'
    · have hτ' : σ₁.setBm σ₁.bm.exhausted =
          (((σ.setIm (freemapNext σ.im).2).setBm (freemapNext σ.bm).2).write σ.nextBnum
            (newDirectory σ.nextInum d)).setBm (freemapNext σ.bm).2.exhausted := by
        rw [hσ₁']
        rfl
      constructor
      · intro hun
        have hu := hun _ _ hτ
        rw [hτ'] at hu
        have hd := hu.dirty σ.nextBnum
        change Function.update σ.dirty σ.nextBnum true σ.nextBnum = _ at hd
        rw [Function.update_self] at hd
        have hv := hu.val σ.nextBnum hd.symm
        change Function.update σ.val σ.nextBnum (newDirectory σ.nextInum d) σ.nextBnum = _ at hv
        rw [Function.update_self] at hv
        exact Or.inr ⟨hA, (same_next h.inums.ok).mp hu.im, hsame.mp hu.bm, hd.symm, hv.symm⟩
      · rintro (⟨hnA, -⟩ | ⟨-, hsi, hsb, hd, hv⟩)
        · exact absurd hA hnA
        · intro e τ' he
          have he' := hτ.symm.trans he
          cases he'
          rw [hτ']
          refine ⟨hsame.mpr hsb, (same_next h.inums.ok).mpr hsi, fun _ => rfl, ?_, ?_⟩
          · intro b
            change Function.update σ.dirty σ.nextBnum true b = _
            by_cases hb : b = σ.nextBnum
            · rw [hb, Function.update_self, hd]
            · rw [Function.update_of_ne hb]
          · intro b _
            change Function.update σ.val σ.nextBnum (newDirectory σ.nextInum d) b = _
            by_cases hb : b = σ.nextBnum
            · rw [hb, Function.update_self, hv]
            · rw [Function.update_of_ne hb]
    · constructor
      · intro hun
        refine absurd (hun _ _ hτ).bm (not_same_of_shown hset (hτs.imp_right ?_))
        rintro ⟨n, hfree, hn⟩
        refine ⟨n, ?_, hn⟩
        rw [hbm] at hfree
        by_contra hblocked
        rw [blocked_next h.blocks.ok (by simpa using hblocked)] at hfree
        cases hfree
      · rintro (⟨-, hnB, hnC⟩ | ⟨hA', -⟩)
        · exact absurd hB (not_or.mpr ⟨hnB, hnC⟩)
        · exact absurd hA' hA

/-- What a routine run on the machine leaves after an error is what it leaves on the volume. -/
theorem exec_unchanged_iff (q : FsM (Except Errno Unit)) (c : Machine) :
    (∀ e (c' : Machine), q.exec c = (.error e, c') → Unchanged c.vol c'.vol) ↔
      ∀ e τ, q.eval c.vol = (.error e, τ) → Unchanged c.vol τ := by
  obtain ⟨hres, hvol⟩ := exec_vol q c
  constructor
  · intro hs e τ he
    rw [he] at hres hvol
    have hun := hs e (q.exec c).2 (Prod.ext hres rfl)
    rwa [show Machine.vol (q.exec c).2 = τ from hvol] at hun
  · intro hs e c' he
    rw [he] at hres hvol
    exact hs e _ (Prod.ext hres.symm hvol.symm)

/-- Both calls, whatever memory they get: a call that fails leaves no trace exactly on these
volumes. -/
theorem failed_creation_iff (c : Machine) (h : Inv c.vol s) (p : Path) (mem mem' : Bool) :
    ((∀ e (c' : Machine), (crfsCreate p.name mem mem').exec c = (.error e, c') →
        Unchanged c.vol c'.vol) ↔
      CreateClean c.vol p.name mem) ∧
    ((∀ e (c' : Machine), (crfsMkdir p.name mem mem').exec c = (.error e, c') →
        Unchanged c.vol c'.vol) ↔
      MkdirClean c.vol p.name mem) := by
  rw [exec_unchanged_iff, exec_unchanged_iff]
  exact ⟨crfsCreate_clean_iff h p.nul mem mem', crfsMkdir_clean_iff h p.nul mem mem'⟩

/-- A file that exists already: the call fails and changes nothing. -/
theorem failed_creation_exists : ∃ c c' : Machine,
    crfsInit (boot (filledDisk fullChain)) = some (true, c) ∧
      (crfsCreate pathA.name false false).exec c = (.error .EEXIST, c') ∧
      Unchanged c.vol c'.vol := by
  obtain ⟨c, hc, hv, hm, -, -⟩ := filled_mounted spread_fullChain
  obtain ⟨hres, -⟩ := exec_vol (crfsCreate pathA.name false false) c
  have heval : ((crfsCreate pathA.name false false).eval c.vol).1 = .error .EEXIST := by
    rw [hv]
    decide +kernel
  have hexec : (crfsCreate pathA.name false false).exec c =
      (.error .EEXIST, ((crfsCreate pathA.name false false).exec c).2) :=
    Prod.ext (hres.trans heval) rfl
  have hclean : CreateClean c.vol pathA.name false := by
    have hat : c.vol.createAt pathA.name = .error .EEXIST := by
      rw [hv]
      decide +kernel
    rw [CreateClean, hat]
    trivial
  exact ⟨c, _, hc, hexec, (failed_creation_iff c hm.inv pathA false false).1.mpr hclean _ _ hexec⟩

/-- A path of one character. -/
def pathC : Path := ⟨[99], by decide⟩

/-- On the full device creating a file fails and uses up an inode number. -/
theorem failed_creation_takes_inum : ∃ (c : Machine) (t' : Session),
    crfsInit (boot (filledDisk fullChain)) = some (true, c) ∧
    Mounted c.vol (filledShape fullChain) ∧
      Session.step ⟨c, fun _ => none⟩ (.create pathC) = some (.error .ENOSPC, t') ∧
      ¬ Unchanged c.vol t'.vol := by
  obtain ⟨c, hc, hv, hm, -, -⟩ := filled_mounted spread_fullChain
  obtain ⟨t', ht, hv', -, -⟩ := Session.step_create ⟨c, fun _ => none⟩ pathC
  rw [show Session.vol ⟨c, fun _ => none⟩ = c.vol from rfl] at ht hv'
  have hres : ((crfsCreate pathC.name).eval c.vol).1 = .error .ENOSPC := by
    rw [hv]
    decide +kernel
  rw [hres] at ht
  refine ⟨c, t', hc, hm, ht, fun hu => ?_⟩
  have hset := hu.im.isset 4
  have hafter : t'.vol.im.isset 4 = true := by
    rw [hv', hv]
    decide +kernel
  have hbefore : c.vol.im.isset 4 = false := by
    rw [hv]
    decide +kernel
  rw [hafter, hbefore] at hset
  cases hset

end Crfs
