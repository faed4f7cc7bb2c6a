import CobaltRom.Crfs.Create

/-! How many free blocks a creation needs, and where it stops without them. -/
namespace Crfs
open WriteBack WriteBack.Prog

namespace Freemap

variable {m m' : Freemap} {n : Nat}

/-- The number of items `freemap_next` can still hand out. -/
def avail (m : Freemap) : Nat := ((Finset.range m.limit).filter fun k => m.blocked k = false).card

theorem avail_congr (hl : m'.limit = m.limit) (hb : ∀ k, m'.blocked k = m.blocked k) :
    m'.avail = m.avail := by
  simp only [avail, hl, hb]

theorem avail_eq_zero : m.avail = 0 ↔ ∀ k, k < m.limit → m.blocked k = true := by
  rw [avail, Finset.card_eq_zero, Finset.filter_eq_empty_iff]
  constructor
  · intro h k hk
    exact Bool.of_not_eq_false (h (Finset.mem_range.mpr hk))
  · intro h k hk
    rw [h k (Finset.mem_range.mp hk)]
    simp

theorem Took.avail (ht : m.Took n m') : m'.avail + 1 = m.avail := by
  have he : (Finset.range m'.limit).filter (fun k => m'.blocked k = false) =
      ((Finset.range m.limit).filter fun k => m.blocked k = false).erase n := by
    ext k
    rw [Finset.mem_erase, Finset.mem_filter, Finset.mem_filter, ht.limit_eq, ht.blocked]
    by_cases hk : k = n
    · simp [hk]
    · simp [hk]
  have hn : n ∈ (Finset.range m.limit).filter fun k => m.blocked k = false :=
    Finset.mem_filter.mpr ⟨Finset.mem_range.mpr ht.lt, ht.free⟩
  rw [Freemap.avail, he, Finset.card_erase_add_one hn, Freemap.avail]

@[simp] theorem avail_exhausted (m : Freemap) : m.exhausted.avail = m.avail := rfl

theorem avail_unmark (h : m.Ok) (n : Nat) : (freemapUnmark m n).avail = m.avail :=
  avail_congr rfl (blocked_unmark h n)

end Freemap

/-- The table of an inode is missing or not in a new block yet: storing the inode
takes a block. -/
def NeedsTable (σ : Vol) (i : InodeId) : Prop :=
  σ.tableOf i = 0 ∨ σ.dirty (σ.tableOf i) = false

instance (σ : Vol) (i : InodeId) : Decidable (NeedsTable σ i) :=
  inferInstanceAs (Decidable (_ ∨ _))

/-- The blocks it takes. -/
def tableCost (σ : Vol) (i : InodeId) : Nat := if NeedsTable σ i then 1 else 0

variable {σ τ : Vol} {s : Shape} {y : Inode} {d x : InodeId} {n nb : BlockId}
  {own : BlockId → Option Owner}

theorem crfsWriteInode_kept (h : ¬ NeedsTable σ y.inInode) :
    ∃ τ : Vol, (crfsWriteInode y).eval σ = (.ok (), τ) ∧ τ.bm = σ.bm := by
  have h0 : ¬ σ.glob.itableBlocknum y.inInode = 0 := fun h0 => h (Or.inl h0)
  have hd : σ.dirty (σ.glob.itableBlocknum y.inInode) = true :=
    Bool.of_not_eq_false fun hd => h (Or.inr hd)
  refine ⟨σ.write (σ.tableOf y.inInode)
    ((σ.val (σ.tableOf y.inInode)).setItInode (inodeIdx y.inInode) y), ?_, rfl⟩
  simp only [crfsWriteInode, Prog.eval_bind, Prog.eval_getGlob, h0, if_false,
    crfsReadBlock, blockIsDirty, Prog.eval_readAt, Prog.eval_dirtyAt, hd, if_true,
    crfsWriteBlock, Prog.eval_writeAt, Prog.eval_pure]
  rfl

/-- Storing an inode fails exactly if it takes a block and none is free. -/
theorem crfsWriteInode_outcome (hok : σ.bm.Ok) (hlim : σ.bm.limit ≤ 65536) (y : Inode) :
    (∃ (nb : BlockId) (τ : Vol), (crfsWriteInode y).eval σ = (.ok (), τ) ∧ WroteInode σ y nb τ ∧
      τ.bm.Ok ∧ τ.bm.limit = σ.bm.limit ∧ τ.bm.avail + tableCost σ y.inInode = σ.bm.avail ∧
      ¬ (NeedsTable σ y.inInode ∧ σ.bm.avail = 0)) ∨
    ((crfsWriteInode y).eval σ = (.error .ENOSPC, σ.setBm σ.bm.exhausted) ∧
      NeedsTable σ y.inInode ∧ σ.bm.avail = 0) := by
  rcases crfsWriteInode_cases hok hlim y with ⟨nb, τ, he, hw⟩ | ⟨he, hb, htab⟩
  · left
    refine ⟨nb, τ, he, hw, ?_⟩
    by_cases hn : NeedsTable σ y.inInode
    · rcases hw.bm with ⟨hnb, h0, hd, -⟩ | ⟨m', ht, hbm⟩
      · exfalso
        rcases hn with hn | hn
        · exact h0 (hnb.trans hn)
        · rw [← hnb, hd] at hn
          cases hn
      · have hfree := ht.avail
        rw [tableCost, if_pos hn]
        have hcases : τ.bm.Ok ∧ τ.bm.limit = m'.limit ∧ τ.bm.avail = m'.avail := by
          rw [hbm]
          split
          · exact ⟨ht.ok, rfl, rfl⟩
          · exact ⟨Freemap.ok_unmark ht.ok _, rfl, Freemap.avail_unmark ht.ok _⟩
        exact ⟨hcases.1, hcases.2.1.trans ht.limit_eq, by omega, by omega⟩
    · obtain ⟨τ', he', hbm⟩ := crfsWriteInode_kept hn
      have hτ : τ = τ' := (Prod.mk.inj (he.symm.trans he')).2
      rw [hτ, hbm, tableCost, if_neg hn]
      exact ⟨hok, rfl, rfl, fun h => hn h.1⟩
  · exact Or.inr ⟨he, htab, Freemap.avail_eq_zero.mpr hb⟩

/-! Memory is asked for only where there is no table yet. -/

theorem crfsWriteInode_table (h0 : σ.tableOf y.inInode ≠ 0) (mem : Bool) :
    (crfsWriteInode y mem).eval σ = (crfsWriteInode y).eval σ := by
  have h0' : ¬ σ.glob.itableBlocknum y.inInode = 0 := h0
  simp only [crfsWriteInode, Prog.eval_bind, Prog.eval_getGlob, h0', if_false]

/-- Without memory the block has been taken and entered as a table when the call fails. -/
theorem crfsWriteInode_nomem (hok : σ.bm.Ok) (hlim : σ.bm.limit ≤ 65536) (y : Inode)
    (h0 : σ.tableOf y.inInode = 0) :
    (∃ (n : BlockId) (m' : Freemap) (τ : Vol), σ.bm.Took n.toNat m' ∧
      (crfsWriteInode y false).eval σ = (.error .ENOMEM, τ) ∧ τ.bm = m') ∨
    (crfsWriteInode y false).eval σ = (.error .ENOSPC, σ.setBm σ.bm.exhausted) ∧
      σ.bm.avail = 0 := by
  have h0' : σ.glob.itableBlocknum y.inInode = 0 := h0
  have hnat : ∀ n : BlockId, ¬ ((n.toNat : Int) < 0) := fun n => by omega
  rcases nextBlock_cases hok hlim with ⟨n, m', ht, he⟩ | ⟨he, hb⟩
  · refine Or.inl ⟨n, m', ?t, ht, ?e, ?b⟩
    case e =>
      simp only [crfsWriteInode, Prog.eval_bind, Prog.eval_getGlob, h0', if_true, he, hnat,
        if_false, setItableBlocknum, Prog.eval_setGlob, Prog.eval_pure]
      rfl
    case b => rfl
  · refine Or.inr ⟨?_, Freemap.avail_eq_zero.mpr hb⟩
    simp only [crfsWriteInode, Prog.eval_bind, Prog.eval_getGlob, h0', if_true, he]
    rfl

theorem moveDirent_table {dirnode : Inode} (h0 : σ.tableOf dirnode.inInode ≠ 0) (blk : Block)
    (slot : Nat) (x : InodeId) (nm : Name) (n : BlockId) (mem : Bool) :
    (moveDirent dirnode blk slot x nm n mem).eval σ =
      (moveDirent dirnode blk slot x nm n).eval σ := by
  have h0' : (σ.setBm (freemapUnmark σ.bm dirnode.inFirst.toNat)).tableOf dirnode.inInode ≠ 0 := h0
  have hw := crfsWriteInode_table (y := { dirnode with inFirst := n, inLast := n }) h0' mem
  unfold moveDirent
  rw [Prog.eval_bind, Prog.eval_bind, unmarkBlock_eval, Prog.eval_bind, Prog.eval_bind, hw]
  rfl

theorem linkDirent_table {dirnode : Inode} (h0 : σ.tableOf dirnode.inInode ≠ 0) (blk : Block)
    (slot : Nat) (x : InodeId) (nm : Name) (mem : Bool) :
    (linkDirent dirnode blk slot x nm mem).eval σ = (linkDirent dirnode blk slot x nm).eval σ := by
  unfold linkDirent
  rw [Prog.eval_bind, Prog.eval_bind, blockIsDirty_eval, Prog.eval_ite, Prog.eval_ite]
  by_cases hd : σ.dirty dirnode.inFirst = true
  · rw [if_pos hd, if_pos hd]
  · have h0' : Vol.tableOf (nextBlock.eval σ).2 dirnode.inInode ≠ 0 := h0
    rw [if_neg hd, if_neg hd, Prog.eval_bind, Prog.eval_bind]
    exact moveDirent_table h0' _ _ _ _ _ _

/-- After an inode was stored, a directory needs a block for its table only if it is
in another table. -/
theorem WroteInode.needsTable (h : WroteInode σ y nb τ) (hL : Ledger σ.bm own)
    (hT : Tables σ.glob.superBlock.sbVtable own) (d : InodeId) :
    NeedsTable τ d ↔ d.toNat / 256 ≠ y.inInode.toNat / 256 ∧ NeedsTable σ d := by
  obtain ⟨hnb, -, hown⟩ := h.target hL hT
  have htab : τ.tableOf d = if d.toNat / 256 = y.inInode.toNat / 256 then nb else σ.tableOf d :=
    h.vt _
  by_cases hk : d.toNat / 256 = y.inInode.toNat / 256
  · rw [if_pos hk] at htab
    constructor
    · rintro (h0 | hd)
      · exact absurd (htab.symm.trans h0) hnb
      · rw [htab, h.dirty, Function.update_self] at hd
        cases hd
    · exact fun hn => absurd hk hn.1
  · rw [if_neg hk] at htab
    rw [NeedsTable, htab]
    by_cases h0 : σ.tableOf d = 0
    · exact ⟨fun _ => ⟨hk, Or.inl h0⟩, fun _ => Or.inl h0⟩
    · have hne : σ.tableOf d ≠ nb := by
        intro he
        have hod := (hT (d.toNat / 256) (σ.tableOf d)).mpr ⟨inum_div_lt d, rfl, h0⟩
        rw [he] at hod
        rcases hown with hown | hown
        · rw [hown] at hod
          cases hod
        · rw [hown] at hod
          exact hk (Owner.itable.inj (Option.some.inj hod)).symm
      rw [h.dirty, Function.update_of_ne hne]
      exact ⟨fun hn => ⟨hk, hn⟩, fun hn => hn.2⟩

/-- A directory that has to move with no block left for it and for its table. -/
def Stranded (σ : Vol) (d : InodeId) (dirblock : BlockId) : Prop :=
  σ.dirty dirblock = false ∧ NeedsTable σ d ∧ σ.bm.avail ≤ 1

theorem moveDirent_outcome (hok : σ.bm.Ok) (hlim : σ.bm.limit ≤ 65536) (dirnode : Inode)
    (blk : Block) (slot : Nat) (x : InodeId) (nm : Name) (n : BlockId) :
    (∃ τ : Vol, (moveDirent dirnode blk slot x nm n).eval σ = (.ok (), τ) ∧ τ.bm.Ok ∧
      τ.bm.limit = σ.bm.limit ∧ σ.bm.avail ≤ τ.bm.avail + 1 ∧
      ¬ (NeedsTable σ dirnode.inInode ∧ σ.bm.avail = 0)) ∨
    (∃ τ : Vol, (moveDirent dirnode blk slot x nm n).eval σ = (.error .ENOSPC, τ) ∧
      NeedsTable σ dirnode.inInode ∧ σ.bm.avail = 0 ∧
      τ.bm.isset dirnode.inFirst.toNat = false) := by
  have hav := Freemap.avail_unmark hok dirnode.inFirst.toNat
  have hcost : tableCost (σ.setBm (freemapUnmark σ.bm dirnode.inFirst.toNat)) dirnode.inInode =
      tableCost σ dirnode.inInode := rfl
  have hone : tableCost σ dirnode.inInode ≤ 1 := by
    unfold tableCost
    split <;> omega
  unfold moveDirent
  rw [Prog.eval_bind, unmarkBlock_eval, Prog.eval_bind]
  rcases crfsWriteInode_outcome (σ := σ.setBm (freemapUnmark σ.bm dirnode.inFirst.toNat))
      (Freemap.ok_unmark hok _) hlim { dirnode with inFirst := n, inLast := n } with
    ⟨nb, τ, he, -, hτ, hτl, hτa, hnot⟩ | ⟨he, hneeds, hzero⟩
  · left
    rw [he]
    refine ⟨_, rfl, hτ, hτl, ?_, ?_⟩
    · change τ.bm.avail + tableCost (σ.setBm (freemapUnmark σ.bm dirnode.inFirst.toNat))
        dirnode.inInode = (freemapUnmark σ.bm dirnode.inFirst.toNat).avail at hτa
      rw [hcost, hav] at hτa
      change σ.bm.avail ≤ τ.bm.avail + 1
      omega
    · rintro ⟨h1, h2⟩
      exact hnot ⟨h1, hav.trans h2⟩
  · right
    rw [he]
    refine ⟨_, rfl, hneeds, hav.symm.trans hzero, ?_⟩
    change (freemapUnmark σ.bm dirnode.inFirst.toNat).isset dirnode.inFirst.toNat = false
    rw [Freemap.isset_unmark]
    simp

/-- Entering the name fails exactly if the directory is stranded; its block has been
given up by then. -/
theorem linkDirent_outcome (hok : σ.bm.Ok) (hlim : σ.bm.limit ≤ 65536) (dirnode : Inode)
    (blk : Block) (slot : Nat) (x : InodeId) (nm : Name) :
    (∃ τ : Vol, (linkDirent dirnode blk slot x nm).eval σ = (.ok (), τ) ∧ τ.bm.Ok ∧
      τ.bm.limit = σ.bm.limit ∧ σ.bm.avail ≤ τ.bm.avail + 2 ∧
      ¬ Stranded σ dirnode.inInode dirnode.inFirst) ∨
    (∃ τ : Vol, (linkDirent dirnode blk slot x nm).eval σ = (.error .ENOSPC, τ) ∧
      Stranded σ dirnode.inInode dirnode.inFirst ∧
      τ.bm.isset dirnode.inFirst.toNat = false) := by
  unfold linkDirent
  rw [Prog.eval_bind, blockIsDirty_eval, Prog.eval_ite]
  by_cases hd : σ.dirty dirnode.inFirst = true
  · left
    rw [if_pos hd]
    refine ⟨_, rfl, hok, rfl, Nat.le_add_right _ _, ?_⟩
    intro h
    rw [h.1] at hd
    cases hd
  rw [if_neg hd, Prog.eval_bind]
  have hd' : σ.dirty dirnode.inFirst = false := by simpa using hd
  rcases nextBlock_cases hok hlim with ⟨n, m', ht, he⟩ | ⟨he, hb⟩
  · rw [he]
    have hav := ht.avail
    have hlim' : (σ.setBm m').bm.limit ≤ 65536 := ht.limit_eq.trans_le hlim
    rcases moveDirent_outcome (σ := σ.setBm m') ht.ok hlim' dirnode blk slot x nm
        (UInt16.ofInt (n.toNat : Int)) with
      ⟨τ, hτ, hok', hl, ha, hnot⟩ | ⟨τ, hτ, hneeds, hz, hset⟩
    · left
      refine ⟨τ, hτ, hok', hl.trans ht.limit_eq, ?_, ?_⟩
      · change m'.avail ≤ τ.bm.avail + 1 at ha
        omega
      · rintro ⟨-, h2, h3⟩
        refine hnot ⟨h2, ?_⟩
        change m'.avail = 0
        omega
    · right
      refine ⟨τ, hτ, ⟨hd', hneeds, ?_⟩, hset⟩
      change m'.avail = 0 at hz
      omega
  · rw [he]
    have hz := Freemap.avail_eq_zero.mpr hb
    rcases moveDirent_outcome (σ := σ.setBm σ.bm.exhausted)
        ⟨hok.lenMap, hok.lenFreed, Nat.le_refl _, fun k hk => hb k hk⟩ hlim dirnode blk slot x nm
        (UInt16.ofInt (-1)) with ⟨τ, hτ, hok', hl, ha, hnot⟩ | ⟨τ, hτ, hneeds, -, hset⟩
    · left
      refine ⟨τ, hτ, hok', hl, ?_, ?_⟩
      · omega
      · rintro ⟨-, h2, -⟩
        exact hnot ⟨h2, hz⟩
    · exact Or.inr ⟨τ, hτ, ⟨hd', hneeds, by omega⟩, hset⟩

end Crfs
