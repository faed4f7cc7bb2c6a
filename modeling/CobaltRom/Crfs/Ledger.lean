import CobaltRom.Crfs.Image

/-! The free map against the owners of the blocks, and what handing out a block
and rewriting an inode do to a volume. -/
namespace Crfs
open WriteBack

/-- The block map says exactly which blocks have an owner. -/
structure Ledger (m : Freemap) (own : BlockId → Option Owner) : Prop where
  ok : m.Ok
  limit : m.limit ≤ 65536
  zero : own 0 = none
  slot : own 16 = none
  exact : ∀ b : BlockId, m.isset b.toNat = true ↔ own b ≠ none ∨ b = 0 ∨ b = 16

/-- The inode map says exactly which numbers were handed out. -/
structure InumLedger (m : Freemap) (num : InodeId → Prop) : Prop where
  ok : m.Ok
  limit : m.limit ≤ 65536
  exact : ∀ i : InodeId, m.isset i.toNat = true ↔ num i ∨ i = 0

namespace Vol

abbrev bm (σ : Vol) : Freemap := σ.glob.blockFreemap
abbrev im (σ : Vol) : Freemap := σ.glob.inodeFreemap

def setBm (σ : Vol) (m : Freemap) : Vol := { σ with glob := { σ.glob with blockFreemap := m } }
def setIm (σ : Vol) (m : Freemap) : Vol := { σ with glob := { σ.glob with inodeFreemap := m } }

/-- Block number of the table that holds inode `i`. -/
def tableOf (σ : Vol) (i : InodeId) : BlockId := σ.glob.itableBlocknum i

end Vol

/-- The map after a search that found nothing. -/
def Freemap.exhausted (m : Freemap) : Freemap := { m with fmCur := m.fmMapsize, fmFull := true }

section
variable {σ τ υ : Vol} {m m' : Freemap} {own own' own'' : BlockId → Option Owner}
  {num : InodeId → Prop} {b n nb : BlockId} {i x : InodeId} {y : Inode} {F : InodeId → Prop}

theorem ofInt_toNat (n : UInt16) : UInt16.ofInt (n.toNat : Int) = n := by
  apply UInt16.toNat_inj.mp
  have hlt := n.toNat_lt
  simp only [UInt16.ofInt, UInt16.toNat_ofNat']
  omega

/-- A block that was just handed out had no owner. -/
theorem Ledger.fresh (h : Ledger m own) (ht : m.Took n.toNat m') :
    own n = none ∧ n ≠ 0 ∧ n ≠ 16 := by
  have hi : ¬ m.isset n.toNat = true := by
    intro hi
    have hb := Freemap.blocked_of_isset hi
    rw [ht.free] at hb
    cases hb
  rw [h.exact] at hi
  push Not at hi
  exact hi

theorem Ledger.ne_zero (h : Ledger m own) (hb : own b ≠ none) : b ≠ 0 := by
  rintro rfl
  exact hb h.zero

theorem Ledger.ne_slot (h : Ledger m own) (hb : own b ≠ none) : b ≠ 16 := by
  rintro rfl
  exact hb h.slot

theorem Ledger.lt_of_own (h : Ledger m own) (hb : own b ≠ none) : b.toNat < m.limit :=
  h.ok.isset_lt ((h.exact b).mpr (Or.inl hb))

/-- Handing out a block to `o`. -/
theorem Ledger.give (h : Ledger m own) (ht : m.Took n.toNat m') (o : Owner) :
    Ledger m' (Function.update own n (some o)) := by
  obtain ⟨-, h0, h16⟩ := h.fresh ht
  refine ⟨ht.ok, by rw [ht.limit_eq]; exact h.limit, ?_, ?_, ?_⟩
  · rw [Function.update_of_ne (Ne.symm h0), h.zero]
  · rw [Function.update_of_ne (Ne.symm h16), h.slot]
  intro b
  rw [ht.isset, Bool.or_eq_true, h.exact, decide_eq_true_iff, UInt16.toNat_inj]
  by_cases hb : b = n
  · subst hb; simp
  · simp [hb]

/-- Releasing a block. -/
theorem Ledger.take (h : Ledger m own) (h0 : b ≠ 0) (h16 : b ≠ 16) :
    Ledger (freemapUnmark m b.toNat) (Function.update own b none) := by
  refine ⟨Freemap.ok_unmark h.ok _, h.limit, ?_, ?_, ?_⟩
  · rw [Function.update_of_ne (Ne.symm h0), h.zero]
  · rw [Function.update_of_ne (Ne.symm h16), h.slot]
  intro c
  have hne : c.toNat ≠ b.toNat ↔ c ≠ b := not_congr UInt16.toNat_inj
  rw [Freemap.isset_unmark, Bool.and_eq_true, h.exact, decide_eq_true_iff, hne]
  by_cases hc : c = b
  · subst hc; simp [h0, h16]
  · simp [hc]

theorem Ledger.congr (h : Ledger m own) (ho : ∀ b, own' b = none ↔ own b = none) :
    Ledger m own' := by
  refine ⟨h.ok, h.limit, (ho 0).mpr h.zero, (ho 16).mpr h.slot, ?_⟩
  intro b
  rw [h.exact, ne_eq, ne_eq, ho]

theorem Ledger.exhausted (h : Ledger m own) (hfull : ∀ k, k < m.limit → m.blocked k = true) :
    Ledger m.exhausted own :=
  ⟨⟨h.ok.lenMap, h.ok.lenFreed, Nat.le_refl _, fun k hk => hfull k hk⟩, h.limit,
    h.zero, h.slot, h.exact⟩

theorem InumLedger.fresh (h : InumLedger m num) (ht : m.Took x.toNat m') : ¬ num x ∧ x ≠ 0 := by
  have hi : ¬ m.isset x.toNat = true := by
    intro hi
    have hb := Freemap.blocked_of_isset hi
    rw [ht.free] at hb
    cases hb
  rw [h.exact] at hi
  push Not at hi
  exact hi

theorem InumLedger.give (h : InumLedger m num) (ht : m.Took x.toNat m') :
    InumLedger m' (fun i => num i ∨ i = x) := by
  refine ⟨ht.ok, by rw [ht.limit_eq]; exact h.limit, ?_⟩
  intro i
  rw [ht.isset, Bool.or_eq_true, h.exact, decide_eq_true_iff, UInt16.toNat_inj]
  tauto

/-! ### Handing out numbers -/

theorem nextBlock_cases (hok : σ.bm.Ok) (hlim : σ.bm.limit ≤ 65536) :
    (∃ n : BlockId, ∃ m', σ.bm.Took n.toNat m' ∧
      nextBlock.eval σ = ((n.toNat : Int), σ.setBm m')) ∨
    (nextBlock.eval σ = (-1, σ.setBm σ.bm.exhausted) ∧
      ∀ k, k < σ.bm.limit → σ.bm.blocked k = true) := by
  have he : nextBlock.eval σ = ((freemapNext σ.bm).1, σ.setBm (freemapNext σ.bm).2) := rfl
  rcases Freemap.freemapNext_spec hok with ⟨n, hn, ht⟩ | ⟨hn, hb, hm⟩
  · left
    have hlt : n < 2 ^ 16 := Nat.lt_of_lt_of_le ht.lt hlim
    have hto : (UInt16.ofNat n).toNat = n := UInt16.toNat_ofNat_of_lt' hlt
    exact ⟨UInt16.ofNat n, (freemapNext σ.bm).2, by rw [hto]; exact ht, by rw [he, hn, hto]⟩
  · right
    exact ⟨by rw [he, hn, hm]; rfl, hb⟩

theorem nextInode_cases (hok : σ.im.Ok) (hlim : σ.im.limit ≤ 65536) :
    (∃ x : InodeId, ∃ m', σ.im.Took x.toNat m' ∧
      nextInode.eval σ = ((x.toNat : Int), σ.setIm m')) ∨
    (nextInode.eval σ = (-1, σ.setIm σ.im.exhausted) ∧
      ∀ k, k < σ.im.limit → σ.im.blocked k = true) := by
  have he : nextInode.eval σ = ((freemapNext σ.im).1, σ.setIm (freemapNext σ.im).2) := rfl
  rcases Freemap.freemapNext_spec hok with ⟨n, hn, ht⟩ | ⟨hn, hb, hm⟩
  · left
    have hlt : n < 2 ^ 16 := Nat.lt_of_lt_of_le ht.lt hlim
    have hto : (UInt16.ofNat n).toNat = n := UInt16.toNat_ofNat_of_lt' hlt
    exact ⟨UInt16.ofNat n, (freemapNext σ.im).2, by rw [hto]; exact ht, by rw [he, hn, hto]⟩
  · right
    exact ⟨by rw [he, hn, hm]; rfl, hb⟩

/-! ### Rewriting an inode -/

/-- The table block an inode is written into starts from. -/
def tableStart (σ : Vol) (i : InodeId) : Block :=
  if σ.tableOf i = 0 then zeroBlock else σ.val (σ.tableOf i)

/-- `τ` is `σ` after inode `y` was stored, its table now in block `nb`. -/
structure WroteInode (σ : Vol) (y : Inode) (nb : BlockId) (τ : Vol) : Prop where
  val : τ.val =
    Function.update σ.val nb ((tableStart σ y.inInode).setItInode (inodeIdx y.inInode) y)
  dirty : τ.dirty = Function.update σ.dirty nb true
  vt : ∀ j, τ.glob.superBlock.sbVtable j =
    if j = y.inInode.toNat / 256 then nb else σ.glob.superBlock.sbVtable j
  root : τ.glob.superBlock.sbRoot = σ.glob.superBlock.sbRoot
  im : τ.im = σ.im
  pwd : τ.glob.crfsPwd = σ.glob.crfsPwd
  bm : (nb = σ.tableOf y.inInode ∧ nb ≠ 0 ∧ σ.dirty nb = true ∧ τ.bm = σ.bm) ∨
    ∃ m', σ.bm.Took nb.toNat m' ∧ τ.bm =
      if σ.tableOf y.inInode = 0 then m' else freemapUnmark m' (σ.tableOf y.inInode).toNat

/-- From `σ` to `τ` inode tables were added only for numbers in `num`. -/
def TablesFor (num : InodeId → Prop) (σ τ : Vol) : Prop :=
  ∀ k, τ.img.vt k ≠ 0 → σ.img.vt k ≠ 0 ∨ ∃ i, num i ∧ i.toNat / 256 = k

theorem TablesFor.refl (num : InodeId → Prop) (σ : Vol) : TablesFor num σ σ :=
  fun _ hk => Or.inl hk

theorem TablesFor.trans {num num' : InodeId → Prop} (h : TablesFor num σ τ)
    (h' : TablesFor num' τ υ) (hn : ∀ i, num i → num' i) : TablesFor num' σ υ := by
  intro k hk
  rcases h' k hk with hk | hk
  · rcases h k hk with hk | ⟨i, hi, hik⟩
    · exact Or.inl hk
    · exact Or.inr ⟨i, hn i hi, hik⟩
  · exact Or.inr hk

theorem WroteInode.tablesFor {num : InodeId → Prop} (h : WroteInode σ y nb τ)
    (hn : num y.inInode) : TablesFor num σ τ := by
  intro k hk
  have hvt : τ.img.vt k = if k = y.inInode.toNat / 256 then nb else σ.img.vt k := h.vt k
  rw [hvt] at hk
  split at hk
  · rename_i he
    exact Or.inr ⟨y.inInode, hn, he.symm⟩
  · exact Or.inl hk

theorem inum_div_lt (i : InodeId) : i.toNat / 256 < 256 := by
  have := i.toNat_lt
  omega

theorem inodeIdx_lt (i : InodeId) : inodeIdx i < 256 := Nat.mod_lt _ (by decide)

/-- `crfs_write_inode` stores the inode, or changes nothing but the search cursor. -/
theorem crfsWriteInode_cases (hok : σ.bm.Ok) (hlim : σ.bm.limit ≤ 65536) (y : Inode) :
    (∃ (nb : BlockId) (τ : Vol), (crfsWriteInode y).eval σ = (.ok (), τ) ∧ WroteInode σ y nb τ) ∨
    ((crfsWriteInode y).eval σ = (.error .ENOSPC, σ.setBm σ.bm.exhausted) ∧
      (∀ k, k < σ.bm.limit → σ.bm.blocked k = true) ∧
      (σ.tableOf y.inInode = 0 ∨ σ.dirty (σ.tableOf y.inInode) = false)) := by
  have hnat : ∀ n : BlockId, ¬ ((n.toNat : Int) < 0) := fun n => by omega
  have hk := inum_div_lt y.inInode
  by_cases h0 : σ.tableOf y.inInode = 0
  · have h0' : σ.glob.itableBlocknum y.inInode = 0 := h0
    rcases nextBlock_cases hok hlim with ⟨n, m', ht, he⟩ | ⟨he, hb⟩
    · refine Or.inl ⟨n, ?t1, ?e1, ?w1⟩
      case e1 =>
        simp only [crfsWriteInode, Prog.eval_bind, Prog.eval_getGlob, h0', if_true, he,
          hnat, if_false, ofInt_toNat, setItableBlocknum, crfsWriteBlock, Prog.eval_setGlob,
          Prog.eval_writeAt, Prog.eval_pure]
        rfl
      case w1 =>
        refine ⟨?_, rfl, ?_, ?_, rfl, rfl, Or.inr ⟨m', ht, ?_⟩⟩
        · rw [tableStart, if_pos h0]
          rfl
        · exact fun j => Block.sbVtable_setSbVtable hk _ _
        · exact Block.sbRoot_setSbVtable _ _ _
        · rw [if_pos h0]
          rfl
    · refine Or.inr ⟨?_, hb, Or.inl h0⟩
      simp only [crfsWriteInode, Prog.eval_bind, Prog.eval_getGlob, h0', if_true, he]
      rfl
  · have h0' : ¬ σ.glob.itableBlocknum y.inInode = 0 := h0
    by_cases hd : σ.dirty (σ.tableOf y.inInode) = true
    · have hd' : σ.dirty (σ.glob.itableBlocknum y.inInode) = true := hd
      refine Or.inl ⟨σ.tableOf y.inInode, ?t2, ?e2, ?w2⟩
      case e2 =>
        simp only [crfsWriteInode, Prog.eval_bind, Prog.eval_getGlob, h0', if_false,
          crfsReadBlock, blockIsDirty, Prog.eval_readAt, Prog.eval_dirtyAt, hd', if_true,
          crfsWriteBlock, Prog.eval_writeAt, Prog.eval_pure]
        rfl
      case w2 =>
        refine ⟨?_, rfl, ?_, rfl, rfl, rfl, Or.inl ⟨rfl, h0, hd, rfl⟩⟩
        · rw [tableStart, if_neg h0]
          rfl
        · intro j
          by_cases hj : j = y.inInode.toNat / 256
          · rw [if_pos hj, hj]
            rfl
          · rw [if_neg hj]
    · have hd' : ¬ σ.dirty (σ.glob.itableBlocknum y.inInode) = true := hd
      rcases nextBlock_cases hok hlim with ⟨n, m', ht, he⟩ | ⟨he, hb⟩
      · refine Or.inl ⟨n, ?t3, ?e3, ?w3⟩
        case e3 =>
          simp only [crfsWriteInode, Prog.eval_bind, Prog.eval_getGlob, h0', if_false,
            crfsReadBlock, blockIsDirty, Prog.eval_readAt, Prog.eval_dirtyAt, hd',
            Bool.false_eq_true, he, hnat, ofInt_toNat, unmarkBlock, setItableBlocknum,
            crfsWriteBlock, Prog.eval_setGlob, Prog.eval_writeAt, Prog.eval_pure]
          rfl
        case w3 =>
          refine ⟨?_, rfl, ?_, ?_, rfl, rfl, Or.inr ⟨m', ht, ?_⟩⟩
          · rw [tableStart, if_neg h0]
            rfl
          · exact fun j => Block.sbVtable_setSbVtable hk _ _
          · exact Block.sbRoot_setSbVtable _ _ _
          · rw [if_neg h0]
            rfl
      · refine Or.inr ⟨?_, hb, Or.inr (by simpa using hd)⟩
        simp only [crfsWriteInode, Prog.eval_bind, Prog.eval_getGlob, h0', if_false,
          crfsReadBlock, blockIsDirty, Prog.eval_readAt, Prog.eval_dirtyAt, hd',
          Bool.false_eq_true, he]
        rfl

/-! ### How far a routine may reach -/

/-- From `σ` with owners `own` to `τ` with owners `own'` nothing became available,
only new blocks, dirty ones and blocks of the files in `F` were written, and old
blocks kept their owner or lost it. -/
structure Grow (F : InodeId → Prop) (σ : Vol) (own : BlockId → Option Owner) (τ : Vol)
    (own' : BlockId → Option Owner) : Prop where
  limit : τ.bm.limit = σ.bm.limit
  blocked : ∀ k, σ.bm.blocked k = true → τ.bm.blocked k = true
  range : ∀ b, τ.dirty b = true → σ.dirty b = true ∨ b.toNat < σ.bm.limit
  dirty : ∀ b, τ.dirty b = true → σ.dirty b = true ∨ σ.bm.blocked b.toNat = false ∨
    ∃ i, F i ∧ own b = some (.file i)
  owner : ∀ b, own' b = own b ∨ own' b = none ∨ σ.bm.blocked b.toNat = false

theorem Grow.refl (F : InodeId → Prop) (σ : Vol) (own : BlockId → Option Owner) :
    Grow F σ own σ own :=
  ⟨rfl, fun _ h => h, fun _ h => Or.inl h, fun _ h => Or.inl h, fun _ => Or.inl rfl⟩

theorem Grow.free (h : Grow F σ own τ own') (hb : τ.bm.blocked b.toNat = false) :
    σ.bm.blocked b.toNat = false := by
  by_contra hn
  have := h.blocked _ (by simpa using hn)
  rw [hb] at this
  cases this

theorem Grow.trans (h : Grow F σ own τ own') (h' : Grow F τ own' υ own'') :
    Grow F σ own υ own'' := by
  refine ⟨h'.limit.trans h.limit, fun k hk => h'.blocked k (h.blocked k hk), ?_, ?_, ?_⟩
  · intro b hb
    rcases h'.range b hb with hd | hf
    · exact h.range b hd
    · exact Or.inr (h.limit ▸ hf)
  · intro b hb
    rcases h'.dirty b hb with hd | hf | ⟨i, hi, ho⟩
    · exact h.dirty b hd
    · exact Or.inr (Or.inl (h.free hf))
    · rcases h.owner b with he | he | he
      · exact Or.inr (Or.inr ⟨i, hi, he ▸ ho⟩)
      · rw [he] at ho
        cases ho
      · exact Or.inr (Or.inl he)
  · intro b
    rcases h'.owner b with he | he | he
    · rw [he]
      exact h.owner b
    · exact Or.inr (Or.inl he)
    · exact Or.inr (Or.inr (h.free he))

/-- Handing out a block. -/
theorem Grow.took (F : InodeId → Prop) (ht : σ.bm.Took n.toNat m') (o : Owner) :
    Grow F σ own (σ.setBm m') (Function.update own n (some o)) := by
  refine ⟨ht.limit_eq, ?_, fun _ h => Or.inl h, fun _ h => Or.inl h, ?_⟩
  · intro k hk
    change m'.blocked k = true
    rw [ht.blocked, hk]
    rfl
  · intro b
    by_cases hb : b = n
    · subst hb
      exact Or.inr (Or.inr ht.free)
    · exact Or.inl (Function.update_of_ne hb _ _)

theorem Grow.exhausted (F : InodeId → Prop) (σ : Vol) (own : BlockId → Option Owner) :
    Grow F σ own (σ.setBm σ.bm.exhausted) own :=
  ⟨rfl, fun _ h => h, fun _ h => Or.inl h, fun _ h => Or.inl h, fun _ => Or.inl rfl⟩

/-- Writing a block that was free, dirty or of a file in `F` goes no further. -/
theorem Grow.write (h : Grow F σ own τ own') (hlt : b.toNat < σ.bm.limit)
    (hb : σ.dirty b = true ∨ σ.bm.blocked b.toNat = false ∨ ∃ i, F i ∧ own b = some (.file i))
    (hval : υ.dirty = Function.update τ.dirty b true) (hbm : υ.bm = τ.bm) :
    Grow F σ own υ own' := by
  refine ⟨by rw [hbm]; exact h.limit, by rw [hbm]; exact h.blocked, ?_, ?_, h.owner⟩
  · intro e he
    by_cases heb : e = b
    · exact Or.inr (heb ▸ hlt)
    · rw [hval, Function.update_of_ne heb] at he
      exact h.range e he
  · intro e he
    by_cases heb : e = b
    · exact heb ▸ hb
    · rw [hval, Function.update_of_ne heb] at he
      exact h.dirty e he

section
variable (h : WroteInode σ y nb τ) (hL : Ledger σ.bm own)
  (hT : Tables σ.glob.superBlock.sbVtable own)
include h hL hT

/-- The block the table is written to is its own or was free. -/
theorem WroteInode.target : nb ≠ 0 ∧ nb ≠ 16 ∧
    (own nb = none ∨ own nb = some (.itable (y.inInode.toNat / 256))) := by
  rcases h.bm with ⟨hnb, h0, -, -⟩ | ⟨m', ht, -⟩
  · have ho : own nb = some (.itable (y.inInode.toNat / 256)) :=
      (hT _ _).mpr ⟨inum_div_lt _, hnb.symm, h0⟩
    exact ⟨h0, hL.ne_slot (by rw [ho]; simp), Or.inr ho⟩
  · obtain ⟨ho, h0, h16⟩ := hL.fresh ht
    exact ⟨h0, h16, Or.inl ho⟩

theorem WroteInode.ledger : Ledger τ.bm (retable own (y.inInode.toNat / 256) nb) := by
  have hk := inum_div_lt y.inInode
  have htab : ∀ b, own b = some (.itable (y.inInode.toNat / 256)) ↔
      σ.tableOf y.inInode = b ∧ b ≠ 0 := by
    intro b
    rw [hT]
    exact and_iff_right hk
  rcases h.bm with ⟨hnb, h0, -, hbm⟩ | ⟨m', ht, hbm⟩
  · rw [hbm]
    refine hL.congr ?_
    intro b
    unfold retable
    by_cases hb : b = nb
    · have ho := (htab b).mpr ⟨by rw [hb, hnb], by rw [hb]; exact h0⟩
      rw [if_pos hb, ho]
    · rw [if_neg hb, if_neg]
      rw [htab, ← hnb]
      exact fun hc => hb hc.1.symm
  · have hg := hL.give ht (.itable (y.inInode.toNat / 256))
    rw [hbm]
    by_cases h0 : σ.tableOf y.inInode = 0
    · rw [if_pos h0]
      refine hg.congr ?_
      intro b
      unfold retable
      by_cases hb : b = nb
      · simp [hb]
      · rw [if_neg hb, if_neg, Function.update_of_ne hb]
        rw [htab, h0]
        exact fun hc => hc.2 hc.1.symm
    · rw [if_neg h0]
      have ho := (htab _).mpr ⟨rfl, h0⟩
      have hne : σ.tableOf y.inInode ≠ nb := by
        intro he
        rw [he, (hL.fresh ht).1] at ho
        cases ho
      refine (hg.take h0 (hL.ne_slot (by rw [ho]; simp))).congr ?_
      intro b
      unfold retable
      by_cases hb : b = nb
      · subst hb
        simp [Function.update_of_ne (Ne.symm hne)]
      · rw [if_neg hb]
        by_cases hb2 : b = σ.tableOf y.inInode
        · subst hb2
          simp [ho]
        · rw [if_neg, Function.update_of_ne hb2, Function.update_of_ne hb]
          rw [htab]
          exact fun hc => hb2 hc.1.symm

theorem WroteInode.tables : Tables τ.glob.superBlock.sbVtable
    (retable own (y.inInode.toNat / 256) nb) := by
  obtain ⟨h0, -, hnb⟩ := h.target hL hT
  have hk := inum_div_lt y.inInode
  intro j b
  rw [h.vt]
  unfold retable
  by_cases hb : b = nb
  · subst hb
    rw [if_pos rfl]
    by_cases hj : j = y.inInode.toNat / 256
    · subst hj; simp [hk, h0]
    · rw [if_neg hj]
      simp only [Option.some.injEq, Owner.itable.injEq, Ne.symm hj, false_iff]
      intro hc
      rw [← hT] at hc
      rcases hnb with hnb | hnb <;> rw [hnb] at hc <;> simp_all
  · rw [if_neg hb]
    by_cases hj : j = y.inInode.toNat / 256
    · subst hj
      simp [Ne.symm hb]
    · rw [if_neg hj]
      by_cases hbk : own b = some (.itable (y.inInode.toNat / 256))
      · rw [if_pos hbk, ← hT, hbk]
        simp [Ne.symm hj]
      · rw [if_neg hbk, hT]

/-- Only inode `y` changes, unless its table is new. -/
theorem WroteInode.ino (i : InodeId) (hi : σ.tableOf i ≠ 0) :
    τ.img.ino i = if i = y.inInode then y else σ.img.ino i := by
  obtain ⟨h0, -, hnb⟩ := h.target hL hT
  change (τ.val (τ.glob.superBlock.sbVtable (i.toNat / 256))).itInode (i.toNat % 256) = _
  rw [h.vt, h.val]
  by_cases hk : i.toNat / 256 = y.inInode.toNat / 256
  · have ht : σ.tableOf y.inInode = σ.tableOf i := by
      unfold Vol.tableOf Globals.itableBlocknum
      rw [hk]
    rw [if_pos hk, Function.update_self, tableStart, ht, if_neg hi]
    by_cases he : i = y.inInode
    · subst he
      rw [if_pos rfl]
      exact Block.itInode_setItInode_self (inodeIdx_lt _) _ _
    · have hne : i.toNat % 256 ≠ inodeIdx y.inInode := by
        intro hm
        apply he
        apply UInt16.toNat_inj.mp
        unfold inodeIdx at hm
        omega
      rw [if_neg he, Block.itInode_setItInode_ne hne]
      rfl
  · have he : i ≠ y.inInode := by
      rintro rfl
      exact hk rfl
    have hb : σ.glob.superBlock.sbVtable (i.toNat / 256) ≠ nb := by
      intro hb
      have ho := (hT (i.toNat / 256) nb).mpr ⟨inum_div_lt i, hb, h0⟩
      rcases hnb with hnb | hnb <;> rw [hnb] at ho
      · cases ho
      · exact hk (by simpa using ho.symm)
    rw [if_neg hk, if_neg he, Function.update_of_ne hb]
    rfl

omit hL hT in
theorem WroteInode.ino_self : τ.img.ino y.inInode = y := by
  change (τ.val (τ.glob.superBlock.sbVtable (y.inInode.toNat / 256))).itInode
    (y.inInode.toNat % 256) = _
  rw [h.vt, h.val, if_pos rfl, Function.update_self]
  exact Block.itInode_setItInode_self (inodeIdx_lt _) _ _

theorem WroteInode.table_ne_zero : τ.tableOf y.inInode ≠ 0 := by
  change τ.glob.superBlock.sbVtable (y.inInode.toNat / 256) ≠ 0
  rw [h.vt, if_pos rfl]
  exact (h.target hL hT).1

omit hL hT in
theorem WroteInode.val_ne (hb : b ≠ nb) : τ.val b = σ.val b := by
  rw [h.val, Function.update_of_ne hb]

theorem WroteInode.grow (F : InodeId → Prop) :
    Grow F σ own τ (retable own (y.inInode.toNat / 256) nb) := by
  have hown : ∀ b, b ≠ nb → retable own (y.inInode.toNat / 256) nb b = own b ∨
      retable own (y.inInode.toNat / 256) nb b = none := by
    intro b hb
    unfold retable
    rw [if_neg hb]
    split
    · exact Or.inr rfl
    · exact Or.inl rfl
  rcases h.bm with ⟨hnb, h0, hd, hbm⟩ | ⟨m', ht, hbm⟩
  · have ho : own nb = some (.itable (y.inInode.toNat / 256)) :=
      (hT _ nb).mpr ⟨inum_div_lt _, by rw [hnb]; rfl, h0⟩
    refine Grow.write (τ := σ) ⟨rfl, fun k hk => hk, fun _ h => Or.inl h, fun _ h => Or.inl h, ?_⟩
      (hL.lt_of_own (by rw [ho]; simp)) (Or.inl hd) h.dirty hbm
    intro b
    by_cases he : b = nb
    · left
      rw [he, retable, if_pos rfl, ho]
    · exact (hown b he).imp_right Or.inl
  · refine Grow.write (τ := { σ with glob := { σ.glob with blockFreemap := τ.bm } })
      ⟨?_, ?_, fun _ h => Or.inl h, fun _ h => Or.inl h, ?_⟩ ht.lt (Or.inr (Or.inl ht.free))
      h.dirty rfl
    · change τ.bm.limit = _
      rw [hbm]
      split
      · exact ht.limit_eq
      · exact ht.limit_eq
    · intro k hk
      change τ.bm.blocked k = true
      rw [hbm]
      split
      · rw [ht.blocked, hk]
        rfl
      · rw [Freemap.blocked_unmark ht.ok, ht.blocked, hk]
        rfl
    · intro b
      by_cases he : b = nb
      · exact Or.inr (Or.inr (he ▸ ht.free))
      · exact (hown b he).imp_right Or.inl

end

end
end Crfs
