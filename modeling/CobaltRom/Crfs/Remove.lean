import CobaltRom.Lib.LinkChain
import CobaltRom.Crfs.Create

/-! `rm_file`: releasing a subtree and emptying its entry. -/
namespace Crfs
open WriteBack SlotTree

/-- `b` is on the chain of file blocks that starts at `a`. -/
inductive OnChain (val : BlockId → Block) : BlockId → BlockId → Prop where
  | here {a : BlockId} : a ≠ 0 → OnChain val a a
  | next {a b : BlockId} : a ≠ 0 → OnChain val (val a).fbNext b → OnChain val a b

/-- `l` is the chain of file blocks that starts at `a`. -/
abbrev IsChain (val : BlockId → Block) : BlockId → List BlockId → Prop :=
  LinkChain.IsChain (fun b => (val b).fbNext) 0

/-- `b` is the block of directory `i`, or on the chain of file `i`. -/
def Img.blockOf (I : Img) (i : InodeId) (b : BlockId) : Prop :=
  if I.isDir i = true then b = (I.ino i).inFirst else OnChain I.val (I.ino i).inFirst b

/-- From `σ` to `τ` the blocks in `B` and the inode numbers in `N` were released. -/
structure Released (σ : Vol) (B : BlockId → Prop) (N : InodeId → Prop) (τ : Vol) : Prop where
  val : τ.val = σ.val
  dirty : τ.dirty = σ.dirty
  super : τ.glob.superBlock = σ.glob.superBlock
  pwd : τ.glob.crfsPwd = σ.glob.crfsPwd
  blocks : ∀ b : BlockId, τ.bm.isset b.toNat = true ↔ σ.bm.isset b.toNat = true ∧ ¬ B b
  inums : ∀ i : InodeId, τ.im.isset i.toNat = true ↔ σ.im.isset i.toNat = true ∧ ¬ N i
  bmOk : σ.bm.Ok → τ.bm.Ok ∧ ∀ k, τ.bm.blocked k = σ.bm.blocked k
  imOk : σ.im.Ok → τ.im.Ok ∧ ∀ k, τ.im.blocked k = σ.im.blocked k
  bmLimit : τ.bm.limit = σ.bm.limit
  imLimit : τ.im.limit = σ.im.limit
  full : τ.bm.fmFull = σ.bm.fmFull ∧ τ.im.fmFull = σ.im.fmFull

variable {σ τ υ : Vol} {B B' : BlockId → Prop} {N N' : InodeId → Prop} {a b : BlockId}
  {i j d : InodeId} {I : Img} {s : Shape} {l : List BlockId} {val : BlockId → Block}

theorem Released.img (h : Released σ B N τ) : τ.img = σ.img := by
  rw [Vol.img, Vol.img, h.val, h.super]

theorem Released.refl (σ : Vol) : Released σ (fun _ => False) (fun _ => False) σ :=
  ⟨rfl, rfl, rfl, rfl, by simp, by simp, fun h => ⟨h, fun _ => rfl⟩, fun h => ⟨h, fun _ => rfl⟩,
    rfl, rfl, rfl, rfl⟩

theorem Released.trans (h : Released σ B N τ) (h' : Released τ B' N' υ) :
    Released σ (fun b => B b ∨ B' b) (fun i => N i ∨ N' i) υ := by
  refine ⟨h'.val.trans h.val, h'.dirty.trans h.dirty, h'.super.trans h.super, h'.pwd.trans h.pwd,
    ?_, ?_, ?_, ?_, h'.bmLimit.trans h.bmLimit, h'.imLimit.trans h.imLimit,
    h'.full.1.trans h.full.1, h'.full.2.trans h.full.2⟩
  · intro b
    rw [h'.blocks, h.blocks]
    tauto
  · intro i
    rw [h'.inums, h.inums]
    tauto
  · intro hok
    obtain ⟨h1, h2⟩ := h.bmOk hok
    obtain ⟨h3, h4⟩ := h'.bmOk h1
    exact ⟨h3, fun k => (h4 k).trans (h2 k)⟩
  · intro hok
    obtain ⟨h1, h2⟩ := h.imOk hok
    obtain ⟨h3, h4⟩ := h'.imOk h1
    exact ⟨h3, fun k => (h4 k).trans (h2 k)⟩

theorem released_block (σ : Vol) (b : BlockId) :
    Released σ (· = b) (fun _ => False) (σ.setBm (freemapUnmark σ.bm b.toNat)) := by
  refine ⟨rfl, rfl, rfl, rfl, ?_, by simp [Vol.setBm], ?_, fun h => ⟨h, fun _ => rfl⟩, rfl, rfl,
    rfl, rfl⟩
  · intro c
    change (freemapUnmark σ.bm b.toNat).isset c.toNat = true ↔ _
    rw [Freemap.isset_unmark, Bool.and_eq_true, decide_eq_true_iff]
    exact and_congr_right fun _ => not_congr UInt16.toNat_inj
  · exact fun h => ⟨Freemap.ok_unmark h _, fun k => Freemap.blocked_unmark h _ k⟩

theorem released_inum (σ : Vol) (i : InodeId) :
    Released σ (fun _ => False) (· = i) (σ.setIm (freemapUnmark σ.im i.toNat)) := by
  refine ⟨rfl, rfl, rfl, rfl, by simp [Vol.setIm], ?_, fun h => ⟨h, fun _ => rfl⟩, ?_, rfl, rfl,
    rfl, rfl⟩
  · intro c
    change (freemapUnmark σ.im i.toNat).isset c.toNat = true ↔ _
    rw [Freemap.isset_unmark, Bool.and_eq_true, decide_eq_true_iff]
    exact and_congr_right fun _ => not_congr UInt16.toNat_inj
  · exact fun h => ⟨Freemap.ok_unmark h _, fun k => Freemap.blocked_unmark h _ k⟩

/-! ### Chains -/

theorem not_onChain_zero : ¬ OnChain val 0 b := by
  intro h
  cases h with
  | here h => exact h rfl
  | next h _ => exact h rfl

theorem IsChain.onChain_iff (h : IsChain val a l) : OnChain val a b ↔ b ∈ l := by
  induction l generalizing a with
  | nil =>
    have h0 : a = 0 := h
    subst h0
    simp [not_onChain_zero]
  | cons c l ih =>
    obtain ⟨rfl, h0, hl⟩ := h
    rw [List.mem_cons, ← ih hl]
    constructor
    · intro hb
      cases hb with
      | here _ => exact Or.inl rfl
      | next _ hb => exact Or.inr hb
    · rintro (rfl | hb)
      · exact .here h0
      · exact .next h0 hb

/-- A chain that starts in the blocks of a file stays there. -/
theorem Owned.onChain (h : Owned I s) (ha : a = 0 ∨ s.own a = some (.file i))
    (hb : OnChain I.val a b) : s.own b = some (.file i) := by
  induction hb with
  | here h0 => exact ha.resolve_left h0
  | next h0 _ ih => exact ih (h.ownFile i _ (ha.resolve_left h0)).2.2

/-- A chain is a matter of the blocks of its file. -/
theorem Owned.onChain_congr (h : Owned I s) (ha : a = 0 ∨ s.own a = some (.file i))
    (hv : ∀ c, s.own c = some (.file i) → (val c).fbNext = (I.val c).fbNext)
    (hb : OnChain I.val a b) : OnChain val a b := by
  induction hb with
  | here h0 => exact .here h0
  | next h0 _ ih =>
    have hown := ha.resolve_left h0
    refine .next h0 ?_
    rw [hv _ hown]
    exact ih (h.ownFile i _ hown).2.2

theorem Owned.isChain_congr (h : Owned I s) (ha : a = 0 ∨ s.own a = some (.file i))
    (hv : ∀ c, s.own c = some (.file i) → (val c).fbNext = (I.val c).fbNext)
    (hl : IsChain I.val a l) : IsChain val a l :=
  hl.congr fun c hc => hv c (h.onChain ha ((IsChain.onChain_iff hl).mpr hc))

/-- The blocks of an inode in the tree belong to it. -/
theorem Owned.blockOf (h : Owned I s) (hi : s.live i) (hb : I.blockOf i b) :
    ∃ o, s.own b = some o ∧ o.inode = some i := by
  unfold Img.blockOf at hb
  split at hb
  · rename_i hd
    exact ⟨.dir i, hb ▸ h.dirBlock hi hd, rfl⟩
  · rename_i hd
    exact ⟨.file i, h.onChain (h.first i hi (by simpa using hd)) hb, rfl⟩

theorem unmarkChain_released (fuel : Nat) : ∀ (a : BlockId) (σ : Vol), ∃ B,
    Released σ B (fun _ => False) ((unmarkChain fuel a).eval σ).2 ∧
      (∀ b, B b → OnChain σ.val a b) ∧
      (((unmarkChain fuel a).eval σ).1 = some () → ∀ b, OnChain σ.val a b → B b) := by
  induction fuel with
  | zero =>
    intro a σ
    refine ⟨fun _ => False, Released.refl σ, fun b hb => hb.elim, ?_⟩
    intro hr b hb
    have ha : a = 0 := by
      by_contra h0
      simp [unmarkChain, h0] at hr
    subst ha
    exact not_onChain_zero hb
  | succ fuel ih =>
    intro a σ
    by_cases h0 : a = 0
    · refine ⟨fun _ => False, ?_, fun b hb => hb.elim, ?_⟩
      · rw [unmarkChain, if_pos h0]
        exact Released.refl σ
      · intro _ b hb
        subst h0
        exact not_onChain_zero hb
    · obtain ⟨B, hB, hin, hout⟩ :=
        ih (σ.val a).fbNext (σ.setBm (freemapUnmark σ.bm a.toNat))
      have he : (unmarkChain (fuel + 1) a).eval σ = (unmarkChain fuel (σ.val a).fbNext).eval
          (σ.setBm (freemapUnmark σ.bm a.toNat)) := by
        rw [unmarkChain, if_neg h0]
        rfl
      rw [he]
      refine ⟨fun b => b = a ∨ B b,
        by simpa only [or_self] using (released_block σ a).trans hB, ?_, ?_⟩
      · rintro b (rfl | hb)
        · exact .here h0
        · exact .next h0 (hin b hb)
      · intro hr b hb
        cases hb with
        | here _ => exact Or.inl rfl
        | next _ hb => exact Or.inr (hout hr b hb)

theorem unmarkChain_returns (fuel : Nat) : ∀ (a : BlockId) (l : List BlockId) (σ : Vol),
    IsChain σ.val a l → l.length ≤ fuel → ((unmarkChain fuel a).eval σ).1 = some () := by
  induction fuel with
  | zero =>
    intro a l σ h hl
    cases l with
    | nil =>
      have h0 : a = 0 := h
      simp [unmarkChain, h0]
    | cons b l => simp at hl
  | succ fuel ih =>
    intro a l σ h hl
    cases l with
    | nil =>
      have h0 : a = 0 := h
      simp [unmarkChain, h0]
    | cons b l =>
      obtain ⟨rfl, h0, hrest⟩ := h
      rw [unmarkChain, if_neg h0]
      exact ih _ l (σ.setBm (freemapUnmark σ.bm a.toNat)) hrest (by simpa using hl)

/-! ### Subtrees -/

/-- Entries 2 to 63 of a directory block, as `unmark_inode` walks them. -/
theorem mem_drop_dEntries {blk : Block} {de : Dirent} :
    de ∈ blk.dEntries.drop 2 ↔ ∃ k, 2 ≤ k ∧ k < 64 ∧ blk.dirent k = de := by
  rw [Block.dEntries, ← List.map_drop, List.mem_map]
  constructor
  · rintro ⟨k, hk, rfl⟩
    obtain ⟨n, hn, rfl⟩ := List.mem_iff_getElem.mp hk
    simp only [List.getElem_drop, List.getElem_range, List.length_drop, List.length_range,
      crfsDirNents] at hn ⊢
    exact ⟨2 + n, by omega, by omega, rfl⟩
  · rintro ⟨k, h2, h64, rfl⟩
    refine ⟨k, ?_, rfl⟩
    rw [List.mem_iff_getElem]
    refine ⟨k - 2, by simp only [List.length_drop, List.length_range, crfsDirNents]; omega, ?_⟩
    simp only [List.getElem_drop, List.getElem_range]
    omega

/-- The children of a directory are the entries of that walk. -/
theorem mem_children (hd : I.isDir i = true) :
    (∃ k, I.kids i k = some j) ↔ j ≠ 0 ∧ ∃ de ∈ (I.val (I.ino i).inFirst).dEntries.drop 2,
      de.deInode = j := by
  constructor
  · rintro ⟨k, hk⟩
    obtain ⟨-, h2, h64, h0, he⟩ := Img.kids_eq_some.mp hk
    exact ⟨h0, _, mem_drop_dEntries.mpr ⟨k, h2, h64, rfl⟩, he⟩
  · rintro ⟨h0, de, hde, he⟩
    obtain ⟨k, h2, h64, rfl⟩ := mem_drop_dEntries.mp hde
    exact ⟨k, Img.kids_eq_some.mpr ⟨hd, h2, h64, h0, he⟩⟩

/-- What the walk below `i` released: blocks and numbers of the subtree, all of
them if it came to an end. -/
structure ReleasedTree (I : Img) (i : InodeId) (B : BlockId → Prop) (N : InodeId → Prop)
    (r : Option Unit) : Prop where
  blocks : ∀ b, B b → ∃ j, Desc I.kids i j ∧ I.blockOf j b
  inums : ∀ j, N j → Desc I.kids i j
  allBlocks : r = some () → ∀ j b, Desc I.kids i j → I.blockOf j b → B b
  allInums : r = some () → ∀ j, Desc I.kids i j → N j

theorem forEach_unmark (fuel : Nat) (I : Img)
    (ih : ∀ (i : InodeId) (σ : Vol), σ.img = I → ∃ B N,
      Released σ B N ((unmarkInode fuel i).eval σ).2 ∧
        ReleasedTree I i B N ((unmarkInode fuel i).eval σ).1)
    (f : Dirent → FsM (Option Unit))
    (hf : f = fun de => if de.deInode ≠ 0 then unmarkInode fuel de.deInode else pure (some ()))
    (es : List Dirent) : ∀ σ : Vol, σ.img = I → ∃ B N,
      Released σ B N ((forEach f es).eval σ).2 ∧
        (∀ b, B b → ∃ de ∈ es, de.deInode ≠ 0 ∧ ∃ j, Desc I.kids de.deInode j ∧ I.blockOf j b) ∧
        (∀ j, N j → ∃ de ∈ es, de.deInode ≠ 0 ∧ Desc I.kids de.deInode j) ∧
        (((forEach f es).eval σ).1 = some () → ∀ de ∈ es, de.deInode ≠ 0 →
          ∀ j, Desc I.kids de.deInode j → N j ∧ ∀ b, I.blockOf j b → B b) := by
  induction es with
  | nil =>
    intro σ _
    exact ⟨fun _ => False, fun _ => False, Released.refl σ, fun b hb => hb.elim,
      fun j hj => hj.elim, fun _ de hde => by simp at hde⟩
  | cons e es ihes =>
    intro σ hσ
    -- the first call, whether it walks a subtree or skips a free slot
    obtain ⟨B, N, hR, hB, hN, hall⟩ : ∃ B N, Released σ B N ((f e).eval σ).2 ∧
        (∀ b, B b → e.deInode ≠ 0 ∧ ∃ j, Desc I.kids e.deInode j ∧ I.blockOf j b) ∧
        (∀ j, N j → e.deInode ≠ 0 ∧ Desc I.kids e.deInode j) ∧
        (((f e).eval σ).1 = some () → e.deInode ≠ 0 →
          ∀ j, Desc I.kids e.deInode j → N j ∧ ∀ b, I.blockOf j b → B b) := by
      subst hf
      by_cases h0 : e.deInode = 0
      · simp only [h0, ne_eq, not_true_eq_false, if_false]
        exact ⟨fun _ => False, fun _ => False, Released.refl σ, fun b hb => hb.elim,
          fun j hj => hj.elim, fun _ hn => hn.elim⟩
      · simp only [ne_eq, h0, not_false_eq_true, if_true, true_and, true_implies]
        obtain ⟨B, N, hR, hT⟩ := ih e.deInode σ hσ
        exact ⟨B, N, hR, hT.blocks, hT.inums, fun hr j hj =>
          ⟨hT.allInums hr j hj, fun b hb => hT.allBlocks hr j b hj hb⟩⟩
    cases hr : ((f e).eval σ).1 with
    | none =>
      have he : (forEach f (e :: es)).eval σ = (none, ((f e).eval σ).2) := by
        rw [forEach, Prog.eval_bind, hr]
        rfl
      rw [he]
      refine ⟨B, N, hR, ?_, ?_, fun hc => by cases hc⟩
      · exact fun b hb => ⟨e, List.mem_cons_self, hB b hb⟩
      · exact fun j hj => ⟨e, List.mem_cons_self, hN j hj⟩
    | some u =>
      have he : (forEach f (e :: es)).eval σ = (forEach f es).eval ((f e).eval σ).2 := by
        rw [forEach, Prog.eval_bind, hr]
      rw [he]
      obtain ⟨B', N', hR', hB', hN', hall'⟩ := ihes ((f e).eval σ).2 (hR.img.trans hσ)
      refine ⟨_, _, hR.trans hR', ?_, ?_, ?_⟩
      · rintro b (hb | hb)
        · exact ⟨e, List.mem_cons_self, hB b hb⟩
        · obtain ⟨de, hde, h⟩ := hB' b hb
          exact ⟨de, List.mem_cons_of_mem _ hde, h⟩
      · rintro j (hj | hj)
        · exact ⟨e, List.mem_cons_self, hN j hj⟩
        · obtain ⟨de, hde, h⟩ := hN' j hj
          exact ⟨de, List.mem_cons_of_mem _ hde, h⟩
      · intro hret de hde h0 j hj
        rcases List.mem_cons.mp hde with rfl | hde
        · obtain ⟨h1, h2⟩ := hall hr h0 j hj
          exact ⟨Or.inl h1, fun b hb => Or.inl (h2 b hb)⟩
        · obtain ⟨h1, h2⟩ := hall' hret de hde h0 j hj
          exact ⟨Or.inr h1, fun b hb => Or.inr (h2 b hb)⟩

/-- `unmark_inode` releases the subtree. -/
theorem unmarkInode_released (I : Img) (fuel : Nat) : ∀ (i : InodeId) (σ : Vol), σ.img = I →
    ∃ B N, Released σ B N ((unmarkInode fuel i).eval σ).2 ∧
      ReleasedTree I i B N ((unmarkInode fuel i).eval σ).1 := by
  induction fuel with
  | zero =>
    intro i σ _
    refine ⟨fun _ => False, fun _ => False, Released.refl σ, fun b hb => hb.elim,
      fun j hj => hj.elim, fun hr => ?_, fun hr => ?_⟩ <;> simp [unmarkInode] at hr
  | succ fuel ih =>
    intro i σ hσ
    have hR1 := released_inum σ i
    have himg1 : (σ.setIm (freemapUnmark σ.im i.toNat)).img = I := hR1.img.trans hσ
    by_cases hd : I.isDir i = true
    · have hR2 := hR1.trans (released_block (σ.setIm (freemapUnmark σ.im i.toNat))
        (I.ino i).inFirst)
      obtain ⟨B, N, hR, hB, hN, hall⟩ := forEach_unmark fuel I ih _ rfl
        ((I.val (I.ino i).inFirst).dEntries.drop 2) _ (hR2.img.trans hσ)
      have he : (unmarkInode (fuel + 1) i).eval σ =
          (forEach (fun de : Dirent =>
            if de.deInode ≠ 0 then unmarkInode fuel de.deInode else pure (some ()))
            ((I.val (I.ino i).inFirst).dEntries.drop 2)).eval
            ((σ.setIm (freemapUnmark σ.im i.toNat)).setBm
              (freemapUnmark (σ.setIm (freemapUnmark σ.im i.toNat)).bm
                (I.ino i).inFirst.toNat)) := by
        subst hσ
        have hd' : (σ.img.ino i).isDir = true := hd
        rw [unmarkInode]
        simp only [Prog.eval_bind, unmarkInum_eval, crfsLookupInode_eval]
        change (if (σ.img.ino i).isDir = true then _ else _ : FsM (Option Unit)).eval _ = _
        rw [if_pos hd']
        rfl
      rw [he]
      refine ⟨_, _, hR2.trans hR, ?_, ?_, ?_, ?_⟩
      · rintro b ((hb | rfl) | hb)
        · exact hb.elim
        · exact ⟨i, .refl, by rw [Img.blockOf, if_pos hd]⟩
        · obtain ⟨de, hde, h0, j, hj, hbj⟩ := hB b hb
          obtain ⟨k, hk⟩ := (mem_children hd).mpr ⟨h0, de, hde, rfl⟩
          exact ⟨j, Desc.trans (.step .refl hk) hj, hbj⟩
      · rintro j ((rfl | hj) | hj)
        · exact .refl
        · exact hj.elim
        · obtain ⟨de, hde, h0, hj⟩ := hN j hj
          obtain ⟨k, hk⟩ := (mem_children hd).mpr ⟨h0, de, hde, rfl⟩
          exact Desc.trans (.step .refl hk) hj
      · intro hr j b hj hb
        rcases hj.head with rfl | ⟨c, k, hk, hj⟩
        · rw [Img.blockOf, if_pos hd] at hb
          exact Or.inl (Or.inr hb)
        · obtain ⟨h0, de, hde, rfl⟩ := (mem_children hd).mp ⟨k, hk⟩
          exact Or.inr ((hall hr de hde h0 j hj).2 b hb)
      · intro hr j hj
        rcases hj.head with rfl | ⟨c, k, hk, hj⟩
        · exact Or.inl (Or.inl rfl)
        · obtain ⟨h0, de, hde, rfl⟩ := (mem_children hd).mp ⟨k, hk⟩
          exact Or.inr (hall hr de hde h0 j hj).1
    · obtain ⟨B, hR, hB, hall⟩ := unmarkChain_released walkFuel (I.ino i).inFirst
        (σ.setIm (freemapUnmark σ.im i.toNat))
      have hval : (σ.setIm (freemapUnmark σ.im i.toNat)).val = I.val := by rw [← hσ]; rfl
      have hleaf : ∀ j, Desc I.kids i j → j = i := by
        intro j hj
        rcases hj.head with rfl | ⟨c, k, hk, -⟩
        · rfl
        · exact absurd (Img.kids_eq_some.mp hk).1 hd
      have he : (unmarkInode (fuel + 1) i).eval σ =
          (unmarkChain walkFuel (I.ino i).inFirst).eval
            (σ.setIm (freemapUnmark σ.im i.toNat)) := by
        subst hσ
        have hd' : ¬ (σ.img.ino i).isDir = true := hd
        rw [unmarkInode]
        simp only [Prog.eval_bind, unmarkInum_eval, crfsLookupInode_eval]
        change (if (σ.img.ino i).isDir = true then _ else _ : FsM (Option Unit)).eval _ = _
        rw [if_neg hd']
        rfl
      rw [he]
      rw [hval] at hB hall
      refine ⟨_, _, hR1.trans hR, ?_, ?_, ?_, ?_⟩
      · rintro b (hb | hb)
        · exact hb.elim
        · exact ⟨i, .refl, by rw [Img.blockOf, if_neg hd]; exact hB b hb⟩
      · rintro j (rfl | hj)
        · exact .refl
        · exact hj.elim
      · intro hr j b hj hb
        rw [hleaf j hj, Img.blockOf, if_neg hd] at hb
        exact Or.inr (hall hr b hb)
      · intro _ j hj
        exact Or.inl (hleaf j hj)

/-! ### The walk ends -/

theorem forEach_returns {f : Dirent → FsM (Option Unit)} (es : List Dirent)
    (hf : ∀ e ∈ es, ∀ σ : Vol, σ.img = I →
      ((f e).eval σ).1 = some () ∧ Vol.img ((f e).eval σ).2 = I) :
    ∀ σ : Vol, σ.img = I → ((forEach f es).eval σ).1 = some () := by
  induction es with
  | nil => intro σ _; rfl
  | cons e es ih =>
    intro σ hσ
    obtain ⟨hr, himg⟩ := hf e List.mem_cons_self σ hσ
    rw [forEach, Prog.eval_bind, hr]
    exact ih (fun e he => hf e (List.mem_cons_of_mem _ he)) _ himg

theorem nodup_inums_length {l : List UInt16} (h : l.Nodup) : l.length ≤ 65536 := by
  have hmap : (l.map UInt16.toNat).Nodup := h.map fun _ _ => UInt16.toNat_inj.mp
  have hsub : l.map UInt16.toNat ⊆ List.range 65536 := by
    intro n hn
    obtain ⟨i, -, rfl⟩ := List.mem_map.mp hn
    exact List.mem_range.mpr i.toNat_lt
  have := (List.subperm_of_subset hmap hsub).length_le
  simpa using this

/-- In a closed part of the image without cycles and with finite file chains
`unmark_inode` returns. The list holds the nodes above `i`, all different, so the
fuel lasts. -/
theorem unmarkInode_returns {P : InodeId → Prop}
    (hkid : ∀ i k x, P i → I.kids i k = some x → P x ∧ ¬ Desc I.kids x i)
    (hch : ∀ i, P i → I.isDir i = false →
      ∃ l, IsChain I.val (I.ino i).inFirst l ∧ l.length ≤ walkFuel) (fuel : Nat) :
    ∀ (i : InodeId) (above : List InodeId) (σ : Vol), σ.img = I → P i → (i :: above).Nodup →
      (∀ e ∈ above, Desc I.kids e i) → 65536 ≤ above.length + fuel →
      ((unmarkInode fuel i).eval σ).1 = some () := by
  induction fuel with
  | zero =>
    intro i above σ _ _ hn _ hlen
    have := nodup_inums_length hn
    rw [List.length_cons] at this
    omega
  | succ fuel ih =>
    intro i above σ hσ hi hn habove hlen
    subst hσ
    rw [unmarkInode]
    simp only [Prog.eval_bind, unmarkInum_eval, crfsLookupInode_eval]
    change ((if (σ.img.ino i).isDir = true then _ else _ : FsM (Option Unit)).eval _).1 = _
    by_cases hd : σ.img.isDir i = true
    · rw [if_pos (show (σ.img.ino i).isDir = true from hd)]
      refine forEach_returns (I := σ.img) _ ?_ _ rfl
      intro e he τ hτ
      change e ∈ (σ.img.val (σ.img.ino i).inFirst).dEntries.drop 2 at he
      by_cases h0 : e.deInode = 0
      · simp only [ne_eq, h0, not_true_eq_false, if_false]
        exact ⟨rfl, hτ⟩
      · simp only [ne_eq, h0, not_false_eq_true, if_true]
        obtain ⟨k, hk⟩ := (mem_children hd).mpr ⟨h0, e, he, rfl⟩
        obtain ⟨B, N, hR, -⟩ := unmarkInode_released σ.img fuel e.deInode τ hτ
        obtain ⟨hx, hnd⟩ := hkid i k _ hi hk
        refine ⟨ih e.deInode (i :: above) τ hτ hx ?_ ?_ ?_, hR.img.trans hτ⟩
        · refine List.nodup_cons.mpr ⟨?_, hn⟩
          intro hmem
          rcases List.mem_cons.mp hmem with he | hmem
          · exact hnd (he ▸ .refl)
          · exact hnd (habove _ hmem)
        · intro c hc
          rcases List.mem_cons.mp hc with rfl | hc
          · exact .step .refl hk
          · exact .step (habove c hc) hk
        · rw [List.length_cons]
          omega
    · rw [if_neg (show ¬ (σ.img.ino i).isDir = true from hd)]
      obtain ⟨l, hl, hlen⟩ := hch i hi (by simpa using hd)
      exact unmarkChain_returns walkFuel _ l _ hl hlen

end Crfs
