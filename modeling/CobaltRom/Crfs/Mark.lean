import CobaltRom.Crfs.Mount
import CobaltRom.Crfs.Remove

/-! What `mark_inode` marks: the numbers and blocks of the subtree it is called on. -/
namespace Crfs
open WriteBack WriteBack.Prog SlotTree

namespace Freemap

variable {m m' m'' : Freemap} {S S' : Nat → Prop}

/-- `m'` is `m` with the numbers in `S` marked. -/
structure Added (m : Freemap) (S : Nat → Prop) (m' : Freemap) : Prop where
  isset : ∀ k, m'.isset k = true ↔ m.isset k = true ∨ S k ∧ k < m.limit
  freed : m'.fmFreed = m.fmFreed
  cur : m'.fmCur = m.fmCur
  size : m'.fmMapsize = m.fmMapsize
  full : m'.fmFull = m.fmFull
  stray : m'.fmStray = true ↔ m.fmStray = true ∨ ∃ k, S k ∧ m.limit ≤ k
  ok : m'.Ok

theorem Added.refl (h : m.Ok) : Added m (fun _ => False) m :=
  ⟨by simp, rfl, rfl, rfl, rfl, by simp, h⟩

theorem added_mark (h : m.Ok) (n : Nat) : Added m (· = n) (freemapMark m n) := by
  refine ⟨?_, rfl, rfl, rfl, rfl, ?_, ok_mark h n⟩
  · intro k
    rw [isset_mark h, Bool.or_eq_true, decide_eq_true_eq]
    constructor
    · rintro (hk | ⟨rfl, hk⟩)
      · exact Or.inl hk
      · exact Or.inr ⟨rfl, hk⟩
    · rintro (hk | ⟨rfl, hk⟩)
      · exact Or.inl hk
      · exact Or.inr ⟨rfl, hk⟩
  · rw [stray_mark, exists_eq_left]

theorem Added.limit (h : Added m S m') : m'.limit = m.limit := by
  rw [Freemap.limit, h.size, Freemap.limit]

theorem Added.trans (h : Added m S m') (h' : Added m' S' m'') :
    Added m (fun k => S k ∨ S' k) m'' := by
  refine ⟨?_, h'.freed.trans h.freed, h'.cur.trans h.cur, h'.size.trans h.size,
    h'.full.trans h.full, ?_, h'.ok⟩
  · intro k
    rw [h'.isset, h.isset, h.limit]
    tauto
  · rw [h'.stray, h.stray, h.limit, or_assoc, ← exists_or]
    simp only [or_and_right]

theorem Added.congr (h : Added m S m') (hS : ∀ k, S k ↔ S' k) : Added m S' m' := by
  refine ⟨fun k => ?_, h.freed, h.cur, h.size, h.full, ?_, h.ok⟩
  · rw [h.isset, hS]
  · simp only [h.stray, hS]

end Freemap

/-- The numbers of the elements of a set of 16-bit numbers. -/
def numbers (P : UInt16 → Prop) (k : Nat) : Prop := ∃ b, P b ∧ b.toNat = k

/-- From `σ` to `τ` the blocks in `B` and the inode numbers in `N` were marked. -/
structure Marked (σ : Vol) (B : BlockId → Prop) (N : InodeId → Prop) (τ : Vol) : Prop where
  val : τ.val = σ.val
  dirty : τ.dirty = σ.dirty
  super : τ.glob.superBlock = σ.glob.superBlock
  which : τ.glob.crfsWhichSuper = σ.glob.crfsWhichSuper
  bm : σ.bm.Added (numbers B) τ.bm
  im : σ.im.Added (numbers N) τ.im

variable {σ τ υ : Vol} {B B' : BlockId → Prop} {N N' : InodeId → Prop} {a b : BlockId}
  {i j : InodeId} {I : Img} {live : InodeId → Prop} {l : List BlockId}

theorem numbers_false (k : Nat) : numbers (fun _ => False) k ↔ False := by simp [numbers]

theorem numbers_toNat {P : UInt16 → Prop} {x : UInt16} : numbers P x.toNat ↔ P x := by
  constructor
  · rintro ⟨b, hb, he⟩
    exact UInt16.toNat_inj.mp he ▸ hb
  · exact fun hx => ⟨x, hx, rfl⟩

theorem numbers_or {P Q : UInt16 → Prop} (k : Nat) :
    numbers P k ∨ numbers Q k ↔ numbers (fun b => P b ∨ Q b) k := by
  constructor
  · rintro (⟨b, hb, he⟩ | ⟨b, hb, he⟩)
    · exact ⟨b, Or.inl hb, he⟩
    · exact ⟨b, Or.inr hb, he⟩
  · rintro ⟨b, hb | hb, he⟩
    · exact Or.inl ⟨b, hb, he⟩
    · exact Or.inr ⟨b, hb, he⟩

theorem numbers_congr {P Q : UInt16 → Prop} (h : ∀ b, P b ↔ Q b) (k : Nat) :
    numbers P k ↔ numbers Q k := by
  simp only [numbers, h]

theorem Marked.img (h : Marked σ B N τ) : τ.img = σ.img := by
  rw [Vol.img, h.val, h.super, Vol.img]

theorem Marked.refl (hb : σ.bm.Ok) (hi : σ.im.Ok) :
    Marked σ (fun _ => False) (fun _ => False) σ :=
  ⟨rfl, rfl, rfl, rfl, (Freemap.Added.refl hb).congr fun k => (numbers_false k).symm,
    (Freemap.Added.refl hi).congr fun k => (numbers_false k).symm⟩

theorem Marked.trans (h : Marked σ B N τ) (h' : Marked τ B' N' υ) :
    Marked σ (fun b => B b ∨ B' b) (fun i => N i ∨ N' i) υ :=
  ⟨h'.val.trans h.val, h'.dirty.trans h.dirty, h'.super.trans h.super, h'.which.trans h.which,
    (h.bm.trans h'.bm).congr numbers_or, (h.im.trans h'.im).congr numbers_or⟩

theorem Marked.congr (h : Marked σ B N τ) (hB : ∀ b, B b ↔ B' b) (hN : ∀ i, N i ↔ N' i) :
    Marked σ B' N' τ :=
  ⟨h.val, h.dirty, h.super, h.which, h.bm.congr (numbers_congr hB), h.im.congr (numbers_congr hN)⟩

theorem numbers_single (x : UInt16) (k : Nat) : k = x.toNat ↔ numbers (· = x) k := by
  constructor
  · rintro rfl
    exact ⟨x, rfl, rfl⟩
  · rintro ⟨b, rfl, rfl⟩
    rfl

theorem marked_block (hb : σ.bm.Ok) (hi : σ.im.Ok) (b : BlockId) :
    Marked σ (· = b) (fun _ => False) (σ.setBm (freemapMark σ.bm b.toNat)) :=
  ⟨rfl, rfl, rfl, rfl, (Freemap.added_mark hb _).congr (numbers_single b),
    (Freemap.Added.refl hi).congr fun k => (numbers_false k).symm⟩

theorem marked_inum (hb : σ.bm.Ok) (hi : σ.im.Ok) (i : InodeId) :
    Marked σ (fun _ => False) (· = i) (σ.setIm (freemapMark σ.im i.toNat)) :=
  ⟨rfl, rfl, rfl, rfl, (Freemap.Added.refl hb).congr fun k => (numbers_false k).symm,
    (Freemap.added_mark hi _).congr (numbers_single i)⟩

/-! ### What the walk reads -/

theorem markBlock_touches (b : BlockId) (σ : Vol) (x : BlockId) : ¬ (markBlock b).Touches σ x := by
  simp [markBlock]

theorem markInum_touches (i : InodeId) (σ : Vol) (x : BlockId) : ¬ (markInum i).Touches σ x := by
  simp [markInum]

theorem crfsReadBlock_touches (b : BlockId) (σ : Vol) (x : BlockId) :
    (crfsReadBlock b).Touches σ x ↔ x = b := touches_readAt _ _ _

theorem crfsLookupInode_touches (i : InodeId) (σ : Vol) (x : BlockId) :
    (crfsLookupInode i).Touches σ x ↔ x = σ.tableOf i := by
  rw [crfsLookupInode]
  simp only [touches_bind, touches_getGlob, crfsReadBlock_touches, touches_pure, or_false,
    false_or]
  rfl

/-- A loop over calls that read nothing reads nothing. -/
theorem forEach_touches_none {α : Type} {f : α → FsM (Option Unit)}
    (h : ∀ (a : α) (σ : Vol) (x : BlockId), ¬ (f a).Touches σ x) (l : List α) :
    ∀ (σ : Vol) (x : BlockId), ¬ (forEach f l).Touches σ x := by
  induction l with
  | nil => exact fun σ x => (touches_pure σ _ x).mp
  | cons a l ih =>
    intro σ x
    rw [forEach, touches_bind]
    rintro (hx | hx)
    · exact h a σ x hx
    · cases hr : ((f a).eval σ).1 with
      | none =>
        rw [hr] at hx
        exact hx
      | some u =>
        rw [hr] at hx
        exact ih _ x hx

/-- A chain that ends is marked from end to end. -/
theorem markChain_marked (fuel : Nat) : ∀ (a : BlockId) (l : List BlockId) (σ : Vol),
    IsChain σ.val a l → l.length ≤ fuel → σ.bm.Ok → σ.im.Ok →
    ∃ τ, (markChain fuel a).eval σ = (some (), τ) ∧ Marked σ (· ∈ l) (fun _ => False) τ := by
  induction fuel with
  | zero =>
    intro a l σ h hl hb hi
    cases l with
    | nil =>
      have h0 : a = 0 := h
      exact ⟨σ, by simp [markChain, h0], (Marked.refl hb hi).congr (by simp) (by simp)⟩
    | cons b l => simp at hl
  | succ fuel ih =>
    intro a l σ h hl hb hi
    cases l with
    | nil =>
      have h0 : a = 0 := h
      exact ⟨σ, by simp [markChain, h0], (Marked.refl hb hi).congr (by simp) (by simp)⟩
    | cons b l =>
      obtain ⟨rfl, h0, hrest⟩ := h
      have hm := marked_block hb hi a
      obtain ⟨τ, he, ht⟩ := ih _ l (σ.setBm (freemapMark σ.bm a.toNat)) hrest (by simpa using hl)
        hm.bm.ok hi
      refine ⟨τ, ?_, (hm.trans ht).congr (by simp) (by simp)⟩
      rw [markChain, if_neg h0]
      exact he

/-- The call `mark_inode` makes for an entry. -/
def markEntry (fuel : Nat) (de : Dirent) : FsM (Option Unit) := do
  let g ← Prog.getGlob
  if de.deInode ≠ 0 ∧ g.inodeFreemap.isset de.deInode.toNat = false
  then markInode fuel de.deInode else pure (some ())

theorem markEntry_eval (fuel : Nat) (de : Dirent) (σ : Vol) : (markEntry fuel de).eval σ =
    if de.deInode ≠ 0 ∧ σ.im.isset de.deInode.toNat = false
    then (markInode fuel de.deInode).eval σ else (some (), σ) := by
  rw [markEntry, Prog.eval_bind, Prog.eval_ite]
  rfl

theorem markInode_dir {fuel : Nat} (hd : σ.img.isDir i = true) : (markInode (fuel + 1) i).eval σ =
    (forEach (markEntry fuel) ((List.range 64).map (σ.img.ent i))).eval
      ((σ.setIm (freemapMark σ.im i.toNat)).setBm
        (freemapMark σ.bm (σ.img.ino i).inFirst.toNat)) := by
  rw [markInode]
  simp only [Prog.eval_bind, markInum_eval, crfsLookupInode_eval]
  change (if (σ.img.ino i).isDir = true then _ else _ : FsM (Option Unit)).eval _ = _
  rw [if_pos (show (σ.img.ino i).isDir = true from hd)]
  rfl

theorem markInode_file {fuel : Nat} (hd : ¬ σ.img.isDir i = true) :
    (markInode (fuel + 1) i).eval σ = (markChain walkFuel (σ.img.ino i).inFirst).eval
      (σ.setIm (freemapMark σ.im i.toNat)) := by
  rw [markInode]
  simp only [Prog.eval_bind, markInum_eval, crfsLookupInode_eval]
  change (if (σ.img.ino i).isDir = true then _ else _ : FsM (Option Unit)).eval _ = _
  rw [if_neg (show ¬ (σ.img.ino i).isDir = true from hd)]
  rfl

/-- What a walk over the subtree of `i` marks. -/
def below (I : Img) (i : InodeId) (b : BlockId) : Prop := ∃ j, Desc I.kids i j ∧ I.blockOf j b

/-- The walk over some of the entries of directory `i`. The entries "." and ".." are
marked already, and the subtrees of the other entries are apart. -/
theorem forEach_mark {fuel : Nat} (h : Treed I live) (hi : live i) (hdir : I.isDir i = true)
    (ih : ∀ (c : InodeId) (k : Nat) (σ : Vol), I.kids i k = some c → σ.img = I → σ.bm.Ok →
      σ.im.Ok → σ.im.limit = 65536 → σ.im.isset i.toNat = true →
      (∀ x, Desc I.kids c x → σ.im.isset x.toNat = false) →
      ∃ τ, (markInode fuel c).eval σ = (some (), τ) ∧ Marked σ (below I c) (Desc I.kids c) τ)
    (ks : List Nat) : ∀ σ : Vol, σ.img = I → σ.bm.Ok → σ.im.Ok → σ.im.limit = 65536 → ks.Nodup →
      (∀ k ∈ ks, k < 64) → σ.im.isset i.toNat = true →
      σ.im.isset (I.ent i 1).deInode.toNat = true →
      (∀ k ∈ ks, ∀ c, I.kids i k = some c → ∀ x, Desc I.kids c x → σ.im.isset x.toNat = false) →
      ∃ τ, (forEach (markEntry fuel) (ks.map (I.ent i))).eval σ = (some (), τ) ∧
        Marked σ (fun b => ∃ k ∈ ks, ∃ c, I.kids i k = some c ∧ below I c b)
          (fun x => ∃ k ∈ ks, ∃ c, I.kids i k = some c ∧ Desc I.kids c x) τ := by
  induction ks with
  | nil =>
    intro σ _ hb him _ _ _ _ _ _
    exact ⟨σ, rfl, (Marked.refl hb him).congr (by simp) (by simp)⟩
  | cons k ks ihks =>
    intro σ hσ hb him hlim hnd hlt hset hup hfree
    obtain ⟨hk, hnd⟩ := List.nodup_cons.mp hnd
    have hk64 : k < 64 := hlt k List.mem_cons_self
    -- what the call for entry `k` marks
    obtain ⟨υ, he, hm⟩ : ∃ υ, (markEntry fuel (I.ent i k)).eval σ = (some (), υ) ∧
        Marked σ (fun b => ∃ c, I.kids i k = some c ∧ below I c b)
          (fun x => ∃ c, I.kids i k = some c ∧ Desc I.kids c x) υ := by
      rw [markEntry_eval]
      by_cases hkid : ∃ c, I.kids i k = some c
      · obtain ⟨c, hc⟩ := hkid
        obtain ⟨-, -, -, h0, hent⟩ := Img.kids_eq_some.mp hc
        have hcf := hfree k List.mem_cons_self c hc
        rw [hent, if_pos ⟨h0, hcf c .refl⟩]
        obtain ⟨υ, he, hm⟩ := ih c k σ hc hσ hb him hlim hset hcf
        refine ⟨υ, he, hm.congr ?_ ?_⟩
        · intro b
          simp [hc]
        · intro x
          simp [hc]
      · have hskip : ¬ ((I.ent i k).deInode ≠ 0 ∧
            σ.im.isset (I.ent i k).deInode.toNat = false) := by
          rintro ⟨h0, hclear⟩
          have hk2 : k < 2 := by
            by_contra h2
            exact hkid ⟨_, Img.kids_eq_some.mpr ⟨hdir, by omega, hk64, h0, rfl⟩⟩
          interval_cases k
          · rw [(h.dirOk i hi hdir).dot.1, hset] at hclear
            cases hclear
          · rw [hup] at hclear
            cases hclear
        rw [if_neg hskip]
        refine ⟨σ, rfl, (Marked.refl hb him).congr ?_ ?_⟩
        · intro b
          constructor
          · exact False.elim
          · rintro ⟨c, hc, -⟩
            exact hkid ⟨c, hc⟩
        · intro x
          constructor
          · exact False.elim
          · rintro ⟨c, hc, -⟩
            exact hkid ⟨c, hc⟩
    obtain ⟨τ, he', hm'⟩ := ihks υ (hm.img.trans hσ) hm.bm.ok hm.im.ok
      (hm.im.limit.trans hlim) hnd
      (fun l hl => hlt l (List.mem_cons_of_mem _ hl)) ((hm.im.isset _).mpr (Or.inl hset))
      ((hm.im.isset _).mpr (Or.inl hup)) (by
        intro l hl c hc x hx
        rw [Bool.eq_false_iff]
        intro hx1
        rcases (hm.im.isset _).mp hx1 with hx1 | ⟨hx1, -⟩
        · rw [hfree l (List.mem_cons_of_mem _ hl) c hc x hx] at hx1
          cases hx1
        · obtain ⟨c', hc', hx'⟩ := numbers_toNat.mp hx1
          exact hk (h.tree.kids_disjoint hi hc' hc hx' hx ▸ hl))
    refine ⟨τ, ?_, (hm.trans hm').congr ?_ ?_⟩
    · rw [List.map_cons, forEach, Prog.eval_bind, he]
      exact he'
    · intro b
      simp only [List.mem_cons, exists_eq_or_imp]
    · intro x
      simp only [List.mem_cons, exists_eq_or_imp]

/-- On a tree with finite file chains `mark_inode` returns and has marked the
subtree. The list holds the nodes above `i`, all different, so the fuel lasts. -/
theorem markInode_marked (h : Treed I live)
    (hch : ∀ i, live i → I.isDir i = false → ∃ l, IsChain I.val (I.ino i).inFirst l)
    (fuel : Nat) : ∀ (i : InodeId) (above : List InodeId) (σ : Vol), σ.img = I → live i →
      σ.bm.Ok → σ.im.Ok → σ.im.limit = 65536 →
      (I.isDir i = true → (I.ent i 1).deInode = i ∨ σ.im.isset (I.ent i 1).deInode.toNat = true) →
      (∀ x, Desc I.kids i x → x ≠ i → σ.im.isset x.toNat = false) →
      (i :: above).Nodup → (∀ e ∈ above, Desc I.kids e i) → 65536 ≤ above.length + fuel →
      ∃ τ, (markInode fuel i).eval σ = (some (), τ) ∧
        Marked σ (below I i) (Desc I.kids i) τ := by
  induction fuel with
  | zero =>
    intro i above σ _ _ _ _ _ _ _ hn _ hlen
    have := nodup_inums_length hn
    rw [List.length_cons] at this
    omega
  | succ fuel ih =>
    intro i above σ hσ hi hb him hlim hup hfree hn habove hlen
    subst hσ
    have hm := marked_inum hb him i
    have hself : (freemapMark σ.im i.toNat).isset i.toNat = true :=
      (hm.im.isset _).mpr (Or.inr ⟨numbers_toNat.mpr rfl, by rw [hlim]; exact i.toNat_lt⟩)
    by_cases hd : σ.img.isDir i = true
    · rw [markInode_dir hd]
      have hm2 := hm.trans (marked_block hm.bm.ok hm.im.ok (σ.img.ino i).inFirst)
      have hset : ∀ x : InodeId, (freemapMark σ.im i.toNat).isset x.toNat = true ↔
          σ.im.isset x.toNat = true ∨ x = i := by
        intro x
        constructor
        · intro hx
          exact ((hm.im.isset _).mp hx).imp_right fun hx => (numbers_toNat (P := (· = i))).mp hx.1
        · rintro (hx | rfl)
          · exact (hm.im.isset _).mpr (Or.inl hx)
          · exact hself
      have hwalk : ∀ (c : InodeId) (k : Nat) (υ : Vol), σ.img.kids i k = some c → υ.img = σ.img →
          υ.bm.Ok → υ.im.Ok → υ.im.limit = 65536 → υ.im.isset i.toNat = true →
          (∀ x, Desc σ.img.kids c x → υ.im.isset x.toNat = false) →
          ∃ τ, (markInode fuel c).eval υ = (some (), τ) ∧
            Marked υ (below σ.img c) (Desc σ.img.kids c) τ := by
        intro c k υ hc himg hbo hio hil hseti hcf
        have hnot := h.tree.not_desc_kid hi hc
        refine ih c (i :: above) υ himg (h.tree.kid_live i k c hi hc) hbo hio hil ?_
          (fun x hx _ => hcf x hx) ?_ ?_ (by rw [List.length_cons]; omega)
        · intro hcd
          rw [h.upKid i k c hi hc hcd]
          exact Or.inr hseti
        · refine List.nodup_cons.mpr ⟨?_, hn⟩
          intro hmem
          rcases List.mem_cons.mp hmem with he | hmem
          · exact hnot (he ▸ .refl)
          · exact hnot (habove _ hmem)
        · intro e he
          rcases List.mem_cons.mp he with rfl | he
          · exact .step .refl hc
          · exact .step (habove e he) hc
      have hdots : (freemapMark σ.im i.toNat).isset (σ.img.ent i 1).deInode.toNat = true := by
        refine (hset _).mpr ?_
        rcases hup hd with he | hs
        · exact Or.inr he
        · exact Or.inl hs
      have hclear : ∀ k ∈ List.range 64, ∀ c, σ.img.kids i k = some c → ∀ x,
          Desc σ.img.kids c x → (freemapMark σ.im i.toNat).isset x.toNat = false := by
        intro k _ c hc x hx
        rw [Bool.eq_false_iff]
        intro hx1
        have hxi : x ≠ i := by
          rintro rfl
          exact h.tree.not_desc_kid hi hc hx
        rcases (hset x).mp hx1 with hx1 | hx1
        · rw [hfree x (Desc.trans (.step .refl hc) hx) hxi] at hx1
          cases hx1
        · exact hxi hx1
      obtain ⟨τ, he, hτ⟩ := forEach_mark h hi hd hwalk (List.range 64)
        ((σ.setIm (freemapMark σ.im i.toNat)).setBm
          (freemapMark σ.bm (σ.img.ino i).inFirst.toNat)) hm2.img hm2.bm.ok hm2.im.ok hlim
        List.nodup_range (by simp) hself hdots hclear
      refine ⟨τ, he, (hm2.trans hτ).congr ?_ ?_⟩
      · intro b
        constructor
        · rintro ((hb | rfl) | ⟨k, -, c, hc, j, hj, hb⟩)
          · exact hb.elim
          · exact ⟨i, .refl, by rw [Img.blockOf, if_pos hd]⟩
          · exact ⟨j, Desc.trans (.step .refl hc) hj, hb⟩
        · rintro ⟨j, hj, hb⟩
          rcases hj.head with rfl | ⟨c, k, hk, hj⟩
          · rw [Img.blockOf, if_pos hd] at hb
            exact Or.inl (Or.inr hb)
          · have h64 := (Img.kids_eq_some.mp hk).2.2.1
            exact Or.inr ⟨k, List.mem_range.mpr h64, c, hk, j, hj, hb⟩
      · intro x
        constructor
        · rintro ((rfl | hx) | ⟨k, -, c, hc, hx⟩)
          · exact .refl
          · exact hx.elim
          · exact Desc.trans (.step .refl hc) hx
        · intro hx
          rcases hx.head with rfl | ⟨c, k, hk, hx⟩
          · exact Or.inl (Or.inl rfl)
          · have h64 := (Img.kids_eq_some.mp hk).2.2.1
            exact Or.inr ⟨k, List.mem_range.mpr h64, c, hk, hx⟩
    · rw [markInode_file hd]
      obtain ⟨l, hl⟩ := hch i hi (by simpa using hd)
      obtain ⟨τ, he, hτ⟩ := markChain_marked walkFuel _ l (σ.setIm (freemapMark σ.im i.toNat)) hl
        (nodup_inums_length hl.nodup) hm.bm.ok hm.im.ok
      have hleaf : ∀ j, Desc σ.img.kids i j ↔ j = i := by
        intro j
        constructor
        · intro hj
          rcases hj.head with rfl | ⟨c, k, hk, -⟩
          · rfl
          · exact absurd (Img.kids_eq_some.mp hk).1 hd
        · rintro rfl
          exact .refl
      refine ⟨τ, he, (hm.trans hτ).congr ?_ ?_⟩
      · intro b
        simp only [below, hleaf, exists_eq_left, Img.blockOf, if_neg hd, false_or]
        exact (IsChain.onChain_iff hl).symm
      · intro j
        simp only [hleaf, or_false]

end Crfs
