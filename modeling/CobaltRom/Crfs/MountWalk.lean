import CobaltRom.Crfs.Format

/-! Mounting an image of any content: when the walk of `mark_inode` ends. -/
namespace Crfs
open WriteBack WriteBack.Prog LinkChain

/-- The entry in slot `k` of directory `i` names inode `j`; "." and ".." count too. -/
def Img.Edge (I : Img) (i j : InodeId) : Prop :=
  I.isDir i = true ∧ ∃ k < 64, (I.ent i k).deInode = j ∧ j ≠ 0

/-- The chain that starts at `a` ends. -/
def Img.Ends (I : Img) (a : BlockId) : Prop := ∃ l, IsChain I.val a l

/-- The inode numbers that are not marked yet. -/
def Freemap.unmarked (m : Freemap) : Nat :=
  ((Finset.range 65536).filter fun k => m.isset k = false).card

/-- From `σ` to `τ` only marks were set. -/
structure Walked (σ τ : Vol) : Prop where
  img : τ.img = σ.img
  ok : τ.im.Ok
  limit : τ.im.limit = 65536
  mono : ∀ k, σ.im.isset k = true → τ.im.isset k = true

/-- Everything directory `j` names is marked, or the blocks of file `j` are finite. -/
def Settled (I : Img) (τ : Vol) (j : InodeId) : Prop :=
  (∀ i, I.Edge j i → τ.im.isset i.toNat = true) ∧
    (I.isDir j = false → I.Ends (I.ino j).inFirst)

/-- A walk from `i` came back with everything it marked settled, or it ran into a file
whose chain does not end. -/
def WalkResult (I : Img) (i : InodeId) (σ : Vol) (r : Option Unit) (τ : Vol) : Prop :=
  Walked σ τ ∧
    ((r = some () ∧ τ.im.isset i.toNat = true ∧
      ∀ j : InodeId, τ.im.isset j.toNat = true → σ.im.isset j.toNat = false ∨ j = i →
        Settled I τ j) ∨
    (r = none ∧ ∃ j, Relation.ReflTransGen I.Edge i j ∧ I.isDir j = false ∧
      ¬ I.Ends (I.ino j).inFirst))

variable {σ τ υ : Vol} {I : Img} {i j : InodeId} {a : BlockId} {r : Option Unit} {m : Freemap}
  {sb : Block} {which : Int} {c : Machine}

theorem Walked.refl (hok : σ.im.Ok) (hl : σ.im.limit = 65536) : Walked σ σ :=
  ⟨rfl, hok, hl, fun _ h => h⟩

theorem Walked.trans (h : Walked σ τ) (h' : Walked τ υ) : Walked σ υ :=
  ⟨h'.img.trans h.img, h'.ok, h'.limit, fun k hk => h'.mono k (h.mono k hk)⟩

theorem Walked.unmarked_le (h : Walked σ τ) : τ.im.unmarked ≤ σ.im.unmarked := by
  refine Finset.card_le_card ?_
  intro k hk
  rw [Finset.mem_filter] at hk ⊢
  refine ⟨hk.1, ?_⟩
  rw [Bool.eq_false_iff]
  intro hset
  rw [h.mono k hset] at hk
  cases hk.2

/-- Marking a number that was not marked leaves fewer. -/
theorem Freemap.unmarked_mark (hok : m.Ok) (hl : m.limit = 65536) (hi : m.isset i.toNat = false) :
    (freemapMark m i.toNat).unmarked < m.unmarked := by
  have hlt := i.toNat_lt
  have hmark := (Freemap.added_mark hok i.toNat).isset
  refine Finset.card_lt_card ⟨?_, ?_⟩
  · intro k hk
    rw [Finset.mem_filter] at hk ⊢
    refine ⟨hk.1, ?_⟩
    rw [Bool.eq_false_iff]
    intro hset
    rw [(hmark k).mpr (Or.inl hset)] at hk
    cases hk.2
  · intro hsub
    have hmem := hsub (Finset.mem_filter.mpr ⟨Finset.mem_range.mpr hlt, hi⟩)
    rw [Finset.mem_filter, (hmark i.toNat).mpr (Or.inr ⟨rfl, by rw [hl]; exact hlt⟩)] at hmem
    cases hmem.2

theorem walked_mark (hok : σ.im.Ok) (hl : σ.im.limit = 65536) (i : InodeId) :
    Walked σ (σ.setIm (freemapMark σ.im i.toNat)) := by
  have h := Freemap.added_mark hok i.toNat
  exact ⟨rfl, h.ok, h.limit.trans hl, fun k hk => (h.isset k).mpr (Or.inl hk)⟩

/-! ### Chains -/

/-- The loop over a chain marks blocks only, and returns exactly if the chain ends
within its bound. -/
theorem markChain_eval (fuel : Nat) : ∀ (a : BlockId) (σ : Vol), ∃ m : Freemap,
    (markChain fuel a).eval σ = (((markChain fuel a).eval σ).1, σ.setBm m) ∧
      (((markChain fuel a).eval σ).1 = some () ↔ ∃ l, IsChain σ.val a l ∧ l.length ≤ fuel) := by
  induction fuel with
  | zero =>
    intro a σ
    refine ⟨σ.bm, rfl, ?_⟩
    by_cases ha : a = 0
    · refine ⟨fun _ => ⟨[], ha, Nat.le_refl _⟩, fun _ => ?_⟩
      rw [markChain, if_pos ha]
      rfl
    · constructor
      · intro h
        rw [markChain, if_neg ha] at h
        cases h
      · rintro ⟨l, hl, hlen⟩
        rw [List.length_eq_zero_iff.mp (Nat.le_zero.mp hlen)] at hl
        exact absurd hl ha
  | succ fuel ih =>
    intro a σ
    rw [markChain]
    by_cases ha : a = 0
    · rw [if_pos ha]
      exact ⟨σ.bm, rfl, fun _ => ⟨[], ha, Nat.zero_le _⟩, fun _ => rfl⟩
    · rw [if_neg ha, Prog.eval_bind, markBlock_eval, Prog.eval_bind, crfsReadBlock_eval]
      obtain ⟨m, he, hiff⟩ := ih (σ.val a).fbNext (σ.setBm (freemapMark σ.bm a.toNat))
      refine ⟨m, he, hiff.trans ?_⟩
      constructor
      · rintro ⟨l, hl, hlen⟩
        exact ⟨a :: l, ⟨rfl, ha, hl⟩, Nat.succ_le_succ hlen⟩
      · rintro ⟨l, hl, hlen⟩
        cases l with
        | nil => exact absurd hl ha
        | cons b l =>
          obtain ⟨rfl, -, hl⟩ := hl
          exact ⟨l, hl, Nat.le_of_succ_le_succ hlen⟩

/-- A chain that ends is not longer than there are block numbers. -/
theorem markChain_returns (a : BlockId) (σ : Vol) :
    ((markChain walkFuel a).eval σ).1 = some () ↔ σ.img.Ends a := by
  obtain ⟨m, -, hiff⟩ := markChain_eval walkFuel a σ
  rw [hiff]
  exact ⟨fun ⟨l, hl, _⟩ => ⟨l, hl⟩, fun ⟨l, hl⟩ => ⟨l, hl, nodup_inums_length hl.nodup⟩⟩

/-! ### Directories -/

/-- The walk over a list of entries. -/
theorem forEach_walk {fuel : Nat}
    (ih : ∀ (i : InodeId) (σ : Vol), σ.img = I → σ.im.Ok → σ.im.limit = 65536 →
      (freemapMark σ.im i.toNat).unmarked < fuel →
      ∃ (r : Option Unit) (τ : Vol), (markInode fuel i).eval σ = (r, τ) ∧ WalkResult I i σ r τ)
      (es : List Dirent) :
    ∀ σ : Vol, σ.img = I → σ.im.Ok → σ.im.limit = 65536 → σ.im.unmarked ≤ fuel →
      ∃ (r : Option Unit) (τ : Vol), (forEach (markEntry fuel) es).eval σ = (r, τ) ∧ Walked σ τ ∧
        ((r = some () ∧ (∀ de ∈ es, de.deInode ≠ 0 → τ.im.isset de.deInode.toNat = true) ∧
          ∀ j : InodeId, τ.im.isset j.toNat = true → σ.im.isset j.toNat = false → Settled I τ j) ∨
        (r = none ∧ ∃ de ∈ es, de.deInode ≠ 0 ∧ ∃ j, Relation.ReflTransGen I.Edge de.deInode j ∧
          I.isDir j = false ∧ ¬ I.Ends (I.ino j).inFirst)) := by
  induction es with
  | nil =>
    intro σ _ hok hl _
    refine ⟨some (), σ, rfl, Walked.refl hok hl, Or.inl ⟨rfl, by simp, ?_⟩⟩
    intro j hj hj'
    rw [hj] at hj'
    cases hj'
  | cons de es ihes =>
    intro σ himg hok hl hu
    rw [forEach, Prog.eval_bind, markEntry_eval]
    by_cases hmark : de.deInode ≠ 0 ∧ σ.im.isset de.deInode.toNat = false
    · rw [if_pos hmark]
      have hlt := Freemap.unmarked_mark hok hl hmark.2
      obtain ⟨r, τ, he, hw, hr⟩ := ih de.deInode σ himg hok hl (by omega)
      rw [he]
      rcases hr with ⟨rfl, hset, hdone⟩ | ⟨rfl, j, hreach, hj⟩
      · obtain ⟨r, υ, he', hw', hr'⟩ := ihes τ (hw.img.trans himg) hw.ok hw.limit
          (hw.unmarked_le.trans hu)
        refine ⟨r, υ, he', hw.trans hw', ?_⟩
        rcases hr' with ⟨rfl, hall, hdone'⟩ | ⟨rfl, de', hde', hne, hbad⟩
        · left
          refine ⟨rfl, ?_, ?_⟩
          · intro de' hde' hne
            rcases List.mem_cons.mp hde' with rfl | hde'
            · exact hw'.mono _ hset
            · exact hall de' hde' hne
          · intro j hj hj'
            cases hτ : Freemap.isset τ.glob.inodeFreemap j.toNat with
            | true =>
              obtain ⟨h1, h2⟩ := hdone j hτ (Or.inl hj')
              exact ⟨fun i hi => hw'.mono _ (h1 i hi), h2⟩
            | false => exact hdone' j hj hτ
        · exact Or.inr ⟨rfl, de', List.mem_cons_of_mem _ hde', hne, hbad⟩
      · exact ⟨none, τ, rfl, hw, Or.inr ⟨rfl, de, List.mem_cons_self, hmark.1, j, hreach, hj⟩⟩
    · rw [if_neg hmark]
      obtain ⟨r, υ, he', hw', hr'⟩ := ihes σ himg hok hl hu
      refine ⟨r, υ, he', hw', ?_⟩
      rcases hr' with ⟨rfl, hall, hdone'⟩ | ⟨rfl, de', hde', hne, hbad⟩
      · left
        refine ⟨rfl, ?_, hdone'⟩
        intro de' hde' hne
        rcases List.mem_cons.mp hde' with rfl | hde'
        · refine hw'.mono _ ?_
          exact Bool.of_not_eq_false fun hset => hmark ⟨hne, hset⟩
        · exact hall de' hde' hne
      · exact Or.inr ⟨rfl, de', List.mem_cons_of_mem _ hde', hne, hbad⟩

/-- With fuel for every unmarked number `mark_inode` ends as the chains allow. -/
theorem markInode_walk (I : Img) (fuel : Nat) : ∀ (i : InodeId) (σ : Vol), σ.img = I → σ.im.Ok →
    σ.im.limit = 65536 → (freemapMark σ.im i.toNat).unmarked < fuel →
    ∃ (r : Option Unit) (τ : Vol), (markInode fuel i).eval σ = (r, τ) ∧ WalkResult I i σ r τ := by
  induction fuel with
  | zero => exact fun _ _ _ _ _ h => absurd h (Nat.not_lt_zero _)
  | succ fuel ih =>
    intro i σ himg hok hl hu
    have hmark := walked_mark hok hl i
    have hself : (σ.setIm (freemapMark σ.im i.toNat)).im.isset i.toNat = true :=
      ((Freemap.added_mark hok i.toNat).isset _).mpr
        (Or.inr ⟨rfl, by rw [hl]; exact i.toNat_lt⟩)
    have hother : ∀ j : InodeId, j ≠ i → σ.im.isset j.toNat = false →
        (σ.setIm (freemapMark σ.im i.toNat)).im.isset j.toNat = false := by
      intro j hj hset
      rw [Bool.eq_false_iff]
      intro hset'
      rcases ((Freemap.added_mark hok i.toNat).isset _).mp hset' with h | ⟨h, -⟩
      · rw [hset] at h
        cases h
      · exact hj (UInt16.toNat_inj.mp h)
    by_cases hd : σ.img.isDir i = true
    · rw [markInode_dir hd]
      have hdI : I.isDir i = true := by rwa [himg] at hd
      obtain ⟨r, τ, he, hw, hr⟩ := forEach_walk ih ((List.range 64).map (σ.img.ent i))
        ((σ.setIm (freemapMark σ.im i.toNat)).setBm (freemapMark σ.bm (σ.img.ino i).inFirst.toNat))
        himg hmark.ok hmark.limit (Nat.le_of_lt_succ hu)
      have hw' : Walked σ τ := hmark.trans ⟨hw.img, hw.ok, hw.limit, hw.mono⟩
      refine ⟨r, τ, he, hw', ?_⟩
      rcases hr with ⟨rfl, hall, hdone⟩ | ⟨rfl, de, hde, hne, j, hreach, hj⟩
      · refine Or.inl ⟨rfl, hw.mono _ hself, ?_⟩
        intro j hj hnew
        by_cases hji : j = i
        · subst hji
          refine ⟨?_, fun hf => by rw [hdI] at hf; cases hf⟩
          rintro x ⟨-, k, hk, rfl, hx⟩
          rw [← himg] at hx ⊢
          exact hall _ (List.mem_map.mpr ⟨k, List.mem_range.mpr hk, rfl⟩) hx
        · exact hdone j hj (hother j hji (hnew.resolve_right hji))
      · obtain ⟨k, hk, rfl⟩ := List.mem_map.mp hde
        refine Or.inr ⟨rfl, j, ?_, hj⟩
        rw [himg] at hreach hne
        exact Relation.ReflTransGen.head ⟨hdI, k, List.mem_range.mp hk, rfl, hne⟩ hreach
    · rw [markInode_file hd]
      have hdI : I.isDir i = false := by
        rw [← himg]
        exact Bool.of_not_eq_true hd
      obtain ⟨m, he, -⟩ := markChain_eval walkFuel (σ.img.ino i).inFirst
        (σ.setIm (freemapMark σ.im i.toNat))
      have hiff := markChain_returns (σ.img.ino i).inFirst (σ.setIm (freemapMark σ.im i.toNat))
      rw [show (σ.setIm (freemapMark σ.im i.toNat)).img = I from himg, himg] at hiff
      rw [himg] at he ⊢
      refine ⟨_, _, he, ⟨hmark.img, hmark.ok, hmark.limit, hmark.mono⟩, ?_⟩
      by_cases hends : I.Ends (I.ino i).inFirst
      · refine Or.inl ⟨hiff.mpr hends, hself, ?_⟩
        intro j hj hnew
        have hji : j = i := by
          by_contra hji
          have hset := hother j hji (hnew.resolve_right hji)
          rw [show (σ.setIm (freemapMark σ.im i.toNat)).im.isset j.toNat = true from hj] at hset
          cases hset
        subst hji
        refine ⟨?_, fun _ => hends⟩
        rintro x ⟨hdir, -⟩
        rw [hdI] at hdir
        cases hdir
      · refine Or.inr ⟨?_, i, .refl, hdI, hends⟩
        have hne : ((markChain walkFuel (I.ino i).inFirst).eval
            (σ.setIm (freemapMark σ.im i.toNat))).1 ≠ some () := fun h => hends (hiff.mp h)
        exact Option.eq_none_iff_forall_ne_some.mpr fun _ h => hne h

/-! ### Mounting -/

/-- The inodes marking can reach from the root. -/
def Img.Reached (I : Img) (i : InodeId) : Prop := Relation.ReflTransGen I.Edge I.root i

theorem Freemap.unmarked_le (m : Freemap) : m.unmarked ≤ 65536 := by
  have h := Finset.card_filter_le (Finset.range 65536) fun k => m.isset k = false
  rwa [Finset.card_range] at h

/-- A walk that came back from the root has settled every inode it can reach. -/
theorem settled_reached {r : InodeId} (hset : τ.im.isset r.toNat = true)
    (hdone : ∀ j : InodeId, τ.im.isset j.toNat = true → j ≠ 0 ∨ j = r → Settled I τ j)
    (hi : Relation.ReflTransGen I.Edge r i) : τ.im.isset i.toNat = true ∧ Settled I τ i := by
  induction hi with
  | refl => exact ⟨hset, hdone r hset (Or.inr rfl)⟩
  | tail _ he ih =>
    have hmarked := ih.2.1 _ he
    obtain ⟨-, k, -, -, hne⟩ := he
    exact ⟨hmarked, hdone _ hmarked (Or.inl hne)⟩

/-- The marking of `crfs_init` ends exactly if every file it reaches has a finite chain. -/
theorem mountBody_returns (hb : σ.bm.Ok) (hi : σ.im.Ok) (hlim : σ.im.limit = 65536)
    (hsb : σ.glob.superBlock = sb) (hzero : ∀ x : InodeId, σ.im.isset x.toNat = false) :
    ((mountBody sb).eval σ).1 ≠ none ↔
      ∀ i, σ.img.Reached i → σ.img.isDir i = false → σ.img.Ends (σ.img.ino i).inFirst := by
  obtain ⟨σ₁, hm, he, -⟩ := mountBody_start hb hi hsb
  subst hsb
  have hle := (freemapMark σ₁.im σ.img.root.toNat).unmarked_le
  obtain ⟨r, τ, hwalk, -, hr⟩ := markInode_walk σ.img (walkFuel + 1) σ.img.root σ₁ hm.img hm.im.ok
    (hm.im.limit.trans hlim) (by simp only [walkFuel]; omega)
  have hzero' : ∀ j : InodeId, j ≠ 0 → σ₁.im.isset j.toNat = false := by
    intro j hj
    rw [Bool.eq_false_iff]
    intro hset
    rcases (hm.im.isset _).mp hset with h | ⟨h, -⟩
    · rw [hzero] at h
      cases h
    · exact hj ((numbers_toNat (P := fun x => x = 0)).mp h)
  rw [he, show σ.glob.superBlock.sbRoot = σ.img.root from rfl, hwalk]
  rcases hr with ⟨rfl, hset, hdone⟩ | ⟨rfl, j, hreach, hfile, hbad⟩
  · refine ⟨fun _ i hreach hfile => ?_, fun _ => by simp⟩
    refine (settled_reached (r := σ.img.root) hset ?_ hreach).2.2 hfile
    intro j hj hne
    exact hdone j hj (hne.imp_left (hzero' j))
  · constructor
    · intro h
      exact absurd rfl h
    · intro h
      exact absurd (h j hreach hfile) hbad

/-- Every file the walk can reach has a chain that ends. -/
def Img.Finite (I : Img) : Prop := ∀ i, I.Reached i → I.isDir i = false → I.Ends (I.ino i).inFirst

/-- The marking starts from empty maps. -/
theorem mountBody_startVol (disk : BlockId → Block) (g : Globals) (which : Int) (sb : Block) :
    ((mountBody sb).eval (startVol ⟨disk, fun _ => false, g⟩ which sb)).1 ≠ none ↔
      (imgOf disk sb).Finite := by
  obtain ⟨hbm, him⟩ := ok_freemapInit_start ⟨disk, fun _ => false, g⟩ which sb
  have hfresh := isset_startVol ⟨disk, fun _ => false, g⟩ which sb
  exact mountBody_returns hbm him rfl
    (show (startVol ⟨disk, fun _ => false, g⟩ which sb).glob.superBlock = sb from rfl)
    fun x => (hfresh x.toNat).2

/-- With a valid super block `crfs_init` is the marking on the device. -/
theorem crfsInit_isSome (hp : pickSuper (c.store.disk 0) (c.store.disk 16)
    c.glob.crfsWhichSuper = some (which, sb)) : (crfsInit c).isSome = true ↔
      ((mountBody sb).eval (startVol ⟨c.store.disk, fun _ => false, c.glob⟩ which sb)).1 ≠
        none := by
  have he := initBody_eval ⟨c.store.disk, fun _ => false, c.glob⟩
  rw [hp] at he
  simp only at he
  rw [← he]
  rcases hrun : initBody.eval c.dropped with ⟨_ | r, τ⟩
  · rw [crfsInit_of_none (by rw [hrun])]
    simp
  · obtain ⟨c', hc', -⟩ := crfsInit_of_eval hrun
    rw [hc']
    simp

/-- A fresh volume has no file. -/
theorem mkfsImg_finite (size : UInt32) (disk : BlockId → Block) : (mkfsImg size disk).Finite := by
  have hroot : (mkfsImg size disk).root = 1 := by
    change (nextSuper (mkfsSuper size 1)).sbRoot = 1
    simp
  have hone : ∀ i, (mkfsImg size disk).Reached i → i = 1 := by
    intro i hi
    induction hi with
    | refl => exact hroot
    | tail _ he ih =>
      subst ih
      obtain ⟨-, k, hk, rfl, hne⟩ := he
      rw [mkfsImg_ent] at hne ⊢
      obtain ⟨hdot, hdotdot, hrest⟩ := newDirectory_ok (x := 1) (p := 1) (by decide) (by decide)
      rcases k with _ | _ | k
      · exact hdot.dot.1
      · exact hdotdot
      · exact absurd (hrest (k + 2) (by omega) hk) hne
  intro i hi hfile
  rw [hone i hi] at hfile
  exact absurd (mkfsImg_isDir.symm.trans hfile) (by decide)

/-- A fresh volume with one file whose only block is its own successor. -/
def loopDisk : BlockId → Block := fun b =>
  if b = 4 then zeroBlock.setFbNext 4
  else if b = 3 then (newDirectory 1 1).setDirent 2 2 [97]
  else if b = 2 then mkfsTable.setItInode 2 ⟨2, 4, 4, 4081, fmaskFile⟩
  else mkfsDisk 98304 (fun _ => zeroBlock) b

abbrev loopImg : Img := imgOf loopDisk (nextSuper (mkfsSuper 98304 1))

theorem loopDisk_ino (k : Nat) (hk : k < 256) :
    loopImg.ino (UInt16.ofNat k) =
      (mkfsTable.setItInode 2 ⟨2, 4, 4, 4081, fmaskFile⟩).itInode k := by
  have hto : (UInt16.ofNat k).toNat = k := UInt16.toNat_ofNat_of_lt' (by
    rw [UInt16.size]
    omega)
  change (loopDisk ((nextSuper (mkfsSuper 98304 1)).sbVtable _)).itInode _ = _
  rw [hto, Nat.div_eq_of_lt hk, Nat.mod_eq_of_lt hk, sbVtable_nextSuper,
    sbVtable_mkfsSuper 0 (by decide)]
  rfl

theorem loopDisk_other {b : BlockId} (h4 : b ≠ 4) (h3 : b ≠ 3) (h2 : b ≠ 2) :
    loopDisk b = mkfsDisk 98304 (fun _ => zeroBlock) b := by
  rw [loopDisk, if_neg h4, if_neg h3, if_neg h2]

theorem crfsInit_loops : ¬ ∀ (c : Machine) (which : Int) (sb : Block),
    pickSuper (c.store.disk 0) (c.store.disk 16) c.glob.crfsWhichSuper = some (which, sb) →
      (crfsInit c).isSome = true := by
  intro h
  have hp : pickSuper (loopDisk 0) (loopDisk 16) (-1) =
      some (0, nextSuper (mkfsSuper 98304 1)) := by
    rw [loopDisk_other (by decide) (by decide) (by decide),
      loopDisk_other (by decide) (by decide) (by decide)]
    exact pickSuper_mkfs 98304 (fun _ => zeroBlock) (-1)
  have hends : loopImg.Finite := (mountBody_startVol loopDisk _ _ _).mp
    ((crfsInit_isSome (c := boot loopDisk) hp).mp (h (boot loopDisk) _ _ hp))
  have hroot : loopImg.root = 1 := by
    change (nextSuper (mkfsSuper 98304 1)).sbRoot = 1
    simp
  have h1 : loopImg.ino 1 = ⟨1, 3, 3, 0, fmaskDir⟩ := by
    refine (loopDisk_ino 1 (by decide)).trans ?_
    rw [Block.itInode_setItInode_ne (by decide)]
    exact Block.itInode_setItInode_self (by decide) _ _
  have h2 : loopImg.ino 2 =
      ⟨2, 4, 4, 4081, fmaskFile⟩ :=
    (loopDisk_ino 2 (by decide)).trans (Block.itInode_setItInode_self (by decide) _ _)
  have hedge : loopImg.Edge 1 2 := by
    refine ⟨by rw [Img.isDir, h1]; decide, 2, by decide, ?_, by decide⟩
    rw [Img.ent, h1]
    change (((newDirectory 1 1).setDirent 2 2 [97]).dirent 2).deInode = 2
    rw [Block.dirent_setDirent_self (by decide)]
  have hreach : loopImg.Reached 2 := by
    rw [Img.Reached, hroot]
    exact .single hedge
  obtain ⟨l, hl⟩ := hends 2 hreach (by rw [Img.isDir, h2]; decide)
  rw [h2] at hl
  change IsChain loopImg.val 4 l at hl
  -- the chain from block 4 would have to be its own tail
  cases l with
  | nil => exact absurd (show (4 : BlockId) = 0 from hl) (by decide)
  | cons b l =>
    obtain ⟨rfl, -, htail⟩ := hl
    have hnext : (loopImg.val 4).fbNext = 4 :=
      Block.fbNext_setFbNext _ _
    have hself : IsChain _ 4 (4 :: l) := ⟨rfl, by decide, htail⟩
    have hsame : IsChain loopImg.val 4 l := by
      rw [← hnext]
      exact htail
    exact absurd (congrArg List.length (hself.unique hsame)) (by simp)

end Crfs
