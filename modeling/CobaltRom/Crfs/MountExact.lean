import CobaltRom.Crfs.MountWalk
import CobaltRom.Crfs.Rounding
import CobaltRom.Crfs.Filled

/-! Mounting an image of any content: what the walk of `mark_inode` has marked. -/
namespace Crfs
open WriteBack WriteBack.Prog LinkChain

/-- What the walk reads when it comes to inode `j`: the block of its table and its own blocks. -/
def Img.Fetches (I : Img) (j : InodeId) (b : BlockId) : Prop :=
  I.vt (j.toNat / 256) = b ∨ I.blockOf j b

/-- From `σ` to `τ` inodes that can be reached from `i` were marked, with their blocks. -/
def Traced (I : Img) (i : InodeId) (σ : Vol) (N : InodeId → Prop) (τ : Vol) : Prop :=
  (∀ j, N j → Relation.ReflTransGen I.Edge i j) ∧ Marked σ (fun b => ∃ j, N j ∧ I.blockOf j b) N τ

variable {σ τ υ : Vol} {I : Img} {i j : InodeId} {N : InodeId → Prop} {sb : Block} {which : Int}
  {c : Machine}

/-- A chain that ends is read from end to end. -/
theorem markChain_touches (fuel : Nat) : ∀ (a : BlockId) (l : List BlockId) (σ : Vol),
    IsChain σ.val a l → l.length ≤ fuel →
    ∀ x, (markChain fuel a).Touches σ x ↔ x ∈ l := by
  induction fuel with
  | zero =>
    intro a l σ h hl x
    obtain rfl := List.length_eq_zero_iff.mp (Nat.le_zero.mp hl)
    simp [markChain]
  | succ fuel ih =>
    intro a l σ h hl x
    cases l with
    | nil =>
      rw [markChain, if_pos (show a = 0 from h)]
      simp
    | cons b l =>
      obtain ⟨rfl, h0, hrest⟩ := h
      have hnext := ih _ l (σ.setBm (freemapMark σ.bm a.toNat)) hrest
        (Nat.le_of_succ_le_succ hl) x
      rw [markChain, if_neg h0, touches_bind, touches_bind, markBlock_eval, crfsReadBlock_eval,
        crfsReadBlock_touches, List.mem_cons, ← hnext]
      exact or_iff_right (markBlock_touches _ _ _)

/-- A loop over a chain that came back has marked and read the whole chain. -/
theorem markChain_traced {a : BlockId} (hb : σ.bm.Ok) (hi : σ.im.Ok)
    (h : (markChain walkFuel a).eval σ = (some (), τ)) :
    Marked σ (fun b => OnChain σ.val a b) (fun _ => False) τ ∧
      ∀ x, (markChain walkFuel a).Touches σ x ↔ OnChain σ.val a x := by
  obtain ⟨m, -, hiff⟩ := markChain_eval walkFuel a σ
  obtain ⟨l, hl, hlen⟩ := hiff.mp (congrArg Prod.fst h)
  obtain ⟨τ', he, hm⟩ := markChain_marked walkFuel a l σ hl hlen hb hi
  obtain rfl := (Prod.mk.inj (h.symm.trans he)).2
  refine ⟨hm.congr (fun b => (IsChain.onChain_iff hl).symm) fun _ => Iff.rfl, fun x => ?_⟩
  rw [markChain_touches walkFuel a l σ hl hlen, IsChain.onChain_iff hl]

theorem markEntry_touches {fuel : Nat} (de : Dirent) (σ : Vol) (x : BlockId) :
    (markEntry fuel de).Touches σ x ↔
      (de.deInode ≠ 0 ∧ σ.im.isset de.deInode.toNat = false) ∧
        (markInode fuel de.deInode).Touches σ x := by
  rw [markEntry, touches_bind, touches_getGlob, false_or, touches_ite]
  change (if de.deInode ≠ 0 ∧ σ.im.isset de.deInode.toNat = false
    then (markInode fuel de.deInode).Touches σ x else _) ↔ _
  split
  · rw [and_iff_right ‹_›]
  · exact ⟨False.elim, fun h => absurd h.1 ‹_›⟩

theorem markInode_touches_dir {fuel : Nat} (hd : σ.img.isDir i = true) (x : BlockId) :
    (markInode (fuel + 1) i).Touches σ x ↔ x = σ.tableOf i ∨ x = (σ.img.ino i).inFirst ∨
      (forEach (markEntry fuel) ((List.range 64).map (σ.img.ent i))).Touches
        ((σ.setIm (freemapMark σ.im i.toNat)).setBm
          (freemapMark σ.bm (σ.img.ino i).inFirst.toNat)) x := by
  rw [markInode]
  simp only [touches_bind, markInum_touches, crfsLookupInode_touches, markInum_eval,
    crfsLookupInode_eval, false_or]
  refine or_congr Iff.rfl ?_
  change (if (σ.img.ino i).isDir = true then _ else _ : FsM (Option Unit)).Touches _ _ ↔ _
  rw [if_pos (show (σ.img.ino i).isDir = true from hd)]
  simp only [touches_bind, markBlock_touches, markBlock_eval, crfsReadBlock_touches,
    crfsReadBlock_eval, false_or]
  rfl

theorem markInode_touches_file {fuel : Nat} (hd : ¬ σ.img.isDir i = true) (x : BlockId) :
    (markInode (fuel + 1) i).Touches σ x ↔ x = σ.tableOf i ∨
      (markChain walkFuel (σ.img.ino i).inFirst).Touches
        (σ.setIm (freemapMark σ.im i.toNat)) x := by
  rw [markInode]
  simp only [touches_bind, markInum_touches, crfsLookupInode_touches, markInum_eval,
    crfsLookupInode_eval, false_or]
  refine or_congr Iff.rfl ?_
  change (if (σ.img.ino i).isDir = true then _ else _ : FsM (Option Unit)).Touches _ _ ↔ _
  rw [if_neg (show ¬ (σ.img.ino i).isDir = true from hd)]
  rfl

/-- The walk over some entries, when it comes back. -/
theorem forEach_traced {fuel : Nat}
    (ih : ∀ (i : InodeId) (σ τ : Vol), σ.img = I → σ.bm.Ok → σ.im.Ok →
      (markInode fuel i).eval σ = (some (), τ) → ∃ N, N i ∧ Traced I i σ N τ ∧
        ∀ x, (markInode fuel i).Touches σ x ↔ ∃ j, N j ∧ I.Fetches j x)
    (es : List Dirent) : ∀ σ τ : Vol, σ.img = I → σ.bm.Ok → σ.im.Ok →
      (forEach (markEntry fuel) es).eval σ = (some (), τ) →
      ∃ N, (∀ j, N j → ∃ de ∈ es, de.deInode ≠ 0 ∧ Relation.ReflTransGen I.Edge de.deInode j) ∧
        Marked σ (fun b => ∃ j, N j ∧ I.blockOf j b) N τ ∧
        ∀ x, (forEach (markEntry fuel) es).Touches σ x ↔ ∃ j, N j ∧ I.Fetches j x := by
  induction es with
  | nil =>
    intro σ τ _ hb hi h
    obtain rfl := (Prod.mk.inj h).2
    refine ⟨fun _ => False, fun j hj => hj.elim, (Marked.refl hb hi).congr (by simp) (by simp),
      fun x => ?_⟩
    simp only [false_and, exists_false]
    exact touches_pure σ _ x
  | cons de es ihes =>
    intro σ τ himg hb hi h
    rw [forEach, Prog.eval_bind, markEntry_eval] at h
    simp only [forEach, touches_bind, markEntry_touches, markEntry_eval]
    by_cases hmark : de.deInode ≠ 0 ∧ σ.im.isset de.deInode.toNat = false
    · rw [if_pos hmark] at h
      obtain ⟨r, υ, he⟩ : ∃ r υ, (markInode fuel de.deInode).eval σ = (r, υ) := ⟨_, _, rfl⟩
      rw [he] at h
      cases r with
      | none => cases (Prod.mk.inj h).1
      | some u =>
        obtain ⟨N, -, ⟨hreach, hm⟩, htouch⟩ := ih _ _ _ himg hb hi he
        obtain ⟨N', hreach', hm', htouch'⟩ := ihes υ τ (hm.img.trans himg) hm.bm.ok hm.im.ok h
        refine ⟨fun j => N j ∨ N' j, ?_, (hm.trans hm').congr ?_ fun _ => Iff.rfl, fun x => ?_⟩
        · rintro j (hj | hj)
          · exact ⟨de, List.mem_cons_self, hmark.1, hreach j hj⟩
          · obtain ⟨de', hde', h'⟩ := hreach' j hj
            exact ⟨de', List.mem_cons_of_mem _ hde', h'⟩
        · intro b
          simp only [or_and_right, exists_or]
        · rw [if_pos hmark, he, and_iff_right hmark, htouch]
          simp only [or_and_right, exists_or]
          exact or_congr Iff.rfl (htouch' x)
    · rw [if_neg hmark] at h
      obtain ⟨N, hreach, hm, htouch⟩ := ihes σ τ himg hb hi h
      refine ⟨N, fun j hj => ?_, hm, fun x => ?_⟩
      · obtain ⟨de', hde', h'⟩ := hreach j hj
        exact ⟨de', List.mem_cons_of_mem _ hde', h'⟩
      · rw [if_neg hmark, or_iff_right fun hx => hmark hx.1]
        exact htouch x

/-- When `mark_inode` comes back, it has marked inodes it can reach and their blocks, and
nothing else. -/
theorem markInode_traced (I : Img) (fuel : Nat) : ∀ (i : InodeId) (σ τ : Vol), σ.img = I →
    σ.bm.Ok → σ.im.Ok → (markInode fuel i).eval σ = (some (), τ) → ∃ N, N i ∧ Traced I i σ N τ ∧
      ∀ x, (markInode fuel i).Touches σ x ↔ ∃ j, N j ∧ I.Fetches j x := by
  induction fuel with
  | zero =>
    intro i σ τ _ _ _ h
    cases (Prod.mk.inj h).1
  | succ fuel ih =>
    intro i σ τ himg hb hi h
    have hself := marked_inum hb hi i
    have htable : ∀ x, x = σ.tableOf i ↔ I.vt (i.toNat / 256) = x := by
      intro x
      rw [← himg]
      exact eq_comm
    by_cases hd : σ.img.isDir i = true
    · rw [markInode_dir hd] at h
      have hdI : I.isDir i = true := by rwa [himg] at hd
      have hblock := marked_block (σ := σ.setIm (freemapMark σ.im i.toNat)) hself.bm.ok hself.im.ok
        (σ.img.ino i).inFirst
      obtain ⟨N, hreach, hm, htouch⟩ := forEach_traced ih ((List.range 64).map (σ.img.ent i))
        ((σ.setIm (freemapMark σ.im i.toNat)).setBm (freemapMark σ.bm (σ.img.ino i).inFirst.toNat))
        τ himg hblock.bm.ok hblock.im.ok h
      have hown : ∀ x, I.blockOf i x ↔ x = (σ.img.ino i).inFirst := by
        intro x
        rw [Img.blockOf, if_pos hdI, himg]
      refine ⟨fun j => j = i ∨ N j, Or.inl rfl, ⟨?_, ((hself.trans hblock).trans hm).congr ?_ ?_⟩,
        fun x => ?_⟩
      · rintro j (rfl | hj)
        · exact .refl
        · obtain ⟨de, hde, hne, hj⟩ := hreach j hj
          obtain ⟨k, hk, rfl⟩ := List.mem_map.mp hde
          rw [himg] at hne hj
          exact .head ⟨hdI, k, List.mem_range.mp hk, rfl, hne⟩ hj
      · intro b
        simp only [or_and_right, exists_or, exists_eq_left, false_or]
        rw [hown]
      · intro j
        simp only [or_false]
      · simp only [markInode_touches_dir hd, htable, htouch, or_and_right, exists_or,
          exists_eq_left]
        rw [Img.Fetches, hown, or_assoc]
    · rw [markInode_file hd] at h
      have hdI : ¬ I.isDir i = true := by rwa [himg] at hd
      obtain ⟨hm, htouch⟩ := markChain_traced hself.bm.ok hself.im.ok h
      have hown : ∀ x, I.blockOf i x ↔ OnChain σ.val (σ.img.ino i).inFirst x := by
        intro x
        rw [Img.blockOf, if_neg hdI, ← himg]
        rfl
      refine ⟨(· = i), rfl, ⟨?_, (hself.trans hm).congr ?_ ?_⟩, fun x => ?_⟩
      · rintro j rfl
        exact .refl
      · intro b
        simp only [exists_eq_left, false_or]
        exact (hown b).symm
      · intro j
        simp only [or_false]
      · rw [markInode_touches_file hd, htouch, htable]
        simp only [exists_eq_left]
        rw [Img.Fetches, hown]
        rfl

/-- The blocks in use: the two slots, the inode tables, the block of every directory that can be
reached from the root and every chain block of such a file. -/
def Img.Used (I : Img) (b : BlockId) : Prop :=
  (b = 0 ∨ b = 16 ∨ ∃ k < crfsSbVtableLen, I.vt k = b ∧ b ≠ 0) ∨ ∃ i, I.Reached i ∧ I.blockOf i b

/-- Marking ends where the chains do, and has marked what is in use. -/
theorem mountBody_exact (hb : σ.bm.Ok) (hi : σ.im.Ok) (hlim : σ.im.limit = 65536)
    (hsb : σ.glob.superBlock = sb) (hzero : ∀ x : InodeId, σ.im.isset x.toNat = false)
    (hfin : σ.img.Finite) :
    ∃ τ, (mountBody sb).eval σ = (some true, τ) ∧
      Marked σ σ.img.Used (fun i => i = 0 ∨ σ.img.Reached i) τ ∧
      ∀ x, (mountBody sb).Touches σ x ↔ ∃ i, σ.img.Reached i ∧ σ.img.Fetches i x := by
  obtain ⟨σ₁, hm, he, htouch⟩ := mountBody_start hb hi hsb
  subst hsb
  have hle := (freemapMark σ₁.im σ.img.root.toNat).unmarked_le
  obtain ⟨r, τ, hwalk, -, hr⟩ := markInode_walk σ.img (walkFuel + 1) σ.img.root σ₁ hm.img hm.im.ok
    (hm.im.limit.trans hlim) (by simp only [walkFuel]; omega)
  rw [show σ.glob.superBlock.sbRoot = σ.img.root from rfl, hwalk] at he
  have hold : ∀ j : InodeId, σ₁.im.isset j.toNat = true → j = 0 := by
    intro j hset
    rcases (hm.im.isset _).mp hset with h | ⟨h, -⟩
    · rw [hzero] at h
      cases h
    · exact (numbers_toNat (P := fun x => x = 0)).mp h
  rcases hr with ⟨rfl, hset, hdone⟩ | ⟨rfl, j, hreach, hfile, hbad⟩
  · obtain ⟨N, hroot, ⟨hreach, hN⟩, hread⟩ :=
      markInode_traced σ.img _ _ σ₁ τ hm.img hm.bm.ok hm.im.ok hwalk
    -- what is marked is settled, so every inode that can be reached is among the new marks
    have hnew : ∀ j, N j ↔ σ.img.Reached j := by
      refine fun j => ⟨hreach j, fun hj => ?_⟩
      rcases Relation.ReflTransGen.cases_tail hj with rfl | ⟨x, -, hx⟩
      · exact hroot
      · obtain ⟨-, k, -, -, hne⟩ := hx
        have hmark := (settled_reached (r := σ.img.root) hset (fun y hy hor => hdone y hy
          (hor.imp_left fun hy0 => by
            rw [Bool.eq_false_iff]
            exact fun h => hy0 (hold y h))) hj).1
        rcases (hN.im.isset _).mp hmark with h | ⟨h, -⟩
        · exact absurd (hold j h) hne
        · exact numbers_toNat.mp h
    have hall := (hm.trans hN).congr
      (fun b => or_congr Iff.rfl (exists_congr fun j => and_congr_left' (hnew j)))
      fun j => or_congr Iff.rfl (hnew j)
    refine ⟨_, he, ⟨hall.val, hall.dirty, hall.super, hall.which, hall.bm, hall.im⟩, fun x => ?_⟩
    rw [htouch, show σ.glob.superBlock.sbRoot = σ.img.root from rfl, hread]
    simp only [hnew]
  · exact absurd (hfin j hreach hfile) hbad

/-- What was marked after mounting an image with finite file chains. -/
theorem crfsInit_marked (hp : pickSuper (c.store.disk 0) (c.store.disk 16)
      c.glob.crfsWhichSuper = some (which, sb)) (hfin : (imgOf c.store.disk sb).Finite) :
    ∃ c' : Machine, crfsInit c = some (true, c') ∧
      Marked (startVol c.dropped which sb) (imgOf c.store.disk sb).Used
        (fun i => i = 0 ∨ (imgOf c.store.disk sb).Reached i) c'.vol := by
  obtain ⟨hbm, him⟩ := ok_freemapInit_start c.dropped which sb
  obtain ⟨τ, he, hm, -⟩ := mountBody_exact hbm him rfl
    (show (startVol c.dropped which sb).glob.superBlock = sb from rfl)
    (fun x => (isset_startVol c.dropped which sb x.toNat).2) hfin
  have hinit := initBody_eval c.dropped
  rw [hp] at hinit
  obtain ⟨c', hc', rfl, -⟩ := crfsInit_of_eval (hinit.trans he)
  exact ⟨c', hc', hm⟩

/-- What the two maps hold after mounting an image with finite file chains. -/
theorem crfsInit_maps (hp : pickSuper (c.store.disk 0) (c.store.disk 16)
      c.glob.crfsWhichSuper = some (which, sb)) (hfin : (imgOf c.store.disk sb).Finite) :
    ∃ c' : Machine, crfsInit c = some (true, c') ∧
      (∀ k, c'.glob.blockFreemap.isset k = true ↔
        numbers (imgOf c.store.disk sb).Used k ∧ k < blockCount sb) ∧
      ∀ k, c'.glob.inodeFreemap.isset k = true ↔
        numbers (fun i => i = 0 ∨ (imgOf c.store.disk sb).Reached i) k := by
  have hstart := isset_startVol c.dropped which sb
  obtain ⟨c', hc', hm⟩ := crfsInit_marked hp hfin
  refine ⟨c', hc', fun k => (hm.bm.isset k).trans ⟨?_, Or.inr⟩,
    fun k => (hm.im.isset k).trans ⟨?_, fun h => Or.inr ⟨h, ?_⟩⟩⟩
  · rintro (h | h)
    · rw [(hstart k).1] at h
      cases h
    · exact h
  · rintro (h | h)
    · rw [(hstart k).2] at h
      cases h
    · exact h.1
  · obtain ⟨i, -, rfl⟩ := h
    exact i.toNat_lt

/-! ### A device with a file -/

theorem filled_picked {l : List BlockId} (h : Spread l) :
    pickSuper ((boot (filledDisk l)).store.disk 0) ((boot (filledDisk l)).store.disk 16)
      (boot (filledDisk l)).glob.crfsWhichSuper = some (0, filledSuper) := filled_pickSuper h

/-- Every chain of the filled device ends, and all its blocks are inside the map. -/
theorem filled_finite {l : List BlockId} (h : Spread l) : (filledImg l).Finite := by
  obtain ⟨c', hc', -⟩ := filled_mounted h
  exact (mountBody_startVol _ _ _ _).mp
    ((crfsInit_isSome (filled_picked h)).mp (by rw [hc']; rfl))

theorem filled_used_lt {l : List BlockId} {b : BlockId} (h : Spread l)
    (hb : (filledImg l).Used b) : b.toNat < blockCount filledSuper := by
  obtain ⟨c₁, hc₁, hv, -⟩ := filled_mounted h
  obtain ⟨c₂, hc₂, hm⟩ := crfsInit_marked (filled_picked h) (filled_finite h)
  rw [hc₁] at hc₂
  cases hc₂
  by_contra hlt
  have hstray : c₁.vol.glob.Stray := hm.stray_iff.mpr ⟨b, hb, Nat.not_lt.mp hlt⟩
  rw [hv] at hstray
  rcases hstray with hf | hf <;> cases hf

theorem numbers_finite (s : Set UInt16) : s.Finite := by
  have : Finite UInt16 := Finite.of_injective UInt16.toFin fun _ _ => UInt16.toFin_inj.mp
  exact Set.toFinite s

theorem spread_two : Spread [4, 5] := ⟨by decide, by simp, by simp⟩

/-! ### When `crfs_init` returns -/

/-- The blocks a mount reads: the two slots and what the walk fetches. -/
def Img.Read (I : Img) (b : BlockId) : Prop := b = 0 ∨ b = 16 ∨ ∃ i, I.Reached i ∧ I.Fetches i b

/-- `crfs_init` comes back with every mark inside its map; with -1 it has made none. -/
def Returns (c : Machine) (mem : Nat → Bool) (entries : Nat) : Prop :=
  ∃ (r : Bool) (c' : Machine), crfsInit c mem entries = some (r, c') ∧ (r = true → ¬ c'.glob.Stray)

theorem initBody_touches (mem : Nat → Bool) (hp : pickSuper (σ.val 0) (σ.val 16)
    σ.glob.crfsWhichSuper = some (which, sb)) (x : BlockId) :
    (initBody mem).Touches σ x ↔ x = 0 ∨ x = 16 ∨
      ((mountMaps mem σ.glob which sb).1 = true ∧
        (mountBody sb).Touches { σ with glob := (mountMaps mem σ.glob which sb).2 } x) := by
  have h0 : sbBlocknum 0 = 0 := by decide
  have h1 : sbBlocknum 1 = 16 := by decide
  simp only [pickSuper] at hp
  unfold initBody
  simp only [touches_bind, touches_getGlob, crfsReadBlock_touches, Prog.eval_getGlob,
    crfsReadBlock_eval, h0, h1, false_or]
  refine or_congr Iff.rfl (or_congr Iff.rfl ?_)
  by_cases hw : bestSuper ([σ.val 0, σ.val 16].filter validSuper) 0 σ.glob.crfsWhichSuper 0 < 0
  · rw [if_pos hw] at hp
    cases hp
  · rw [if_neg hw] at hp
    simp only [hw, if_false]
    obtain ⟨sb', hsb, hpair⟩ := Option.map_eq_some_iff.mp hp
    obtain ⟨hwhich, rfl⟩ := Prod.mk.inj hpair
    rw [hsb, hwhich]
    simp only [touches_bind, touches_setGlob, false_or, eval_setGlob]
    by_cases hm : (mountMaps mem σ.glob which sb').1 = false
    · simp only [hm, if_true, touches_pure, Bool.false_eq_true, false_and]
    · simp only [Bool.of_not_eq_false hm, true_and]
      rfl

/-- One copy is kept of each block in `P`. -/
theorem cache_length_eq {P : BlockId → Prop} (hcoh : c.store.Coherent)
    (hkeys : ∀ b, b ∈ c.store.cache.map Entry.key ↔ P b) :
    c.store.cache.length = {b | P b}.ncard := by
  have hset : {b | P b} = ((c.store.cache.map Entry.key).toFinset : Set BlockId) := by
    ext b
    simp [← hkeys]
  rw [hset, Set.ncard_coe_finset, List.toFinset_card_of_nodup hcoh.nodup, List.length_map]

/-- With the maps set up the walk has to end, to mark inside the map and to find memory for the
copies. -/
theorem returns_served (hp : pickSuper (c.store.disk 0) (c.store.disk 16)
    c.glob.crfsWhichSuper = some (which, sb)) {mem : Nat → Bool} (hs : Served mem) (entries : Nat) :
    Returns c mem entries ↔ (imgOf c.store.disk sb).Finite ∧
      (∀ b, (imgOf c.store.disk sb).Used b → b.toNat < blockCount sb) ∧
      {b | (imgOf c.store.disk sb).Read b}.ncard ≤ entries := by
  have hrun := initBody_run mem c.dropped
  have htouch := initBody_touches (σ := c.dropped) mem hp
  rw [show pickSuper (c.dropped.val 0) (c.dropped.val 16) c.dropped.glob.crfsWhichSuper =
    some (which, sb) from hp] at hrun
  simp only at hrun
  rw [mountMaps_served hs, if_neg (by simp)] at hrun
  simp only [mountMaps_served hs, true_and] at htouch
  by_cases hfin : (imgOf c.store.disk sb).Finite
  · obtain ⟨hbm, him⟩ := ok_freemapInit_start c.dropped which sb
    obtain ⟨τ, he, hm, hread⟩ := mountBody_exact (σ := startVol c.dropped which sb) hbm him rfl
      (show (startVol c.dropped which sb).glob.superBlock = sb from rfl)
      (fun x => (isset_startVol c.dropped which sb x.toNat).2) hfin
    obtain ⟨c', hv, -, hcoh, hkeys, hc'⟩ := crfsInit_of_run entries (hrun.trans he)
    have hlen : c'.store.cache.length = {b | (imgOf c.store.disk sb).Read b}.ncard := by
      refine cache_length_eq hcoh fun b => (hkeys b).trans ((htouch b).trans ?_)
      exact or_congr Iff.rfl (or_congr Iff.rfl (hread b))
    subst hv
    rw [Returns, hc', hlen]
    constructor
    · rintro ⟨r, c'', h, hin⟩
      split at h
      · cases h
        refine ⟨hfin, fun b hb => ?_, ‹_›⟩
        by_contra hlt
        exact hin rfl (hm.stray_iff.mpr ⟨b, hb, Nat.not_lt.mp hlt⟩)
      · cases h
    · rintro ⟨-, hcover, hle⟩
      refine ⟨true, c', if_pos hle, fun _ h => ?_⟩
      obtain ⟨b, hb, hk⟩ := hm.stray_iff.mp h
      exact absurd (hcover b hb) (Nat.not_lt.mpr hk)
  · constructor
    · rintro ⟨r, c'', h, -⟩
      rw [crfsInit_of_none] at h
      · cases h
      · rw [hrun]
        by_contra hne
        exact hfin ((mountBody_startVol c.store.disk c.glob which sb).mp hne)
    · exact fun h => absurd h.1 hfin

/-- Without a map `crfs_init` gives up before it marks anything. -/
theorem returns_failed (hp : pickSuper (c.store.disk 0) (c.store.disk 16)
    c.glob.crfsWhichSuper = some (which, sb)) {mem : Nat → Bool} (hs : ¬ Served mem)
    (entries : Nat) : Returns c mem entries ↔ 2 ≤ entries := by
  have hrun := initBody_run mem c.dropped
  have htouch := initBody_touches (σ := c.dropped) mem hp
  rw [show pickSuper (c.dropped.val 0) (c.dropped.val 16) c.dropped.glob.crfsWhichSuper =
    some (which, sb) from hp] at hrun
  simp only at hrun
  rw [if_pos (mountMaps_failed hs _ _ _)] at hrun
  simp only [mountMaps_failed hs, Bool.false_eq_true, false_and, or_false] at htouch
  obtain ⟨c', -, -, hcoh, hkeys, hc'⟩ := crfsInit_of_run entries hrun
  have hlen : c'.store.cache.length = 2 := by
    rw [cache_length_eq hcoh fun b => (hkeys b).trans (htouch b)]
    exact Set.ncard_pair (by decide)
  rw [Returns, hc', hlen]
  constructor
  · rintro ⟨r, c'', h, -⟩
    by_contra hlt
    rw [if_neg hlt] at h
    cases h
  · intro hle
    exact ⟨false, c', if_pos hle, fun h => by cases h⟩

/-- `crfs_init` on a device of any content with a valid super block. -/
theorem crfsInit_returns_iff (hp : pickSuper (c.store.disk 0) (c.store.disk 16)
    c.glob.crfsWhichSuper = some (which, sb)) (mem : Nat → Bool) (entries : Nat) :
    Returns c mem entries ↔
      (¬ Served mem → 2 ≤ entries) ∧
      (Served mem →
        (∀ i, (imgOf c.store.disk sb).Reached i → (imgOf c.store.disk sb).isDir i = false →
          (imgOf c.store.disk sb).Ends ((imgOf c.store.disk sb).ino i).inFirst) ∧
        (∀ b, (imgOf c.store.disk sb).Used b → b.toNat < blockCount sb) ∧
        {b | (imgOf c.store.disk sb).Read b}.ncard ≤ entries) := by
  by_cases hs : Served mem
  · rw [returns_served hp hs]
    exact ⟨fun h => ⟨fun hn => absurd hs hn, fun _ => h⟩, fun h => h.2 hs⟩
  · rw [returns_failed hp hs]
    exact ⟨fun h => ⟨fun _ => h, fun hn => absurd hn hs⟩, fun h => h.1 hs⟩

/-- A device of 24 blocks with a file over two of them, and memory for every copy. -/
theorem crfsInit_returns_filled :
    Returns (boot (filledDisk [4, 5])) (fun _ => true) 65536 := by
  have hl := spread_two
  refine (crfsInit_returns_iff (filled_picked hl) _ _).mpr
    ⟨fun h => absurd ⟨rfl, rfl, rfl, rfl⟩ h, fun _ => ⟨filled_finite hl, fun b hb => ?_, ?_⟩⟩
  · exact filled_used_lt hl hb
  · rw [Set.ncard_eq_toFinset_card _ (numbers_finite _), ← Finset.length_toList]
    exact nodup_inums_length (Finset.nodup_toList _)

/-- Mounting succeeds, and afterwards the block map holds the blocks in use and the inode map
number 0 and the inodes that can be reached from the root. -/
def MountedExactly (c : Machine) (sb : Block) : Prop :=
  ∃ c' : Machine, crfsInit c = some (true, c') ∧
    (∀ k, c'.glob.blockFreemap.isset k = true ↔ numbers (imgOf c.store.disk sb).Used k) ∧
    ∀ k, c'.glob.inodeFreemap.isset k = true ↔
      numbers (fun i => i = 0 ∨ (imgOf c.store.disk sb).Reached i) k

/-- On an image with finite file chains marking is exact just where the block map covers every
block in use. -/
theorem mounted_exactly_iff (hp : pickSuper (c.store.disk 0) (c.store.disk 16)
      c.glob.crfsWhichSuper = some (which, sb)) (hfin : (imgOf c.store.disk sb).Finite) :
    MountedExactly c sb ↔ ∀ b, (imgOf c.store.disk sb).Used b → b.toNat < blockCount sb := by
  obtain ⟨c', hc', hblocks, hinums⟩ := crfsInit_maps hp hfin
  constructor
  · rintro ⟨c'', hc'', hexact, -⟩ b hb
    rw [hc'] at hc''
    obtain ⟨-, rfl⟩ := Prod.mk.inj (Option.some.inj hc'')
    exact ((hblocks _).mp ((hexact _).mpr (numbers_toNat.mpr hb))).2
  · intro hcover
    refine ⟨c', hc', fun k => (hblocks k).trans ⟨And.left, fun h => ⟨h, ?_⟩⟩, hinums⟩
    obtain ⟨b, hb, rfl⟩ := h
    exact hcover b hb

/-- A volume of 24 blocks with a file over two of them. -/
theorem mounted_exactly_filled : MountedExactly (boot (filledDisk [4, 5])) filledSuper := by
  have hl := spread_two
  refine (mounted_exactly_iff (filled_picked hl)
    (filled_finite hl)).mpr ?_
  exact fun b hb => filled_used_lt hl hb

/-- A freshly formatted volume of 20 blocks has a map for 16 of them, which ends before the second
super block. -/
theorem mounted_slot_lost :
    (mkfsImg 81920 fun _ => zeroBlock).Finite ∧
      ¬ MountedExactly (boot (mkfsDisk 81920 fun _ => zeroBlock))
        (nextSuper (mkfsSuper 81920 1)) := by
  have hfin := mkfsImg_finite 81920 fun _ => zeroBlock
  refine ⟨hfin, ?_⟩
  rintro ⟨c', hc', hexact, -⟩
  obtain ⟨c'', hc'', hblocks, -⟩ := crfsInit_maps (c := boot (mkfsDisk 81920 fun _ => zeroBlock))
    (pickSuper_mkfs 81920 (fun _ => zeroBlock) (-1)) hfin
  rw [hc'] at hc''
  obtain ⟨-, rfl⟩ := Prod.mk.inj (Option.some.inj hc'')
  have hslot : numbers (mkfsImg 81920 fun _ => zeroBlock).Used 16 :=
    ⟨16, Or.inl (Or.inr (Or.inl rfl)), rfl⟩
  have hlt := ((hblocks 16).mp ((hexact 16).mpr hslot)).2
  rw [blockCount_mkfs] at hlt
  exact absurd hlt (by decide)

end Crfs
