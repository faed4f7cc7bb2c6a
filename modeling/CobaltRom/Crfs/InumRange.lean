import CobaltRom.Crfs.Slots
import CobaltRom.Crfs.FailedCreate
import CobaltRom.Crfs.Allocator

/-! Inode numbers against the table vector: the map has 65536 of them, the vector room
for the tables of 4096. -/
namespace Crfs
open WriteBack WriteBack.Prog

/-- One call of a program, whatever it returns. -/
def Session.Called (t t' : Session) : Prop := ∃ a r, t.step a = some (r, t')

/-- From `σ` to `τ` inode `x` was entered where `at_` says: the directory block of `σ` with
that entry is a block of `τ`. -/
def Gave (σ τ : Vol) (place : Except Errno (InodeId × Name × Nat)) (x : InodeId) : Prop :=
  ∃ d nm k b, place = .ok (d, nm, k) ∧
    τ.val b = (σ.val (σ.img.ino d).inFirst).setDirent k x nm

/-- The inode map as every program finds it. -/
def InumMap (g : Globals) : Prop := g.inodeFreemap.Ok ∧ g.inodeFreemap.limit = 65536

variable {σ τ : Vol} {c c₀ : Machine} {t t' : Session} {fname nm : Name} {blk : Block} {k : Nat}
  {x : InodeId} {dirnode : Inode}

/-! ### What a creation enters -/

theorem linkDirent_wrote (h : (linkDirent dirnode blk k x nm).eval σ = (.ok (), τ)) :
    ∃ b, τ.val b = blk.setDirent k x nm := by
  rw [linkDirent, Prog.eval_bind, blockIsDirty_eval, Prog.eval_ite] at h
  split at h
  · cases h
    exact ⟨dirnode.inFirst, Function.update_self _ _ _⟩
  · rw [Prog.eval_bind, moveDirent, Prog.eval_bind, unmarkBlock_eval, Prog.eval_bind] at h
    split at h
    · cases h
    · cases h
      exact ⟨_, Function.update_self _ _ _⟩

/-- `crfs_create` enters the number the search returned. -/
theorem crfsCreate_gave (h : (crfsCreate fname).eval σ = (.ok (), τ)) :
    Gave σ τ (σ.createAt fname) σ.nextInum := by
  rw [crfsCreate_eval] at h
  cases hat : σ.createAt fname with
  | error e =>
    rw [hat] at h
    cases h
  | ok r =>
    obtain ⟨d, nm, k⟩ := r
    simp only [hat] at h
    rw [createInum_eq, storeLink, Prog.eval_bind] at h
    split at h
    · cases h
    · obtain ⟨b, hb⟩ := linkDirent_wrote h
      exact ⟨d, nm, k, b, rfl, hb⟩

theorem crfsMkdir_gave (h : (crfsMkdir fname).eval σ = (.ok (), τ)) :
    Gave σ τ (σ.mkdirAt fname) σ.nextInum := by
  rw [crfsMkdir_eval] at h
  cases hat : σ.mkdirAt fname with
  | error e =>
    rw [hat] at h
    cases h
  | ok r =>
    obtain ⟨d, nm, k⟩ := r
    simp only [hat] at h
    rw [mkdirInum_eval, storeLink, Prog.eval_bind] at h
    split at h
    · cases h
    · obtain ⟨b, hb⟩ := linkDirent_wrote h
      exact ⟨d, nm, k, b, rfl, hb⟩

/-- The number is one of a table in the vector exactly if such a number is free. -/
theorem nextInum_table_iff (hok : σ.im.Ok) (hlim : σ.im.limit = 65536) :
    σ.nextInum.toNat / 256 < crfsSbVtableLen ↔ ∃ k < 4096, σ.im.blocked k = false := by
  have hto : ∀ n : Nat, n < 65536 → (UInt16.ofInt (n : Int)).toNat = n := by
    intro n hn
    have hlt : n < UInt16.size := by
      rw [UInt16.size]
      exact hn
    rw [← UInt16.toNat_ofNat_of_lt' hlt, ofInt_toNat]
  rw [Vol.nextInum]
  rcases Freemap.freemapNext_spec hok with ⟨n, hn, ht⟩ | ⟨hn, hb, -⟩
  · have hlt := ht.lt
    rw [hlim] at hlt
    rw [hn, hto n hlt]
    constructor
    · intro h
      simp only [crfsSbVtableLen] at h
      exact ⟨n, by omega, ht.free⟩
    · rintro ⟨k, hk, hfree⟩
      have hle : n ≤ k := by
        by_contra hgt
        rw [ht.least k (by omega)] at hfree
        cases hfree
      simp only [crfsSbVtableLen]
      omega
  · rw [hn]
    constructor
    · intro h
      exact absurd h (by decide)
    · rintro ⟨k, hk, hfree⟩
      rw [hb k (by omega)] at hfree
      cases hfree

/-! ### Runs -/

theorem stable_inumMap : Stable InumMap := by
  refine ⟨fun g h => h, ?_, fun g k h => h, ?_, fun g k b h => h⟩
  · intro g h
    refine ⟨(Freemap.next_ok h.1).1, ?_⟩
    rcases Freemap.freemapNext_spec h.1 with ⟨n, -, ht⟩ | ⟨-, -, he⟩
    · exact ht.limit_eq.trans h.2
    · change (freemapNext g.inodeFreemap).2.limit = 65536
      rw [he]
      exact h.2
  · intro g k h
    exact ⟨Freemap.ok_unmark h.1 k, h.2⟩

theorem inumMap_mounted (h : crfsInit c₀ = some (true, c)) : InumMap c.glob := by
  obtain ⟨-, -, -, ⟨hr, -⟩ | ⟨-, which, sb, B, N, -, hm⟩⟩ := crfsInit_cases h
  · cases hr
  · exact ⟨hm.im.ok, hm.im.limit.trans rfl⟩

theorem InumMap.exec {α : Type} (h : InumMap t.mach.glob) {q : FsM α} (hq : Keeps InumMap q) :
    InumMap (q.exec t.mach).2.glob := by
  have hk := hq t.mach.vol h
  rw [← (exec_vol q t.mach).2] at hk
  exact hk

theorem InumMap.called (h : InumMap t.mach.glob) (hs : t.Called t') : InumMap t'.mach.glob := by
  obtain ⟨a, r, hstep⟩ := hs
  rcases Session.step_cases hstep with ⟨α, q, he, hq⟩ | ⟨-, he⟩ | ⟨-, b, hc⟩
  · rw [he]
    exact h.exec (hq _ stable_inumMap)
  · rw [he]
    exact h
  · cases b with
    | true => exact inumMap_mounted hc
    | false =>
      obtain ⟨-, -, -, ⟨-, -, hsame⟩ | ⟨hr, -⟩⟩ := crfsInit_cases hc
      · rw [hsame]
        exact h
      · cases hr

theorem InumMap.run (h : InumMap t.mach.glob) (hrun : Relation.ReflTransGen Session.Called t t') :
    InumMap t'.mach.glob := by
  induction hrun with
  | refl => exact h
  | tail _ hs ih => exact ih.called hs

/-- In every state a program can reach, a creation that returns 0 enters a number whose
table is in the vector exactly if a number below 4096 was free. -/
theorem inum_in_vtable_iff (h : crfsInit c₀ = some (true, c))
    (hrun : Relation.ReflTransGen Session.Called ⟨c, fun _ => none⟩ t) (p : Path) :
    (∀ t', t.step (.create p) = some (.ok 0, t') →
      Gave t.vol t'.vol (t.vol.createAt p.name) t.vol.nextInum ∧
        (t.vol.nextInum.toNat / 256 < crfsSbVtableLen ↔
          ∃ k < 4096, t.vol.im.blocked k = false)) ∧
    (∀ t', t.step (.mkdir p) = some (.ok 0, t') →
      Gave t.vol t'.vol (t.vol.mkdirAt p.name) t.vol.nextInum ∧
        (t.vol.nextInum.toNat / 256 < crfsSbVtableLen ↔
          ∃ k < 4096, t.vol.im.blocked k = false)) := by
  have hmap : InumMap t.mach.glob :=
    InumMap.run (t := ⟨c, fun _ => none⟩) (inumMap_mounted h) hrun
  have hiff := nextInum_table_iff (σ := t.vol) hmap.1 hmap.2
  refine ⟨fun t' ht => ⟨?_, hiff⟩, fun t' ht => ⟨?_, hiff⟩⟩
  · obtain ⟨t₁, h₁, hv, -, -⟩ := t.step_create p
    obtain ⟨hr, rfl⟩ := Prod.mk.inj (Option.some.inj (h₁.symm.trans ht))
    rw [hv]
    cases hres : ((crfsCreate p.name).eval t.vol).1 with
    | error e =>
      rw [hres] at hr
      cases hr
    | ok _ => exact crfsCreate_gave (Prod.ext hres rfl)
  · obtain ⟨t₁, h₁, hv, -, -⟩ := t.step_mkdir p
    obtain ⟨hr, rfl⟩ := Prod.mk.inj (Option.some.inj (h₁.symm.trans ht))
    rw [hv]
    cases hres : ((crfsMkdir p.name).eval t.vol).1 with
    | error e =>
      rw [hres] at hr
      cases hr
    | ok _ => exact crfsMkdir_gave (Prod.ext hres rfl)

/-- On the small device the first file gets number 2. -/
theorem inum_in_vtable_first : ∃ (c : Machine) (t' : Session),
    crfsInit (crfsMkfs 98304 (boot fun _ => zeroBlock)) = some (true, c) ∧
      Session.step ⟨c, fun _ => none⟩ (.create pathA) = some (.ok 0, t') ∧
      c.vol.nextInum.toNat / 256 < crfsSbVtableLen := by
  obtain ⟨c, hc, hv, -, -⟩ := fresh_session
  obtain ⟨t', ht, -, -, -⟩ := Session.step_create ⟨c, fun _ => none⟩ pathA
  have hres : ((crfsCreate pathA.name).eval c.vol).1 = .ok () := by
    rw [hv]
    decide +kernel
  rw [show Session.vol ⟨c, fun _ => none⟩ = c.vol from rfl, hres] at ht
  refine ⟨c, t', hc, ht, (((inum_in_vtable_iff hc .refl pathA).1 t' ht).2).mpr ⟨2, by decide, ?_⟩⟩
  change c.vol.im.blocked 2 = false
  rw [hv]
  decide +kernel

/-! ### Numbers used up by failed creations -/

/-- On a full volume `σ` the inode numbers below `n` were used up; nothing was written. -/
structure Leaked (σ : Vol) (n : Nat) (τ : Vol) : Prop where
  inv : ∃ s, Inv τ s
  val : τ.val = σ.val
  dirty : τ.dirty = σ.dirty
  super : τ.glob.superBlock = σ.glob.superBlock
  which : τ.glob.crfsWhichSuper = σ.glob.crfsWhichSuper
  pwd : τ.glob.crfsPwd = σ.glob.crfsPwd
  limit : τ.bm.limit = σ.bm.limit
  isset : ∀ k, τ.bm.isset k = σ.bm.isset k
  full : ∀ k, k < τ.bm.limit → τ.bm.blocked k = true
  inums : τ.im.limit = 65536
  blocked : ∀ k, τ.im.blocked k = decide (k < n)

/-- Where a name goes depends on the blocks and the super block only. -/
theorem createAt_congr (hv : τ.val = σ.val) (hs : τ.glob.superBlock = σ.glob.superBlock)
    (hp : τ.glob.crfsPwd = σ.glob.crfsPwd) (fname : Name) :
    τ.createAt fname = σ.createAt fname := by
  have hi : τ.img = σ.img := by rw [Vol.img, Vol.img, hv, hs]
  rw [Vol.createAt, Vol.createAt, hi, hp, hv]

theorem Freemap.next_of_blocked {m : Freemap} {n : Nat} (hok : m.Ok) (hn : n < m.limit)
    (hb : ∀ k, m.blocked k = decide (k < n)) :
    ∃ m', freemapNext m = ((n : Int), m') ∧ m.Took n m' := by
  rcases Freemap.freemapNext_spec hok with ⟨x, hx, ht⟩ | ⟨-, hall, -⟩
  · have hxn : x = n := by
      rcases Nat.lt_trichotomy x n with hlt | heq | hgt
      · have hfree := ht.free
        rw [hb, decide_eq_true hlt] at hfree
        cases hfree
      · exact heq
      · have hleast := ht.least n hgt
        rw [hb, decide_eq_false (Nat.lt_irrefl n)] at hleast
        cases hleast
    subst hxn
    exact ⟨_, Prod.ext hx rfl, ht⟩
  · have hall' := hall n hn
    rw [hb, decide_eq_false (Nat.lt_irrefl n)] at hall'
    cases hall'

/-- A creation that finds no block for the inode table uses up one number. -/
theorem Leaked.create {n : Nat} {place : InodeId × Name × Nat} (h : Leaked σ n τ) (hn : n < 65536)
    (hneeds : ∀ i, NeedsTable σ i) (hat : σ.createAt fname = .ok place) :
    Leaked σ (n + 1) ((crfsCreate fname).eval τ).2 := by
  obtain ⟨d, nm, k⟩ := place
  obtain ⟨s, hinv⟩ := h.inv
  obtain ⟨m', he, ht⟩ := Freemap.next_of_blocked hinv.inums.ok (by rw [h.inums]; exact hn) h.blocked
  have hto : (UInt16.ofNat n).toNat = n := UInt16.toNat_ofNat_of_lt' hn
  rw [← hto] at he ht
  have hneeds' : ∀ i, NeedsTable (τ.setIm m') i := by
    intro i
    have hi := hneeds i
    rw [NeedsTable, show (τ.setIm m').tableOf i = σ.tableOf i from
      congrArg (Block.sbVtable · (i.toNat / 256)) h.super,
      show (τ.setIm m').dirty = σ.dirty from h.dirty]
    exact hi
  have hinv' := hinv.holdInum ht
  have hw : (crfsWriteInode (fileInode (UInt16.ofNat n))).eval (τ.setIm m') =
      (.error .ENOSPC, (τ.setIm m').setBm τ.bm.exhausted) := by
    rcases crfsWriteInode_outcome (σ := τ.setIm m') hinv.blocks.ok hinv.blocks.limit
      (fileInode (UInt16.ofNat n)) with ⟨-, -, -, -, -, -, -, hnot⟩ | ⟨hw, -, -⟩
    · exact absurd ⟨hneeds' _, Freemap.avail_eq_zero.mpr h.full⟩ hnot
    · exact hw
  have hcreate : ((crfsCreate fname).eval τ).2 = (τ.setIm m').setBm τ.bm.exhausted := by
    rw [crfsCreate_eval, createAt_congr h.val h.super h.pwd, hat]
    simp only
    rw [createInum_eq, storeLink, Prog.eval_bind,
      show nextInode.eval τ = ((freemapNext τ.im).1, τ.setIm (freemapNext τ.im).2) from rfl, he,
      ofInt_toNat, hw]
    rfl
  rw [hcreate]
  refine ⟨⟨_, hinv'.tree, hinv'.owned, hinv'.blocks.exhausted h.full, hinv'.inums, hinv'.live,
    hinv'.pwd⟩, h.val, h.dirty, h.super, h.which, h.pwd, h.limit, h.isset, h.full,
    ht.limit_eq.trans h.inums, ?_⟩
  intro j
  change m'.blocked j = _
  rw [ht.blocked, h.blocked, hto, Bool.eq_iff_iff, Bool.or_eq_true, decide_eq_true_eq,
    decide_eq_true_eq, decide_eq_true_eq]
  omega

/-- A program that keeps trying uses up one number after the other. -/
theorem Leaked.run {n : Nat} {place : InodeId × Name × Nat} {p : Path} (h : Leaked σ n t.vol)
    (hneeds : ∀ i, NeedsTable σ i) (hat : σ.createAt p.name = .ok place)
    (hc : t.mach.store.Coherent) (hne : t.mach.store.cache ≠ []) (k : Nat) (hk : n + k ≤ 65536) :
    ∃ t', Relation.ReflTransGen Session.Called t t' ∧ Leaked σ (n + k) t'.vol ∧
      t'.mach.store.Coherent ∧ t'.mach.store.cache ≠ [] := by
  induction k with
  | zero => exact ⟨t, .refl, h, hc, hne⟩
  | succ k ih =>
    obtain ⟨t', hrun, hl, hc', hne'⟩ := ih (by omega)
    have hv : (t'.after ((crfsCreate p.name).exec t'.mach).2).vol =
        ((crfsCreate p.name).eval t'.vol).2 := (exec_vol _ t'.mach).2
    refine ⟨t'.after ((crfsCreate p.name).exec t'.mach).2, hrun.tail ⟨.create p, _, rfl⟩, ?_,
      exec_coherent _ hc', exec_cache_ne_nil _ hne'⟩
    rw [hv]
    exact hl.create (by omega) hneeds hat

/-- With three free blocks a creation that has a place and a number succeeds. -/
theorem crfsCreate_succeeds {s : Shape} {place : InodeId × Name × Nat} (h : Inv σ s)
    (hz : (0 : UInt8) ∉ fname) (hat : σ.createAt fname = .ok place) (hroom : 3 ≤ σ.bm.avail)
    (hinum : ∃ k < σ.im.limit, σ.im.blocked k = false) :
    ∃ τ, (crfsCreate fname).eval σ = (.ok (), τ) := by
  obtain ⟨d, nm, k⟩ := place
  obtain ⟨hplace, -⟩ := createAt_room h hz hat
  rw [crfsCreate_eval, hat]
  simp only
  rw [createInum_eq]
  rcases nextInode_cases h.inums.ok h.inums.limit with ⟨x, m', ht, he⟩ | ⟨-, hall⟩
  · rw [he, ofInt_toNat]
    have hcost : ∀ i, tableCost (σ.setIm m') i ≤ 1 := by
      intro i
      rw [tableCost]
      split <;> omega
    have hout := store_link_served (σ.setIm m') s.own h.blocks h.owned.ownTable
      (σ.img.ino d) (h.owned.dirBlock hplace.live hplace.isDir) (h.tree.inum d hplace.live).2
      (σ.val (σ.img.ino d).inFirst) k nm (fileInode x)
    have hav : (σ.setIm m').bm.avail = σ.bm.avail := rfl
    have hc := hcost (fileInode x).inInode
    rcases hout with ⟨hτ, -⟩ | ⟨-, -, h0⟩ | ⟨-, -, -, -, -, h1⟩
    · exact hτ
    · omega
    · omega
  · obtain ⟨j, hj, hfree⟩ := hinum
    rw [hall j hj] at hfree
    cases hfree

/-- The full device after its first file was removed. -/
def emptiedVol : Vol := ((crfsRemove pathA.name).eval (filledVol fullChain)).2

theorem emptied_leaked (hv : σ = filledVol fullChain) (h : Mounted σ (filledShape fullChain)) :
    ((crfsRemove pathA.name).eval σ).1 = some (.ok ()) ∧ Leaked emptiedVol 4 emptiedVol := by
  have hres : ((crfsRemove pathA.name).eval σ).1 = some (.ok ()) := by
    rw [hv]
    decide +kernel
  refine ⟨hres, ?_⟩
  obtain ⟨e, he⟩ | ⟨d, nm, k, j, τ, s', -, hτ, hr, -⟩ := h.rmFile_cases pathA.nul false
  · rw [crfsRemove, he] at hres
    cases hres
  · obtain rfl : τ = emptiedVol := by
      rw [emptiedVol, ← hv, crfsRemove, hτ]
    refine ⟨⟨s', hr.inv⟩, rfl, rfl, rfl, rfl, rfl, rfl, fun _ => rfl, ?_, ?_, ?_⟩
    · decide +kernel
    · decide +kernel
    · intro k
      rw [hr.blocked.2, hv]
      change (Bitmap.mem (15 :: List.replicate 8191 0) k ||
        Bitmap.mem (List.replicate 8192 0) k) = _
      rw [mem_filledInums, Bitmap.mem_replicate, Bool.or_false, decide_eq_decide]
      omega

theorem emptied_needs (i : InodeId) : NeedsTable emptiedVol i := by
  have h : ∀ k < 256, emptiedVol.glob.superBlock.sbVtable k = 0 ∨
      emptiedVol.dirty (emptiedVol.glob.superBlock.sbVtable k) = false := by
    decide +kernel
  have hlt := i.toNat_lt
  exact h (i.toNat / 256) (by omega)

/-- The next flush, which goes to the second slot. -/
def Vol.flushed (σ : Vol) : Vol where
  val := Function.update σ.val 16 (nextSuper σ.glob.superBlock)
  dirty _ := false
  glob :=
    { σ.glob with
      superBlock := nextSuper σ.glob.superBlock
      blockFreemap := freemapFlush σ.bm }

/-- A flush gives the blocks back, not the numbers. -/
theorem Leaked.flush {n : Nat} {c : Machine} (h : Leaked σ n c.vol) (hc : c.store.Coherent)
    (hne : c.store.cache ≠ []) (hw : σ.glob.crfsWhichSuper = 0) :
    (∃ s, Inv (cacheFlush c).vol s) ∧ (cacheFlush c).vol.bm.avail = σ.flushed.bm.avail ∧
      (cacheFlush c).vol.im = c.vol.im ∧
      ∀ fname, (cacheFlush c).vol.createAt fname = σ.flushed.createAt fname := by
  obtain ⟨s, hinv⟩ := h.inv
  have hw' : c.glob.crfsWhichSuper = 0 := h.which.trans hw
  have hflush : flushSuper c = [(16, nextSuper σ.glob.superBlock)] := by
    rw [flushSuper, if_neg hne, hw', show c.glob.superBlock = σ.glob.superBlock from h.super]
    rfl
  have hpwd : (cacheFlush c).vol.glob.crfsPwd = σ.flushed.glob.crfsPwd := h.pwd
  refine ⟨⟨s, hinv.flush hc (Or.inl hw')⟩, ?_, rfl, fun fname => createAt_congr ?_ ?_ hpwd fname⟩
  · refine Freemap.avail_congr h.limit fun k => ?_
    have hset : (cacheFlush c).vol.bm.blocked k = c.vol.bm.isset k := Freemap.blocked_flush _ k
    rw [hset, h.isset]
    exact (Freemap.blocked_flush _ k).symm
  · rw [cacheFlush_vol hc, hflush, apply_cons, apply_nil, h.val]
    rfl
  · have hsb : (cacheFlush c).glob.superBlock = nextSuper c.glob.superBlock := if_neg hne
    exact hsb.trans (congrArg nextSuper h.super)

theorem emptied_place : emptiedVol.createAt pathC.name = .ok (1, [99], 2) := by decide +kernel

theorem emptied_flushed : emptiedVol.glob.crfsWhichSuper = 0 ∧ 3 ≤ emptiedVol.flushed.bm.avail ∧
    emptiedVol.flushed.createAt pathC.name = .ok (1, [99], 2) := by
  decide +kernel

/-- With the numbers below 4096 used up, a flush makes the next creation succeed. -/
theorem Leaked.outgrows {n : Nat} {place : InodeId × Name × Nat} {p : Path}
    (h : Leaked σ n t.vol) (hn : 4096 ≤ n) (hn' : n < 65536) (hc : t.mach.store.Coherent)
    (hne : t.mach.store.cache ≠ []) (hw : σ.glob.crfsWhichSuper = 0)
    (hroom : 3 ≤ σ.flushed.bm.avail) (hat : σ.flushed.createAt p.name = .ok place) :
    ∃ t₁ t', t.Called t₁ ∧ t₁.step (.create p) = some (.ok 0, t') ∧
      Gave t₁.vol t'.vol (t₁.vol.createAt p.name) t₁.vol.nextInum ∧
      ¬ t₁.vol.nextInum.toNat / 256 < crfsSbVtableLen := by
  obtain ⟨⟨s, hinv⟩, hav, him, hplace⟩ := h.flush hc hne hw
  have hblocked : ∀ k, (cacheFlush t.mach).vol.im.blocked k = decide (k < n) := by
    rw [him]
    exact h.blocked
  have hlim : (cacheFlush t.mach).vol.im.limit = 65536 := by
    rw [him]
    exact h.inums
  have hfree : (cacheFlush t.mach).vol.im.blocked n = false := by
    rw [hblocked, decide_eq_false (Nat.lt_irrefl n)]
  obtain ⟨τ, hτ⟩ := crfsCreate_succeeds hinv p.nul ((hplace _).trans hat) (by rw [hav]; exact hroom)
    ⟨n, by rw [hlim]; exact hn', hfree⟩
  obtain ⟨t', ht', hv', -, -⟩ := (t.after (cacheFlush t.mach)).step_create p
  have hvol : (t.after (cacheFlush t.mach)).vol = (cacheFlush t.mach).vol := rfl
  rw [hvol, hτ] at ht' hv'
  refine ⟨t.after (cacheFlush t.mach), t', ⟨.flush, _, rfl⟩, ht', ?_, ?_⟩
  · rw [hv', hvol]
    exact crfsCreate_gave hτ
  · rw [hvol, nextInum_table_iff hinv.inums.ok hlim]
    rintro ⟨k, hk, hk'⟩
    rw [hblocked k, decide_eq_true (by omega)] at hk'
    cases hk'

/-- Removing a file of the full device, then failing creations, then a flush: the next
file gets number 4096, and its table is outside the vector. -/
theorem inum_outgrows_vtable : ∃ (c : Machine) (t t' : Session),
    crfsInit (boot (filledDisk fullChain)) = some (true, c) ∧
      Relation.ReflTransGen Session.Called ⟨c, fun _ => none⟩ t ∧
      t.step (.create pathC) = some (.ok 0, t') ∧
      Gave t.vol t'.vol (t.vol.createAt pathC.name) t.vol.nextInum ∧
      ¬ t.vol.nextInum.toNat / 256 < crfsSbVtableLen := by
  obtain ⟨c, hc, hv, hm, hcoh, hne⟩ := filled_mounted spread_fullChain
  obtain ⟨hres, hleak⟩ := emptied_leaked hv hm
  obtain ⟨hw, hroom, hat⟩ := emptied_flushed
  obtain ⟨hr, hvol⟩ := exec_vol (crfsRemove pathA.name) c
  rw [hv, ← emptiedVol] at hvol
  rw [hres] at hr
  obtain ⟨t₁, hcall, hvol₁, hcoh₁, hne₁⟩ : ∃ t₁, Session.Called ⟨c, fun _ => none⟩ t₁ ∧
      t₁.vol = emptiedVol ∧ t₁.mach.store.Coherent ∧ t₁.mach.store.cache ≠ [] := by
    refine ⟨((Session.mk c fun _ => none).after ((crfsRemove pathA.name).exec c).2).forget,
      ⟨.remove pathA, .ok 0, ?_⟩, hvol, exec_coherent _ hcoh, exec_cache_ne_nil _ hne⟩
    exact congrArg (Option.map fun e : Except Errno Unit => (e.map fun _ => 0, _)) hr
  have hleak₁ : Leaked emptiedVol 4 t₁.vol := by
    rw [hvol₁]
    exact hleak
  obtain ⟨t₂, hrun, hl, hcoh₂, hne₂⟩ :=
    hleak₁.run emptied_needs emptied_place hcoh₁ hne₁ 4092 (by decide)
  obtain ⟨t, t', hflush, hstep, hgave, hout⟩ :=
    hl.outgrows (by decide) (by decide) hcoh₂ hne₂ hw hroom hat
  exact ⟨c, t, t', hc, (Relation.ReflTransGen.head hcall hrun).tail hflush, hstep, hgave, hout⟩

end Crfs
