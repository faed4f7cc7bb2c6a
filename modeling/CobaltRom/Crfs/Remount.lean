import CobaltRom.Crfs.Mark

/-! Mounting a well-formed image: `crfs_init` rebuilds the free maps from the tree. -/
namespace Crfs
open WriteBack WriteBack.Prog SlotTree

/-- The volume a machine shows. -/
abbrev Machine.vol (c : Machine) : Vol := c.flat

/-- The super block `crfs_init` takes and its index among the valid ones. -/
def pickSuper (sb0 sb1 : Block) (prev : Int) : Option (Int × Block) :=
  let sblocks := [sb0, sb1].filter validSuper
  let which := bestSuper sblocks 0 prev 0
  if which < 0 then none else sblocks[which.toNat]?.map fun sb => (which, sb)

/-- The number of blocks the block map covers. -/
def blockCount (sb : Block) : Nat := 8 * (sb.sbFssize.toNat / crfsBlockSize / 8)

/-- Nothing is handed out beyond what the tree uses, and `crfs_init` finds all of it. -/
structure Exact (I : Img) (s : Shape) : Prop where
  num : ∀ i, s.num i ↔ s.live i
  held : ∀ b, s.own b ≠ some .held
  chain : ∀ i, s.live i → I.isDir i = false →
    ∃ l, IsChain I.val (I.ino i).inFirst l ∧ ∀ b, s.own b = some (.file i) ↔ b ∈ l
  tables : ∀ k, k < 256 → I.vt k ≠ 0 → k < crfsSbVtableLen

/-- A well-formed image on the device. -/
structure WfImage (v : BlockId → Block) (sb : Block) (s : Shape) : Prop where
  tree : Treed (imgOf v sb) s.live
  named : Named (imgOf v sb) s.live
  owned : Owned (imgOf v sb) s
  exact : Exact (imgOf v sb) s
  range : ∀ b, s.own b ≠ none → b.toNat < blockCount sb
  slot : 16 < blockCount sb
  count : blockCount sb ≤ 65536

/-- A mounted volume on which every number in use is accounted for. -/
structure Mounted (σ : Vol) (s : Shape) : Prop where
  inv : Inv σ s
  named : Named σ.img s.live
  exact : Exact σ.img s

/-- A map in which nothing was released and no search has begun. -/
structure Freemap.Fresh (m : Freemap) : Prop where
  freed : m.fmFreed = List.replicate m.fmMapsize 0
  cur : m.fmCur = 0

variable {σ τ : Vol} {s : Shape} {sb : Block} {which : Int} {live : InodeId → Prop}
  {disk : BlockId → Block} {c : Machine}

/-- The volume before marking starts. -/
def startVol (σ : Vol) (which : Int) (sb : Block) : Vol :=
  { σ with glob := mountGlobals σ.glob which sb }

theorem forEach_tables (sb : Block) (ks : List Nat) : ∀ σ : Vol, σ.bm.Ok → σ.im.Ok →
    ∃ τ, (forEach (fun i => do
        if sb.sbVtable i ≠ 0 then do
          markBlock (sb.sbVtable i)
          pure (some ())
        else pure (some ())) ks).eval σ = (some (), τ) ∧
      Marked σ (fun b => ∃ k ∈ ks, sb.sbVtable k = b ∧ b ≠ 0) (fun _ => False) τ := by
  induction ks with
  | nil =>
    intro σ hb hi
    exact ⟨σ, rfl, (Marked.refl hb hi).congr (by simp) (by simp)⟩
  | cons k ks ih =>
    intro σ hb hi
    by_cases h0 : sb.sbVtable k = 0
    · obtain ⟨τ, he, hm⟩ := ih σ hb hi
      refine ⟨τ, ?_, hm.congr ?_ (by simp)⟩
      · rw [forEach, Prog.eval_bind, Prog.eval_ite, if_neg (by simpa using h0)]
        exact he
      · intro b
        simp only [List.mem_cons, exists_eq_or_imp]
        constructor
        · exact Or.inr
        · rintro (⟨rfl, hne⟩ | hb)
          · exact absurd h0 hne
          · exact hb
    · have hm := marked_block hb hi (sb.sbVtable k)
      obtain ⟨τ, he, hm'⟩ := ih _ hm.bm.ok hm.im.ok
      refine ⟨τ, ?_, (hm.trans hm').congr ?_ (by simp)⟩
      · rw [forEach, Prog.eval_bind, Prog.eval_ite, if_pos h0]
        exact he
      · intro b
        simp only [List.mem_cons, exists_eq_or_imp]
        constructor
        · rintro (rfl | hb)
          · exact Or.inl ⟨rfl, h0⟩
          · exact Or.inr hb
        · rintro (⟨rfl, -⟩ | hb)
          · exact Or.inl rfl
          · exact Or.inr hb

theorem tableEntry_touches (sb : Block) (i : Nat) (σ : Vol) (x : BlockId) :
    ¬ (do
      if sb.sbVtable i ≠ 0 then do
        markBlock (sb.sbVtable i)
        pure (some ())
      else pure (some ()) : FsM (Option Unit)).Touches σ x := by
  rw [touches_ite]
  split <;> simp [markBlock_touches]

/-- The blocks mounting marks: the two slots, the inode tables and the tree. -/
def marksBlock (v : BlockId → Block) (sb : Block) (b : BlockId) : Prop :=
  b = 0 ∨ b = 16 ∨ (∃ k < crfsSbVtableLen, sb.sbVtable k = b ∧ b ≠ 0) ∨
    below (imgOf v sb) sb.sbRoot b

/-- What `crfs_init` does once it has its super block. -/
def mountBody (sb : Block) : FsM (Option Bool) := do
  markInum 0
  markBlock (sbBlocknum 0)
  markBlock (sbBlocknum 1)
  let _ ← forEach (fun i => do
    if sb.sbVtable i ≠ 0 then do
      markBlock (sb.sbVtable i)
      pure (some ())
    else pure (some ())) (List.range crfsSbVtableLen)
  match ← markInode (walkFuel + 1) sb.sbRoot with
  | none => pure none
  | some () => do
    let g ← Prog.getGlob
    Prog.setGlob { g with crfsPwd := sb.sbRoot }
    pure (some true)

/-- Every call of `malloc` for the two maps is served. -/
def Served (mem : Nat → Bool) : Prop := mem 0 = true ∧ mem 1 = true ∧ mem 2 = true ∧ mem 3 = true

theorem mountMaps_served {mem : Nat → Bool} (h : Served mem) (g : Globals) (which : Int)
    (sb : Block) : mountMaps mem g which sb = (true, mountGlobals g which sb) := by
  obtain ⟨h0, h1, h2, h3⟩ := h
  simp [mountMaps, freemapTryInit, mountGlobals, h0, h1, h2, h3]

theorem mountMaps_failed {mem : Nat → Bool} (h : ¬ Served mem) (g : Globals) (which : Int)
    (sb : Block) : (mountMaps mem g which sb).1 = false := by
  have hfail : ∀ (b b' : Bool) (m : Freemap) (n : Nat),
      (freemapTryInit b b' m n).1 = (b && b') := by
    intro b b' m n
    cases b <;> cases b' <;> rfl
  simp only [mountMaps, hfail]
  rw [Bool.eq_false_iff]
  simp only [ne_eq, Bool.and_eq_true]
  exact fun ⟨⟨h0, h1⟩, h2, h3⟩ => h ⟨h0, h1, h2, h3⟩

/-- The programs that follow the choice of a super block. -/
theorem initBody_run (mem : Nat → Bool) (σ : Vol) : (initBody mem).eval σ =
    match pickSuper (σ.val 0) (σ.val 16) σ.glob.crfsWhichSuper with
    | none => (some false, σ)
    | some (which, sb) =>
      (if (mountMaps mem σ.glob which sb).1 = false then pure (some false) else mountBody sb).eval
        { σ with glob := (mountMaps mem σ.glob which sb).2 } := by
  have h0 : sbBlocknum 0 = 0 := by decide
  have h1 : sbBlocknum 1 = 16 := by decide
  unfold initBody pickSuper
  simp only [Prog.eval_bind, Prog.eval_getGlob, crfsReadBlock_eval, h0, h1]
  by_cases hw : bestSuper ([σ.val 0, σ.val 16].filter validSuper) 0 σ.glob.crfsWhichSuper 0 < 0
  · simp only [hw, if_true]
    rfl
  · simp only [hw, if_false]
    cases ([σ.val 0, σ.val 16].filter validSuper)[
        (bestSuper ([σ.val 0, σ.val 16].filter validSuper) 0 σ.glob.crfsWhichSuper 0).toNat]? with
    | none => rfl
    | some sb => rfl

theorem initBody_eval (σ : Vol) : initBody.eval σ =
    match pickSuper (σ.val 0) (σ.val 16) σ.glob.crfsWhichSuper with
    | none => (some false, σ)
    | some (which, sb) => (mountBody sb).eval (startVol σ which sb) := by
  rw [initBody_run]
  cases pickSuper (σ.val 0) (σ.val 16) σ.glob.crfsWhichSuper with
  | none => rfl
  | some r => rfl

/-- Marking before the tree: number 0, the slots and the inode tables. -/
theorem mountBody_start (hb : σ.bm.Ok) (hi : σ.im.Ok) (hsb : σ.glob.superBlock = sb) :
    ∃ σ₁ : Vol, Marked σ (fun b => b = 0 ∨ b = 16 ∨
        ∃ k < crfsSbVtableLen, sb.sbVtable k = b ∧ b ≠ 0) (· = 0) σ₁ ∧
      ((mountBody sb).eval σ =
        match (markInode (walkFuel + 1) sb.sbRoot).eval σ₁ with
        | (none, τ) => (none, τ)
        | (some (), τ) => (some true, { τ with glob := { τ.glob with crfsPwd := sb.sbRoot } })) ∧
      ∀ x, (mountBody sb).Touches σ x ↔ (markInode (walkFuel + 1) sb.sbRoot).Touches σ₁ x := by
  subst hsb
  have hm1 := marked_inum hb hi 0
  have hm2 := hm1.trans (marked_block hm1.bm.ok hm1.im.ok 0)
  have hm3 := hm2.trans (marked_block hm2.bm.ok hm2.im.ok 16)
  obtain ⟨σ₁, he₁, hm⟩ := forEach_tables σ.glob.superBlock (List.range crfsSbVtableLen) _
    hm3.bm.ok hm3.im.ok
  refine ⟨σ₁, (hm3.trans hm).congr ?_ ?_, ?_, ?_⟩
  · intro b
    constructor
    · rintro (((hb | rfl) | rfl) | ⟨k, hk, hb⟩)
      · exact hb.elim
      · exact Or.inl rfl
      · exact Or.inr (Or.inl rfl)
      · exact Or.inr (Or.inr ⟨k, List.mem_range.mp hk, hb⟩)
    · rintro (rfl | rfl | ⟨k, hk, hb⟩)
      · exact Or.inl (Or.inl (Or.inr rfl))
      · exact Or.inl (Or.inr rfl)
      · exact Or.inr ⟨k, List.mem_range.mpr hk, hb⟩
  · intro i
    constructor
    · rintro (((rfl | hi) | hi) | hi)
      · rfl
      all_goals exact hi.elim
    · rintro rfl
      exact Or.inl (Or.inl (Or.inl rfl))
  · have h0 : sbBlocknum 0 = 0 := by decide
    have h1 : sbBlocknum 1 = 16 := by decide
    unfold mountBody
    simp only [Prog.eval_bind, markInum_eval, markBlock_eval, h0, h1]
    rw [he₁]
    simp only []
    rcases (markInode (walkFuel + 1) σ.glob.superBlock.sbRoot).eval σ₁ with ⟨_ | _, τ⟩ <;> rfl
  · intro x
    have h0 : sbBlocknum 0 = 0 := by decide
    have h1 : sbBlocknum 1 = 16 := by decide
    have hloop := forEach_touches_none (tableEntry_touches σ.glob.superBlock)
    unfold mountBody
    simp only [touches_bind, markInum_touches, markBlock_touches, hloop,
      markInum_eval, markBlock_eval, h0, h1, false_or]
    rw [he₁]
    refine or_iff_left ?_
    rcases (markInode (walkFuel + 1) σ.glob.superBlock.sbRoot).eval σ₁ with ⟨_ | _, τ⟩ <;> simp

/-- Marking a tree: number 0, the slots, the inode tables and the tree itself. -/
theorem mountBody_marked (hb : σ.bm.Ok) (hi : σ.im.Ok) (hlim : σ.im.limit = 65536)
    (hsb : σ.glob.superBlock = sb) (hzero : ∀ x : InodeId, σ.im.isset x.toNat = false)
    (h : Treed σ.img live)
    (hch : ∀ i, live i → σ.img.isDir i = false → ∃ l, IsChain σ.val (σ.img.ino i).inFirst l) :
    ∃ τ, (mountBody sb).eval σ = (some true, τ) ∧ τ.glob.crfsPwd = sb.sbRoot ∧
      Marked σ (marksBlock σ.val sb) (fun i => i = 0 ∨ live i) τ := by
  obtain ⟨σ₁, hm, he, -⟩ := mountBody_start hb hi hsb
  subst hsb
  obtain ⟨σ₂, he₂, hm'⟩ := markInode_marked (I := σ.img) h hch (walkFuel + 1) σ.img.root [] σ₁
    hm.img h.live_root hm.bm.ok hm.im.ok (hm.im.limit.trans hlim)
    (fun _ => Or.inl h.upRoot) (by
      intro x hx _
      rw [Bool.eq_false_iff]
      intro hset
      rcases (hm.im.isset _).mp hset with hset | ⟨hset, -⟩
      · rw [hzero] at hset
        cases hset
      · have h0 : x = 0 := (numbers_toNat (P := fun x => x = 0)).mp hset
        exact (h.inum x (h.tree.desc_live h.live_root hx)).1 h0)
    (by simp) (by simp) (by simp [walkFuel])
  have hall := hm.trans hm'
  refine ⟨{ σ₂ with glob := { σ₂.glob with crfsPwd := σ.glob.superBlock.sbRoot } }, ?_, rfl,
    ⟨hall.val, hall.dirty, hall.super, hall.which, hall.bm.congr ?_, hall.im.congr ?_⟩⟩
  · rw [he, show σ.glob.superBlock.sbRoot = σ.img.root from rfl, he₂]
  · refine numbers_congr fun b => ?_
    constructor
    · rintro ((rfl | rfl | hb) | hb)
      · exact Or.inl rfl
      · exact Or.inr (Or.inl rfl)
      · exact Or.inr (Or.inr (Or.inl hb))
      · exact Or.inr (Or.inr (Or.inr hb))
    · rintro (rfl | rfl | hb | hb)
      · exact Or.inl (Or.inl rfl)
      · exact Or.inl (Or.inr (Or.inl rfl))
      · exact Or.inl (Or.inr (Or.inr hb))
      · exact Or.inr hb
  · refine numbers_congr fun i => ?_
    constructor
    · rintro (rfl | hi)
      · exact Or.inl rfl
      · exact Or.inr (h.tree.desc_live h.live_root hi)
    · rintro (rfl | hi)
      · exact Or.inl rfl
      · exact Or.inr (h.tree.reach i hi)

theorem ok_freemapInit_start (σ : Vol) (which : Int) (sb : Block) :
    (startVol σ which sb).bm.Ok ∧ (startVol σ which sb).im.Ok :=
  ⟨Freemap.ok_init _, Freemap.ok_init _⟩

/-- There are no more copies than block numbers. -/
theorem cache_length_le (h : c.store.Coherent) : c.store.cache.length ≤ 65536 := by
  have := nodup_inums_length h.nodup
  rwa [List.length_map] at this

/-- A freshly started `crfs_init` sees the device. -/
abbrev Machine.dropped (c : Machine) : Vol := ⟨c.store.disk, fun _ => false, c.glob⟩

/-- The machine level: the cache starts empty, so the device is what is read, and one copy is
kept of each block that was read. -/
theorem crfsInit_of_run {mem : Nat → Bool} {r : Bool} (entries : Nat)
    (h : (initBody mem).eval c.dropped = (some r, τ)) :
    ∃ c' : Machine, c'.vol = τ ∧ c'.store.disk = c.store.disk ∧ c'.store.Coherent ∧
      (∀ b, b ∈ c'.store.cache.map Entry.key ↔ (initBody mem).Touches c.dropped b) ∧
      crfsInit c mem entries =
        if c'.store.cache.length ≤ entries then some (r, c') else none := by
  have hf := exec_flat (⟨⟨c.store.disk, []⟩, c.glob⟩ : Machine) (initBody mem)
  have hkeys := exec_keys (⟨⟨c.store.disk, []⟩, c.glob⟩ : Machine) (initBody mem)
  have hdisk := exec_disk (⟨⟨c.store.disk, []⟩, c.glob⟩ : Machine) (initBody mem)
  have hcoh := exec_coherent (initBody mem) (c := (⟨⟨c.store.disk, []⟩, c.glob⟩ : Machine))
    (Store.coherent_empty _)
  have hflat : (⟨⟨c.store.disk, []⟩, c.glob⟩ : Machine).flat = c.dropped := rfl
  rw [hflat, h] at hf
  rw [hflat] at hkeys
  generalize hrun : (initBody mem).exec (⟨⟨c.store.disk, []⟩, c.glob⟩ : Machine) = res at *
  obtain ⟨r', c'⟩ := res
  obtain ⟨hr, hc⟩ := hf
  simp only at hr hc
  subst hr
  refine ⟨c', hc, hdisk, hcoh, fun b => ?_, ?_⟩
  · simpa using hkeys b
  · have hexec : (initBody mem).exec { c with store := ⟨c.store.disk, []⟩ } = (some r, c') := hrun
    rw [crfsInit, hexec]

theorem crfsInit_of_none {mem : Nat → Bool} {entries : Nat}
    (h : ((initBody mem).eval c.dropped).1 = none) : crfsInit c mem entries = none := by
  have hf := (exec_flat (⟨⟨c.store.disk, []⟩, c.glob⟩ : Machine) (initBody mem)).1
  have hflat : (⟨⟨c.store.disk, []⟩, c.glob⟩ : Machine).flat = c.dropped := rfl
  rw [hflat, h] at hf
  generalize hrun : (initBody mem).exec (⟨⟨c.store.disk, []⟩, c.glob⟩ : Machine) = res at hf
  obtain ⟨r', c'⟩ := res
  obtain rfl : r' = none := hf
  have hexec : (initBody mem).exec { c with store := ⟨c.store.disk, []⟩ } = (none, c') := hrun
  rw [crfsInit, hexec]

/-- The first slot is always read. -/
theorem initBody_touches_slot (mem : Nat → Bool) (σ : Vol) : (initBody mem).Touches σ 0 := by
  have h0 : sbBlocknum 0 = 0 := by decide
  unfold initBody crfsReadBlock
  rw [h0]
  simp only [touches_bind, touches_readAt, true_or, or_true]

/-- There is memory for every copy, as there are no more than block numbers. -/
theorem crfsInit_of_eval {r : Bool} (h : initBody.eval c.dropped = (some r, τ)) :
    ∃ c' : Machine, crfsInit c = some (r, c') ∧ c'.vol = τ ∧ c'.store.disk = c.store.disk ∧
      c'.store.Coherent ∧ c'.store.cache ≠ [] := by
  obtain ⟨c', hv, hd, hcoh, hkeys, hc'⟩ := crfsInit_of_run 65536 h
  refine ⟨c', ?_, hv, hd, hcoh, ?_⟩
  · rw [hc', if_pos (cache_length_le hcoh)]
  · intro hnil
    have := (hkeys 0).mpr (initBody_touches_slot _ _)
    rw [hnil] at this
    cases this

/-- A mark fell behind the map if it was for a block that the map does not cover. -/
theorem Marked.stray_iff {B : BlockId → Prop} {N : InodeId → Prop}
    (h : Marked (startVol σ which sb) B N τ) :
    τ.glob.Stray ↔ ∃ b, B b ∧ blockCount sb ≤ b.toNat := by
  constructor
  · rintro (hf | hf)
    · rcases h.bm.stray.mp hf with hf | ⟨k, ⟨b, hb, rfl⟩, hk⟩
      · cases hf
      · exact ⟨b, hb, hk⟩
    · rcases h.im.stray.mp hf with hf | ⟨k, ⟨i, -, rfl⟩, hk⟩
      · cases hf
      · exact absurd i.toNat_lt (Nat.not_lt.mpr hk)
  · rintro ⟨b, hb, hk⟩
    exact Or.inl (h.bm.stray.mpr (Or.inr ⟨b.toNat, ⟨b, hb, rfl⟩, hk⟩))

theorem isset_startVol (σ : Vol) (which : Int) (sb : Block) (k : Nat) :
    (startVol σ which sb).bm.isset k = false ∧ (startVol σ which sb).im.isset k = false :=
  ⟨Freemap.isset_init _ _, Freemap.isset_init _ _⟩

/-- A block is marked exactly if it has an owner or is a slot. -/
theorem WfImage.marksBlock_iff (h : WfImage disk sb s) (b : BlockId) :
    marksBlock disk sb b ↔ s.own b ≠ none ∨ b = 0 ∨ b = 16 := by
  have hroot : (imgOf disk sb).root = sb.sbRoot := rfl
  constructor
  · rintro (rfl | rfl | ⟨k, hk, hb⟩ | ⟨j, hj, hb⟩)
    · exact Or.inr (Or.inl rfl)
    · exact Or.inr (Or.inr rfl)
    · left
      rw [(h.owned.ownTable k b).mpr ⟨by simp only [crfsSbVtableLen] at hk; omega, hb⟩]
      simp
    · obtain ⟨o, ho, -⟩ := h.owned.blockOf (h.tree.tree.desc_live h.tree.live_root hj) hb
      left
      rw [ho]
      simp
  · rintro (hb | rfl | rfl)
    · cases ho : s.own b with
      | none => exact absurd ho hb
      | some o =>
        right; right
        cases o with
        | itable k =>
          obtain ⟨hk, hvt, h0⟩ := (h.owned.ownTable k b).mp ho
          exact Or.inl ⟨k, h.exact.tables k hk (by rw [hvt]; exact h0), hvt, h0⟩
        | dir i =>
          obtain ⟨hi, hd, hf⟩ := (h.owned.ownDir i b).mp ho
          exact Or.inr ⟨i, h.tree.tree.reach i hi, by rw [Img.blockOf, if_pos hd]; exact hf.symm⟩
        | file i =>
          obtain ⟨hi, hd, -⟩ := h.owned.ownFile i b ho
          obtain ⟨l, hl, hown⟩ := h.exact.chain i hi hd
          refine Or.inr ⟨i, h.tree.tree.reach i hi, ?_⟩
          rw [Img.blockOf, if_neg (by simp [hd])]
          exact (IsChain.onChain_iff hl).mpr ((hown b).mp ho)
        | held => exact absurd ho (h.exact.held b)
    · exact Or.inl rfl
    · exact Or.inr (Or.inl rfl)

/-- Mounting a well-formed image gives a volume with exactly the image's shape. -/
theorem crfsInit_mounted (h : WfImage c.store.disk sb s)
    (hp : pickSuper (c.store.disk 0) (c.store.disk 16) c.glob.crfsWhichSuper =
      some (which, sb)) :
    ∃ c' : Machine, crfsInit c = some (true, c') ∧ Mounted c'.vol s ∧ c'.store.disk = c.store.disk ∧
      c'.store.Coherent ∧ c'.store.cache ≠ [] ∧ c'.vol.val = c.store.disk ∧
      (∀ b, c'.vol.dirty b = false) ∧ c'.glob.superBlock = sb ∧ c'.glob.crfsWhichSuper = which ∧
      c'.vol.bm.Fresh ∧ c'.vol.im.Fresh ∧ c'.vol.bm.limit = blockCount sb ∧
      c'.vol.im.limit = 65536 ∧ ¬ c'.glob.Full ∧ ¬ c'.glob.Stray := by
  have hb := (ok_freemapInit_start ⟨c.store.disk, fun _ => false, c.glob⟩ which sb).1
  have hi := (ok_freemapInit_start ⟨c.store.disk, fun _ => false, c.glob⟩ which sb).2
  obtain ⟨(τ : Vol), he, hpwd, hm⟩ := mountBody_marked hb hi rfl rfl
    (fun x => (isset_startVol _ _ _ _).2) h.tree
    (fun i hi hd => (h.exact.chain i hi hd).imp fun l hl => hl.1)
  have hinit : initBody.eval ⟨c.store.disk, fun _ => false, c.glob⟩ = (some true, τ) := by
    rw [initBody_eval]
    simp only [hp]
    exact he
  obtain ⟨c', hc, hflat, hdisk, hcoh, hne⟩ := crfsInit_of_eval hinit
  have himg : τ.img = imgOf c.store.disk sb := hm.img
  have hblim : τ.bm.limit = blockCount sb := hm.bm.limit
  have hilim : τ.im.limit = 65536 := hm.im.limit
  subst hflat
  refine ⟨c', hc, ⟨⟨?_, ?_, ?_, ?_, ?_, ?_⟩, ?_, ?_⟩, hdisk, hcoh, hne, hm.val, ?_, hm.super,
    hm.which, ?_, ?_, hblim, hilim, ?_, ?_⟩
  · rw [himg]; exact h.tree
  · rw [himg]; exact h.owned
  · refine ⟨hm.bm.ok, by rw [hblim]; exact h.count, h.owned.ownZero, h.owned.ownSlot, ?_⟩
    intro b
    rw [hm.bm.isset, (isset_startVol _ _ _ _).1, numbers_toNat]
    change _ ∨ marksBlock c.store.disk sb b ∧ _ ↔ _
    rw [h.marksBlock_iff]
    constructor
    · rintro (hf | ⟨hb, -⟩)
      · cases hf
      · exact hb
    · intro hb
      refine Or.inr ⟨hb, ?_⟩
      change b.toNat < blockCount sb
      rcases hb with hb | rfl | rfl
      · exact h.range b hb
      · exact Nat.lt_of_le_of_lt (Nat.zero_le _) h.slot
      · exact h.slot
  · refine ⟨hm.im.ok, by rw [hilim], ?_⟩
    intro i
    rw [hm.im.isset, (isset_startVol _ _ _ _).2, numbers_toNat, h.exact.num]
    constructor
    · rintro (hf | ⟨rfl | hi, -⟩)
      · cases hf
      · exact Or.inr rfl
      · exact Or.inl hi
    · rintro (hi | rfl)
      · exact Or.inr ⟨Or.inr hi, i.toNat_lt⟩
      · exact Or.inr ⟨Or.inl rfl, UInt16.toNat_lt 0⟩
  · exact fun i hi => (h.exact.num i).mpr hi
  · rw [himg]; exact hpwd
  · rw [himg]; exact h.named
  · rw [himg]; exact h.exact
  · intro b
    rw [hm.dirty]
    rfl
  · exact ⟨by rw [hm.bm.freed, hm.bm.size]; rfl, by rw [hm.bm.cur]; rfl⟩
  · exact ⟨by rw [hm.im.freed, hm.im.size]; rfl, by rw [hm.im.cur]; rfl⟩
  · rintro (hf | hf)
    · have := hm.bm.full
      rw [show c'.vol.bm.fmFull = true from hf] at this
      cases this
    · have := hm.im.full
      rw [show c'.vol.im.fmFull = true from hf] at this
      cases this
  · rintro hf
    obtain ⟨b, hb, hk⟩ := hm.stray_iff.mp hf
    rcases (h.marksBlock_iff b).mp hb with hb | rfl | rfl
    · exact absurd (h.range b hb) (Nat.not_lt.mpr hk)
    · exact absurd (Nat.lt_of_lt_of_le h.slot hk) (Nat.not_lt_zero 16)
    · exact absurd h.slot (Nat.not_lt.mpr hk)

end Crfs
