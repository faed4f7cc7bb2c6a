import CobaltRom.Crfs.Remove

/-! What a successful `crfs_remove` or `crfs_rmdir` does to a volume. -/
namespace Crfs
open WriteBack SlotTree

variable {σ τ : Vol} {s s' : Shape} {b : BlockId} {d i j : InodeId} {k : Nat} {fname : Name}
  {doDirs : Bool}

/-- The entry in slot `k` of directory `d` was emptied in place and the subtree
under `j` released. -/
structure Removed (σ : Vol) (s : Shape) (d : InodeId) (k : Nat) (j : InodeId) (τ : Vol)
    (s' : Shape) : Prop where
  inv : Inv τ s'
  erased : Erased σ.img s.live d k j τ.img
  named : Named τ.img s'.live
  live : s'.live = fun i => s.live i ∧ ¬ Desc σ.img.kids j i
  num : s'.num = fun i => s.num i ∧ ¬ Desc σ.img.kids j i
  ino : ∀ i, σ.tableOf i ≠ 0 → τ.img.ino i = σ.img.ino i
  val : τ.val = Function.update σ.val (σ.img.ino d).inFirst
    ((σ.val (σ.img.ino d).inFirst).clearDirent k)
  dirty : τ.dirty = Function.update σ.dirty (σ.img.ino d).inFirst true
  super : τ.glob.superBlock = σ.glob.superBlock
  owner : ∀ b o, o ≠ .held → (s'.own b = some o ↔
    s.own b = some o ∧ ∀ i, o.inode = some i → ¬ Desc σ.img.kids j i)
  held : (∀ i, s.live i → ∀ b, s.own b = some (.file i) →
    OnChain σ.val (σ.img.ino i).inFirst b) → ∀ b, s'.own b = some .held → s.own b = some .held
  blocked : (∀ k, τ.bm.blocked k = σ.bm.blocked k) ∧ ∀ k, τ.im.blocked k = σ.im.blocked k
  limit : τ.bm.limit = σ.bm.limit

/-- Removing goes through entry `k` of a directory, a child `j`. -/
structure Target (σ : Vol) (s : Shape) (fname : Name) (d : InodeId) (nm : Name) (k : Nat)
    (j : InodeId) : Prop where
  namei : σ.img.namei σ.glob.crfsPwd fname = .ok (nm, d)
  live : s.live d
  isDir : σ.img.isDir d = true
  kid : σ.img.kids d k = some j
  name : (σ.img.ent d k).name = nm

/-- With entries named apart, the slot that is cleared is the one that was found. -/
theorem clear_slot (h : Inv σ s) (hn : Named σ.img s.live) (hd : s.live d)
    (hdir : σ.img.isDir d = true) {nm : Name} {de : Dirent}
    (hl : crfsLookupDirent (σ.val (σ.img.ino d).inFirst) nm = some de)
    (hdot : ¬ (nm = [46] ∨ nm = [46, 46])) :
    ∃ k, (List.range crfsDirNents).find?
        (fun i => ((σ.val (σ.img.ino d).inFirst).dirent i).name == nm) = some k ∧
      σ.img.kids d k = some de.deInode ∧ (σ.img.ent d k).name = nm := by
  obtain ⟨-, hname, hne, k, hk, rfl⟩ := crfsLookupDirent_some hl
  have hok := h.tree.dirOk d hd hdir
  have hnm : nm ≠ [] := hname ▸ hn d hd hdir k hk hne
  have hfind : ((List.range crfsDirNents).find?
      fun i => ((σ.val (σ.img.ino d).inFirst).dirent i).name == nm).isSome = true := by
    rw [List.find?_isSome]
    exact ⟨k, List.mem_range.mpr hk, by simp [hname]⟩
  obtain ⟨k', hk'⟩ := Option.isSome_iff_exists.mp hfind
  have hp := List.find?_some hk'
  have hname' : (σ.img.ent d k').name = nm := beq_iff_eq.mp hp
  have hlt' : k' < 64 := List.mem_range.mp (List.mem_of_find?_eq_some hk')
  have hne' : (σ.img.ent d k').deInode ≠ 0 := by
    intro h0
    exact hnm (hname'.symm.trans (hok.dead k' hlt' h0))
  have hkk : k' = k := hok.distinct k' k hlt' hk hne' hne (hname'.trans hname.symm)
  subst hkk
  refine ⟨k', hk', Img.kids_eq_some.mpr ⟨hdir, ?_, hlt', hne, rfl⟩, hname'⟩
  -- the two dot entries carry other names
  by_contra h2
  obtain rfl | rfl : k' = 0 ∨ k' = 1 := by omega
  · exact hdot (Or.inl (hname'.symm.trans hok.dot.2))
  · exact hdot (Or.inr (hname'.symm.trans hok.dotdot.2))

/-- Emptying an entry of a directory block. -/
theorem Inv.erased (h : Inv σ s) (hd : s.live d) (hdir : σ.img.isDir d = true)
    (hk : σ.img.kids d k = some j) : Erased σ.img s.live d k j
      (σ.write (σ.img.ino d).inFirst ((σ.val (σ.img.ino d).inFirst).clearDirent k)).img := by
  obtain ⟨-, h2, h64, -, -⟩ := Img.kids_eq_some.mp hk
  have hb := h.owned.dirBlock hd hdir
  have hino : ∀ i, s.live i → (σ.write (σ.img.ino d).inFirst
      ((σ.val (σ.img.ino d).inFirst).clearDirent k)).img.ino i = σ.img.ino i := by
    intro i hi
    refine Vol.write_ino (h.table_ne (h.owned.table i hi) ?_) _
    intro l hl
    rw [hb] at hl
    cases hl
  have hent : ∀ l, (σ.write (σ.img.ino d).inFirst
      ((σ.val (σ.img.ino d).inFirst).clearDirent k)).img.ent d l =
      ((σ.val (σ.img.ino d).inFirst).clearDirent k).dirent l := by
    intro l
    rw [Img.ent, hino d hd, Vol.img_val, Vol.write_val_self]
  refine ⟨rfl, hd, hdir, hk, ?_, ?_, ?_, ?_, ?_⟩
  · intro i hi
    rw [hino i hi]
    exact (h.tree.inum i hi).2
  · intro i hi
    rw [Img.isDir, hino i hi, Img.isDir]
  · intro i hi hdi hid
    funext l
    have hne : (σ.img.ino i).inFirst ≠ (σ.img.ino d).inFirst :=
      fun he => hid (h.owned.dirBlock_inj hi hdi hd hdir he)
    rw [Img.ent, Img.ent, hino i hi, Vol.img_val, Vol.write_val_ne hne, Vol.img_val]
  · intro l hl
    rw [hent, Block.dirent_clearDirent_ne hl]
    rfl
  · rw [hent]
    exact ⟨Block.dirent_clearDirent_deInode h64 _, Block.dirent_clearDirent_name h64 _⟩

/-- Below `j` nothing changes when the entry of `j` is emptied. -/
theorem Erased.kids_below {I I' : Img} {live : InodeId → Prop} (he : Erased I live d k j I')
    (ht : Treed I live) (hi : Desc I.kids j i) : I'.kids i = I.kids i := by
  have hil := ht.tree.desc_live (ht.tree.kid_live d k j he.dir he.kid) hi
  refine Treed.kids_congr (he.dirs i hil) (fun hd => he.other i hil hd ?_)
  rintro rfl
  exact ht.tree.not_desc_kid he.dir he.kid hi

theorem Erased.desc_below {I I' : Img} {live : InodeId → Prop} (he : Erased I live d k j I')
    (ht : Treed I live) {x : InodeId} (hx : Desc I.kids j x) (i : InodeId) :
    Desc I'.kids x i ↔ Desc I.kids x i := by
  constructor
  · intro h
    induction h with
    | refl => exact .refl
    | step _ hs ih => exact .step ih (by rw [← he.kids_below ht (hx.trans ih)]; exact hs)
  · intro h
    induction h with
    | refl => exact .refl
    | step hxe hs ih => exact .step ih (by rw [he.kids_below ht (hx.trans hxe)]; exact hs)

/-- The invariant after both parts of `rm_file`. -/
theorem Inv.removed (h : Inv σ s) (hn : Named σ.img s.live) (hd : s.live d)
    (hdir : σ.img.isDir d = true) (hk : σ.img.kids d k = some j) {σ₁ : Vol}
    (hσ₁ : σ₁ = σ.write (σ.img.ino d).inFirst ((σ.val (σ.img.ino d).inFirst).clearDirent k))
    {B : BlockId → Prop} {N : InodeId → Prop} (hR : Released σ₁ B N τ)
    (hT : ReleasedTree σ₁.img j B N (some ())) :
    Removed σ s d k j τ (s.drop (Desc σ.img.kids j) fun b => ¬ B b) := by
  have he := h.erased hd hdir hk
  rw [← hσ₁] at he
  have hjl := h.tree.tree.kid_live d k j hd hk
  have hb := h.owned.dirBlock hd hdir
  have hval₁ : ∀ b, b ≠ (σ.img.ino d).inFirst → σ₁.val b = σ.val b := by
    intro b hb
    rw [hσ₁]
    exact Vol.write_val_ne hb _
  have hino₁ : ∀ i, σ.tableOf i ≠ 0 → σ₁.img.ino i = σ.img.ino i := by
    intro i hi
    rw [hσ₁]
    refine Vol.write_ino (h.table_ne hi ?_) _
    intro l hl
    rw [hb] at hl
    cases hl
  have ho₁ : Owned σ₁.img s := by
    refine h.owned.congr (by rw [hσ₁]; rfl) (fun i hi => hino₁ i (h.owned.table i hi)) ?_
    intro i b hbi
    have hne : b ≠ (σ.img.ino d).inFirst := by
      rintro rfl
      rw [hb] at hbi
      cases hbi
    change (σ₁.val b).fbNext = (σ.val b).fbNext
    rw [hval₁ b hne]
  have hdesc : ∀ i, Desc σ₁.img.kids j i ↔ Desc σ.img.kids j i := fun i =>
    he.desc_below h.tree .refl i
  have hBown : ∀ b, B b → ∃ o i, s.own b = some o ∧ o.inode = some i ∧ Desc σ.img.kids j i := by
    intro b hB
    obtain ⟨i, hji, hbi⟩ := hT.blocks b hB
    rw [hdesc] at hji
    obtain ⟨o, ho, hoi⟩ := ho₁.blockOf (h.tree.tree.desc_live hjl hji) hbi
    exact ⟨o, i, ho, hoi, hji⟩
  have hNiff : ∀ i, N i ↔ Desc σ.img.kids j i := by
    intro i
    rw [← hdesc]
    exact ⟨hT.inums i, hT.allInums rfl i⟩
  have hdrop : ∀ b o, o ≠ .held → ((s.drop (Desc σ.img.kids j) fun b => ¬ B b).own b = some o ↔
      s.own b = some o ∧ ∀ i, o.inode = some i → ¬ Desc σ.img.kids j i) :=
    fun b o ho => Shape.drop_own ho
  have hbm₁ : σ₁.bm = σ.bm := by rw [hσ₁]; rfl
  have him₁ : σ₁.im = σ.im := by rw [hσ₁]; rfl
  have hok₁ : σ₁.bm.Ok := by rw [hbm₁]; exact h.blocks.ok
  have hiok₁ : σ₁.im.Ok := by rw [him₁]; exact h.inums.ok
  refine ⟨⟨?_, ?_, ?_, ?_, ?_, ?_⟩, by rw [hR.img]; exact he, ?_, rfl, rfl, ?_, ?_, ?_, ?_, hdrop,
    ?_, ?_, ?_⟩
  · rw [hR.img]
    exact h.tree.unlink he
  · rw [hR.img]
    exact ho₁.drop _ _
  · refine ⟨(hR.bmOk hok₁).1, ?_, ?_, ?_, ?_⟩
    · rw [hR.bmLimit, hbm₁]
      exact h.blocks.limit
    · simp [Shape.drop, h.blocks.zero]
    · simp [Shape.drop, h.blocks.slot]
    · intro b
      rw [hR.blocks, hbm₁, h.blocks.exact]
      by_cases hg : ∃ i, (s.own b).bind Owner.inode = some i ∧ Desc σ.img.kids j i
      · have hne : s.own b ≠ none := by
          intro h0
          obtain ⟨i, hi, -⟩ := hg
          rw [h0] at hi
          cases hi
        have h0 := h.blocks.ne_zero hne
        have h16 := h.blocks.ne_slot hne
        by_cases hBb : B b <;> simp [Shape.drop, hg, hBb, hne, h0, h16]
      · have hnB : ¬ B b := by
          intro hB
          obtain ⟨o, i, ho, hoi, hji⟩ := hBown b hB
          exact hg ⟨i, by rw [ho]; exact hoi, hji⟩
        simp [Shape.drop, hg, hnB]
  · refine ⟨(hR.imOk hiok₁).1, ?_, ?_⟩
    · rw [hR.imLimit, him₁]
      exact h.inums.limit
    · intro i
      rw [hR.inums, him₁, h.inums.exact, hNiff]
      change (s.num i ∨ i = 0) ∧ ¬ Desc σ.img.kids j i ↔ (s.num i ∧ ¬ Desc σ.img.kids j i) ∨ i = 0
      have h0 : i = 0 → ¬ Desc σ.img.kids j i := by
        rintro rfl hji
        exact (h.tree.inum 0 (h.tree.tree.desc_live hjl hji)).1 rfl
      tauto
  · rintro i ⟨hi, hg⟩
    exact ⟨h.live i hi, hg⟩
  · rw [hR.pwd, hR.img]
    exact (by rw [hσ₁]; exact h.pwd)
  · rw [hR.img]
    exact hn.unlink he fun i hi => hi.1
  · intro i hi
    rw [hR.img]
    exact hino₁ i hi
  · rw [hR.val, hσ₁]
    rfl
  · rw [hR.dirty, hσ₁]
    rfl
  · rw [hR.super, hσ₁]
    rfl
  · intro hch b hbh
    simp only [Shape.drop] at hbh
    split at hbh
    · rename_i hg
      obtain ⟨i, hi, hji⟩ := hg
      split at hbh
      · rename_i hnB
        exfalso
        apply hnB
        have hil := h.tree.tree.desc_live hjl hji
        refine hT.allBlocks rfl i b ((hdesc i).mpr hji) ?_
        cases ho : s.own b with
        | none => rw [ho] at hi; cases hi
        | some o =>
          rw [ho] at hi
          have hino := hino₁ i (h.owned.table i hil)
          cases o with
          | itable l => cases hi
          | held => cases hi
          | dir l =>
            cases hi
            obtain ⟨-, hdi, hfi⟩ := (ho₁.ownDir i b).mp ho
            rw [Img.blockOf, if_pos hdi, hfi]
          | file l =>
            cases hi
            obtain ⟨-, hdi, -⟩ := ho₁.ownFile i b ho
            rw [Img.blockOf, if_neg (by simp [hdi]), hino]
            refine h.owned.onChain_congr (h.owned.first i hil ?_) ?_ (hch i hil b ho)
            · rw [← he.dirs i hil]
              exact hdi
            -- the chain does not pass through the directory block
            · intro c hc
              have hne : c ≠ (σ.img.ino d).inFirst := by
                rintro rfl
                rw [hb] at hc
                cases hc
              change (σ₁.val c).fbNext = (σ.val c).fbNext
              rw [hval₁ c hne]
      · cases hbh
    · exact hbh
  · refine ⟨fun k => ?_, fun k => ?_⟩
    · rw [(hR.bmOk hok₁).2, hbm₁]
    · rw [(hR.imOk hiok₁).2, him₁]
  · rw [hR.bmLimit, hbm₁]

/-- The entry `rm_file` takes out: directory, name and inode. -/
def Vol.victim (σ : Vol) (fname : Name) (doDirs : Bool) :
    Except Errno (InodeId × Name × InodeId) :=
  match σ.img.namei σ.glob.crfsPwd fname with
  | .error e => .error e
  | .ok (nm, d) =>
    if nm.length > crfsFilenameMax then .error .ENAMETOOLONG
    else if (σ.img.nodeAt d nm).isDir = true ∧ doDirs = false then .error .EISDIR
    else if nm = [46] ∨ nm = [46, 46] then .error .EINVAL
    else
      match crfsLookupDirent (σ.val (σ.img.ino d).inFirst) nm with
      | none => .error .ENOENT
      | some de => .ok (d, nm, de.deInode)

/-- The part of `rm_file` that changes something. -/
def removeEntry (dirblock : BlockId) (d : Block) (nm : Name) (j : InodeId) :
    FsM (Option (Except Errno Unit)) := do
  clearEntry dirblock d nm
  match ← unmarkInode walkFuel j with
  | none => pure none
  | some () => pure (some (.ok ()))

theorem rmFile_eval (σ : Vol) (fname : Name) (doDirs : Bool) : (rmFile fname doDirs).eval σ =
    match σ.victim fname doDirs with
    | .error e => (some (.error e), σ)
    | .ok (d, nm, j) =>
      (removeEntry (σ.img.ino d).inFirst (σ.val (σ.img.ino d).inFirst) nm j).eval σ := by
  unfold rmFile Vol.victim
  rw [Prog.eval_bind, crfsNamei_eval]
  cases σ.img.namei σ.glob.crfsPwd fname with
  | error e => rfl
  | ok r =>
    obtain ⟨nm, d⟩ := r
    simp only [Except.map, Prog.eval_ite]
    by_cases hlen : nm.length > crfsFilenameMax
    · rw [if_pos hlen, if_pos hlen]
      rfl
    rw [if_neg hlen, if_neg hlen, Prog.eval_bind, isDir_eval, Prog.eval_ite]
    by_cases hdd : (σ.img.nodeAt d nm).isDir = true ∧ doDirs = false
    · rw [if_pos hdd, if_pos hdd]
      rfl
    rw [if_neg hdd, if_neg hdd, Prog.eval_ite]
    by_cases hdot : nm = [46] ∨ nm = [46, 46]
    · rw [if_pos hdot, if_pos hdot]
      rfl
    rw [if_neg hdot, if_neg hdot, Prog.eval_bind, crfsReadBlock_eval]
    cases crfsLookupDirent (σ.val (σ.img.ino d).inFirst) nm <;> rfl

theorem victim_spec {nm : Name} (hv : σ.victim fname doDirs = .ok (d, nm, j)) :
    σ.img.namei σ.glob.crfsPwd fname = .ok (nm, d) ∧ ¬ (nm = [46] ∨ nm = [46, 46]) ∧
      ∃ de, crfsLookupDirent (σ.val (σ.img.ino d).inFirst) nm = some de ∧ de.deInode = j := by
  unfold Vol.victim at hv
  cases hr : σ.img.namei σ.glob.crfsPwd fname with
  | error e =>
    rw [hr] at hv
    cases hv
  | ok r =>
    obtain ⟨nm', d'⟩ := r
    rw [hr] at hv
    simp only at hv
    split at hv
    · cases hv
    split at hv
    · cases hv
    split at hv
    · cases hv
    rename_i hdot
    cases hl : crfsLookupDirent (σ.val (σ.img.ino d').inFirst) nm' with
    | none =>
      rw [hl] at hv
      cases hv
    | some de =>
      rw [hl] at hv
      cases hv
      exact ⟨rfl, hdot, de, hl, rfl⟩

/-- Taking an entry out does not return because the walk does not, or removes the
subtree of the entry. -/
theorem removeEntry_cases (h : Inv σ s) (hn : Named σ.img s.live) (hz : (0 : UInt8) ∉ fname)
    {nm : Name} (hv : σ.victim fname doDirs = .ok (d, nm, j)) :
    ∃ k, Target σ s fname d nm k j ∧
      ((((unmarkInode walkFuel j).eval (σ.write (σ.img.ino d).inFirst
          ((σ.val (σ.img.ino d).inFirst).clearDirent k))).1 = none ∧
        ((removeEntry (σ.img.ino d).inFirst (σ.val (σ.img.ino d).inFirst) nm j).eval σ).1 = none) ∨
      ∃ (τ : Vol) (s' : Shape), (removeEntry (σ.img.ino d).inFirst
          (σ.val (σ.img.ino d).inFirst) nm j).eval σ = (some (.ok ()), τ) ∧
        Removed σ s d k j τ s') := by
  obtain ⟨hr, hdot, de, hl, rfl⟩ := victim_spec hv
  obtain ⟨hd, hdir, -, -⟩ := h.namei hz hr
  obtain ⟨k, hfind, hkid, hname⟩ := clear_slot h hn hd hdir hl hdot
  refine ⟨k, ⟨hr, hd, hdir, hkid, hname⟩, ?_⟩
  have hclear : (clearEntry (σ.img.ino d).inFirst (σ.val (σ.img.ino d).inFirst) nm).eval σ =
      ((), σ.write (σ.img.ino d).inFirst
        ((σ.val (σ.img.ino d).inFirst).clearDirent k)) := by
    rw [clearEntry, hfind]
    rfl
  unfold removeEntry
  simp only [Prog.eval_bind, hclear]
  obtain ⟨B, N, hR, hT⟩ := unmarkInode_released _ walkFuel de.deInode
    (σ.write (σ.img.ino d).inFirst ((σ.val (σ.img.ino d).inFirst).clearDirent k)) rfl
  cases hu : ((unmarkInode walkFuel de.deInode).eval
      (σ.write (σ.img.ino d).inFirst ((σ.val (σ.img.ino d).inFirst).clearDirent k))).1 with
  | none => exact Or.inl ⟨rfl, rfl⟩
  | some u =>
    rw [hu] at hT
    exact Or.inr ⟨_, _, rfl, h.removed hn hd hdir hkid rfl hR hT⟩

/-- `rm_file` fails without touching anything, does not return because the walk
does not, or removes the subtree of the entry. -/
theorem rmFile_cases (h : Inv σ s) (hn : Named σ.img s.live) (hz : (0 : UInt8) ∉ fname)
    (doDirs : Bool) :
    (∃ e, (rmFile fname doDirs).eval σ = (some (.error e), σ)) ∨
    ∃ (d : InodeId) (nm : Name) (k : Nat) (j : InodeId), Target σ s fname d nm k j ∧
      ((((unmarkInode walkFuel j).eval (σ.write (σ.img.ino d).inFirst
          ((σ.val (σ.img.ino d).inFirst).clearDirent k))).1 = none ∧
        ((rmFile fname doDirs).eval σ).1 = none) ∨
      ∃ (τ : Vol) (s' : Shape), (rmFile fname doDirs).eval σ = (some (.ok ()), τ) ∧
        Removed σ s d k j τ s') := by
  rw [rmFile_eval]
  cases hv : σ.victim fname doDirs with
  | error e => exact Or.inl ⟨e, rfl⟩
  | ok r =>
    obtain ⟨d, nm, j⟩ := r
    obtain ⟨k, ht, hcases⟩ := removeEntry_cases h hn hz hv
    exact Or.inr ⟨d, nm, k, j, ht, hcases⟩

/-- With finite chains `rm_file` returns. -/
theorem rmFile_returns (h : Inv σ s) (hn : Named σ.img s.live) (hz : (0 : UInt8) ∉ fname)
    (hch : ∀ i, s.live i → σ.img.isDir i = false →
      ∃ l, IsChain σ.val (σ.img.ino i).inFirst l ∧ l.length ≤ walkFuel) (doDirs : Bool) :
    ((rmFile fname doDirs).eval σ).1 ≠ none := by
  rcases rmFile_cases h hn hz doDirs with ⟨e, he⟩ | ⟨d, nm, k, j, ht, ⟨hu, -⟩ | hu⟩
  · rw [he]
    simp
  · exfalso
    have he := h.erased ht.live ht.isDir ht.kid
    have hjl := h.tree.tree.kid_live d k j ht.live ht.kid
    have hlive : ∀ i, Desc σ.img.kids j i → s.live i := fun i hi => h.tree.tree.desc_live hjl hi
    have hret := unmarkInode_returns (I := (σ.write (σ.img.ino d).inFirst
      ((σ.val (σ.img.ino d).inFirst).clearDirent k)).img) (P := Desc σ.img.kids j)
      ?_ ?_ walkFuel j []
      (σ.write (σ.img.ino d).inFirst ((σ.val (σ.img.ino d).inFirst).clearDirent k)) rfl .refl
      (by simp) (by simp) (by simp [walkFuel])
    · rw [hret] at hu
      cases hu
    · intro i l x hi hx
      rw [he.kids_below h.tree hi] at hx
      have hjx : Desc σ.img.kids j x := .step hi hx
      refine ⟨hjx, ?_⟩
      rw [he.desc_below h.tree hjx]
      exact h.tree.tree.not_desc_kid (hlive i hi) hx
    · intro i hi hdi
      have hil := hlive i hi
      rw [he.dirs i hil] at hdi
      obtain ⟨l, hl, hlen⟩ := hch i hil hdi
      have hb := h.owned.dirBlock ht.live ht.isDir
      have hino : (σ.write (σ.img.ino d).inFirst
          ((σ.val (σ.img.ino d).inFirst).clearDirent k)).img.ino i = σ.img.ino i := by
        refine Vol.write_ino (h.table_ne (h.owned.table i hil) ?_) _
        intro l hl
        rw [hb] at hl
        cases hl
      refine ⟨l, ?_, hlen⟩
      rw [hino]
      refine h.owned.isChain_congr (h.owned.first i hil hdi) ?_ hl
      intro c hc
      have hne : c ≠ (σ.img.ino d).inFirst := by
        rintro rfl
        rw [hb] at hc
        cases hc
      rw [Vol.img_val, Vol.write_val_ne hne, Vol.img_val]
  · obtain ⟨τ, s', he, -⟩ := hu
    rw [he]
    simp

end Crfs
