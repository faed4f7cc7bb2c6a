import CobaltRom.Crfs.Crash
import CobaltRom.Crfs.Slots

/-! Removals and a flush that is cut short: a directory block is emptied in its place. -/
namespace Crfs
open WriteBack WriteBack.Prog SlotTree

/-- A successful `crfs_remove` or `crfs_rmdir`. -/
def Session.RemoveStep (t t' : Session) : Prop :=
  ∃ (p : Path) (n : Nat), t.step (.remove p) = some (.ok n, t') ∨
    t.step (.rmdir p) = some (.ok n, t')

/-- `I'` has the inodes of `I`, and what is found in one of its blocks is found in that of `I`. -/
structure Fewer (live : InodeId → Prop) (I I' : Img) : Prop where
  root : I'.root = I.root
  ino : ∀ i, live i → I'.ino i = I.ino i
  look : ∀ b nm de, crfsLookupDirent (I'.val b) nm = some de →
    crfsLookupDirent (I.val b) nm = some de

/-- Block `b` lost an entry that a path on `σ` leads to. -/
def Emptied (σ : Vol) (v : BlockId → Block) (b : BlockId) : Prop :=
  ∃ (p : Path) (nm : Name) (d : InodeId) (de : Dirent),
    σ.img.namei σ.glob.crfsPwd p.name = .ok (nm, d) ∧ (σ.img.ino d).inFirst = b ∧
      crfsLookupDirent (σ.val b) nm = some de ∧ crfsLookupDirent (v b) nm = none

/-- From the mounted volume `σ` of shape `s` entries were emptied, all in the cache. -/
structure Pruned (σ : Vol) (s : Shape) (disk : BlockId → Block) (t : Session) (s' : Shape) :
    Prop where
  mounted : Mounted t.vol s'
  coherent : t.mach.store.Coherent
  disk : t.mach.store.disk = disk
  super : t.vol.glob.superBlock = σ.glob.superBlock
  fewer : Fewer s.live σ.img t.vol.img
  missing : ∀ b, t.vol.dirty b = true → Emptied σ t.vol.val b

variable {σ τ : Vol} {s s' s'' : Shape} {t t' : Session} {c : Machine}
  {disk : BlockId → Block} {sb : Block} {which : Int} {d j : InodeId} {nm : Name} {de : Dirent}
  {b : BlockId} {k m : Nat} {I I' : Img} {live : InodeId → Prop}

/-! ### Images with fewer entries -/

theorem Fewer.refl (live : InodeId → Prop) (I : Img) : Fewer live I I :=
  ⟨rfl, fun _ _ => rfl, fun _ _ _ h => h⟩

theorem Fewer.isDir (h : Fewer live I I') {i : InodeId} (hi : live i) : I'.isDir i = I.isDir i := by
  rw [Img.isDir, Img.isDir, h.ino i hi]

/-- A path that is found with fewer entries leads to the same place with all of them. -/
theorem Fewer.resolve (h : Fewer live I I') (ht : Treed I live) (rest : Name) :
    ∀ (d : InodeId) (comp : Name), live d → I.isDir d = true →
      ∀ r, I'.resolve d comp rest = .ok r → I.resolve d comp rest = .ok r := by
  induction rest with
  | nil =>
    intro d comp _ _ r hr
    exact hr
  | cons c rest ih =>
    intro d comp hd hdir r hr
    rw [Img.resolve] at hr ⊢
    split at hr
    · rename_i hc
      rw [if_pos hc]
      exact ih d _ hd hdir r hr
    · rename_i hc
      rw [if_neg hc]
      split at hr
      · rename_i hnil
        rw [if_pos hnil]
        exact ih d _ hd hdir r hr
      · rename_i hnil
        rw [if_neg hnil]
        rw [h.ino d hd] at hr
        cases hl : crfsLookupDirent (I'.val (I.ino d).inFirst) comp with
        | none =>
          rw [hl] at hr
          cases hr
        | some de =>
          have hl' := h.look _ _ _ hl
          have hlive := (ht.lookup_live hd hdir hl').1
          rw [hl] at hr
          rw [hl']
          simp only [h.ino _ hlive, h.isDir hlive] at hr ⊢
          split at hr
          · rename_i hrest
            rw [if_pos hrest]
            exact hr
          · rename_i hrest
            rw [if_neg hrest]
            split at hr
            · cases hr
            · rename_i hnd
              rw [if_neg hnd]
              rw [not_or] at hnd
              exact ih _ [] hlive (Bool.of_not_eq_false hnd.2) r hr

theorem Fewer.namei (h : Fewer live I I') (ht : Treed I live) {fname : Name}
    {r : Name × InodeId} (hr : I'.namei I'.root fname = .ok r) : I.namei I.root fname = .ok r := by
  rw [Img.namei] at hr ⊢
  rw [h.root] at hr
  split at hr
  · rename_i hc
    rw [if_pos hc]
    exact h.resolve ht _ _ _ ht.live_root ht.rootDir r hr
  · rename_i hc
    rw [if_neg hc]
    exact h.resolve ht _ _ _ ht.live_root ht.rootDir r hr

/-- Where a path led to the entry that block `b` lost, it now leads nowhere. -/
theorem Fewer.stat (h : Fewer s.live σ.img τ.img) (hi : Inv σ s)
    (hpwd : τ.glob.crfsPwd = τ.img.root) (hmiss : Emptied σ τ.val b) :
    ∃ p : Path, ((crfsStat p.name).eval τ).1 ≠ ((crfsStat p.name).eval σ).1 := by
  obtain ⟨p, nm, d, de, hp, rfl, hfound, hlost⟩ := hmiss
  have hlen : ¬ nm.length > crfsFilenameMax := by
    have := (crfsLookupDirent_some hfound).1
    simp only [crfsFilenameMax]
    omega
  refine ⟨p, ?_⟩
  rw [crfsStat_of_namei hp, if_neg hlen, hfound]
  cases hr : τ.img.namei τ.glob.crfsPwd p.name with
  | error e =>
    rw [crfsStat, Prog.eval_bind, crfsNamei_eval, hr]
    intro he
    cases he
  | ok r =>
    have hr' : σ.img.namei σ.glob.crfsPwd p.name = .ok r := by
      rw [hi.pwd]
      apply h.namei hi.tree
      rw [← hpwd, hr]
    rw [hp] at hr'
    cases hr'
    obtain ⟨hd, -⟩ := hi.namei p.nul hp
    rw [crfsStat_of_namei hr, if_neg hlen, h.ino d hd, hlost]
    intro he
    cases he

/-! ### What a removal leaves -/

/-- The emptied block has no entry that was not there. -/
theorem Removed.look (hr : Removed σ s d k j τ s') (h : Inv σ s)
    (hl : crfsLookupDirent (τ.val b) nm = some de) : crfsLookupDirent (σ.val b) nm = some de := by
  rw [hr.val] at hl
  by_cases hb : b = (σ.img.ino d).inFirst
  · subst hb
    rw [Function.update_self] at hl
    obtain ⟨hlen, hname, hne, l, hlt, hde⟩ := crfsLookupDirent_some hl
    obtain ⟨-, -, hk, -⟩ := Img.kids_eq_some.mp hr.erased.kid
    have hlk : l ≠ k := by
      rintro rfl
      rw [← hde, Block.dirent_clearDirent_deInode hlt] at hne
      exact hne rfl
    rw [Block.dirent_clearDirent_ne hlk] at hde
    rw [← hde] at hne hname ⊢
    exact (h.tree.dirOk d hr.erased.dir hr.erased.isDir).lookup hlen hlt hne hname
  · rwa [Function.update_of_ne hb] at hl

/-- The name of the entry is gone. -/
theorem Removed.lost (hr : Removed σ s d k j τ s') (h : Inv σ s) (hn : (σ.img.ent d k).name = nm) :
    crfsLookupDirent (τ.val (σ.img.ino d).inFirst) nm = none := by
  cases hl : crfsLookupDirent (τ.val (σ.img.ino d).inFirst) nm with
  | none => rfl
  | some de =>
    rw [hr.val, Function.update_self] at hl
    obtain ⟨-, hname, hne, l, hlt, hde⟩ := crfsLookupDirent_some hl
    obtain ⟨-, -, hk, hj, hjk⟩ := Img.kids_eq_some.mp hr.erased.kid
    have hlk : l ≠ k := by
      rintro rfl
      rw [← hde, Block.dirent_clearDirent_deInode hlt] at hne
      exact hne rfl
    rw [Block.dirent_clearDirent_ne hlk] at hde
    have heq := (h.tree.dirOk d hr.erased.dir hr.erased.isDir).distinct l k hlt hk
      (by rw [Img.ent, Vol.img_val, hde]; exact hne) (by rw [hjk]; exact hj)
      (by rw [hn, Img.ent, Vol.img_val, hde]; exact hname)
    exact absurd heq hlk

theorem Removed.fewer (hr : Removed τ s' d k j υ s'') (h : Inv τ s') (hi : Inv σ s)
    (hf : Fewer s.live σ.img τ.img) (hs : τ.glob.superBlock = σ.glob.superBlock) :
    Fewer s.live σ.img υ.img := by
  refine ⟨hr.erased.root.trans hf.root, ?_, fun b nm de hl => hf.look b nm de (hr.look h hl)⟩
  intro i hlive
  have htab : τ.tableOf i ≠ 0 := by
    have := hi.owned.table i hlive
    change τ.glob.superBlock.sbVtable _ ≠ 0
    rw [hs]
    exact this
  rw [hr.ino i htab, hf.ino i hlive]

/-- A removal that succeeds found its entry. -/
theorem rmFile_found {fname : Name} {doDirs : Bool}
    (he : (rmFile fname doDirs).eval σ = (some (.ok ()), τ))
    (hp : σ.img.namei σ.glob.crfsPwd fname = .ok (nm, d)) :
    ∃ de, crfsLookupDirent (σ.val (σ.img.ino d).inFirst) nm = some de := by
  rw [rmFile_eval] at he
  cases hv : σ.victim fname doDirs with
  | error e =>
    rw [hv] at he
    cases he
  | ok r =>
    obtain ⟨d', nm', j⟩ := r
    obtain ⟨hp', -, de, hl, -⟩ := victim_spec hv
    rw [hp] at hp'
    cases hp'
    exact ⟨de, hl⟩

/-! ### Runs -/

/-- `rm_file` on a machine with fewer entries. -/
theorem Pruned.removed (h : Pruned σ s disk t s') (hi : Inv σ s) (p : Path) (doDirs : Bool)
    {files : Nat → Option CoFile} :
    ∃ s'', Pruned σ s disk ⟨((rmFile p.name doDirs).exec t.mach).2, files⟩ s'' := by
  have hvol : Session.vol ⟨((rmFile p.name doDirs).exec t.mach).2, files⟩ =
      ((rmFile p.name doDirs).eval t.vol).2 := (exec_vol (rmFile p.name doDirs) t.mach).2
  have hcoh := exec_coherent (rmFile p.name doDirs) h.coherent
  have hdisk := (exec_disk t.mach (rmFile p.name doDirs)).trans h.disk
  rcases h.mounted.rmFile_cases p.nul doDirs with ⟨e, he⟩ | ⟨d, nm, k, j, τ, s'', ht, he, hr, hm⟩
  · rw [he] at hvol
    refine ⟨s', ?_, hcoh, hdisk, ?_, ?_, ?_⟩
    · rw [hvol]
      exact h.mounted
    · rw [hvol]
      exact h.super
    · rw [hvol]
      exact h.fewer
    · rw [hvol]
      exact h.missing
  · rw [he] at hvol
    refine ⟨s'', ?_, hcoh, hdisk, ?_, ?_, ?_⟩
    · rw [hvol]
      exact hm
    · rw [hvol]
      exact hr.super.trans h.super
    · rw [hvol]
      exact hr.fewer h.mounted.inv hi h.fewer h.super
    · rw [hvol]
      intro b hb
      by_cases hbd : b = (t.vol.img.ino d).inFirst
      · -- the path of this call led to the entry on `σ` as well
        subst hbd
        have hnamei : σ.img.namei σ.glob.crfsPwd p.name = .ok (nm, d) := by
          rw [hi.pwd]
          apply h.fewer.namei hi.tree
          rw [← h.mounted.inv.pwd]
          exact ht.namei
        obtain ⟨hd, -⟩ := hi.namei p.nul hnamei
        obtain ⟨de, hlook⟩ := rmFile_found he ht.namei
        exact ⟨p, nm, d, de, hnamei, by rw [h.fewer.ino d hd], h.fewer.look _ _ _ hlook,
          hr.lost h.mounted.inv ht.name⟩
      · rw [hr.dirty, Function.update_of_ne hbd] at hb
        obtain ⟨q, nm', d', de, hq, hfirst, hfound, hlost⟩ := h.missing b hb
        refine ⟨q, nm', d', de, hq, hfirst, hfound, ?_⟩
        rw [hr.val, Function.update_of_ne hbd]
        exact hlost

theorem Pruned.step (h : Pruned σ s disk t s') (hi : Inv σ s) (hs : t.RemoveStep t') :
    ∃ s'', Pruned σ s disk t' s'' := by
  obtain ⟨p, n, hstep | hstep⟩ := hs
  · obtain ⟨e, -, he⟩ := Option.map_eq_some_iff.mp hstep
    cases (Prod.mk.inj he).2
    exact h.removed hi p false
  · obtain ⟨e, -, he⟩ := Option.map_eq_some_iff.mp hstep
    cases (Prod.mk.inj he).2
    exact h.removed hi p true

theorem Pruned.run (h : Pruned σ s disk t s') (hi : Inv σ s)
    (hrun : Relation.ReflTransGen Session.RemoveStep t t') : ∃ s'', Pruned σ s disk t' s'' := by
  induction hrun with
  | refl => exact ⟨s', h⟩
  | tail _ hs ih =>
    obtain ⟨s'', h'⟩ := ih
    exact h'.step hi hs

/-! ### The cut -/

/-- The device after the cut holds the entries that are left or more. -/
theorem Pruned.cut_fewer (h : Pruned σ s disk t s') (hval : σ.val = disk)
    (hv : c.vol.val = apply disk (t.mach.store.pending.take m))
    (hsb : c.glob.superBlock = σ.glob.superBlock) : Fewer s.live σ.img c.vol.img := by
  -- a block is as the removals left it or as it was
  have hcut : ∀ b, c.vol.val b = t.vol.val b ∨ c.vol.val b = σ.val b := by
    intro b
    rw [hv, ← h.disk, Store.apply_take_pending h.coherent, hval, ← h.disk]
    split
    · exact Or.inl rfl
    · exact Or.inr rfl
  refine ⟨congrArg Block.sbRoot hsb, ?_, ?_⟩
  · intro i hlive
    have hino : t.vol.img.ino i = σ.img.ino i := h.fewer.ino i hlive
    change (t.vol.val (t.vol.glob.superBlock.sbVtable (i.toNat / 256))).itInode _ = _ at hino
    rw [h.super] at hino
    change (c.vol.val (c.glob.superBlock.sbVtable (i.toNat / 256))).itInode _ = _
    rw [hsb]
    rcases hcut (σ.glob.superBlock.sbVtable (i.toNat / 256)) with hb | hb
    · rw [hb]
      exact hino
    · rw [hb]
      rfl
  · intro b nm de hl
    rcases hcut b with hb | hb
    · exact h.fewer.look b nm de (by rw [Vol.img_val, ← hb]; exact hl)
    · rw [Vol.img_val, ← hb]
      exact hl

/-- Once a write is made the tree has changed. -/
theorem Pruned.loses (h : Pruned σ s disk t s') (hi : Inv σ s) (hval : σ.val = disk)
    (h1 : 1 ≤ m) (hm : m ≤ t.mach.store.pending.length) : ¬ SurvivesCut σ t m := by
  rintro ⟨c, hc, hsb, hsame⟩
  obtain ⟨hv, hpwd⟩ := crfsInit_view hc
  rw [cutFlush_eq hm, h.disk] at hv
  have hfew := h.cut_fewer hval hv hsb
  -- the first block the flush wrote
  have hlen : 0 < ((t.mach.store.pending.take m).map Prod.fst).length := by
    rw [List.length_map, List.length_take]
    omega
  obtain ⟨b, hb⟩ := List.exists_mem_of_length_pos hlen
  have hkey : b ∈ t.mach.store.pending.map Prod.fst := by
    rw [List.map_take] at hb
    exact List.mem_of_mem_take hb
  have hdirty : t.vol.dirty b = true := (Store.mem_pending_keys h.coherent).mp hkey
  have hwritten : c.vol.val b = t.vol.val b := by
    rw [hv]
    change apply disk _ b = _
    rw [← h.disk, Store.apply_take_pending h.coherent, if_pos hb]
    rfl
  obtain ⟨p, nm, d, de, hp, hfirst, hfound, hlost⟩ := h.missing b hdirty
  obtain ⟨q, hq⟩ := hfew.stat hi hpwd ⟨p, nm, d, de, hp, hfirst, hfound, by rw [hwritten, hlost]⟩
  exact hq (hsame.stat q)

/-- The volume `crfs_init` has just mounted. -/
theorem pruned_start (h : WfImage disk sb s)
    (hp : pickSuper (disk 0) (disk 16) (-1) = some (which, sb))
    (hc : crfsInit (boot disk) = some (true, c)) :
    Pruned c.vol s disk ⟨c, fun _ => none⟩ s ∧ c.vol.val = disk := by
  obtain ⟨c₀, hc₀, hm₀, hdisk, hcoh, -, hval, hdirty, -⟩ := crfsInit_mounted (c := boot disk) h hp
  rw [hc] at hc₀
  cases hc₀
  refine ⟨⟨hm₀, hcoh, hdisk, rfl, Fewer.refl _ _, ?_⟩, hval⟩
  intro b hb
  have hclean : c.vol.dirty b = false := hdirty b
  rw [show Session.vol ⟨c, fun _ => none⟩ = c.vol from rfl, hclean] at hb
  cases hb

/-- After any successful removals, a flush that is cut before its super block leaves the old tree
only if it is cut before its first write: the emptied directory blocks are written in place. -/
theorem removal_survives_cut_iff (h : WfImage disk sb s)
    (hp : pickSuper (disk 0) (disk 16) (-1) = some (which, sb))
    (hc : crfsInit (boot disk) = some (true, c))
    (hrun : Relation.ReflTransGen Session.RemoveStep ⟨c, fun _ => none⟩ t)
    (hm : m ≤ t.mach.store.pending.length) : SurvivesCut c.vol t m ↔ m = 0 := by
  obtain ⟨hstart, hval⟩ := pruned_start h hp hc
  obtain ⟨s', hpr⟩ := hstart.run hstart.mounted.inv hrun
  constructor
  · intro hsurv
    by_contra hne
    exact hpr.loses hstart.mounted.inv hval (by omega) hm hsurv
  · rintro rfl
    refine ⟨c, ?_, rfl, SeesSame.refl _⟩
    rw [cutFlush_eq hm, List.take_zero, hpr.disk]
    exact hc

/-- A session in which the file "a" was removed and not yet flushed. -/
theorem removed_session : ∃ (c : Machine) (t : Session),
    crfsInit (boot (filledDisk [4])) = some (true, c) ∧
      Relation.ReflTransGen Session.RemoveStep ⟨c, fun _ => none⟩ t ∧
      1 ≤ t.mach.store.pending.length := by
  obtain ⟨c, hc, hv, -, hcoh, -⟩ := filled_mounted spread_one
  obtain ⟨hres, hvol⟩ := exec_vol (crfsRemove pathA.name) c
  rw [hv] at hres hvol
  have hok : ((crfsRemove pathA.name).eval (filledVol [4])).1 = some (.ok ()) := by decide +kernel
  -- the block of the root directory
  have hdirty : ((crfsRemove pathA.name).eval (filledVol [4])).2.dirty 3 = true := by
    decide +kernel
  rw [← hvol] at hdirty
  refine ⟨c, (Session.after ⟨c, fun _ => none⟩ ((crfsRemove pathA.name).exec c).2).forget, hc,
    .single ⟨pathA, 0, Or.inl ?_⟩, ?_⟩
  · rw [Session.step, hres, hok]
    rfl
  · have hkey := (Store.mem_pending_keys (exec_coherent (crfsRemove pathA.name) hcoh)).mpr hdirty
    apply List.length_pos_of_mem
    exact (List.mem_map.mp hkey).choose_spec.1

/-- Cut before its first write the flush leaves the file, cut behind it the file is gone. -/
theorem removal_survives_cut_iff_one : ∃ (c : Machine) (t : Session),
    crfsInit (boot (filledDisk [4])) = some (true, c) ∧
      Relation.ReflTransGen Session.RemoveStep ⟨c, fun _ => none⟩ t ∧
      SurvivesCut c.vol t 0 ∧ ¬ SurvivesCut c.vol t 1 := by
  obtain ⟨c, t, hc, hrun, hpend⟩ := removed_session
  have hwf := filled_wfImage spread_one
  have hp := filled_pickSuper spread_one
  refine ⟨c, t, hc, hrun, ?_, ?_⟩
  · exact (removal_survives_cut_iff hwf hp hc hrun (Nat.zero_le _)).mpr rfl
  · intro hsurv
    cases (removal_survives_cut_iff hwf hp hc hrun hpend).mp hsurv

/-- A cut flush after a removal does not always leave the old tree. -/
theorem removal_cut_loses : ¬ ∀ (disk : BlockId → Block) (sb : Block) (s : Shape) (which : Int)
    (c : Machine) (t : Session) (m : Nat), WfImage disk sb s →
    pickSuper (disk 0) (disk 16) (-1) = some (which, sb) →
    crfsInit (boot disk) = some (true, c) →
    Relation.ReflTransGen Session.RemoveStep ⟨c, fun _ => none⟩ t →
    m ≤ t.mach.store.pending.length → SurvivesCut c.vol t m := by
  intro hall
  obtain ⟨c, t, hc, hrun, hpend⟩ := removed_session
  have hwf := filled_wfImage spread_one
  have hp := filled_pickSuper spread_one
  obtain ⟨hstart, hval⟩ := pruned_start hwf hp hc
  obtain ⟨s', hpr⟩ := hstart.run hstart.mounted.inv hrun
  exact hpr.loses hstart.mounted.inv hval (Nat.le_refl 1) hpend
    (hall _ _ _ _ c t 1 hwf hp hc hrun hpend)

end Crfs
