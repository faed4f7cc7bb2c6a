import CobaltRom.Crfs.Directories
import CobaltRom.Crfs.Filled
import CobaltRom.Crfs.Views

/-! A flush that is cut short before it reaches the super block, and the next mount. -/
namespace Crfs
open WriteBack WriteBack.Prog SlotTree

/-- A fresh process over the device on which only the first `m` writes of a flush were made. -/
def Session.cutFlush (t : Session) (m : Nat) : Machine :=
  boot (apply t.mach.store.disk ((flushWrites t.mach).take m))

/-- After the cut the device mounts with the super block of `σ` and shows the tree of `σ`. -/
def SurvivesCut (σ : Vol) (t : Session) (m : Nat) : Prop :=
  ∃ c : Machine, crfsInit (t.cutFlush m) = some (true, c) ∧
    c.glob.superBlock = σ.glob.superBlock ∧ SeesSame σ c.vol

/-- Inode `i` had no block on `σ`: there was no such file, or it was empty. -/
def Blank (σ : Vol) (i : InodeId) : Prop := ¬ σ.img.Reached i ∨ (σ.img.ino i).inFirst = 0

/-- A successful call that creates, opens, reads or writes; it only writes files that had no block
on `σ`, and no search fails. -/
def Session.GrowthStep (σ : Vol) (t t' : Session) : Prop :=
  ∃ (a : Call) (n : Nat), t.step a = some (.ok n, t') ∧ ¬ t'.mach.glob.Full ∧
    match a with
    | .create _ | .mkdir _ | .openFile _ _ | .read _ _ => True
    | .write f _ => ∀ fp, t.files f = some fp → Blank σ fp.fInode
    | _ => False

/-- From the mounted volume `σ` of shape `s` only new blocks and those of blank files were
written, all in the cache. -/
structure Growing (σ : Vol) (s : Shape) (disk : BlockId → Block) (t : Session) (s' : Shape) :
    Prop where
  inv : Inv t.vol s'
  coherent : t.mach.store.Coherent
  disk : t.mach.store.disk = disk
  files : ∀ f fp, t.files f = some fp → Handle t.vol s' fp
  grow : Grow (Blank σ) σ s.own t.vol s'.own

variable {σ τ υ : Vol} {s s' : Shape} {t t' : Session} {c : Machine} {fp fp' : CoFile}
  {disk disk' : BlockId → Block} {sb : Block} {which : Int} {d i x : InodeId} {nm : Name}
  {b : BlockId} {f m : Nat} {F F' : InodeId → Prop} {own own' : BlockId → Option Owner}

/-! ### What a cut flush leaves on the device -/

/-- Up to its super block a flush makes the pending writes. -/
theorem cutFlush_eq (hm : m ≤ t.mach.store.pending.length) :
    t.cutFlush m = boot (apply t.mach.store.disk (t.mach.store.pending.take m)) := by
  rw [Session.cutFlush, flushWrites, List.take_append_of_le_length hm]

/-- Blocks that are not dirty stay as they are. -/
theorem cut_clean (hc : t.mach.store.Coherent) (hb : t.vol.dirty b = false) :
    apply t.mach.store.disk (t.mach.store.pending.take m) b = t.mach.store.disk b := by
  rw [Store.apply_take_pending hc, if_neg]
  intro hmem
  have hkey : b ∈ t.mach.store.pending.map Prod.fst := by
    rw [List.map_take] at hmem
    exact List.mem_of_mem_take hmem
  have hdirty : t.mach.store.isDirty b = true := (Store.mem_pending_keys hc).mp hkey
  have hclean : t.mach.store.isDirty b = false := hb
  rw [hdirty] at hclean
  cases hclean

theorem img_of_val (hv : c.vol.val = disk) (hsb : c.glob.superBlock = sb) :
    c.vol.img = imgOf disk sb := by
  rw [← hv, ← hsb]
  rfl

/-- As long as no block in use and no slot is dirty, the device still holds the old image. -/
theorem WfImage.survivesCut (h : WfImage disk sb s)
    (hp : pickSuper (disk 0) (disk 16) (-1) = some (which, sb))
    (hc : crfsInit (boot disk) = some (true, c)) (hcoh : t.mach.store.Coherent)
    (hdisk : t.mach.store.disk = disk)
    (hslots : ∀ b : BlockId, b = 0 ∨ b = 16 → t.vol.dirty b = false)
    (hclean : ∀ b, s.own b ≠ none → t.vol.dirty b = false)
    (hm : m ≤ t.mach.store.pending.length) : SurvivesCut c.vol t m := by
  have hcut := fun b hb => cut_clean (m := m) (b := b) hcoh hb
  rw [hdisk] at hcut
  have hwf : WfImage (apply disk (t.mach.store.pending.take m)) sb s :=
    h.congr rfl rfl rfl fun b hb => hcut b (hclean b hb)
  obtain ⟨c₀, hc₀, hm₀, -, -, -, hval₀, -, hsb₀, -⟩ := crfsInit_mounted (c := boot disk) h hp
  rw [hc] at hc₀
  cases hc₀
  obtain ⟨c', hc', hm', -, -, -, hval, -, hsb, -⟩ :=
    crfsInit_mounted (c := boot (apply disk (t.mach.store.pending.take m))) hwf (by
      change pickSuper (apply disk (t.mach.store.pending.take m) 0)
        (apply disk (t.mach.store.pending.take m) 16) (-1) = _
      rw [hcut 0 (hslots 0 (Or.inl rfl)), hcut 16 (hslots 16 (Or.inr rfl)), hp])
  refine ⟨c', by rw [cutFlush_eq hm, hdisk]; exact hc', ?_, ?_⟩
  · exact hsb.trans hsb₀.symm
  · have hag : Agree s c.vol.img c'.vol.img := by
      rw [img_of_val hval₀ hsb₀, img_of_val hval hsb]
      exact agree_imgOf h.owned rfl rfl fun b hb _ => hcut b (hclean b hb)
    exact hag.seesSame hm₀.inv hm'.inv

/-! ### Growth -/

theorem Grow.mono (h : Grow F σ own τ own') (hF : ∀ i, F i → F' i) : Grow F' σ own τ own' := by
  refine ⟨h.limit, h.blocked, h.range, ?_, h.owner⟩
  intro b hb
  rcases h.dirty b hb with hd | hf | ⟨i, hi, ho⟩
  · exact Or.inl hd
  · exact Or.inr (Or.inl hf)
  · exact Or.inr (Or.inr ⟨i, hF i hi, ho⟩)

/-- A handle outlives a creation. -/
theorem Handle.linked (h : Handle σ s fp) (hl : Linked σ s d nm x τ s') : Handle τ s' fp := by
  obtain ⟨k, he⟩ := hl.entered
  have hlive : s'.live fp.fInode := by
    rw [hl.live]
    exact Or.inl h.live
  refine ⟨h.magic, hlive, (he.dirs _ h.live).trans h.file, ?_, ?_⟩
  · exact h.cur.imp_right fun ho => (hl.ownFile _ _).mpr ho
  · exact h.next.imp_right fun ho => (hl.ownFile _ _).mpr ho

/-- A program on the machine that only writes new blocks and blank files. -/
theorem Growing.exec {α : Type} (h : Growing σ s disk t s') {q : FsM α} {s'' : Shape}
    (hinv : Inv (q.eval t.vol).2 s'')
    (hg : Grow (Blank σ) t.vol s'.own (q.eval t.vol).2 s''.own) {files : Nat → Option CoFile}
    (hfiles : ∀ f fp, files f = some fp → Handle (q.eval t.vol).2 s'' fp) :
    Growing σ s disk ⟨(q.exec t.mach).2, files⟩ s'' := by
  have hvol : Session.vol ⟨(q.exec t.mach).2, files⟩ = (q.eval t.vol).2 := (exec_vol q t.mach).2
  refine ⟨by rw [hvol]; exact hinv, exec_coherent q h.coherent, ?_, by rw [hvol]; exact hfiles, ?_⟩
  · exact (exec_disk t.mach q).trans h.disk
  · rw [hvol]
    exact h.grow.trans hg

/-- A call that may create. -/
theorem Growing.created (h : Growing σ s disk t s') {q : FsM (Except Errno Unit)}
    (hspec : (∃ e, q.eval t.vol = (.error e, t.vol)) ∨ ∃ d nm x τ s'', q.eval t.vol = (.ok (), τ) ∧
      Linked t.vol s' d nm x τ s'') : ∃ s'', Growing σ s disk (t.after (q.exec t.mach).2) s'' := by
  rcases hspec with ⟨e, he⟩ | ⟨d, nm, x, τ, s'', he, hl⟩
  · refine ⟨s', h.exec ?_ ?_ ?_⟩
    · rw [he]
      exact h.inv
    · rw [he]
      exact Grow.refl _ _ _
    · rw [he]
      exact h.files
  · refine ⟨s'', h.exec ?_ ?_ ?_⟩
    · rw [he]
      exact hl.inv
    · rw [he]
      exact hl.grow.mono fun i hi => hi.elim
    · rw [he]
      exact fun f fp hf => (h.files f fp hf).linked hl

/-- A call that leaves the volume alone and sets one of the handles. -/
theorem Growing.opened {α : Type} (h : Growing σ s disk t s') {q : FsM α}
    (hq : (q.eval t.vol).2 = t.vol) (hfp : Handle t.vol s' fp) (f : Nat) :
    Growing σ s disk ((t.after (q.exec t.mach).2).setFile f (some fp)) s' := by
  refine h.exec ?_ ?_ ?_
  · rw [hq]
    exact h.inv
  · rw [hq]
    exact Grow.refl _ _ _
  · rw [hq]
    intro g gp hg
    change Function.update t.files f (some fp) g = some gp at hg
    by_cases hgf : g = f
    · rw [hgf, Function.update_self] at hg
      cases hg
      exact hfp
    · rw [Function.update_of_ne hgf] at hg
      exact h.files g gp hg

/-- One call. -/
theorem Growing.step (h : Growing σ s disk t s') (hs : t.GrowthStep σ t') :
    ∃ s'', Growing σ s disk t' s'' := by
  obtain ⟨a, n, hstep, hfull, hasks⟩ := hs
  generalize hr : (Except.ok n : Except Errno Nat) = r at hstep
  cases a with
  | create p =>
    cases hstep
    have hf : ¬ ((crfsCreate p.name).eval t.vol).2.glob.Full := by
      rw [← (exec_vol (crfsCreate p.name) t.mach).2]
      exact hfull
    refine h.created ((crfsCreate_spec h.inv p.nul hf).imp id ?_)
    rintro ⟨d, nm, k, x, τ, s'', he, -, -, hl, -⟩
    exact ⟨d, nm, x, τ, s'', he, hl⟩
  | mkdir p =>
    cases hstep
    have hf : ¬ ((crfsMkdir p.name).eval t.vol).2.glob.Full := by
      rw [← (exec_vol (crfsMkdir p.name) t.mach).2]
      exact hfull
    refine h.created ((crfsMkdir_spec h.inv p.nul hf).imp id ?_)
    rintro ⟨d, nm, k, x, τ, s'', he, -, hl, -⟩
    exact ⟨d, nm, x, τ, s'', he, hl⟩
  | openFile f p =>
    have hres := (exec_vol (crfsOpen p.name) t.mach).1
    simp only [Session.step] at hstep
    rcases crfsOpen_cases h.inv p.nul with ⟨e, he⟩ | ⟨d, nm, j, hfile, he⟩
    · rw [hres, he] at hstep
      cases hstep
      cases hr
    · rw [hres, he] at hstep
      cases hstep
      exact ⟨s', h.opened (by rw [he]) (h.inv.openHandle hfile.liveFile hfile.file) f⟩
  | read f size =>
    simp only [Session.step] at hstep
    cases hf : t.files f with
    | none =>
      rw [hf] at hstep
      cases hstep
      cases hr
    | some fp =>
      rw [hf] at hstep
      cases hstep
      have hh := (crfsRead_same h.inv (h.files f fp hf) ⟨rfl, fun _ _ => rfl⟩ size).2.1
      rw [(exec_vol (crfsRead fp size) t.mach).1]
      exact ⟨s', h.opened (readOnly_crfsRead fp size t.vol) hh f⟩
  | write f buf =>
    simp only [Session.step] at hstep
    cases hf : t.files f with
    | none =>
      rw [hf] at hstep
      cases hstep
      cases hr
    | some fp =>
      rw [hf] at hstep
      cases hstep
      obtain ⟨s'', hw⟩ := crfsWrite_wrote h.inv (h.files f fp hf) buf
      refine ⟨s'', h.exec hw.inv (hw.touch.grow.mono ?_) ?_⟩
      · rintro i rfl
        exact hasks fp hf
      · intro g gp hg
        change Function.update t.files f (some _) g = some gp at hg
        by_cases hgf : g = f
        · rw [hgf, Function.update_self] at hg
          cases hg
          rw [(exec_vol (crfsWrite fp buf) t.mach).1]
          exact hw.handle
        · rw [Function.update_of_ne hgf] at hg
          exact (h.files g gp hg).touch hw.touch
  | remove p => exact hasks.elim
  | rmdir p => exact hasks.elim
  | close f => exact hasks.elim
  | flush => exact hasks.elim
  | remount => exact hasks.elim

theorem Growing.run (h : Growing σ s disk t s')
    (hrun : Relation.ReflTransGen (Session.GrowthStep σ) t t') :
    ∃ s'', Growing σ s disk t' s'' := by
  induction hrun with
  | refl => exact ⟨s', h⟩
  | tail _ hs ih =>
    obtain ⟨s'', h'⟩ := ih
    exact h'.step hs

/-- No block in use on the mounted volume, and no slot, is dirty. -/
theorem Growing.clean (h : Growing σ s disk t s') (hm : Mounted σ s)
    (hd : ∀ b, σ.dirty b = false) (hb : s.own b ≠ none ∨ b = 0 ∨ b = 16) :
    t.vol.dirty b = false := by
  by_contra hdirty
  have hset : σ.bm.blocked b.toNat = true :=
    Freemap.blocked_of_isset ((hm.inv.blocks.exact b).mpr hb)
  rcases h.grow.dirty b (Bool.of_not_eq_false hdirty) with hd' | hf | ⟨i, hblank, ho⟩
  · rw [hd b] at hd'
    cases hd'
  · rw [hset] at hf
    cases hf
  · obtain ⟨hlive, hdir, -⟩ := hm.inv.owned.ownFile i b ho
    obtain ⟨l, hl, hown⟩ := hm.exact.chain i hlive hdir
    rcases hblank with hno | hz
    · exact hno ((hm.inv.tree.reached_iff i).mpr hlive)
    · rw [hz] at hl
      obtain rfl : l = [] := hl.unique (l := l) (m := []) rfl
      exact absurd ((hown b).mp ho) List.not_mem_nil

/-- After any successful calls that create, and write files that had no block on the mounted image,
a flush that is cut before its super block leaves the old tree. -/
theorem growth_survives_cut (h : WfImage disk sb s)
    (hp : pickSuper (disk 0) (disk 16) (-1) = some (which, sb))
    (hc : crfsInit (boot disk) = some (true, c))
    (hrun : Relation.ReflTransGen (Session.GrowthStep c.vol) ⟨c, fun _ => none⟩ t)
    (hm : m ≤ t.mach.store.pending.length) : SurvivesCut c.vol t m := by
  obtain ⟨c₀, hc₀, hm₀, hdisk, hcoh, -, -, hdirty, -⟩ := crfsInit_mounted (c := boot disk) h hp
  rw [hc] at hc₀
  cases hc₀
  have hstart : Growing c.vol s disk ⟨c, fun _ => none⟩ s := by
    refine ⟨hm₀.inv, hcoh, hdisk, fun f fp hf => ?_, Grow.refl _ _ _⟩
    cases hf
  obtain ⟨s', hg⟩ := hstart.run hrun
  exact h.survivesCut hp hc hg.coherent hg.disk
    (fun b hb => hg.clean hm₀ hdirty (Or.inr hb)) (fun b hb => hg.clean hm₀ hdirty (Or.inl hb)) hm

theorem spread_one : Spread [4] := ⟨by decide, by simp, by simp⟩

/-- "c" is created and the flush is cut behind its first write. -/
theorem growth_survives_cut_create : ∃ (c : Machine) (t : Session),
    crfsInit (boot (filledDisk [4])) = some (true, c) ∧
      Relation.ReflTransGen (Session.GrowthStep c.vol) ⟨c, fun _ => none⟩ t ∧
      1 ≤ t.mach.store.pending.length ∧ SurvivesCut c.vol t 1 := by
  obtain ⟨c, hc, hv, hm, hcoh, -⟩ := filled_mounted spread_one
  have hp := filled_pickSuper spread_one
  obtain ⟨hres, hvol⟩ := exec_vol (crfsCreate pathC.name) c
  rw [hv] at hres hvol
  have hok : ((crfsCreate pathC.name).eval (filledVol [4])).1 = .ok () := by decide +kernel
  have hfull : ¬ ((crfsCreate pathC.name).eval (filledVol [4])).2.glob.Full := by
    rintro (hf | hf)
    · exact absurd hf (by decide +kernel)
    · exact absurd hf (by decide +kernel)
  have hstep : Session.GrowthStep c.vol ⟨c, fun _ => none⟩
      ⟨((crfsCreate pathC.name).exec c).2, fun _ => none⟩ := by
    refine ⟨.create pathC, 0, ?_, ?_, trivial⟩
    · rw [Session.step, hres, hok]
      rfl
    · change ¬ (Machine.vol ((crfsCreate pathC.name).exec c).2).glob.Full
      rw [hvol]
      exact hfull
  -- the root directory moved to block 5 when it got its entry
  have hdirty : ((crfsCreate pathC.name).eval (filledVol [4])).2.dirty 5 = true := by
    decide +kernel
  rw [← hvol] at hdirty
  have hpend : 1 ≤ ((crfsCreate pathC.name).exec c).2.store.pending.length := by
    have hkey := (Store.mem_pending_keys (exec_coherent (crfsCreate pathC.name) hcoh)).mpr hdirty
    apply List.length_pos_of_mem
    exact (List.mem_map.mp hkey).choose_spec.1
  exact ⟨c, _, hc, .single hstep, hpend,
    growth_survives_cut (filled_wfImage spread_one) hp hc (.single hstep) hpend⟩

end Crfs
