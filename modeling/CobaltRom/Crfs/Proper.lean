import CobaltRom.Crfs.FailedCreate
import CobaltRom.Crfs.Placed
import CobaltRom.Crfs.Recycle

/-! Runs in which no search for a free block or inode fails. -/
namespace Crfs
open WriteBack WriteBack.Prog SlotTree

namespace Session

/-- No file has two open handles. -/
def Single (t : Session) : Prop :=
  ∀ f g fp gp, t.files f = some fp → t.files g = some gp → fp.fInode = gp.fInode → f = g

/-- What a proper run asks of a call from `t` to `t'` that returned `r`: what it creates has a
name and a number below 4096, what it opens is not open yet, and no search fails. -/
def Admits (t : Session) (a : Call) (r : Except Errno Nat) (t' : Session) : Prop :=
  ¬ t'.mach.glob.Full ∧
  match a with
  | .create p => ¬ lastEmpty p.name ∧ (r = .ok 0 → t.vol.nextInum.toNat < 4096)
  | .mkdir p => ¬ lastEmpty p.name ∧ (r = .ok 0 → t.vol.nextInum.toNat < 4096)
  | .openFile _ _ => t'.Single
  | .remount => False
  | _ => True

def ProperStep (t t' : Session) : Prop := ∃ a r, t.step a = some (r, t') ∧ t.Admits a r t'

end Session

/-- No slot of the super block has been written in the cache. -/
def SlotsClean (σ : Vol) : Prop := ∀ b : BlockId, b = 0 ∨ b = 16 → σ.dirty b = false

/-- What proper runs keep. -/
structure Sound (t : Session) (s : Shape) : Prop where
  mounted : Mounted t.vol s
  coherent : t.mach.store.Coherent
  which : t.mach.glob.crfsWhichSuper = 0 ∨ t.mach.glob.crfsWhichSuper = 1
  slots : SlotsClean t.vol
  files : ∀ f fp, t.files f = some fp → Placed t.vol s fp
  single : t.Single

variable {σ τ : Vol} {s s' : Shape} {t t' : Session} {d x : InodeId} {nm : Name} {p : Path}
  {m' : Freemap} {f : Nat} {fp fp' : CoFile}

/-- The number handed out is the one the search returns. -/
theorem nextInum_took (hok : σ.im.Ok) (ht : σ.im.Took x.toNat m') : σ.nextInum = x := by
  rcases Freemap.freemapNext_spec hok with ⟨n, hn, htn⟩ | ⟨-, hfull, -⟩
  · have hle := Took.lt_of_free ht htn.free
    have hge := Took.lt_of_free htn ht.free
    rw [Vol.nextInum, hn, show n = x.toNat by omega]
    exact ofInt_toNat x
  · have hfree := ht.free
    rw [hfull _ ht.lt] at hfree
    cases hfree

theorem cacheFlush_which {c : Machine}
    (h : c.glob.crfsWhichSuper = 0 ∨ c.glob.crfsWhichSuper = 1) :
    (cacheFlush c).glob.crfsWhichSuper = 0 ∨ (cacheFlush c).glob.crfsWhichSuper = 1 := by
  change (if c.store.cache = [] then _ else _) = _ ∨ (if c.store.cache = [] then _ else _) = _
  split
  · exact h
  · rcases h with hw | hw
    · rw [hw]
      exact Or.inr (by decide)
    · rw [hw]
      exact Or.inl (by decide)

/-! ### The slots -/

/-- The slots are marked in the block map, so no block handed out is one. -/
theorem Inv.slot_blocked (h : Inv σ s) {b : BlockId} (hb : b = 0 ∨ b = 16) :
    σ.bm.blocked b.toNat = true ∧ s.own b = none := by
  refine ⟨Freemap.blocked_of_isset ((h.blocks.exact b).mpr (Or.inr hb)), ?_⟩
  rcases hb with rfl | rfl
  · exact h.owned.ownZero
  · exact h.owned.ownSlot

theorem SlotsClean.grow (hc : SlotsClean σ) (h : Inv σ s) {F : InodeId → Prop}
    (hg : Grow F σ s.own τ s'.own) : SlotsClean τ := by
  intro b hb
  by_contra hd
  obtain ⟨hblk, hown⟩ := h.slot_blocked hb
  rcases hg.dirty b (Bool.of_not_eq_false hd) with hd' | hd' | ⟨i, -, ho⟩
  · rw [hc b hb] at hd'
    cases hd'
  · rw [hblk] at hd'
    cases hd'
  · rw [hown] at ho
    cases ho

theorem SlotsClean.removed (hc : SlotsClean σ) (h : Inv σ s) {k : Nat} {j : InodeId}
    (hr : Removed σ s d k j τ s') : SlotsClean τ := by
  intro b hb
  have hne : b ≠ (σ.img.ino d).inFirst := by
    intro he
    have hown := (h.slot_blocked hb).2
    rw [he, h.owned.dirBlock hr.erased.dir hr.erased.isDir] at hown
    cases hown
  rw [hr.dirty, Function.update_of_ne hne]
  exact hc b hb

/-! ### Handles -/

theorem Session.Single.setFile (h : t.Single) (hf : t.files f = some fp)
    (hi : fp'.fInode = fp.fInode) : (t.setFile f (some fp')).Single := by
  have hold : ∀ g gp, (t.setFile f (some fp')).files g = some gp →
      ∃ gp', t.files g = some gp' ∧ gp.fInode = gp'.fInode := by
    intro g gp hg
    change Function.update t.files f (some fp') g = some gp at hg
    by_cases hgf : g = f
    · subst hgf
      rw [Function.update_self] at hg
      cases hg
      exact ⟨fp, hf, hi⟩
    · rw [Function.update_of_ne hgf] at hg
      exact ⟨gp, hg, rfl⟩
  intro g₁ g₂ gp₁ gp₂ h₁ h₂ he
  obtain ⟨gp₁', h₁', he₁⟩ := hold g₁ gp₁ h₁
  obtain ⟨gp₂', h₂', he₂⟩ := hold g₂ gp₂ h₂
  exact h g₁ g₂ gp₁' gp₂' h₁' h₂' (by rw [← he₁, ← he₂, he])

theorem Session.Single.sub (h : t.Single)
    (hsub : ∀ g gp, t'.files g = some gp → t.files g = some gp) : t'.Single :=
  fun f g fp gp hf hg => h f g fp gp (hsub f fp hf) (hsub g gp hg)

theorem Session.forget_files {gp : CoFile} {g : Nat} (h : t.forget.files g = some gp) :
    t.files g = some gp ∧ t.mach.glob.inodeFreemap.isset gp.fInode.toNat = true := by
  obtain ⟨hg, hset⟩ := Option.filter_eq_some_iff.mp h
  exact ⟨hg, hset⟩

theorem Session.clear_files {gp : CoFile} {g : Nat} (h : (t.setFile f none).files g = some gp) :
    t.files g = some gp := by
  change Function.update t.files f none g = some gp at h
  by_cases hgf : g = f
  · rw [hgf, Function.update_self] at h
    cases h
  · rwa [Function.update_of_ne hgf] at h

/-- A file whose number is still set in the map is in the tree. -/
theorem Mounted.live_of_isset (h : Mounted σ s) (hx : σ.im.isset x.toNat = true) (h0 : x ≠ 0) :
    s.live x :=
  (h.exact.num x).mp (((h.inv.inums.exact x).mp hx).resolve_right h0)

/-! ### One call -/

/-- A program on the machine that leaves the super block and the handles in order. -/
theorem Sound.exec {α : Type} (h : Sound t s) {q : FsM α} (hq : ∀ g, Keeps (SameSuper g) q)
    (hm : Mounted (q.eval t.vol).2 s') (hc : SlotsClean (q.eval t.vol).2)
    {files : Nat → Option CoFile}
    (hfiles : ∀ f fp, files f = some fp → Placed (q.eval t.vol).2 s' fp)
    (hsingle : Session.Single ⟨(q.exec t.mach).2, files⟩) :
    Sound ⟨(q.exec t.mach).2, files⟩ s' := by
  have hvol : Session.vol ⟨(q.exec t.mach).2, files⟩ = (q.eval t.vol).2 := (exec_vol q t.mach).2
  refine ⟨by rw [hvol]; exact hm, exec_coherent q h.coherent, ?_, by rw [hvol]; exact hc,
    by rw [hvol]; exact hfiles, hsingle⟩
  change (q.exec t.mach).2.glob.crfsWhichSuper = 0 ∨ (q.exec t.mach).2.glob.crfsWhichSuper = 1
  rw [exec_which hq]
  exact h.which

/-- A call that creates. -/
theorem Sound.created (h : Sound t s) {q : FsM (Except Errno Unit)}
    (hq : ∀ g, Keeps (SameSuper g) q) (hok : t.vol.im.Ok) (hp : ¬ lastEmpty p.name)
    (hnum : ((q.exec t.mach).1.map fun _ => 0) = (.ok 0 : Except Errno Nat) →
      t.vol.nextInum.toNat < 4096)
    (hspec : (∃ e, q.eval t.vol = (.error e, t.vol)) ∨ ∃ d nm k x τ s', q.eval t.vol = (.ok (), τ) ∧
      Room t.vol s p.name d nm k ∧ Linked t.vol s d nm x τ s' ∧
        ∃ m', t.vol.im.Took x.toNat m') :
    ∃ s', Sound (t.after (q.exec t.mach).2) s' := by
  rcases hspec with ⟨e, he⟩ | ⟨d, nm, k, x, τ, s', he, hroom, hl, m', ht⟩
  · refine ⟨s, h.exec hq ?_ ?_ ?_ h.single⟩
    · rw [he]
      exact h.mounted
    · rw [he]
      exact h.slots
    · rw [he]
      exact h.files
  · have hx : x.toNat < 4096 := by
      rw [← nextInum_took hok ht]
      refine hnum ?_
      rw [(exec_vol q t.mach).1, he]
      rfl
    refine ⟨s', h.exec hq ?_ ?_ ?_ h.single⟩
    · rw [he]
      refine h.mounted.linked hl ?_ hx
      rintro rfl
      exact hp (namei_lastEmpty hroom.namei)
    · rw [he]
      exact h.slots.grow h.mounted.inv hl.grow
    · rw [he]
      exact fun f fp hf => (h.files f fp hf).linked h.mounted.inv.owned hl

/-- A call that removes. -/
theorem Sound.rm (h : Sound t s) (p : Path) (doDirs : Bool) :
    ∃ s', Sound (t.after ((rmFile p.name doDirs).exec t.mach).2).forget s' := by
  have hq := fun g => keeps_rmFile (stable_sameSuper g) p.name doDirs
  have hsingle : (t.after ((rmFile p.name doDirs).exec t.mach).2).forget.Single :=
    h.single.sub fun g gp hg => (Session.forget_files hg).1
  have hvol := (exec_vol (rmFile p.name doDirs) t.mach).2
  have hset : ∀ f fp, (t.after ((rmFile p.name doDirs).exec t.mach).2).forget.files f = some fp →
      Placed t.vol s fp ∧
        Freemap.isset (Vol.im ((rmFile p.name doDirs).eval t.vol).2) fp.fInode.toNat = true := by
    intro f fp hf
    obtain ⟨hf', hset⟩ := Session.forget_files hf
    refine ⟨h.files f fp hf', ?_⟩
    rw [← hvol]
    exact hset
  rcases h.mounted.rmFile_cases p.nul doDirs with ⟨e, he⟩ | ⟨d, nm, k, j, τ, s', -, he, hr, hm⟩
  · refine ⟨s, h.exec hq ?_ ?_ ?_ hsingle⟩
    · rw [he]
      exact h.mounted
    · rw [he]
      exact h.slots
    · rw [he]
      exact fun f fp hf => (hset f fp hf).1
  · refine ⟨s', h.exec hq ?_ ?_ ?_ hsingle⟩
    · rw [he]
      exact hm
    · rw [he]
      exact h.slots.removed h.mounted.inv hr
    · intro f fp hf
      obtain ⟨hp, hi⟩ := hset f fp hf
      rw [he] at hi ⊢
      exact hp.removed h.mounted.inv.owned hr
        (hm.live_of_isset hi (h.mounted.inv.tree.inum _ hp.live).1)

theorem Sound.flush (h : Sound t s) : Sound (t.after (cacheFlush t.mach)) s := by
  refine ⟨h.mounted.flush h.coherent h.which, cacheFlush_coherent _, cacheFlush_which h.which,
    fun _ _ => rfl, ?_, h.single⟩
  intro f fp hf
  exact (h.files f fp hf).agree h.mounted.inv.owned (h.mounted.inv.flush_agree h.coherent h.which)

theorem Sound.clear (h : Sound t s) (f : Nat) : Sound (t.setFile f none) s :=
  ⟨h.mounted, h.coherent, h.which, h.slots, fun g gp hg => h.files g gp (Session.clear_files hg),
    h.single.sub fun _ _ hg => Session.clear_files hg⟩

/-- A call through the handle in variable `f`. -/
theorem Sound.through {α : Type} (h : Sound t s) {q : FsM α} (hq : ∀ g, Keeps (SameSuper g) q)
    (hf : t.files f = some fp) (hm : Mounted (q.eval t.vol).2 s')
    (hc : SlotsClean (q.eval t.vol).2) (hp : Placed (q.eval t.vol).2 s' fp')
    (hi : fp'.fInode = fp.fInode)
    (hother : ∀ gp, Placed t.vol s gp → gp.fInode ≠ fp.fInode → Placed (q.eval t.vol).2 s' gp) :
    Sound ((t.after (q.exec t.mach).2).setFile f (some fp')) s' := by
  refine h.exec hq hm hc ?_ (Session.Single.setFile h.single hf hi)
  intro g gp hg
  change Function.update t.files f (some fp') g = some gp at hg
  by_cases hgf : g = f
  · rw [hgf, Function.update_self] at hg
    cases hg
    exact hp
  · rw [Function.update_of_ne hgf] at hg
    refine hother gp (h.files g gp hg) ?_
    intro he
    exact hgf (h.single g f gp fp hg hf he)

/-- Every call of a proper run keeps the volume mounted and the handles placed. -/
theorem Sound.step (h : Sound t s) (hs : t.ProperStep t') : ∃ s', Sound t' s' := by
  obtain ⟨a, r, hstep, hfull, hasks⟩ := hs
  have hinv := h.mounted.inv
  cases a with
  | create p =>
    cases hstep
    have hf : ¬ ((crfsCreate p.name).eval t.vol).2.glob.Full := by
      rw [← (exec_vol (crfsCreate p.name) t.mach).2]
      exact hfull
    refine h.created (fun g => keeps_crfsCreate (stable_sameSuper g) _) hinv.inums.ok hasks.1
      hasks.2 ((crfsCreate_spec hinv p.nul hf).imp id ?_)
    rintro ⟨d, nm, k, x, τ, s', he, hroom, -, hl, -, ht⟩
    exact ⟨d, nm, k, x, τ, s', he, hroom, hl, ht⟩
  | mkdir p =>
    cases hstep
    have hf : ¬ ((crfsMkdir p.name).eval t.vol).2.glob.Full := by
      rw [← (exec_vol (crfsMkdir p.name) t.mach).2]
      exact hfull
    refine h.created (fun g => keeps_crfsMkdir (stable_sameSuper g) _) hinv.inums.ok hasks.1
      hasks.2 ((crfsMkdir_spec hinv p.nul hf).imp id ?_)
    rintro ⟨d, nm, k, x, τ, s', he, hroom, hl, -, ht⟩
    exact ⟨d, nm, k, x, τ, s', he, hroom, hl, ht⟩
  | remove p =>
    obtain ⟨_, -, ha⟩ := Option.map_eq_some_iff.mp hstep
    cases ha
    exact h.rm p false
  | rmdir p =>
    obtain ⟨_, -, ha⟩ := Option.map_eq_some_iff.mp hstep
    cases ha
    exact h.rm p true
  | openFile f p =>
    have hq : ∀ g, Keeps (SameSuper g) (crfsOpen p.name) :=
      fun _ => keeps_crfsOpen _
    have hres := (exec_vol (crfsOpen p.name) t.mach).1
    simp only [Session.step] at hstep
    rcases crfsOpen_cases hinv p.nul with ⟨e, he⟩ | ⟨d, nm, j, hfile, he⟩
    · rw [hres, he] at hstep
      cases hstep
      refine ⟨s, h.exec hq ?_ ?_ ?_ h.single⟩
      · rw [he]
        exact h.mounted
      · rw [he]
        exact h.slots
      · rw [he]
        exact h.files
    · rw [hres, he] at hstep
      cases hstep
      refine ⟨s, h.exec hq ?_ ?_ ?_ hasks⟩
      · rw [he]
        exact h.mounted
      · rw [he]
        exact h.slots
      · rw [he]
        intro g gp hg
        change Function.update t.files f (some (openHandle t.vol j)) g = some gp at hg
        by_cases hgf : g = f
        · rw [hgf, Function.update_self] at hg
          cases hg
          exact h.mounted.openHandle_placed hfile.liveFile hfile.file
        · rw [Function.update_of_ne hgf] at hg
          exact h.files g gp hg
  | read f size =>
    simp only [Session.step] at hstep
    cases hf : t.files f with
    | none =>
      rw [hf] at hstep
      cases hstep
      exact ⟨s, h⟩
    | some fp =>
      rw [hf] at hstep
      cases hstep
      have hvol := readOnly_crfsRead fp size t.vol
      have hm := crfsRead_moved t.vol fp size
      rw [← (exec_vol (crfsRead fp size) t.mach).1] at hm
      refine ⟨s, h.through (fun g σ hσ => by rw [readOnly_crfsRead fp size σ]; exact hσ) hf ?_ ?_ ?_
        hm.inode ?_⟩
      · rw [hvol]
        exact h.mounted
      · rw [hvol]
        exact h.slots
      · rw [hvol]
        exact (h.files f fp hf).moved hm
      · rw [hvol]
        exact fun gp hg _ => hg
  | write f buf =>
    simp only [Session.step] at hstep
    cases hf : t.files f with
    | none =>
      rw [hf] at hstep
      cases hstep
      exact ⟨s, h⟩
    | some fp =>
      rw [hf] at hstep
      cases hstep
      have hnf : ¬ ((crfsWrite fp buf).eval t.vol).2.glob.Full := by
        rw [← (exec_vol (crfsWrite fp buf) t.mach).2]
        exact hfull
      obtain ⟨fp', τ, s', he, hk⟩ := (h.files f fp hf).write h.mounted buf hnf
      have hres := (exec_vol (crfsWrite fp buf) t.mach).1
      rw [hres, he]
      refine ⟨s', h.through (fun g => keeps_crfsWrite (stable_sameSuper g).block fp buf) hf ?_ ?_
        ?_ hk.inode ?_⟩
      · rw [he]
        exact hk.mounted
      · rw [he]
        exact h.slots.grow hinv hk.touch.grow
      · rw [he]
        exact hk.placed
      · rw [he]
        exact fun gp hg hne => hg.touch hinv.owned hk.touch hne
  | close f =>
    simp only [Session.step] at hstep
    cases hf : t.files f with
    | none =>
      rw [hf] at hstep
      cases hstep
      exact ⟨s, h⟩
    | some fp =>
      rw [hf] at hstep
      cases hstep
      have hm := (h.files f fp hf).magic
      rw [crfsClose, if_neg (not_not.mpr hm)]
      exact ⟨s, h.flush.clear f⟩
  | flush =>
    cases hstep
    exact ⟨s, h.flush⟩
  | remount => exact hasks.elim

theorem Sound.run (h : Sound t s) (hrun : Relation.ReflTransGen Session.ProperStep t t') :
    ∃ s', Sound t' s' := by
  induction hrun with
  | refl => exact ⟨s, h⟩
  | tail _ hs ih =>
    obtain ⟨s', h'⟩ := ih
    exact h'.step hs

/-- The session of a program that formats a device and mounts it. -/
theorem sound_start {size : UInt32} {n : Nat} (hsize : GoodSize size n) (disk : BlockId → Block)
    {c : Machine} (hc : crfsInit (crfsMkfs size (boot disk)) = some (true, c)) :
    Sound ⟨c, fun _ => none⟩ mkfsShape := by
  obtain ⟨c', hc', hm, hcoh, -, -, hdirty, -, hw, -⟩ := mkfs_init_mounted hsize disk
  rw [hc] at hc'
  cases hc'
  refine ⟨hm, hcoh, Or.inl hw, fun b _ => hdirty b, ?_, ?_⟩
  · intro f fp hf
    cases hf
  · intro f g fp gp hf
    cases hf

/-! ### One admitted call -/

section
variable (hv : t.vol = σ)
include hv

theorem Session.admits_create (hp : ¬ lastEmpty p.name)
    (hσ' : σ' = ((crfsCreate p.name).eval σ).2) (hfull : ¬ σ'.glob.Full)
    (hnum : Vol.nextInum σ < 4096) :
    ∃ r t', t.step (.create p) = some (r, t') ∧ t.Admits (.create p) r t' ∧ t'.vol = σ' ∧
      t'.files = t.files := by
  subst hσ' hv
  obtain ⟨t', hstep, hvol, hfiles, -⟩ := t.step_create p
  refine ⟨_, t', hstep, ⟨?_, hp, fun _ => UInt16.lt_iff_toNat_lt.mp hnum⟩, hvol, hfiles⟩
  rw [← hvol] at hfull
  exact hfull

theorem Session.admits_mkdir (hp : ¬ lastEmpty p.name)
    (hσ' : σ' = ((crfsMkdir p.name).eval σ).2) (hfull : ¬ σ'.glob.Full)
    (hnum : Vol.nextInum σ < 4096) :
    ∃ r t', t.step (.mkdir p) = some (r, t') ∧ t.Admits (.mkdir p) r t' ∧ t'.vol = σ' ∧
      t'.files = t.files := by
  subst hσ' hv
  obtain ⟨t', hstep, hvol, hfiles, -⟩ := t.step_mkdir p
  refine ⟨_, t', hstep, ⟨?_, hp, fun _ => UInt16.lt_iff_toNat_lt.mp hnum⟩, hvol, hfiles⟩
  rw [← hvol] at hfull
  exact hfull

theorem Session.admits_remove (hr : ((crfsRemove p.name).eval σ).1 = some (.ok ()))
    (hσ' : σ' = ((crfsRemove p.name).eval σ).2) (hfull : ¬ σ'.glob.Full) :
    ∃ r t', t.step (.remove p) = some (r, t') ∧ t.Admits (.remove p) r t' ∧ t'.vol = σ' := by
  subst hσ' hv
  obtain ⟨t', hstep, hvol, -⟩ := t.step_remove p hr
  refine ⟨_, t', hstep, ⟨?_, trivial⟩, hvol⟩
  rw [← hvol] at hfull
  exact hfull

/-- The first file that is opened. -/
theorem Session.admits_open {fp : CoFile} (hfiles : t.files = fun _ => none)
    (ho : (crfsOpen p.name).eval σ = (.ok fp, σ)) (hfull : ¬ σ.glob.Full) (f : Nat) :
    ∃ r t', t.step (.openFile f p) = some (r, t') ∧ t.Admits (.openFile f p) r t' ∧
      t'.vol = σ ∧ t'.files f = some fp := by
  subst hv
  obtain ⟨hres, hvol⟩ := exec_vol (crfsOpen p.name) t.mach
  rw [ho] at hres hvol
  have hvol : Machine.vol ((crfsOpen p.name).exec t.mach).2 = t.vol := hvol
  have hset : ∀ g gp, ((t.after ((crfsOpen p.name).exec t.mach).2).setFile f (some fp)).files g =
      some gp → g = f := by
    intro g gp hg
    by_contra hne
    change Function.update t.files f (some fp) g = some gp at hg
    rw [Function.update_of_ne hne, hfiles] at hg
    cases hg
  refine ⟨.ok 0, (t.after ((crfsOpen p.name).exec t.mach).2).setFile f (some fp), ?_,
    ⟨?_, ?_⟩, hvol,
    Function.update_self _ _ _⟩
  · rw [Session.step, hres]
  · rw [← hvol] at hfull
    exact hfull
  · intro g g' gp gp' hg hg' _
    rw [hset g gp hg, hset g' gp' hg']

theorem Session.admits_write {fp : CoFile} {f : Nat} {buf : List UInt8} (hf : t.files f = some fp)
    (hσ' : σ' = ((crfsWrite fp buf).eval σ).2) (hfull : ¬ σ'.glob.Full) :
    ∃ r t', t.step (.write f buf) = some (r, t') ∧ t.Admits (.write f buf) r t' ∧ t'.vol = σ' := by
  subst hσ' hv
  obtain ⟨-, hvol⟩ := exec_vol (crfsWrite fp buf) t.mach
  refine ⟨_, _, by rw [Session.step, hf], ⟨?_, trivial⟩, hvol⟩
  rw [← hvol] at hfull
  exact hfull

end

/-! ### A run on a small device -/

/-- The calls `cs`, admitted. -/
def Session.StepOf (cs : List Call) (t t' : Session) : Prop :=
  ∃ a ∈ cs, ∃ r, t.step a = some (r, t') ∧ t.Admits a r t'

theorem Session.StepOf.proper {cs : List Call} (h : Session.StepOf cs t t') : t.ProperStep t' := by
  obtain ⟨a, -, r, hstep, hadm⟩ := h
  exact ⟨a, r, hstep, hadm⟩

/-- The paths "d" and "d/b". -/
def pathD : Path := ⟨[100], by decide⟩
def pathDB : Path := ⟨[100, 47, 98], by decide⟩

/-- A file, a directory and a file in it. -/
def smallEdits : List Call := [.create pathA, .mkdir pathD, .create pathDB]

def madeVol : Vol := ((crfsMkdir pathD.name).eval createdVol).2
def nestedVol : Vol := ((crfsCreate pathDB.name).eval madeVol).2

theorem nestedVol_room : ¬ nestedVol.glob.Full :=
  not_or.mpr ⟨by decide +kernel, by decide +kernel⟩

theorem small_edits {c : Machine} (hv : c.vol = freshVol 98304 3 fun _ => zeroBlock) :
    ∃ t₁ t₂ t₃ : Session, Session.StepOf smallEdits ⟨c, fun _ => none⟩ t₁ ∧
      t₁.vol = createdVol ∧ Session.StepOf smallEdits t₁ t₂ ∧ t₂.vol = madeVol ∧
      Session.StepOf smallEdits t₂ t₃ ∧ t₃.vol = nestedVol ∧ t₃.files = fun _ => none := by
  have hcreated : ¬ createdVol.glob.Full :=
    not_or.mpr ⟨by decide +kernel, by decide +kernel⟩
  have hmade : ¬ madeVol.glob.Full :=
    not_or.mpr ⟨by decide +kernel, by decide +kernel⟩
  obtain ⟨r₁, t₁, hs₁, ha₁, hv₁, hf₁⟩ := Session.admits_create (t := ⟨c, fun _ => none⟩)
    (p := pathA) hv (by decide) (by rw [createdVol]) hcreated (by decide +kernel)
  obtain ⟨r₂, t₂, hs₂, ha₂, hv₂, hf₂⟩ := Session.admits_mkdir (p := pathD) hv₁ (by decide)
    (by rw [madeVol]) hmade (by decide +kernel)
  obtain ⟨r₃, t₃, hs₃, ha₃, hv₃, hf₃⟩ := Session.admits_create (p := pathDB) hv₂ (by decide)
    (by rw [nestedVol]) nestedVol_room (by decide +kernel)
  exact ⟨t₁, t₂, t₃, ⟨_, by simp [smallEdits], r₁, hs₁, ha₁⟩, hv₁,
    ⟨_, by simp [smallEdits], r₂, hs₂, ha₂⟩, hv₂, ⟨_, by simp [smallEdits], r₃, hs₃, ha₃⟩, hv₃,
    hf₃.trans (hf₂.trans hf₁)⟩

/-- The first file gets two blocks and is removed. -/
def smallCalls : List Call :=
  smallEdits ++ [.openFile 0 pathA, .write 0 longText, .remove pathA]

def wroteVol : Vol := ((crfsWrite (openHandle nestedVol 2) longText).eval nestedVol).2
def removedVol : Vol := ((crfsRemove pathA.name).eval wroteVol).2

theorem small_run : ∃ (c : Machine) (t : Session),
    crfsInit (crfsMkfs 98304 (boot fun _ => zeroBlock)) = some (true, c) ∧
      Relation.ReflTransGen (Session.StepOf smallCalls) ⟨c, fun _ => none⟩ t ∧
      t.vol = removedVol := by
  have hmono : ∀ {t t' : Session}, Session.StepOf smallEdits t t' →
      Session.StepOf smallCalls t t' := by
    rintro t t' ⟨a, ha, r, hstep, hadm⟩
    exact ⟨a, List.mem_append_left _ ha, r, hstep, hadm⟩
  have hwrote : ¬ wroteVol.glob.Full :=
    not_or.mpr ⟨by decide +kernel, by decide +kernel⟩
  have hremoved : ¬ removedVol.glob.Full :=
    not_or.mpr ⟨by decide +kernel, by decide +kernel⟩
  obtain ⟨c, hc, hv, -⟩ := fresh_session
  obtain ⟨t₁, t₂, t₃, h₁, -, h₂, -, h₃, hv₃, hf₃⟩ := small_edits hv
  have hedits : Relation.ReflTransGen (Session.StepOf smallCalls) ⟨c, fun _ => none⟩ t₃ :=
    ((Relation.ReflTransGen.single (hmono h₁)).tail (hmono h₂)).tail (hmono h₃)
  obtain ⟨s, hsound⟩ := (sound_start goodSize_small _ hc).run
    (Relation.ReflTransGen.mono (fun _ _ hs => hs.proper) _ _ hedits)
  have hinv := hsound.mounted.inv
  rw [hv₃] at hinv
  have hopen : (crfsOpen pathA.name).eval nestedVol =
      (.ok (openHandle nestedVol 2), nestedVol) := by
    have hopened : nestedVol.img.opened nestedVol.glob.crfsPwd pathA.name = .ok 2 := by
      decide +kernel
    rw [crfsOpen_eval hinv pathA.nul, hopened]
    rfl
  obtain ⟨r₄, t₄, hs₄, ha₄, hv₄, hf₄⟩ := Session.admits_open hv₃ hf₃ hopen nestedVol_room 0
  obtain ⟨r₅, t₅, hs₅, ha₅, hv₅⟩ := Session.admits_write hv₄ hf₄ (by rw [wroteVol]) hwrote
  have hgone : ((crfsRemove pathA.name).eval wroteVol).1 = some (.ok ()) := by decide +kernel
  obtain ⟨r₆, t₆, hs₆, ha₆, hv₆⟩ := Session.admits_remove hv₅ hgone (by rw [removedVol]) hremoved
  have hcalls : ∀ a ∈ [Call.openFile 0 pathA, .write 0 longText, .remove pathA], a ∈ smallCalls :=
    fun _ ha => List.mem_append_right _ ha
  have h₄ : Session.StepOf smallCalls t₃ t₄ := ⟨_, hcalls _ (.head _), r₄, hs₄, ha₄⟩
  have h₅ : Session.StepOf smallCalls t₄ t₅ := ⟨_, hcalls _ (.tail _ (.head _)), r₅, hs₅, ha₅⟩
  have h₆ : Session.StepOf smallCalls t₅ t₆ :=
    ⟨_, hcalls _ (.tail _ (.tail _ (.head _))), r₆, hs₆, ha₆⟩
  exact ⟨c, t₆, hc, ((hedits.tail h₄).tail h₅).tail h₆, hv₆⟩

end Crfs
