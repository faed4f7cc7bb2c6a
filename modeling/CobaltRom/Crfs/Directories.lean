import CobaltRom.Crfs.MountExact
import CobaltRom.Crfs.OneOwner

/-! The directories of a volume along the runs of a program that creates and removes. -/
namespace Crfs
open WriteBack WriteBack.Prog SlotTree

/-- Slot `k` of directory `d`, which can be reached from the root, holds an entry in use for
inode `x`. -/
def Img.Entry (I : Img) (d : InodeId) (k : Nat) (x : InodeId) : Prop :=
  I.Reached d ∧ I.isDir d = true ∧ k < crfsDirNents ∧ (I.ent d k).deInode = x ∧ x ≠ 0

/-- The directories that can be reached are well formed: "." and ".." come first and name the
directory and its parent, names are set and distinct, and every inode but the root has one entry
besides the dot entries. -/
structure Img.DirsOk (I : Img) : Prop where
  dot : ∀ d, I.Reached d → I.isDir d = true → I.Entry d 0 d ∧ (I.ent d 0).name = [46]
  dotdot : ∀ d, I.Reached d → I.isDir d = true → (I.ent d 1).name = [46, 46]
  upRoot : I.Entry I.root 1 I.root
  up : ∀ d k x, 2 ≤ k → I.Entry d k x → I.isDir x = true → I.Entry x 1 d
  named : ∀ d k x, I.Entry d k x → (I.ent d k).name ≠ []
  distinct : ∀ d j k x y, I.Entry d j x → I.Entry d k y →
    (I.ent d j).name = (I.ent d k).name → j = k
  once : ∀ x, I.Reached x → x ≠ I.root → ∃! p : InodeId × Nat, 2 ≤ p.2 ∧ I.Entry p.1 p.2 x
  top : ∀ d k, 2 ≤ k → ¬ I.Entry d k I.root

/-- The calls that change the directory tree. -/
def Call.EditsTree : Call → Prop
  | .create _ | .mkdir _ | .remove _ | .rmdir _ => True
  | _ => False

/-- Such a call, made while there are blocks and inode numbers. -/
def Session.EditStep (t : Session) (a : Call) (t' : Session) : Prop :=
  a.EditsTree ∧ (∃ r, t.step a = some (r, t')) ∧ ¬ t'.mach.glob.Full

/-- The call is a `crfs_mkdir` whose path leaves an empty last component, and neither an entry
of that name nor a full directory stops it. -/
def Vol.EntersEmpty (σ : Vol) (a : Call) : Prop :=
  ∃ p d k, a = .mkdir p ∧ σ.mkdirAt p.name = .ok (d, [], k)

/-- An edit that enters no empty name. -/
def Session.NamedStep (t t' : Session) : Prop :=
  ∃ a, t.EditStep a t' ∧ ¬ t.vol.EntersEmpty a

variable {I : Img} {live : InodeId → Prop} {σ τ : Vol} {s s' : Shape} {t t' : Session}
  {d j x : InodeId} {nm : Name} {k : Nat} {a : Call} {size : UInt32}

/-! ### The tree of an image -/

theorem Treed.reached_iff (h : Treed I live) (x : InodeId) : I.Reached x ↔ live x := by
  constructor
  · intro hx
    induction hx with
    | refl => exact h.live_root
    | tail _ he ih =>
      obtain ⟨hdir, k, hk, rfl, hne⟩ := he
      exact h.ent_live ih hdir hk hne
  · intro hx
    have hd := h.tree.reach x hx
    clear hx
    induction hd with
    | refl => exact .refl
    | step _ hk ih =>
      obtain ⟨hdir, -, hlt, hne, he⟩ := Img.kids_eq_some.mp hk
      exact .tail ih ⟨hdir, _, hlt, he, hne⟩

theorem Treed.entry_iff (h : Treed I live) (hk : 2 ≤ k) :
    I.Entry d k x ↔ live d ∧ I.kids d k = some x := by
  rw [Img.Entry, h.reached_iff, Img.kids_eq_some]
  constructor
  · rintro ⟨hd, hdir, hlt, he, hne⟩
    exact ⟨hd, hdir, hk, hlt, hne, he⟩
  · rintro ⟨hd, hdir, -, hlt, hne, he⟩
    exact ⟨hd, hdir, hlt, he, hne⟩

theorem Treed.dirsOk (h : Treed I live) (hn : Named I live) : I.DirsOk := by
  have hok : ∀ d, I.Reached d → I.isDir d = true → DirOk (I.ent d) d := fun d hd hdir =>
    h.dirOk d ((h.reached_iff d).mp hd) hdir
  have hne : ∀ d, I.Reached d → d ≠ 0 := fun d hd => (h.inum d ((h.reached_iff d).mp hd)).1
  refine ⟨?dot, fun d hd hdir => (hok d hd hdir).dotdot.2, ?upRoot, ?up, ?named, ?distinct,
    ?once, ?top⟩
  case dot =>
    intro d hd hdir
    exact ⟨⟨hd, hdir, by decide, (hok d hd hdir).dot.1, hne d hd⟩, (hok d hd hdir).dot.2⟩
  case upRoot => exact ⟨.refl, h.rootDir, by decide, h.upRoot, hne _ .refl⟩
  case up =>
    intro d k x hk he hx
    obtain ⟨hd, hkid⟩ := (h.entry_iff hk).mp he
    have hxl := h.tree.kid_live d k x hd hkid
    exact ⟨(h.reached_iff x).mpr hxl, hx, by decide, h.upKid d k x hd hkid hx, hne d he.1⟩
  case named =>
    rintro d k x ⟨hd, hdir, hk, rfl, hx⟩
    exact hn d ((h.reached_iff d).mp hd) hdir k hk hx
  case distinct =>
    rintro d j k x y ⟨hd, hdir, hj, rfl, hx⟩ ⟨-, -, hk, rfl, hy⟩ he
    exact (hok d hd hdir).distinct j k hj hk hx hy he
  case once =>
    intro x hx hr
    obtain ⟨d, k, hd, hkid⟩ := h.up_kid ((h.reached_iff x).mp hx) hr
    have hk := (Img.kids_eq_some.mp hkid).2.1
    refine ⟨(d, k), ⟨hk, (h.entry_iff hk).mpr ⟨hd, hkid⟩⟩, ?_⟩
    rintro ⟨e, l⟩ ⟨hl, he⟩
    obtain ⟨hel, hkid'⟩ := (h.entry_iff hl).mp he
    obtain ⟨rfl, rfl⟩ := h.tree.parent e l d k x hel hd hkid' hkid
    rfl
  case top =>
    intro d k hk he
    obtain ⟨hd, hkid⟩ := (h.entry_iff hk).mp he
    exact h.tree.root_top d k hd hkid

/-- A new entry without a name spoils its directory. -/
theorem Linked.not_dirsOk (h : Linked σ s d [] x τ s') : ¬ τ.img.DirsOk := by
  intro hok
  obtain ⟨k, he⟩ := h.entered
  refine hok.named d k x ⟨?_, ?_, he.lt, ?_, he.ne⟩ he.name
  · refine (h.inv.tree.reached_iff d).mpr ?_
    rw [h.live]
    exact Or.inl he.dir
  · rw [he.dirs d he.dir]
    exact he.isDir
  · rw [he.enter, if_pos rfl]

/-! ### Runs -/

/-- What the runs keep: a tree whose entries have names and whose files are empty. -/
structure Edited (σ : Vol) (s : Shape) : Prop where
  inv : Inv σ s
  named : Named σ.img s.live
  empty : ∀ i, s.live i → σ.img.isDir i = false → (σ.img.ino i).inFirst = 0

theorem Edited.dirsOk (h : Edited σ s) : σ.img.DirsOk := h.inv.tree.dirsOk h.named

theorem Edited.linked (h : Edited σ s) (hl : Linked σ s d nm x τ s') (hnm : nm ≠ []) :
    Edited τ s' := by
  obtain ⟨k, he⟩ := hl.entered
  refine ⟨hl.inv, ?_, ?_⟩
  · rw [hl.live]
    exact h.named.link he hnm
  · intro i hi hdir
    rw [hl.live] at hi
    rcases hi with hi | rfl
    · have hdir' : σ.img.isDir i = false := by rw [← he.dirs i hi]; exact hdir
      have hne : i ≠ d := by
        rintro rfl
        rw [he.isDir] at hdir'
        cases hdir'
      rw [hl.ino i hi hne]
      exact h.empty i hi hdir'
    · exact hl.newFirst hdir

theorem Edited.removed (h : Edited σ s) (hr : Removed σ s d k j τ s') : Edited τ s' := by
  refine ⟨hr.inv, hr.named, ?_⟩
  intro i hi hdir
  rw [hr.live] at hi
  rw [hr.erased.dirs i hi.1] at hdir
  rw [hr.ino i (h.inv.owned.table i hi.1)]
  exact h.empty i hi.1 hdir

theorem Edited.rmFile (h : Edited σ s) (p : Path) (doDirs : Bool) :
    ∃ r s', ((rmFile p.name doDirs).eval σ).1 = some r ∧
      Edited ((rmFile p.name doDirs).eval σ).2 s' := by
  have hret := rmFile_returns h.inv h.named p.nul (fun i hi hdir => ⟨[], h.empty i hi hdir,
    Nat.zero_le _⟩) doDirs
  rcases rmFile_cases h.inv h.named p.nul doDirs with ⟨e, he⟩ | ⟨d, nm, k, j, -, ⟨-, hu⟩ | hu⟩
  · rw [he]
    exact ⟨_, s, rfl, h⟩
  · exact absurd hu hret
  · obtain ⟨τ, s', he, hr⟩ := hu
    rw [he]
    exact ⟨_, s', rfl, h.removed hr⟩

/-- Every call that edits the tree returns. -/
theorem Edited.returns (h : Edited t.vol s) (ha : a.EditsTree) : (t.step a).isSome = true := by
  cases a with
  | create p => rfl
  | mkdir p => rfl
  | remove p =>
    obtain ⟨r, -, hr, -⟩ := h.rmFile p false
    obtain ⟨t', ht', -⟩ := t.step_remove p hr
    rw [ht']
    rfl
  | rmdir p =>
    obtain ⟨r, -, hr, -⟩ := h.rmFile p true
    rw [← (exec_vol (Crfs.rmFile p.name true) t.mach).1] at hr
    change (Option.map _ ((Crfs.rmFile p.name true).exec t.mach).1).isSome = true
    rw [hr]
    rfl
  | openFile | read | write | close | flush | remount => exact ha.elim

/-- An edit keeps the tree in order, unless it enters an empty name, which spoils it. -/
theorem Edited.step (h : Edited t.vol s) (hstep : t.EditStep a t') :
    (¬ t.vol.EntersEmpty a → ∃ s', Edited t'.vol s') ∧
      (t.vol.EntersEmpty a → ¬ t'.vol.img.DirsOk) := by
  obtain ⟨ha, ⟨r, hr⟩, hfull⟩ := hstep
  cases a with
  | create p =>
    refine ⟨fun _ => ?_, by rintro ⟨q, d, k, hq, -⟩; cases hq⟩
    cases hr
    have hvol := (exec_vol (crfsCreate p.name) t.mach).2
    rw [show (t.after ((crfsCreate p.name).exec t.mach).2).vol = _ from hvol]
    have hf : ¬ ((crfsCreate p.name).eval t.vol).2.glob.Full := by
      rw [← hvol]
      exact hfull
    rcases crfsCreate_spec h.inv p.nul hf with ⟨e, he⟩ |
      ⟨d, nm, k, x, τ, s', he, -, hnm, hl, -, -⟩
    · rw [he]
      exact ⟨s, h⟩
    · rw [he]
      exact ⟨s', h.linked hl hnm⟩
  | mkdir p =>
    cases hr
    have hvol := (exec_vol (crfsMkdir p.name) t.mach).2
    rw [show (t.after ((crfsMkdir p.name).exec t.mach).2).vol = _ from hvol]
    have hf : ¬ ((crfsMkdir p.name).eval t.vol).2.glob.Full := by
      rw [← hvol]
      exact hfull
    cases hat : t.vol.mkdirAt p.name with
    | error e =>
      have he : ¬ t.vol.EntersEmpty (.mkdir p) := by
        rintro ⟨q, d, k, hq, hk⟩
        cases hq
        rw [hat] at hk
        cases hk
      refine ⟨fun _ => ⟨s, ?_⟩, fun hc => absurd hc he⟩
      rw [crfsMkdir_eval, hat]
      exact h
    | ok at_ =>
      obtain ⟨d, nm, k⟩ := at_
      obtain ⟨x, τ, s', he, hl, -⟩ := crfsMkdir_entered h.inv p.nul hat hf
      rw [he]
      refine ⟨fun hc => ⟨s', h.linked hl ?_⟩, ?_⟩
      · rintro rfl
        exact hc ⟨p, d, k, rfl, hat⟩
      · rintro ⟨q, d', k', hq, hk⟩
        cases hq
        rw [hat] at hk
        cases hk
        exact hl.not_dirsOk
  | remove p =>
    obtain ⟨_, -, he⟩ := Option.map_eq_some_iff.mp hr
    cases he
    obtain ⟨_, s', -, h'⟩ := h.rmFile p false
    refine ⟨fun _ => ⟨s', ?_⟩, by rintro ⟨q, d, k, hq, -⟩; cases hq⟩
    change Edited (Machine.vol ((Crfs.rmFile p.name false).exec t.mach).2) s'
    rw [(exec_vol (Crfs.rmFile p.name false) t.mach).2]
    exact h'
  | rmdir p =>
    obtain ⟨_, -, he⟩ := Option.map_eq_some_iff.mp hr
    cases he
    obtain ⟨_, s', -, h'⟩ := h.rmFile p true
    refine ⟨fun _ => ⟨s', ?_⟩, by rintro ⟨q, d, k, hq, -⟩; cases hq⟩
    change Edited (Machine.vol ((Crfs.rmFile p.name true).exec t.mach).2) s'
    rw [(exec_vol (Crfs.rmFile p.name true) t.mach).2]
    exact h'
  | openFile | read | write | close | flush | remount => exact ha.elim

theorem Edited.run (h : Edited t.vol s) (hrun : Relation.ReflTransGen Session.NamedStep t t') :
    ∃ s', Edited t'.vol s' := by
  induction hrun with
  | refl => exact ⟨s, h⟩
  | tail _ hs ih =>
    obtain ⟨s', h'⟩ := ih
    obtain ⟨a, hstep, hname⟩ := hs
    exact (h'.step hstep).1 hname

/-- A formatted device that holds both slots and has no block beyond number 65535. -/
theorem edited_start (hlow : 24 * 4096 ≤ size.toNat) (hhigh : size.toNat < 8193 * 32768)
    (disk : BlockId → Block) {c : Machine}
    (hc : crfsInit (crfsMkfs size (boot disk)) = some (true, c)) : Edited c.vol mkfsShape := by
  obtain ⟨hdisk, hwhich⟩ := crfsMkfs_boot size disk
  have hcount := blockCount_mkfs size
  have hwf : WfImage (crfsMkfs size (boot disk)).store.disk (nextSuper (mkfsSuper size 1))
      mkfsShape := by
    rw [hdisk]
    exact mkfs_wfImage_of (by omega) (by omega)
  obtain ⟨c', hc', hm, -⟩ :=
    crfsInit_mounted hwf (by rw [hdisk, hwhich]; exact pickSuper_mkfs size disk 0)
  rw [hc] at hc'
  obtain ⟨-, rfl⟩ := Prod.mk.inj (Option.some.inj hc')
  refine ⟨hm.inv, hm.named, ?_⟩
  -- the root is the only inode, and it is a directory
  intro i hi hdir
  have hroot : c.vol.img.root = i := hm.inv.tree.live_root.trans (Eq.symm hi)
  rw [← hroot, hm.inv.tree.rootDir] at hdir
  cases hdir

/-- On a formatted device the directories stay well formed, and every call returns, for as long
as no `crfs_mkdir` enters an empty name; the first that does spoils them. -/
theorem directories_wellFormed (hlow : 24 * 4096 ≤ size.toNat) (hhigh : size.toNat < 8193 * 32768)
    (disk : BlockId → Block) {c : Machine}
    (hc : crfsInit (crfsMkfs size (boot disk)) = some (true, c))
    (hrun : Relation.ReflTransGen Session.NamedStep ⟨c, fun _ => none⟩ t) :
    t.vol.img.DirsOk ∧ (∀ a : Call, a.EditsTree → (t.step a).isSome = true) ∧
      ∀ a t', t.EditStep a t' → (t'.vol.img.DirsOk ↔ ¬ t.vol.EntersEmpty a) := by
  obtain ⟨s, h⟩ := (edited_start hlow hhigh disk hc).run hrun
  refine ⟨h.dirsOk, fun a ha => h.returns ha, ?_⟩
  intro a t' hstep
  obtain ⟨hkeep, hspoil⟩ := h.step hstep
  constructor
  · intro hok hempty
    exact hspoil hempty hok
  · intro hname
    obtain ⟨s', h'⟩ := hkeep hname
    exact h'.dirsOk

theorem mkdirAt_namei {fname : Name} (hat : σ.mkdirAt fname = .ok (d, nm, k)) :
    σ.img.namei σ.glob.crfsPwd fname = .ok (nm, d) := by
  unfold Vol.mkdirAt at hat
  split at hat
  · cases hat
  · next nm' d' hn =>
    split at hat
    · cases hat
    · split at hat
      · cases hat
      · split at hat
        · cases hat
        · cases hat
          exact hn

/-- An admitted edit enters no empty name. -/
theorem Session.Admits.named {r : Except Errno Nat} (h : t.Admits a r t') (ha : a.EditsTree)
    (hstep : t.step a = some (r, t')) : t.NamedStep t' := by
  refine ⟨a, ⟨ha, ⟨r, hstep⟩, h.1⟩, ?_⟩
  rintro ⟨p, d, k, rfl, hat⟩
  exact h.2.1 (namei_lastEmpty (mkdirAt_namei hat))

/-- They are after a file, a directory and a file in it are created on the small device and the
first file is removed. -/
theorem directories_wellFormed_run : ∃ (c : Machine) (t : Session),
    crfsInit (crfsMkfs 98304 (boot fun _ => zeroBlock)) = some (true, c) ∧
      Relation.ReflTransGen Session.NamedStep ⟨c, fun _ => none⟩ t ∧
      t.vol = ((crfsRemove pathA.name).eval nestedVol).2 ∧ t.vol.img.DirsOk := by
  have hedit : ∀ {t t' : Session}, Session.StepOf smallEdits t t' → t.NamedStep t' := by
    rintro t t' ⟨a, ha, r, hstep, hadm⟩
    refine hadm.named ?_ hstep
    simp only [smallEdits, List.mem_cons, List.not_mem_nil, or_false] at ha
    rcases ha with rfl | rfl | rfl <;> trivial
  have hgone : ((crfsRemove pathA.name).eval nestedVol).1 = some (.ok ()) := by decide +kernel
  have hroom : ¬ ((crfsRemove pathA.name).eval nestedVol).2.glob.Full :=
    not_or.mpr ⟨by decide +kernel, by decide +kernel⟩
  obtain ⟨c, hc, hv, -⟩ := fresh_session
  obtain ⟨t₁, t₂, t₃, h₁, -, h₂, -, h₃, hv₃, -⟩ := small_edits hv
  obtain ⟨r, t, hstep, hadm, hvt⟩ := Session.admits_remove hv₃ hgone rfl hroom
  have hrun : Relation.ReflTransGen Session.NamedStep ⟨c, fun _ => none⟩ t :=
    (((Relation.ReflTransGen.single (hedit h₁)).tail (hedit h₂)).tail (hedit h₃)).tail
      (hadm.named trivial hstep)
  exact ⟨c, t, hc, hrun, hvt,
    (directories_wellFormed (by decide) (by decide) (fun _ => zeroBlock) hc hrun).1⟩

/-- The path "/". -/
def pathSlash : Path := ⟨[47], by decide⟩

/-- `crfs_mkdir` of "/" enters a directory without a name in the root. -/
theorem mkdir_slash_spoils :
    ¬ ∀ (size : UInt32) (disk : BlockId → Block) (c : Machine) (t : Session),
    24 * 4096 ≤ size.toNat → size.toNat < 8193 * 32768 →
    crfsInit (crfsMkfs size (boot disk)) = some (true, c) →
    Relation.ReflTransGen (fun t t' => ∃ a, t.EditStep a t') ⟨c, fun _ => none⟩ t →
    t.vol.img.DirsOk := by
  intro hall
  obtain ⟨c, hc, hv, -⟩ := fresh_session
  have hvol := (exec_vol (crfsMkdir pathSlash.name) c).2
  have hat : c.vol.mkdirAt pathSlash.name = .ok (1, [], 2) := by
    rw [hv]
    decide +kernel
  have hstep : Session.EditStep ⟨c, fun _ => none⟩ (.mkdir pathSlash)
      ⟨((crfsMkdir pathSlash.name).exec c).2, fun _ => none⟩ := by
    refine ⟨trivial, ⟨_, rfl⟩, ?_⟩
    change ¬ (Machine.vol ((crfsMkdir pathSlash.name).exec c).2).glob.Full
    rw [hvol, hv]
    rintro (hf | hf)
    · exact absurd hf (by decide +kernel)
    · exact absurd hf (by decide +kernel)
  have hstart : Edited (Session.vol ⟨c, fun _ => none⟩) mkfsShape :=
    @edited_start 98304 (by decide) (by decide) (fun _ => zeroBlock) c hc
  exact (hstart.step hstep).2 ⟨pathSlash, 1, 2, rfl, hat⟩
    (hall 98304 (fun _ => zeroBlock) c _ (by decide) (by decide) hc (.single ⟨_, hstep⟩))

end Crfs
