import CobaltRom.Crfs.Format
import CobaltRom.Crfs.RmFile
import CobaltRom.Crfs.Read

/-! Sessions: a program that makes one file system call after the other. -/
namespace Crfs
open WriteBack WriteBack.Prog SlotTree

/-- A path argument. A C string holds no NUL. -/
structure Path where
  name : Name
  nul : (0 : UInt8) ∉ name

/-- The calls of a program; it keeps its open files in numbered variables. -/
inductive Call where
  | create (p : Path)
  | mkdir (p : Path)
  | remove (p : Path)
  | rmdir (p : Path)
  | openFile (f : Nat) (p : Path)
  | read (f size : Nat)
  | write (f : Nat) (buf : List UInt8)
  | close (f : Nat)
  | flush
  | remount

structure Session where
  mach : Machine
  files : Nat → Option CoFile

namespace Session

variable (t : Session)

/-- The session after a call that only affects the volume. -/
def after (c : Machine) : Session := { t with mach := c }

def setFile (f : Nat) (fp : Option CoFile) : Session :=
  { t with files := Function.update t.files f fp }

/-- Handles of files that were removed are forgotten: what a program does with one
later is outside these runs. -/
def forget : Session :=
  { t with files := fun f => (t.files f).filter fun fp =>
      t.mach.glob.inodeFreemap.isset fp.fInode.toNat }

/-- One call: its result and the session after it. There is none if the call does
not return. -/
def step (t : Session) : Call → Option (Except Errno Nat × Session)
  | .create p =>
    let r := (crfsCreate p.name).exec t.mach
    some (r.1.map fun _ => 0, t.after r.2)
  | .mkdir p =>
    let r := (crfsMkdir p.name).exec t.mach
    some (r.1.map fun _ => 0, t.after r.2)
  | .remove p =>
    let r := (crfsRemove p.name).exec t.mach
    r.1.map fun e => (e.map fun _ => 0, (t.after r.2).forget)
  | .rmdir p =>
    let r := (crfsRmdir p.name).exec t.mach
    r.1.map fun e => (e.map fun _ => 0, (t.after r.2).forget)
  | .openFile f p =>
    let r := (crfsOpen p.name).exec t.mach
    match r.1 with
    | .error e => some (.error e, t.after r.2)
    | .ok fp => some (.ok 0, (t.after r.2).setFile f (some fp))
  | .read f size =>
    match t.files f with
    | none => some (.error .EBADF, t)
    | some fp =>
      let r := (crfsRead fp size).exec t.mach
      some (r.1.1, (t.after r.2).setFile f (some r.1.2.2))
  | .write f buf =>
    match t.files f with
    | none => some (.error .EBADF, t)
    | some fp =>
      let r := (crfsWrite fp buf).exec t.mach
      some (r.1.1, (t.after r.2).setFile f (some r.1.2))
  | .close f =>
    match t.files f with
    | none => some (.error .EBADF, t)
    | some fp =>
      let r := crfsClose fp t.mach
      some (r.1.map fun _ => 0, (t.after r.2).setFile f none)
  | .flush => some (.ok 0, t.after (cacheFlush t.mach))
  | .remount =>
    (crfsInit t.mach).map fun r =>
      (if r.1 then .ok 0 else .error .EINVAL, ⟨r.2, fun _ => none⟩)

/-- The volume a session works on. -/
abbrev vol : Vol := t.mach.vol

end Session

variable {σ τ : Vol} {s s' : Shape} {d j x : InodeId} {nm : Name} {k : Nat} {c : Machine}

/-! ### Calls on the volume -/

/-- A program run on the machine shows on its volume. -/
theorem exec_vol {α : Type} (q : FsM α) (c : Machine) :
    (q.exec c).1 = (q.eval c.vol).1 ∧ Machine.vol (q.exec c).2 = (q.eval c.vol).2 := exec_flat c q

section
variable (t : Session)

theorem Session.step_create (p : Path) : ∃ t' : Session,
    t.step (.create p) = some (((crfsCreate p.name).eval t.vol).1.map fun _ => 0, t') ∧
      t'.vol = ((crfsCreate p.name).eval t.vol).2 ∧ t'.files = t.files ∧
      (t.mach.store.Coherent → t'.mach.store.Coherent) := by
  have h := exec_vol (crfsCreate p.name) t.mach
  refine ⟨t.after ((crfsCreate p.name).exec t.mach).2, ?_, h.2, rfl, exec_coherent _⟩
  rw [← h.1]
  rfl

theorem Session.step_mkdir (p : Path) : ∃ t' : Session,
    t.step (.mkdir p) = some (((crfsMkdir p.name).eval t.vol).1.map fun _ => 0, t') ∧
      t'.vol = ((crfsMkdir p.name).eval t.vol).2 ∧ t'.files = t.files ∧
      (t.mach.store.Coherent → t'.mach.store.Coherent) := by
  have h := exec_vol (crfsMkdir p.name) t.mach
  refine ⟨t.after ((crfsMkdir p.name).exec t.mach).2, ?_, h.2, rfl, exec_coherent _⟩
  rw [← h.1]
  rfl

theorem Session.step_remove (p : Path) {r : Except Errno Unit}
    (hr : ((crfsRemove p.name).eval t.vol).1 = some r) : ∃ t' : Session,
    t.step (.remove p) = some (r.map fun _ => 0, t') ∧
      t'.vol = ((crfsRemove p.name).eval t.vol).2 ∧
      (t.mach.store.Coherent → t'.mach.store.Coherent) := by
  have h := exec_vol (crfsRemove p.name) t.mach
  refine ⟨(t.after ((crfsRemove p.name).exec t.mach).2).forget, ?_, h.2, exec_coherent _⟩
  rw [← h.1] at hr
  exact congrArg (Option.map fun e : Except Errno Unit => (e.map fun _ => 0,
    (t.after ((crfsRemove p.name).exec t.mach).2).forget)) hr

end

/-- What a call does to the machine: it runs a file operation, flushes or mounts. -/
theorem Session.step_cases {t t' : Session} {a : Call} {r : Except Errno Nat}
    (h : t.step a = some (r, t')) :
    (∃ (α : Type) (q : FsM α), t'.mach = (q.exec t.mach).2 ∧ ∀ P, Stable P → Keeps P q) ∨
    ((a = .flush ∨ ∃ f, a = .close f) ∧ t'.mach = cacheFlush t.mach) ∨
    (a = .remount ∧ ∃ b, crfsInit t.mach = some (b, t'.mach)) := by
  have hnone : ∀ c : Machine, ∃ (α : Type) (q : FsM α), c = (q.exec c).2 ∧
      ∀ P, Stable P → Keeps P q :=
    fun _ => ⟨Unit, pure (), rfl, fun _ _ => Keeps.pure _⟩
  cases a with
  | create p =>
    cases h
    exact Or.inl ⟨_, _, rfl, fun _ hP => keeps_crfsCreate hP _⟩
  | mkdir p =>
    cases h
    exact Or.inl ⟨_, _, rfl, fun _ hP => keeps_crfsMkdir hP _⟩
  | remove p =>
    obtain ⟨e, -, he⟩ := Option.map_eq_some_iff.mp h
    cases he
    exact Or.inl ⟨_, crfsRemove p.name, rfl, fun _ hP => keeps_rmFile hP _ _⟩
  | rmdir p =>
    obtain ⟨e, -, he⟩ := Option.map_eq_some_iff.mp h
    cases he
    exact Or.inl ⟨_, crfsRmdir p.name, rfl, fun _ hP => keeps_rmFile hP _ _⟩
  | openFile f p =>
    rw [Session.step] at h
    split at h
    · cases h
      exact Or.inl ⟨_, crfsOpen p.name, rfl, fun _ _ => keeps_crfsOpen _⟩
    · cases h
      exact Or.inl ⟨_, crfsOpen p.name, rfl, fun _ _ => keeps_crfsOpen _⟩
  | read f size =>
    rw [Session.step] at h
    split at h
    · cases h
      exact Or.inl (hnone _)
    · rename_i fp _
      cases h
      exact Or.inl ⟨_, crfsRead fp size, rfl, fun _ _ σ hσ => by
        rw [readOnly_crfsRead fp size σ]
        exact hσ⟩
  | write f buf =>
    rw [Session.step] at h
    split at h
    · cases h
      exact Or.inl (hnone _)
    · cases h
      exact Or.inl ⟨_, _, rfl, fun _ hP => keeps_crfsWrite hP.block _ _⟩
  | close f =>
    rw [Session.step] at h
    split at h
    · cases h
      exact Or.inl (hnone _)
    · rename_i fp _
      cases h
      rw [crfsClose]
      split
      · exact Or.inl (hnone _)
      · exact Or.inr (Or.inl ⟨Or.inr ⟨f, rfl⟩, rfl⟩)
  | flush =>
    cases h
    exact Or.inr (Or.inl ⟨Or.inl rfl, rfl⟩)
  | remount =>
    obtain ⟨⟨b, c⟩, hc, he⟩ := Option.map_eq_some_iff.mp h
    cases he
    exact Or.inr (Or.inr ⟨rfl, b, hc⟩)

/-! ### Flushing -/

theorem cacheFlush_vol (h : c.store.Coherent) : (cacheFlush c).vol =
    ⟨apply c.vol.val (flushSuper c), fun _ => false, (cacheFlush c).glob⟩ := by
  have hd := cacheFlush_rd h
  change (⟨(cacheFlush c).store.rd, (cacheFlush c).store.isDirty, (cacheFlush c).glob⟩ : Vol) = _
  rw [hd]
  rfl

/-- The slots are blocks 0 and 16. -/
theorem slot_cases {w : Int} (h : w = 0 ∨ w = 1) :
    sbBlocknum (nextWhich w) = 0 ∨ sbBlocknum (nextWhich w) = 16 := by
  rcases h with rfl | rfl
  · exact Or.inr (by decide)
  · exact Or.inl (by decide)

theorem flush_val_ne (h : c.glob.crfsWhichSuper = 0 ∨ c.glob.crfsWhichSuper = 1) {b : BlockId}
    (h0 : b ≠ 0) (h16 : b ≠ 16) : apply c.vol.val (flushSuper c) b = c.vol.val b := by
  unfold flushSuper
  split
  · rfl
  · rw [apply_cons, apply_nil, Function.update_of_ne]
    rcases slot_cases h with hs | hs
    · rw [hs]
      exact h0
    · rw [hs]
      exact h16

theorem flush_super (c : Machine) : (cacheFlush c).glob.superBlock = c.glob.superBlock ∨
    (cacheFlush c).glob.superBlock = nextSuper c.glob.superBlock := by
  change (if c.store.cache = [] then _ else _) = _ ∨ (if c.store.cache = [] then _ else _) = _
  split
  · exact Or.inl rfl
  · exact Or.inr rfl

theorem flush_sbVtable (c : Machine) (k : Nat) :
    (cacheFlush c).glob.superBlock.sbVtable k = c.glob.superBlock.sbVtable k := by
  rcases flush_super c with h | h
  · rw [h]
  · rw [h, sbVtable_nextSuper]

theorem flush_sbRoot (c : Machine) :
    (cacheFlush c).glob.superBlock.sbRoot = c.glob.superBlock.sbRoot := by
  rcases flush_super c with h | h
  · rw [h]
  · rw [h, sbRoot_nextSuper]

/-- A flush leaves the blocks in use as they are. -/
theorem Inv.flush_agree (h : Inv c.vol s) (hc : c.store.Coherent)
    (hw : c.glob.crfsWhichSuper = 0 ∨ c.glob.crfsWhichSuper = 1) :
    Agree s c.vol.img (cacheFlush c).vol.img := by
  rw [Vol.img, Vol.img, cacheFlush_vol hc]
  refine agree_imgOf h.owned (funext fun k => flush_sbVtable c k) (flush_sbRoot c) ?_
  intro b hb _
  exact flush_val_ne hw (h.blocks.ne_zero hb) (h.blocks.ne_slot hb)

theorem Inv.flush (h : Inv c.vol s) (hc : c.store.Coherent)
    (hw : c.glob.crfsWhichSuper = 0 ∨ c.glob.crfsWhichSuper = 1) : Inv (cacheFlush c).vol s := by
  have hag := h.flush_agree hc hw
  refine ⟨hag.treed h.owned h.tree, hag.owned h.owned, ?_, h.inums, h.live, ?_⟩
  · exact ⟨Freemap.ok_flush (Freemap.ok_flush h.blocks.ok), h.blocks.limit, h.blocks.zero,
      h.blocks.slot, h.blocks.exact⟩
  · rw [hag.root]
    exact h.pwd

theorem Agree.exact {I I' : Img} (h : Agree s I I') (ho : Owned I s) (he : Exact I s) :
    Exact I' s := by
  refine ⟨he.num, he.held, ?_, fun k hk hne => he.tables k hk (by rwa [h.vt] at hne)⟩
  intro i hi hd
  rw [h.isDir hi] at hd
  obtain ⟨l, hl, hown⟩ := he.chain i hi hd
  refine ⟨l, ?_, hown⟩
  rw [h.ino i hi]
  refine ho.isChain_congr (ho.first i hi hd) ?_ hl
  intro b hb
  rw [h.file i b hb]

/-- A well-formed image stays one as long as the blocks in use do. -/
theorem WfImage.congr {v v' : BlockId → Block} {sb sb' : Block} (h : WfImage v sb s)
    (hvt : sb'.sbVtable = sb.sbVtable) (hroot : sb'.sbRoot = sb.sbRoot)
    (hsize : sb'.sbFssize = sb.sbFssize) (hv : ∀ b, s.own b ≠ none → v' b = v b) :
    WfImage v' sb' s := by
  have ha := agree_imgOf h.owned hvt hroot fun b hb _ => hv b hb
  have hcount : blockCount sb' = blockCount sb := by rw [blockCount, hsize, blockCount]
  exact ⟨ha.treed h.owned h.tree, ha.named h.owned h.named, ha.owned h.owned,
    ha.exact h.owned h.exact, by rw [hcount]; exact h.range, by rw [hcount]; exact h.slot,
    by rw [hcount]; exact h.count⟩

theorem Mounted.flush (h : Mounted c.vol s) (hc : c.store.Coherent)
    (hw : c.glob.crfsWhichSuper = 0 ∨ c.glob.crfsWhichSuper = 1) :
    Mounted (cacheFlush c).vol s :=
  ⟨h.inv.flush hc hw, (h.inv.flush_agree hc hw).named h.inv.owned h.named,
    (h.inv.flush_agree hc hw).exact h.inv.owned h.exact⟩

/-! ### Creating and removing -/

/-- A new entry in the table range keeps every number accounted for. -/
theorem Linked.exact (hl : Linked σ s d nm x τ s') (h : Inv σ s) (he : Exact σ.img s)
    (hx : x.toNat < 4096) : Exact τ.img s' := by
  obtain ⟨k, hent⟩ := hl.entered
  refine ⟨?_, ?_, ?_, ?_⟩
  · intro i
    rw [hl.num, hl.live]
    simp only [he.num]
  · intro b hb
    exact he.held b (hl.held b hb)
  · intro i hi hdi
    rw [hl.live] at hi
    rcases hi with hi | rfl
    · have hdi' : σ.img.isDir i = false := by rw [← hent.dirs i hi]; exact hdi
      have hne : i ≠ d := by
        rintro rfl
        rw [hent.isDir] at hdi'
        cases hdi'
      obtain ⟨l, hl', hown⟩ := he.chain i hi hdi'
      refine ⟨l, ?_, fun b => by rw [hl.ownFile, hown]⟩
      rw [hl.ino i hi hne]
      refine h.owned.isChain_congr (h.owned.first i hi hdi') ?_ hl'
      intro b hb
      exact congrArg Block.fbNext (hl.valFile i b hb)
    · refine ⟨[], hl.newFirst hdi, fun b => ?_⟩
      rw [hl.ownFile]
      constructor
      · intro hb
        exact absurd ((he.num i).mpr (h.owned.ownFile i b hb).1) hl.unused
      · intro hb
        cases hb
  · intro k hk hne
    rcases hl.tabs k hne with hv | ⟨i, hi, rfl⟩
    · exact he.tables k hk hv
    · rw [hl.num] at hi
      rcases hi with hi | rfl
      · exact he.tables _ hk (h.owned.table i ((he.num i).mp hi))
      · simp only [crfsSbVtableLen]
        omega

theorem Mounted.linked (h : Mounted σ s) (hl : Linked σ s d nm x τ s') (hnm : nm ≠ [])
    (hx : x.toNat < 4096) : Mounted τ s' := by
  obtain ⟨k, he⟩ := hl.entered
  refine ⟨hl.inv, ?_, hl.exact h.inv h.exact hx⟩
  rw [hl.live]
  exact h.named.link he hnm

theorem Mounted.removed (h : Mounted σ s) (hr : Removed σ s d k j τ s') : Mounted τ s' := by
  have hvt : τ.img.vt = σ.img.vt := by
    change τ.glob.superBlock.sbVtable = σ.glob.superBlock.sbVtable
    rw [hr.super]
  refine ⟨hr.inv, hr.named, ?_, ?_, ?_, ?_⟩
  · intro i
    rw [hr.num, hr.live]
    simp only [h.exact.num]
  · intro b hb
    refine h.exact.held b (hr.held ?_ b hb)
    intro i hi b hb
    obtain ⟨l, hl, hown⟩ := h.exact.chain i hi (h.inv.owned.ownFile i b hb).2.1
    exact (IsChain.onChain_iff hl).mpr ((hown b).mp hb)
  · intro i hi hdi
    rw [hr.live] at hi
    obtain ⟨hi, hnd⟩ := hi
    have hdi' : σ.img.isDir i = false := by rw [← hr.erased.dirs i hi]; exact hdi
    obtain ⟨l, hl, hown⟩ := h.exact.chain i hi hdi'
    refine ⟨l, ?_, ?_⟩
    · rw [hr.ino i (h.inv.owned.table i hi)]
      refine h.inv.owned.isChain_congr (h.inv.owned.first i hi hdi') ?_ hl
      intro b hb
      have hne : b ≠ (σ.img.ino d).inFirst := by
        rintro rfl
        rw [h.inv.owned.dirBlock hr.erased.dir hr.erased.isDir] at hb
        cases hb
      change (τ.val b).fbNext = (σ.val b).fbNext
      rw [hr.val, Function.update_of_ne hne]
    · intro b
      rw [hr.owner b _ (by simp), hown]
      constructor
      · exact fun hb => hb.1
      · refine fun hb => ⟨hb, ?_⟩
        intro i' hi'
        cases hi'
        exact hnd
  · intro k hk hne
    rw [hvt] at hne
    exact h.exact.tables k hk hne

/-- On a mounted volume the walks of `rm_file` end. -/
theorem Mounted.rmFile_cases (h : Mounted σ s) {fname : Name} (hz : (0 : UInt8) ∉ fname)
    (doDirs : Bool) :
    (∃ e, (rmFile fname doDirs).eval σ = (some (.error e), σ)) ∨
    ∃ (d : InodeId) (nm : Name) (k : Nat) (j : InodeId) (τ : Vol) (s' : Shape),
      Target σ s fname d nm k j ∧ (rmFile fname doDirs).eval σ = (some (.ok ()), τ) ∧
        Removed σ s d k j τ s' ∧ Mounted τ s' := by
  have hret := rmFile_returns h.inv h.named hz (fun i hi hd => by
    obtain ⟨l, hl, -⟩ := h.exact.chain i hi hd
    exact ⟨l, hl, nodup_inums_length hl.nodup⟩) doDirs
  rcases Crfs.rmFile_cases h.inv h.named hz doDirs with he | ⟨d, nm, k, j, ht, ⟨-, hu⟩ | hu⟩
  · exact Or.inl he
  · exact absurd hu hret
  · obtain ⟨τ, s', he, hr⟩ := hu
    exact Or.inr ⟨d, nm, k, j, τ, s', ht, he, hr, h.removed hr⟩

/-! ### A small device -/

/-- The path "a". -/
def pathA : Path := ⟨[97], by decide⟩

/-- A device of 24 blocks. -/
theorem goodSize_small : GoodSize 98304 3 := ⟨by decide, by decide, by decide⟩

/-- The session of a program that formats such a device and mounts it. -/
theorem fresh_session : ∃ c : Machine,
    crfsInit (crfsMkfs 98304 (boot fun _ => zeroBlock)) = some (true, c) ∧
      c.vol = freshVol 98304 3 (fun _ => zeroBlock) ∧ Mounted c.vol mkfsShape ∧
      c.store.Coherent := by
  obtain ⟨c, hc, hv, hm, hcoh, -⟩ := mkfs_init_vol goodSize_small fun _ => zeroBlock
  exact ⟨c, hc, hv, hm, hcoh⟩

/-- Its volume once the program has created "a". -/
def createdVol : Vol := ((crfsCreate pathA.name).eval (freshVol 98304 3 fun _ => zeroBlock)).2

theorem createdVol_mounted : ∃ s, Mounted createdVol s ∧ s.live 2 := by
  obtain ⟨c, -, hv, hm, -⟩ := fresh_session
  rw [hv] at hm
  have hfull : ¬ createdVol.glob.Full := by
    intro hf
    rcases hf with hf | hf
    · exact absurd hf (by decide +kernel)
    · exact absurd hf (by decide +kernel)
  rcases crfsCreate_spec hm.inv pathA.nul hfull with ⟨e, he⟩ |
    ⟨d, nm, k, x, τ, s', he, -, hnm, hl, -, m', ht⟩
  · have hok : ((crfsCreate pathA.name).eval (freshVol 98304 3 fun _ => zeroBlock)).1 = .ok () := by
      decide +kernel
    rw [he] at hok
    cases hok
  · have hτ : createdVol = τ := congrArg Prod.snd he
    have hle : x.toNat ≤ 2 := by
      by_contra hlt
      have hb := ht.least 2 (by omega)
      exact absurd hb (by decide +kernel)
    have hx : x = 2 := by
      have h0 : x.toNat ≠ 0 := by
        intro h0
        have hfree := ht.free
        rw [h0] at hfree
        exact absurd hfree (by decide +kernel)
      have h1 : x.toNat ≠ 1 := by
        intro h1
        have hfree := ht.free
        rw [h1] at hfree
        exact absurd hfree (by decide +kernel)
      exact UInt16.toNat_inj.mp (show x.toNat = 2 by omega)
    refine ⟨s', ?_, ?_⟩
    · rw [hτ]
      exact hm.linked hl hnm (by omega)
    · rw [hl.live]
      exact Or.inr hx.symm

end Crfs
