import CobaltRom.Crfs.Dir

/-! Facts about the globals that no file operation can change. -/
namespace Crfs
open WriteBack WriteBack.Prog

/-- `P` survives every change a file operation makes to the globals. -/
structure Stable (P : Globals → Prop) : Prop where
  nextBlock : ∀ g, P g → P { g with blockFreemap := (freemapNext g.blockFreemap).2 }
  nextInode : ∀ g, P g → P { g with inodeFreemap := (freemapNext g.inodeFreemap).2 }
  unmarkBlock : ∀ g k, P g → P { g with blockFreemap := freemapUnmark g.blockFreemap k }
  unmarkInum : ∀ g k, P g → P { g with inodeFreemap := freemapUnmark g.inodeFreemap k }
  vtable : ∀ g k b, P g → P { g with superBlock := g.superBlock.setSbVtable k b }

/-- `P` survives the changes of an operation that leaves the inode map alone. -/
structure BlockStable (P : Globals → Prop) : Prop where
  nextBlock : ∀ g, P g → P { g with blockFreemap := (freemapNext g.blockFreemap).2 }
  unmarkBlock : ∀ g k, P g → P { g with blockFreemap := freemapUnmark g.blockFreemap k }
  vtable : ∀ g k b, P g → P { g with superBlock := g.superBlock.setSbVtable k b }

variable {P : Globals → Prop} {α : Type}

theorem Stable.block (h : Stable P) : BlockStable P := ⟨h.nextBlock, h.unmarkBlock, h.vtable⟩

section
variable (h : BlockStable P)
include h

theorem keeps_nextBlock : Keeps P nextBlock := by
  intro σ hσ
  exact h.nextBlock _ hσ

theorem keeps_unmarkBlock (b : BlockId) : Keeps P (unmarkBlock b) :=
  Keeps.modify fun g => h.unmarkBlock g _

theorem keeps_setItableBlocknum (i : InodeId) (b : BlockId) : Keeps P (setItableBlocknum i b) :=
  Keeps.modify fun g => h.vtable g _ _

omit h in
theorem keeps_crfsLookupInode (i : InodeId) : Keeps P (crfsLookupInode i) :=
  fun _ hσ => hσ

theorem keeps_crfsWriteInode (y : Inode) : Keeps P (crfsWriteInode y) := by
  refine Keeps.getGlob.bind fun g => Keeps.ite ?_ ?_
  · refine (keeps_nextBlock h).bind fun tmp => Keeps.ite (Keeps.pure _) ?_
    exact (keeps_setItableBlocknum h _ _).bind fun _ => (Keeps.writeAt _ _).bind fun _ =>
      Keeps.pure _
  · refine (Keeps.readAt _).bind fun it => (Keeps.dirtyAt _).bind fun dirty => Keeps.ite ?_ ?_
    · exact (Keeps.writeAt _ _).bind fun _ => Keeps.pure _
    · refine (keeps_nextBlock h).bind fun tmp => Keeps.ite (Keeps.pure _) ?_
      exact (keeps_unmarkBlock h _).bind fun _ => (keeps_setItableBlocknum h _ _).bind fun _ =>
        (Keeps.writeAt _ _).bind fun _ => Keeps.pure _

omit h in
theorem keeps_nameiScan (rest : Name) : ∀ (inode : Inode) (comp : Name),
    Keeps P (nameiScan inode comp rest) := by
  induction rest with
  | nil => exact fun _ _ => Keeps.pure _
  | cons c rest ih =>
    intro inode comp
    refine Keeps.ite (ih _ _) (Keeps.ite (ih _ _) ((Keeps.readAt _).bind fun d => ?_))
    split
    · exact Keeps.pure _
    · exact Keeps.ite (Keeps.pure _) ((keeps_crfsLookupInode _).bind fun _ =>
        Keeps.ite (Keeps.pure _) (ih _ _))

omit h in
theorem keeps_crfsNamei (fname : Name) : Keeps P (crfsNamei fname) :=
  Keeps.getGlob.bind fun _ => Keeps.ite
    ((keeps_crfsLookupInode _).bind fun _ => keeps_nameiScan _ _ _)
    ((keeps_crfsLookupInode _).bind fun _ => keeps_nameiScan _ _ _)

omit h in
theorem keeps_inodeLookupFromNamei (dirnode : Inode) (fname : Name) :
    Keeps P (inodeLookupFromNamei dirnode fname) := by
  refine Keeps.ite (Keeps.pure _) ((Keeps.readAt _).bind fun d => ?_)
  split
  · exact Keeps.pure _
  · exact keeps_crfsLookupInode _

omit h in
theorem keeps_isDir (dirnode : Inode) (fname : Name) : Keeps P (isDir dirnode fname) :=
  (keeps_inodeLookupFromNamei _ _).bind fun _ => Keeps.pure _

theorem keeps_moveDirent (dirnode : Inode) (d : Block) (slot : Nat) (inum : InodeId)
    (fname : Name) (b : BlockId) : Keeps P (moveDirent dirnode d slot inum fname b) := by
  refine (keeps_unmarkBlock h _).bind fun _ => (keeps_crfsWriteInode h _).bind fun r => ?_
  cases r with
  | error e => exact Keeps.pure _
  | ok _ => exact (Keeps.writeAt _ _).bind fun _ => Keeps.pure _

theorem keeps_linkDirent (dirnode : Inode) (d : Block) (slot : Nat) (inum : InodeId)
    (fname : Name) : Keeps P (linkDirent dirnode d slot inum fname) := by
  refine (Keeps.dirtyAt _).bind fun dirty => Keeps.ite ?_ ?_
  · exact (Keeps.writeAt _ _).bind fun _ => Keeps.pure _
  · exact (keeps_nextBlock h).bind fun tmp => keeps_moveDirent h _ _ _ _ _ _

theorem keeps_createInum (fname : Name) (dirnode : Inode) (d : Block) (i : Nat) (inum : Int) :
    Keeps P (createInum fname dirnode d i inum) := by
  refine (keeps_crfsWriteInode h _).bind fun r => ?_
  cases r with
  | error e => exact Keeps.pure _
  | ok _ => exact keeps_linkDirent h _ _ _ _ _

theorem keeps_mkdirInum (path : Name) (dirnode : Inode) (d : Block) (i : Nat)
    (inum blocknum : Int) : Keeps P (mkdirInum path dirnode d i inum blocknum) := by
  refine (Keeps.writeAt _ _).bind fun _ => (keeps_crfsWriteInode h _).bind fun r => ?_
  cases r with
  | error e => exact Keeps.pure _
  | ok _ => exact keeps_linkDirent h _ _ _ _ _

omit h in
theorem keeps_forEach {β : Type} (f : β → FsM (Option Unit)) (hf : ∀ a, Keeps P (f a))
    (l : List β) : Keeps P (forEach f l) := by
  induction l with
  | nil => exact Keeps.pure _
  | cons a l ih =>
    refine (hf a).bind fun r => ?_
    cases r with
    | none => exact Keeps.pure _
    | some _ => exact ih

theorem keeps_unmarkChain (fuel : Nat) : ∀ b, Keeps P (unmarkChain fuel b) := by
  induction fuel with
  | zero => exact fun _ => Keeps.pure _
  | succ fuel ih =>
    exact fun b => Keeps.ite (Keeps.pure _) ((keeps_unmarkBlock h _).bind fun _ =>
      (Keeps.readAt _).bind fun _ => ih _)

omit h in
theorem keeps_clearEntry (b : BlockId) (d : Block) (fname : Name) :
    Keeps P (clearEntry b d fname) := by
  unfold clearEntry
  split
  · exact Keeps.pure _
  · exact Keeps.writeAt _ _

omit h in
theorem keeps_crfsOpen (fname : Name) : Keeps P (crfsOpen fname) := by
  refine (keeps_crfsNamei _).bind fun r => ?_
  rcases r with e | r
  · exact Keeps.pure _
  refine Keeps.ite (Keeps.pure _) ((keeps_isDir _ _).bind fun dir => Keeps.ite (Keeps.pure _)
    ((Keeps.readAt _).bind fun d => ?_))
  split
  · exact Keeps.pure _
  · exact (keeps_crfsLookupInode _).bind fun inode => Keeps.ite
      ((Keeps.readAt _).bind fun _ => Keeps.pure _) (Keeps.pure _)

theorem keeps_appendFblock (fp : CoFile) : Keeps P (appendFblock fp) := by
  refine (keeps_nextBlock h).bind fun tmp => Keeps.ite (Keeps.pure _)
    ((keeps_crfsLookupInode _).bind fun inode => Keeps.ite ?_ ?_)
  · exact (Keeps.writeAt _ _).bind fun _ => (Keeps.writeAt _ _).bind fun _ =>
      (keeps_crfsWriteInode h _).bind fun _ => Keeps.pure _
  · exact (Keeps.writeAt _ _).bind fun _ => (keeps_crfsWriteInode h _).bind fun _ => Keeps.pure _

omit h in
theorem keeps_nextFblock (fp : CoFile) : Keeps P (nextFblock fp) :=
  Keeps.ite ((Keeps.readAt _).bind fun _ => Keeps.pure _) (Keeps.pure _)

theorem keeps_writeStep (fp : CoFile) (fboff : Nat) (buf : List UInt8) (nwrote : Nat) :
    Keeps P (writeStep fp fboff buf nwrote) := by
  refine (Keeps.writeAt _ _).bind fun _ => Keeps.ite (Keeps.pure _)
    ((keeps_nextFblock _).bind fun r => ?_)
  cases r with
  | some fp => exact Keeps.pure _
  | none =>
    refine (keeps_appendFblock h _).bind fun r => ?_
    obtain ⟨r, fp⟩ := r
    cases r with
    | error e => exact Keeps.pure _
    | ok _ => exact Keeps.pure _

theorem keeps_writeBlocks (fuel : Nat) : ∀ w, Keeps P (writeBlocks fuel w) := by
  induction fuel with
  | zero => exact fun _ => Keeps.pure _
  | succ fuel ih =>
    intro w
    unfold writeBlocks
    split
    · exact Keeps.pure _
    · exact Keeps.ite ((keeps_writeStep h _ _ _ _).bind fun w => ih w) (Keeps.pure _)

theorem keeps_writeTail (w : WriteState) (fboff : Nat) : Keeps P (writeTail w fboff) :=
  (Keeps.writeAt _ _).bind fun _ => (keeps_crfsLookupInode _).bind fun _ =>
    Keeps.ite ((keeps_crfsWriteInode h _).bind fun _ => Keeps.pure _) (Keeps.pure _)

theorem keeps_writeData (fp : CoFile) (buf : List UInt8) : Keeps P (writeData fp buf) :=
  Keeps.ite ((keeps_writeStep h _ _ _ _).bind fun _ => (keeps_writeBlocks h _ _).bind fun _ =>
    keeps_writeTail h _ _) (keeps_writeTail h _ _)

theorem keeps_crfsWrite (fp : CoFile) (buf : List UInt8) : Keeps P (crfsWrite fp buf) := by
  refine Keeps.ite (Keeps.pure _) (Keeps.ite ((keeps_appendFblock h _).bind fun r => ?_)
    (keeps_writeData h _ _))
  obtain ⟨r, fp⟩ := r
  cases r with
  | error e => exact Keeps.pure _
  | ok _ => exact keeps_writeData h _ _

end

section
variable (h : Stable P)
include h

theorem keeps_nextInode : Keeps P nextInode := by
  intro σ hσ
  exact h.nextInode _ hσ

theorem keeps_unmarkInum (i : InodeId) : Keeps P (unmarkInum i) :=
  Keeps.modify fun g => h.unmarkInum g _

theorem keeps_crfsCreate (fname : Name) : Keeps P (crfsCreate fname) := by
  refine (keeps_crfsNamei _).bind fun r => ?_
  rcases r with e | r
  · exact Keeps.pure _
  refine Keeps.ite (Keeps.pure _) ((keeps_isDir _ _).bind fun dir => Keeps.ite (Keeps.pure _) ?_)
  refine (Keeps.readAt _).bind fun d => Keeps.ite (Keeps.pure _) ?_
  split
  · exact Keeps.pure _
  · exact (keeps_nextInode h).bind fun inum => keeps_createInum h.block _ _ _ _ _

theorem keeps_crfsMkdir (path : Name) : Keeps P (crfsMkdir path) := by
  refine (keeps_crfsNamei _).bind fun r => ?_
  rcases r with e | r
  · exact Keeps.pure _
  refine Keeps.ite (Keeps.pure _) ((Keeps.readAt _).bind fun d => Keeps.ite (Keeps.pure _) ?_)
  split
  · exact Keeps.pure _
  · exact (keeps_nextInode h).bind fun inum => (keeps_nextBlock h.block).bind fun blocknum =>
      keeps_mkdirInum h.block _ _ _ _ _ _

theorem keeps_unmarkInode (fuel : Nat) : ∀ i, Keeps P (unmarkInode fuel i) := by
  induction fuel with
  | zero => exact fun _ => Keeps.pure _
  | succ fuel ih =>
    refine fun i => (keeps_unmarkInum h _).bind fun _ => (keeps_crfsLookupInode _).bind fun inn =>
      Keeps.ite ?_ (keeps_unmarkChain h.block _ _)
    exact (keeps_unmarkBlock h.block _).bind fun _ => (Keeps.readAt _).bind fun d =>
      keeps_forEach _ (fun de => Keeps.ite (ih _) (Keeps.pure _)) _

theorem keeps_rmFile (fname : Name) (doDirs : Bool) : Keeps P (rmFile fname doDirs) := by
  refine (keeps_crfsNamei _).bind fun r => ?_
  rcases r with e | r
  · exact Keeps.pure _
  refine Keeps.ite (Keeps.pure _) ((keeps_isDir _ _).bind fun dir => Keeps.ite (Keeps.pure _)
    (Keeps.ite (Keeps.pure _) ((Keeps.readAt _).bind fun d => ?_)))
  split
  · exact Keeps.pure _
  · refine (keeps_clearEntry _ _ _).bind fun _ => (keeps_unmarkInode h _ _).bind fun r => ?_
    cases r with
    | none => exact Keeps.pure _
    | some _ => exact Keeps.pure _

end

/-- Once a map has been found full it stays marked so. -/
theorem freemapScan_full (fuel : Nat) : ∀ (m : Freemap) (i : Nat), m.fmFull = true →
    (freemapScan m fuel i).2.fmFull = true := by
  induction fuel with
  | zero => intro m i h; rfl
  | succ fuel ih =>
    intro m i h
    simp only [freemapScan]
    split
    · split
      · exact h
      · exact ih m (i + 1) h
    · exact ih _ (i + 1) h

/-- A search for a free block or inode has failed. -/
def Globals.Full (g : Globals) : Prop :=
  g.blockFreemap.fmFull = true ∨ g.inodeFreemap.fmFull = true

/-- A store went behind the end of a map. -/
def Globals.Stray (g : Globals) : Prop :=
  g.blockFreemap.fmStray = true ∨ g.inodeFreemap.fmStray = true

theorem stable_full : Stable Globals.Full := by
  refine ⟨?_, ?_, ?_, ?_, ?_⟩
  · exact fun g h => h.imp_left (freemapScan_full _ _ _)
  · exact fun g h => h.imp_right (freemapScan_full _ _ _)
  · exact fun g k h => h
  · exact fun g k h => h
  · exact fun g k b h => h

/-- The parts of the globals that only mounting and flushing change. -/
structure SameSuper (g g' : Globals) : Prop where
  which : g'.crfsWhichSuper = g.crfsWhichSuper
  pwd : g'.crfsPwd = g.crfsPwd
  root : g'.superBlock.sbRoot = g.superBlock.sbRoot
  fssize : g'.superBlock.sbFssize = g.superBlock.sbFssize
  blockver : g'.superBlock.sbBlockver = g.superBlock.sbBlockver
  magic : g'.superBlock.magicOk = g.superBlock.magicOk

theorem SameSuper.refl (g : Globals) : SameSuper g g := ⟨rfl, rfl, rfl, rfl, rfl, rfl⟩

theorem SameSuper.trans {g g' g'' : Globals} (h : SameSuper g g') (h' : SameSuper g' g'') :
    SameSuper g g'' :=
  ⟨h'.which.trans h.which, h'.pwd.trans h.pwd, h'.root.trans h.root, h'.fssize.trans h.fssize,
    h'.blockver.trans h.blockver, h'.magic.trans h.magic⟩

theorem stable_sameSuper (g₀ : Globals) : Stable (SameSuper g₀) := by
  refine ⟨?_, ?_, ?_, ?_, ?_⟩
  · exact fun g h => h.trans ⟨rfl, rfl, rfl, rfl, rfl, rfl⟩
  · exact fun g h => h.trans ⟨rfl, rfl, rfl, rfl, rfl, rfl⟩
  · exact fun g k h => h.trans ⟨rfl, rfl, rfl, rfl, rfl, rfl⟩
  · exact fun g k h => h.trans ⟨rfl, rfl, rfl, rfl, rfl, rfl⟩
  · exact fun g k b h => h.trans ⟨rfl, rfl, Block.sbRoot_setSbVtable _ _ _,
      Block.sbFssize_setSbVtable _ _ _, Block.sbBlockver_setSbVtable _ _ _,
      Block.magicOk_put (by omega) _⟩

end Crfs
