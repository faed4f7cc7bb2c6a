import CobaltRom.Crfs.RmFile
import CobaltRom.Crfs.Write

/-! Opening and reading files, and the bytes of a chain of file blocks. -/
namespace Crfs
open WriteBack SlotTree

variable {σ τ : Vol} {s : Shape} {fp : CoFile} {fname nm : Name} {d j : InodeId} {a : BlockId}
  {pre post l : List BlockId} {val val' : BlockId → Block}

/-! ### Opening -/

/-- The handle `crfs_open` returns for an inode. -/
def openHandle (σ : Vol) (i : InodeId) : CoFile :=
  ⟨coFileMagic, i, (σ.img.ino i).inFirst, 0, false,
    if (σ.img.ino i).inFirst ≠ 0 then σ.val (σ.img.ino i).inFirst else zeroBlock⟩

/-- `fname` leads to the entry of file `j`. -/
structure Named.File (σ : Vol) (s : Shape) (fname : Name) (d : InodeId) (nm : Name) (j : InodeId) :
    Prop where
  namei : σ.img.namei σ.glob.crfsPwd fname = .ok (nm, d)
  live : s.live d
  isDir : σ.img.isDir d = true
  ent : ∃ k, k < 64 ∧ (σ.img.ent d k).deInode = j ∧ (σ.img.ent d k).name = nm
  liveFile : s.live j
  file : σ.img.isDir j = false

/-- `crfs_open` changes nothing; it fails or returns a handle at the start of a file. -/
theorem crfsOpen_cases (h : Inv σ s) (hz : (0 : UInt8) ∉ fname) :
    (∃ e, (crfsOpen fname).eval σ = (.error e, σ)) ∨
    ∃ d nm j, Named.File σ s fname d nm j ∧
      (crfsOpen fname).eval σ = (.ok (openHandle σ j), σ) := by
  unfold crfsOpen
  rw [Prog.eval_bind, crfsNamei_eval]
  cases hr : σ.img.namei σ.glob.crfsPwd fname with
  | error e => exact Or.inl ⟨e, rfl⟩
  | ok r =>
    obtain ⟨nm, d⟩ := r
    obtain ⟨hd, hdir, -, -⟩ := h.namei hz hr
    simp only [Except.map, Prog.eval_ite]
    by_cases hlen : nm.length > crfsFilenameMax
    · rw [if_pos hlen]
      exact Or.inl ⟨_, rfl⟩
    rw [if_neg hlen, Prog.eval_bind, isDir_eval]
    by_cases hnode : (σ.img.nodeAt d nm).isDir = true
    · rw [if_pos hnode]
      exact Or.inl ⟨_, rfl⟩
    · rw [if_neg hnode, Prog.eval_bind, crfsReadBlock_eval]
      cases hl : crfsLookupDirent (σ.val (σ.img.ino d).inFirst) nm with
      | none => exact Or.inl ⟨_, rfl⟩
      | some de =>
        have hne : nm ≠ [] := by
          intro hn
          rw [Img.nodeAt, if_pos hn] at hnode
          exact hnode hdir
        have hfile : σ.img.isDir de.deInode = false := by
          rw [Img.nodeAt, if_neg hne, Vol.img_val, hl] at hnode
          exact Bool.of_not_eq_true hnode
        obtain ⟨-, hname, h0, k, hk, hde⟩ := crfsLookupDirent_some hl
        have hjl : s.live de.deInode := by
          subst hde
          exact h.tree.ent_live hd hdir hk h0
        refine Or.inr ⟨d, nm, de.deInode, ⟨hr, hd, hdir, ⟨k, hk, ?_, ?_⟩, hjl, hfile⟩, ?_⟩
        · exact congrArg Dirent.deInode hde
        · exact (congrArg Dirent.name hde).trans hname
        · have hnum := (h.tree.inum _ hjl).2
          simp only [Prog.eval_bind, crfsLookupInode_eval, openHandle]
          by_cases hf : (σ.img.ino de.deInode).inFirst ≠ 0
          · simp only [if_pos hf, Prog.eval_bind, crfsReadBlock_eval, Prog.eval_pure, hnum]
          · simp only [if_neg hf, Prog.eval_pure, hnum]

theorem zeroBlock_fbNext : zeroBlock.fbNext = 0 := by decide

/-- A fresh handle is one of the file. -/
theorem Inv.openHandle (h : Inv σ s) (hj : s.live j) (hf : σ.img.isDir j = false) :
    Handle σ s (openHandle σ j) := by
  have hfst := h.owned.first j hj hf
  refine ⟨rfl, hj, hf, hfst, ?_⟩
  unfold Crfs.openHandle
  dsimp only
  split
  · rename_i h0
    exact (h.owned.ownFile j _ (hfst.resolve_left h0)).2.2
  · exact Or.inl zeroBlock_fbNext

/-! ### Routines that only read -/

open WriteBack.Prog in
section

theorem readOnly_crfsNamei (fname : Name) : ReadOnly (crfsNamei fname) := by
  intro σ
  rw [crfsNamei_eval]

theorem readOnly_inodeLookupFromNamei (y : Inode) (fname : Name) :
    ReadOnly (inodeLookupFromNamei y fname) := by
  refine ReadOnly.ite (ReadOnly.pure _) ((ReadOnly.readAt _).bind fun d => ?_)
  split
  · exact ReadOnly.pure _
  · exact fun _ => rfl

theorem readOnly_nextFblock (fp : CoFile) : ReadOnly (nextFblock fp) :=
  ReadOnly.ite ((ReadOnly.readAt _).bind fun _ => ReadOnly.pure _) (ReadOnly.pure _)

theorem readOnly_readStep (fp : CoFile) (fboff size : Nat) (out : List UInt8) :
    ReadOnly (readStep fp fboff size out) := by
  refine (readOnly_nextFblock _).bind fun r => ?_
  cases r with
  | none => exact ReadOnly.pure _
  | some fp => exact ReadOnly.pure _

theorem readOnly_readBlocks (fuel : Nat) : ∀ r, ReadOnly (readBlocks fuel r) := by
  induction fuel with
  | zero => exact fun _ => ReadOnly.pure _
  | succ fuel ih =>
    exact fun r => ReadOnly.ite ((readOnly_readStep _ _ _ _).bind fun r => ih r) (ReadOnly.pure _)

theorem readOnly_crfsRead (fp : CoFile) (size : Nat) : ReadOnly (crfsRead fp size) := by
  refine ReadOnly.ite (ReadOnly.pure _) (ReadOnly.bind (fun _ => rfl) fun inode =>
    ReadOnly.ite (ReadOnly.pure _)
    (ReadOnly.ite (ReadOnly.pure _) (ReadOnly.ite ?_ (ReadOnly.pure _))))
  exact (readOnly_readStep _ _ _ _).bind fun r => (readOnly_readBlocks _ _).bind fun r =>
    ReadOnly.ite (ReadOnly.pure _) (ReadOnly.pure _)

theorem readOnly_crfsStat (fname : Name) : ReadOnly (crfsStat fname) := by
  refine (readOnly_crfsNamei _).bind fun r => ?_
  rcases r with e | r
  · exact ReadOnly.pure _
  refine ReadOnly.ite (ReadOnly.pure _) ((ReadOnly.readAt _).bind fun d => ?_)
  split
  · exact ReadOnly.pure _
  · exact ReadOnly.bind (fun _ => rfl) fun _ => ReadOnly.pure _

theorem readOnly_crfsOpen (fname : Name) : ReadOnly (crfsOpen fname) := by
  refine (readOnly_crfsNamei _).bind fun r => ?_
  rcases r with e | r
  · exact ReadOnly.pure _
  refine ReadOnly.ite (ReadOnly.pure _) (((readOnly_inodeLookupFromNamei _ _).bind fun _ =>
    ReadOnly.pure _).bind fun dir => ReadOnly.ite (ReadOnly.pure _)
    ((ReadOnly.readAt _).bind fun d => ?_))
  split
  · exact ReadOnly.pure _
  · exact ReadOnly.bind (fun _ => rfl) fun inode => ReadOnly.ite
      ((ReadOnly.readAt _).bind fun _ => ReadOnly.pure _) (ReadOnly.pure _)

theorem readOnly_crfsOpendir (dname : Name) : ReadOnly (crfsOpendir dname) := by
  refine (readOnly_crfsNamei _).bind fun r => ?_
  rcases r with e | r
  · exact ReadOnly.pure _
  exact ReadOnly.ite (ReadOnly.pure _) ((readOnly_inodeLookupFromNamei _ _).bind fun _ =>
    ReadOnly.ite (ReadOnly.pure _) (ReadOnly.pure _))

theorem readOnly_crfsReaddir (dir : CoDir) : ReadOnly (crfsReaddir dir) := by
  refine ReadOnly.ite (ReadOnly.pure _) (ReadOnly.bind (fun _ => rfl) fun inode =>
    (ReadOnly.readAt _).bind fun d => ?_)
  split
  · exact ReadOnly.pure _
  · exact ReadOnly.pure _

end

end Crfs
