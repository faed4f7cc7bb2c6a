import CobaltRom.Crfs.Read

/-! A path is looked up in the directories only. -/
namespace Crfs
open WriteBack

/-- Two images with the same directories. -/
structure SameDirs (live : InodeId → Prop) (I I' : Img) : Prop where
  root : I'.root = I.root
  dir : ∀ d, live d → I.isDir d = true → I'.val (I'.ino d).inFirst = I.val (I.ino d).inFirst
  mask : ∀ i, live i → I'.isDir i = I.isDir i
  inum : ∀ i, live i → (I'.ino i).inInode = (I.ino i).inInode

/-- What `crfs_open` looks up: the number of the file. -/
def Img.opened (I : Img) (pwd : InodeId) (fname : Name) : Except Errno InodeId :=
  match I.namei pwd fname with
  | .error e => .error e
  | .ok (nm, d) =>
    if nm.length > crfsFilenameMax then .error .ENAMETOOLONG
    else if (I.nodeAt d nm).isDir = true then .error .EISDIR
    else
      match crfsLookupDirent (I.val (I.ino d).inFirst) nm with
      | none => .error .ENOENT
      | some de => .ok de.deInode

variable {σ τ : Vol} {s s' : Shape} {I I' : Img} {live : InodeId → Prop}
  {d i pwd : InodeId} {de : Dirent}
  {fname nm comp rest : Name}

theorem crfsOpen_eval (h : Inv σ s) (hz : (0 : UInt8) ∉ fname) : (crfsOpen fname).eval σ =
    ((σ.img.opened σ.glob.crfsPwd fname).map (openHandle σ), σ) := by
  unfold crfsOpen Img.opened
  rw [Prog.eval_bind, crfsNamei_eval]
  cases hr : σ.img.namei σ.glob.crfsPwd fname with
  | error e => rfl
  | ok r =>
    obtain ⟨nm, d⟩ := r
    obtain ⟨hd, hdir, -, -⟩ := h.namei hz hr
    simp only [Except.map, Prog.eval_ite]
    by_cases hlen : nm.length > crfsFilenameMax
    · rw [if_pos hlen, if_pos hlen]
      rfl
    rw [if_neg hlen, if_neg hlen, Prog.eval_bind, isDir_eval]
    by_cases hnode : (σ.img.nodeAt d nm).isDir = true
    · rw [if_pos hnode, if_pos hnode]
      rfl
    rw [if_neg hnode, if_neg hnode, Prog.eval_bind, crfsReadBlock_eval, Vol.img_val]
    cases hl : crfsLookupDirent (σ.val (σ.img.ino d).inFirst) nm with
    | none => rfl
    | some de =>
      obtain ⟨-, -, h0, k, hk, hde⟩ := crfsLookupDirent_some hl
      have hjl : s.live de.deInode := by
        subst hde
        exact h.tree.ent_live hd hdir hk h0
      have hnum := (h.tree.inum _ hjl).2
      simp only [Prog.eval_bind, crfsLookupInode_eval, openHandle]
      by_cases hf : (σ.img.ino de.deInode).inFirst ≠ 0
      · simp only [if_pos hf, Prog.eval_bind, crfsReadBlock_eval, Prog.eval_pure, hnum]
      · simp only [if_neg hf, Prog.eval_pure, hnum]

/-- Whatever a lookup in a directory of the tree finds is in the tree. -/
theorem Treed.lookup_live (h : Treed I live) (hd : live d) (hdir : I.isDir d = true)
    (hl : crfsLookupDirent (I.val (I.ino d).inFirst) nm = some de) :
    live de.deInode ∧ (I.ino de.deInode).inInode ≠ 0 := by
  obtain ⟨-, -, hne, k, hk, rfl⟩ := crfsLookupDirent_some hl
  have hlive := h.ent_live hd hdir hk hne
  refine ⟨hlive, ?_⟩
  rw [show (I.ino ((I.val (I.ino d).inFirst).dirent k).deInode).inInode = _ from
    (h.inum _ hlive).2]
  exact hne

theorem SameDirs.resolve (h : SameDirs live I I') (ht : Treed I live) (rest : Name) :
    ∀ (d : InodeId) (comp : Name), live d → I.isDir d = true →
      I'.resolve d comp rest = I.resolve d comp rest := by
  induction rest with
  | nil => exact fun _ _ _ _ => rfl
  | cons c rest ih =>
    intro d comp hd hdir
    rw [Img.resolve, Img.resolve, ih d (comp ++ [c]) hd hdir, ih d [] hd hdir, h.dir d hd hdir]
    cases hl : crfsLookupDirent (I.val (I.ino d).inFirst) comp with
    | none => rfl
    | some de =>
      have hjl := (ht.lookup_live hd hdir hl).1
      simp only [h.mask _ hjl, h.inum _ hjl]
      by_cases hj : I.isDir de.deInode = true
      · rw [ih de.deInode [] hjl hj]
      · rw [if_pos (Or.inr (Bool.of_not_eq_true hj)), if_pos (Or.inr (Bool.of_not_eq_true hj))]

theorem SameDirs.namei (h : SameDirs live I I') (ht : Treed I live) (hpwd : pwd = I.root)
    (fname : Name) : I'.namei pwd fname = I.namei pwd fname := by
  rw [Img.namei, Img.namei, h.root, hpwd, h.resolve ht _ _ _ ht.live_root ht.rootDir,
    h.resolve ht _ _ _ ht.live_root ht.rootDir]

theorem SameDirs.opened (h : SameDirs live I I') (ht : Treed I live) (hpwd : pwd = I.root)
    (hz : (0 : UInt8) ∉ fname) : I'.opened pwd fname = I.opened pwd fname := by
  rw [Img.opened, Img.opened, h.namei ht hpwd]
  cases hr : I.namei pwd fname with
  | error e => rfl
  | ok r =>
    obtain ⟨nm, d⟩ := r
    have hres : live d ∧ I.isDir d = true := by
      rw [Img.namei, hpwd] at hr
      split at hr
      · obtain ⟨h1, h2, -⟩ := ht.resolve _ _ _ ht.live_root ht.rootDir (by simp)
          (fun hm => hz (List.mem_of_mem_tail hm)) _ _ hr
        exact ⟨h1, h2⟩
      · obtain ⟨h1, h2, -⟩ := ht.resolve _ _ _ ht.live_root ht.rootDir (by simp) hz _ _ hr
        exact ⟨h1, h2⟩
    obtain ⟨hd, hdir⟩ := hres
    have hnode : (I'.nodeAt d nm).isDir = (I.nodeAt d nm).isDir := by
      rw [Img.nodeAt, Img.nodeAt, h.dir d hd hdir]
      split
      · exact h.mask d hd
      · cases hl : crfsLookupDirent (I.val (I.ino d).inFirst) nm with
        | none => rfl
        | some de => exact h.mask _ (ht.lookup_live hd hdir hl).1
    simp only [hnode, h.dir d hd hdir]

/-- Calls on a file leave the directories alone. -/
theorem Touch.sameDirs (ht : Touch i σ s τ s') (h : Inv σ s) (h' : Inv τ s')
    (hf : σ.img.isDir i = false) : SameDirs s.live σ.img τ.img := by
  have hino : ∀ d, s.live d → σ.img.isDir d = true → τ.img.ino d = σ.img.ino d := by
    intro d hd hdir
    refine ht.ino d hd ?_
    rintro rfl
    rw [hf] at hdir
    cases hdir
  refine ⟨ht.root, ?_, ?_, ?_⟩
  · intro d hd hdir
    rw [hino d hd hdir]
    exact ht.val _ _ (h.owned.dirBlock hd hdir) (by simp) (by simp)
  · intro j hj
    by_cases hji : j = i
    · rw [hji]
      exact ht.isDir
    · rw [Img.isDir, ht.ino j hj hji, Img.isDir]
  · intro j hj
    rw [(h.tree.inum j hj).2, (h'.tree.inum j (by rw [ht.live]; exact hj)).2]

/-- A file can be opened again after calls on it, under the same path. -/
theorem Touch.opens (ht : Touch i σ s τ s') (h : Inv σ s) (h' : Inv τ s')
    (hf : σ.img.isDir i = false) (hz : (0 : UInt8) ∉ fname) {j : InodeId}
    (ho : (crfsOpen fname).eval σ = (.ok (openHandle σ j), σ)) :
    (crfsOpen fname).eval τ = (.ok (openHandle τ j), τ) := by
  rw [crfsOpen_eval h hz] at ho
  have hpwd : τ.glob.crfsPwd = σ.glob.crfsPwd := by rw [h'.pwd, ht.root, h.pwd]
  rw [crfsOpen_eval h' hz, hpwd, (ht.sameDirs h h' hf).opened h.tree h.pwd hz]
  cases hr : σ.img.opened σ.glob.crfsPwd fname with
  | error e =>
    rw [hr] at ho
    cases (Prod.mk.inj ho).1
  | ok x =>
    rw [hr] at ho
    have hx : openHandle σ x = openHandle σ j := Except.ok.inj (Prod.mk.inj ho).1
    have hxj : x = j := congrArg CoFile.fInode hx
    rw [hxj]
    rfl

end Crfs
