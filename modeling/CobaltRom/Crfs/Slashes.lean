import CobaltRom.Lib.Separated
import CobaltRom.Crfs.Session
import CobaltRom.Crfs.Lookup

/-! What `crfs_namei` makes of the slashes in a path. -/
namespace Crfs
open WriteBack SlotTree Separated

/-- The directory that entry `c` of `d` names. -/
def Img.enter (I : Img) (d : InodeId) (c : Name) : Except Errno InodeId :=
  match crfsLookupDirent (I.val (I.ino d).inFirst) c with
  | none => .error .ENOENT
  | some de =>
    if (I.ino de.deInode).inInode = 0 ∨ I.isDir de.deInode = false then .error .ENOTDIR
    else .ok de.deInode

/-- What is left of `crfs_namei` once a path is read as components with `t` slashes
behind the last: none leave it alone, one looks it up, more step into it. -/
def Img.follow (I : Img) : InodeId → List Name → Nat → Except Errno (Name × InodeId)
  | d, [], _ => .ok ([], d)
  | d, [c], 0 => .ok (c, d)
  | d, [c], 1 => if (crfsLookupDirent (I.val (I.ino d).inFirst) c).isSome then .ok (c, d)
      else .error .ENOENT
  | d, [c], _ + 2 => (I.enter d c).map fun e => ([], e)
  | d, c :: c' :: cs, t => (I.enter d c).bind fun e => I.follow e (c' :: cs) t

/-- The components looked up in turn. -/
def Img.lookupPath (I : Img) : InodeId → List Name → Option InodeId
  | d, [] => some d
  | d, c :: cs =>
    if I.isDir d then
      (crfsLookupDirent (I.val (I.ino d).inFirst) c).bind fun de => I.lookupPath de.deInode cs
    else none

variable {σ : Vol} {s : Shape} {I : Img} {live : InodeId → Prop} {d e i : InodeId} {p q nm : Name}
  {cs : List Name} {t : Nat} {de : Dirent}

theorem follow_slash (I : Img) (d : InodeId) (l : Name) :
    I.follow d (parts 47 (47 :: l)) (trail 47 (47 :: l)) =
      I.follow d (parts 47 l) (trail 47 l) := by
  rw [parts_cons_sep]
  by_cases hp : parts 47 l = []
  · rw [hp, Img.follow, Img.follow]
  · rw [trail_cons_of_parts 47 hp]

/-- The scanner sees the components and the slashes behind the last one. -/
theorem resolve_eq_follow (I : Img) (rest : Name) : ∀ (d : InodeId) (comp : Name), 47 ∉ comp →
    I.resolve d comp rest = I.follow d (parts 47 (comp ++ rest)) (trail 47 rest) := by
  induction rest with
  | nil =>
    intro d comp hcomp
    rw [List.append_nil, parts_of_not_mem hcomp, Img.resolve]
    split
    · subst comp
      rfl
    · rfl
  | cons c rest ih =>
    intro d comp hcomp
    unfold Img.resolve
    by_cases hc : c = 47
    · subst hc
      rw [if_neg (by simp)]
      by_cases hemp : comp = []
      · rw [if_pos hemp, hemp, List.nil_append, follow_slash]
        exact ih d [] (by simp)
      · rw [if_neg hemp, parts_append_cons, parts_of_not_mem hcomp, if_neg hemp,
          List.singleton_append]
        by_cases hp : parts 47 rest = []
        · rw [hp, trail_of_parts_nil ((parts_cons_sep rest).trans hp), List.length_cons]
          cases rest with
          | nil =>
            simp only [if_true, List.length_nil, Img.follow]
            cases crfsLookupDirent (I.val (I.ino d).inFirst) comp <;> rfl
          | cons b rest =>
            rw [List.length_cons, Img.follow, Img.enter]
            cases crfsLookupDirent (I.val (I.ino d).inFirst) comp with
            | none => rfl
            | some de =>
              simp only [reduceCtorEq, if_false]
              split
              · rfl
              · rw [ih _ [] (by simp), List.nil_append, hp, Img.follow]
                rfl
        · have hrest : rest ≠ [] := by
            rintro rfl
            exact hp rfl
          rw [trail_cons_of_parts 47 hp]
          obtain ⟨c', cs, hcs⟩ := List.exists_cons_of_ne_nil hp
          rw [hcs, Img.follow, Img.enter]
          cases crfsLookupDirent (I.val (I.ino d).inFirst) comp with
          | none => rfl
          | some de =>
            simp only [if_neg hrest]
            split
            · rfl
            · rw [ih _ [] (by simp), List.nil_append, hcs]
              rfl
    · rw [if_pos hc, trail_cons_of_ne hc, ih d (comp ++ [c]) (by simp [hcomp, Ne.symm hc]),
        List.append_assoc, List.singleton_append]

theorem Inv.namei_follow (h : Inv σ s) (p : Name) : σ.img.namei σ.glob.crfsPwd p =
    σ.img.follow σ.img.root (parts 47 p) (trail 47 p) := by
  unfold Img.namei
  rw [h.pwd]
  cases p with
  | nil => exact resolve_eq_follow _ [] _ [] (by simp)
  | cons c p =>
    by_cases hc : c = 47
    · subst hc
      rw [if_pos List.head?_cons, follow_slash]
      exact resolve_eq_follow _ p _ [] (by simp)
    · rw [if_neg (by simpa using hc)]
      exact resolve_eq_follow _ (c :: p) _ [] (by simp)

/-- Either a component in front of the last is no directory, or the last is looked up
in the directory the others lead to. -/
theorem Treed.follow_cases (h : Treed I live) : ∀ (cs : List Name) (d : InodeId), live d →
    I.isDir d = true → cs ≠ [] →
    (∃ err, (∀ t, I.follow d cs t = .error err) ∧ I.lookupPath d cs = none) ∨
      ∃ nm e, (live e ∧ I.isDir e = true) ∧
        (I.lookupPath d cs.dropLast = some e ∧ cs.getLast? = some nm) ∧ I.lookupPath d cs =
          (crfsLookupDirent (I.val (I.ino e).inFirst) nm).map Dirent.deInode ∧
        ∀ t, I.follow d cs t = I.follow e [nm] t := by
  intro cs
  induction cs with
  | nil => exact fun _ _ _ hne => absurd rfl hne
  | cons c cs ih =>
    intro d hd hdir _
    cases cs with
    | nil =>
      refine Or.inr ⟨c, d, ⟨hd, hdir⟩, ⟨rfl, rfl⟩, ?_, fun _ => rfl⟩
      rw [Img.lookupPath, if_pos hdir]
      cases crfsLookupDirent (I.val (I.ino d).inFirst) c <;> rfl
    | cons c' cs =>
      have hpath : ∀ l, I.lookupPath d (c :: l) =
          (crfsLookupDirent (I.val (I.ino d).inFirst) c).bind fun de =>
            I.lookupPath de.deInode l := fun l => by
        rw [Img.lookupPath, if_pos hdir]
      have hfollow : ∀ t, I.follow d (c :: c' :: cs) t =
          (I.enter d c).bind fun e => I.follow e (c' :: cs) t := fun t => by
        rw [Img.follow]
      unfold Img.enter at hfollow
      cases hl : crfsLookupDirent (I.val (I.ino d).inFirst) c with
      | none =>
        rw [hl] at hpath hfollow
        exact Or.inl ⟨.ENOENT, hfollow, hpath _⟩
      | some de =>
        rw [hl] at hpath hfollow
        obtain ⟨hlive, hnum⟩ := h.lookup_live hd hdir hl
        by_cases hsub : I.isDir de.deInode = true
        · have hcond : ¬ ((I.ino de.deInode).inInode = 0 ∨ I.isDir de.deInode = false) := by
            rw [hsub]
            simp [hnum]
          simp only [if_neg hcond] at hfollow
          rcases ih _ hlive hsub (by simp) with ⟨err, herr, hnone⟩ | ⟨nm, e, he, hlast, hp, hf⟩
          · exact Or.inl ⟨err, fun t => (hfollow t).trans (herr t), (hpath _).trans hnone⟩
          · exact Or.inr ⟨nm, e, he, ⟨(hpath _).trans hlast.1, hlast.2⟩, (hpath _).trans hp,
              fun t => (hfollow t).trans (hf t)⟩
        · have hsub' := Bool.of_not_eq_true hsub
          simp only [hsub', or_true, if_true] at hfollow
          refine Or.inl ⟨.ENOTDIR, hfollow, (hpath _).trans ?_⟩
          simp only [Option.bind_some]
          rw [Img.lookupPath, if_neg hsub]

/-! ### The operations -/

/-- Both paths have the same effect, result and all. -/
structure SameResult (σ : Vol) (p q : Name) : Prop where
  stat : (crfsStat p).eval σ = (crfsStat q).eval σ
  opened : (crfsOpen p).eval σ = (crfsOpen q).eval σ
  remove : (crfsRemove p).eval σ = (crfsRemove q).eval σ
  opendir : (crfsOpendir p).eval σ = (crfsOpendir q).eval σ

/-- The components looked up in turn from the root lead to what `p` names: to nothing, or
to the inode that is reported, opened or taken out. -/
structure LeadsTo (σ : Vol) (p : Name) (cs : List Name) : Prop where
  stat : ∀ st, ((crfsStat p).eval σ).1 = .ok st ↔ ∃ i,
    σ.img.lookupPath σ.img.root cs = some i ∧
      st = ⟨i, (σ.img.ino i).inFmask, (σ.img.ino i).inFsize⟩
  opened : ∀ fp, ((crfsOpen p).eval σ).1 = .ok fp ↔ ∃ i,
    σ.img.lookupPath σ.img.root cs = some i ∧ σ.img.isDir i = false ∧ fp = openHandle σ i
  opendir : ∀ dir, ((crfsOpendir p).eval σ).1 = .ok dir ↔ ∃ i,
    σ.img.lookupPath σ.img.root cs = some i ∧ σ.img.isDir i = true ∧ dir = ⟨coDirMagic, i, 0⟩
  remove : (∃ i d nm, σ.img.lookupPath σ.img.root cs = some i ∧ σ.img.isDir i = false ∧
      σ.img.lookupPath σ.img.root cs.dropLast = some d ∧ cs.getLast? = some nm ∧
      (crfsRemove p).eval σ = (removeEntry (σ.img.ino d).inFirst
        (σ.val (σ.img.ino d).inFirst) nm i).eval σ) ∨
    (∀ i, σ.img.lookupPath σ.img.root cs = some i → σ.img.isDir i = true) ∧
      ∃ err, (crfsRemove p).eval σ = (some (.error err), σ)

theorem SameResult.of_namei
    (h : σ.img.namei σ.glob.crfsPwd p = σ.img.namei σ.glob.crfsPwd q) : SameResult σ p q := by
  have hn : (crfsNamei p).eval σ = (crfsNamei q).eval σ := by
    rw [crfsNamei_eval, crfsNamei_eval, h]
  refine ⟨?_, ?_, ?_, ?_⟩
  · rw [crfsStat, crfsStat, Prog.eval_bind, Prog.eval_bind, hn]
  · rw [crfsOpen, crfsOpen, Prog.eval_bind, Prog.eval_bind, hn]
  · rw [crfsRemove, crfsRemove, rmFile, rmFile, Prog.eval_bind, Prog.eval_bind, hn]
  · rw [crfsOpendir, crfsOpendir, Prog.eval_bind, Prog.eval_bind, hn]

theorem crfsStat_of_namei (h : σ.img.namei σ.glob.crfsPwd p = .ok (nm, d)) :
    (crfsStat p).eval σ =
      (if nm.length > crfsFilenameMax then .error .ENAMETOOLONG
        else match crfsLookupDirent (σ.val (σ.img.ino d).inFirst) nm with
          | none => .error .ENOENT
          | some de => .ok ⟨de.deInode, (σ.img.ino de.deInode).inFmask,
              (σ.img.ino de.deInode).inFsize⟩, σ) := by
  unfold crfsStat
  rw [Prog.eval_bind, crfsNamei_eval, h]
  simp only [Except.map, Prog.eval_ite]
  by_cases hlen : nm.length > crfsFilenameMax
  · rw [if_pos hlen, if_pos hlen]
    rfl
  · rw [if_neg hlen, if_neg hlen, Prog.eval_bind, crfsReadBlock_eval]
    cases crfsLookupDirent (σ.val (σ.img.ino d).inFirst) nm <;> rfl

/-- An empty name is no entry of the directory it is looked up in. -/
theorem Treed.lookup_nil (h : Treed I live) (hd : live d) (hdir : I.isDir d = true)
    (hl : crfsLookupDirent (I.val (I.ino d).inFirst) [] = some de) : de.deInode ≠ d := by
  obtain ⟨-, hname, hne, k, hk, rfl⟩ := crfsLookupDirent_some hl
  have hok := h.dirOk d hd hdir
  rcases k with _ | _ | k
  · exact absurd (hname.symm.trans hok.dot.2) (by decide)
  · exact absurd (hname.symm.trans hok.dotdot.2) (by decide)
  · intro hself
    have hkid : I.kids d (k + 2) = some d :=
      Img.kids_eq_some.mpr ⟨hdir, by omega, hk, hself ▸ hne, hself⟩
    exact h.tree.not_desc_kid hd hkid .refl

/-- A path and the path with its runs of slashes replaced give the same, except where
two or more slashes stand behind the name of something that exists. -/
theorem Inv.sameResult_iff (h : Inv σ s) (p : Name) : SameResult σ p (squeeze 47 p) ↔
    trail 47 p ≤ 1 ∨ parts 47 p = [] ∨ σ.img.lookupPath σ.img.root (parts 47 p) = none := by
  have hp := h.namei_follow p
  have hq := h.namei_follow (squeeze 47 p)
  rw [parts_squeeze, trail_squeeze] at hq
  by_cases htrail : trail 47 p ≤ 1
  · rw [Nat.min_eq_left htrail] at hq
    exact iff_of_true (.of_namei (hp.trans hq.symm)) (Or.inl htrail)
  by_cases hnil : parts 47 p = []
  · rw [hnil, Img.follow] at hp hq
    exact iff_of_true (.of_namei (hp.trans hq.symm)) (Or.inr (Or.inl hnil))
  obtain ⟨k, hk⟩ : ∃ k, trail 47 p = k + 2 := ⟨trail 47 p - 2, by omega⟩
  rw [hk, show min (k + 2) 1 = 1 by omega] at hq
  rw [hk] at hp
  simp only [htrail, hnil, false_or]
  rcases h.tree.follow_cases _ _ h.tree.live_root h.tree.rootDir hnil with
    ⟨err, herr, hnone⟩ | ⟨nm, e, ⟨he, hed⟩, -, hpath, hf⟩
  · rw [herr] at hp hq
    exact iff_of_true (.of_namei (hp.trans hq.symm)) hnone
  simp only [hf, Img.follow] at hp hq
  rw [hpath]
  cases hl : crfsLookupDirent (σ.img.val (σ.img.ino e).inFirst) nm with
  | none =>
    rw [Img.enter, hl] at hp
    rw [hl] at hq
    exact iff_of_true (.of_namei (hp.trans hq.symm)) rfl
  | some de =>
    refine iff_of_false ?_ (by simp)
    intro hsame
    obtain ⟨hlive, hnum⟩ := h.tree.lookup_live he hed hl
    obtain ⟨hlen, -⟩ := crfsLookupDirent_some hl
    rw [hl] at hq
    have hst := congrArg Prod.fst (crfsStat_of_namei hq)
    rw [← hsame.stat, if_neg (by simp only [crfsFilenameMax]; omega), ← Vol.img_val, hl] at hst
    simp only at hst
    rw [Img.enter, hl] at hp
    by_cases hdir : σ.img.isDir de.deInode = true
    · -- stepping in leaves the empty name, which names something else or nothing
      simp only [hnum, hdir, false_or, Bool.true_eq_false, if_false, Except.map] at hp
      rw [congrArg Prod.fst (crfsStat_of_namei hp), if_neg (by simp), ← Vol.img_val] at hst
      cases hl' : crfsLookupDirent (σ.img.val (σ.img.ino de.deInode).inFirst) [] with
      | none =>
        rw [hl'] at hst
        cases hst
      | some de' =>
        rw [hl'] at hst
        have hino := congrArg CrfsStat.stIno (Except.ok.inj hst)
        exact h.tree.lookup_nil hlive hdir hl' hino
    · simp only [Bool.of_not_eq_true hdir, or_true, if_true, Except.map] at hp
      rw [crfsStat, Prog.eval_bind, crfsNamei_eval, hp] at hst
      cases hst

/-- The last component of `p` is not there. -/
def Missing (σ : Vol) (p : Name) : Prop :=
  (∃ err, σ.img.namei σ.glob.crfsPwd p = .error err) ∨
    ∃ nm d, σ.img.namei σ.glob.crfsPwd p = .ok (nm, d) ∧ nm ≠ [] ∧
      crfsLookupDirent (σ.img.val (σ.img.ino d).inFirst) nm = none

/-- The last component of `p` is entry `de` of directory `d`. -/
structure Found (σ : Vol) (p : Name) (d : InodeId) (nm : Name) (de : Dirent) : Prop where
  namei : σ.img.namei σ.glob.crfsPwd p = .ok (nm, d)
  ne : nm ≠ []
  lookup : crfsLookupDirent (σ.img.val (σ.img.ino d).inFirst) nm = some de
  num : (σ.img.ino de.deInode).inInode = de.deInode

theorem Found.short (h : Found σ p d nm de) : ¬ nm.length > crfsFilenameMax := by
  have hlen := (crfsLookupDirent_some h.lookup).1
  simp only [crfsFilenameMax]
  omega

theorem Found.nodeAt (h : Found σ p d nm de) : σ.img.nodeAt d nm = σ.img.ino de.deInode := by
  rw [Img.nodeAt, if_neg h.ne, h.lookup]

theorem Found.isDir (h : Found σ p d nm de) :
    (σ.img.nodeAt d nm).isDir = σ.img.isDir de.deInode := by
  rw [h.nodeAt, Img.isDir]

theorem Missing.fails (h : Missing σ p) : (∃ err, (crfsStat p).eval σ = (.error err, σ)) ∧
    (∃ err, (crfsOpen p).eval σ = (.error err, σ)) ∧
    (∃ err, (crfsOpendir p).eval σ = (.error err, σ)) ∧
    ∃ err, (crfsRemove p).eval σ = (some (.error err), σ) := by
  unfold crfsStat crfsOpen crfsOpendir crfsRemove
  rw [rmFile_eval, Vol.victim]
  simp only [Prog.eval_bind, crfsNamei_eval]
  rcases h with ⟨err, herr⟩ | ⟨nm, d, hr, hne, hnone⟩
  · rw [herr]
    exact ⟨⟨_, rfl⟩, ⟨_, rfl⟩, ⟨_, rfl⟩, ⟨_, rfl⟩⟩
  · have hnode : (σ.img.nodeAt d nm).isDir = false := by
      rw [Img.nodeAt, if_neg hne, hnone]
      exact show Inode.isDir ⟨0, 0, 0, 0, 0⟩ = false by decide
    rw [hr]
    rw [Vol.img_val] at hnone
    simp only [Except.map, Prog.eval_ite]
    by_cases hlen : nm.length > crfsFilenameMax
    · simp only [if_pos hlen]
      exact ⟨⟨_, rfl⟩, ⟨_, rfl⟩, ⟨_, rfl⟩, ⟨_, rfl⟩⟩
    · simp only [if_neg hlen, Prog.eval_bind, isDir_eval, inodeLookupFromNamei_eval,
        crfsReadBlock_eval, hnode, hnone, Bool.false_eq_true, false_and, if_false]
      refine ⟨⟨_, rfl⟩, ⟨_, rfl⟩, ⟨_, rfl⟩, ?_⟩
      by_cases hdot : nm = [46] ∨ nm = [46, 46]
      · simp only [if_pos hdot]
        exact ⟨_, rfl⟩
      · simp only [if_neg hdot]
        exact ⟨_, rfl⟩

theorem Found.stat (h : Found σ p d nm de) : (crfsStat p).eval σ =
    (.ok ⟨de.deInode, (σ.img.ino de.deInode).inFmask, (σ.img.ino de.deInode).inFsize⟩, σ) := by
  rw [crfsStat_of_namei h.namei, if_neg h.short, ← Vol.img_val, h.lookup]

theorem Found.opened (h : Found σ p d nm de) : (crfsOpen p).eval σ =
    (if σ.img.isDir de.deInode then .error .EISDIR else .ok (openHandle σ de.deInode), σ) := by
  have hl := h.lookup
  rw [Vol.img_val] at hl
  unfold crfsOpen
  rw [Prog.eval_bind, crfsNamei_eval, h.namei]
  simp only [Except.map, Prog.eval_ite, if_neg h.short, Prog.eval_bind, isDir_eval, h.isDir]
  by_cases hd : σ.img.isDir de.deInode = true
  · rw [if_pos hd, if_pos hd]
    rfl
  · rw [if_neg hd, if_neg hd, crfsReadBlock_eval, hl]
    simp only [Prog.eval_bind, crfsLookupInode_eval, openHandle, h.num]
    by_cases hf : (σ.img.ino de.deInode).inFirst ≠ 0
    · simp only [if_pos hf, Prog.eval_bind, crfsReadBlock_eval, Prog.eval_pure]
    · simp only [if_neg hf, Prog.eval_pure]

theorem Found.opendir (h : Found σ p d nm de) : (crfsOpendir p).eval σ =
    (if σ.img.isDir de.deInode then .ok ⟨coDirMagic, de.deInode, 0⟩ else .error .ENOTDIR, σ) := by
  unfold crfsOpendir
  rw [Prog.eval_bind, crfsNamei_eval, h.namei]
  simp only [Except.map, Prog.eval_ite, if_neg h.short, Prog.eval_bind,
    inodeLookupFromNamei_eval, h.isDir]
  by_cases hd : σ.img.isDir de.deInode = true
  · rw [if_pos hd, if_pos hd, h.nodeAt, h.num]
    rfl
  · rw [if_neg hd, if_neg hd]
    rfl

theorem Found.remove (h : Found σ p d nm de) (hdot : σ.img.isDir de.deInode = false →
    ¬ (nm = [46] ∨ nm = [46, 46])) : (crfsRemove p).eval σ =
      if σ.img.isDir de.deInode then (some (.error .EISDIR), σ)
      else (removeEntry (σ.img.ino d).inFirst (σ.val (σ.img.ino d).inFirst) nm
        de.deInode).eval σ := by
  have hl := h.lookup
  rw [Vol.img_val] at hl
  rw [crfsRemove, rmFile_eval, Vol.victim, h.namei]
  simp only [if_neg h.short, h.isDir, and_true]
  by_cases hd : σ.img.isDir de.deInode = true
  · rw [if_pos hd, if_pos hd]
  · rw [if_neg hd, if_neg hd, if_neg (hdot (Bool.of_not_eq_true hd)), hl]

/-- The dot entries name directories. -/
theorem Treed.dot_dir (h : Treed I live) (hd : live d) (hdir : I.isDir d = true)
    (hl : crfsLookupDirent (I.val (I.ino d).inFirst) nm = some de)
    (hdot : nm = [46] ∨ nm = [46, 46]) : I.isDir de.deInode = true := by
  obtain ⟨-, hname, hne, k, hk, rfl⟩ := crfsLookupDirent_some hl
  have hok := h.dirOk d hd hdir
  rcases hdot with rfl | rfl
  · have hself : (I.ent d 0).deInode ≠ 0 := by
      rw [hok.dot.1]
      exact (h.inum d hd).1
    obtain rfl := hok.distinct k 0 hk (by decide) hne hself (hname.trans hok.dot.2.symm)
    rw [show ((I.val (I.ino d).inFirst).dirent 0).deInode = d from hok.dot.1]
    exact hdir
  · obtain rfl := hok.distinct k 1 hk (by decide) hne hok.dotdot.1
      (hname.trans hok.dotdot.2.symm)
    change I.isDir (I.ent d 1).deInode = true
    by_cases hr : d = I.root
    · subst hr
      rw [h.upRoot]
      exact h.rootDir
    · obtain ⟨e, l, he, hkid⟩ := h.up_kid hd hr
      rw [h.upKid e l d he hkid hdir]
      exact (Img.kids_eq_some.mp hkid).1

/-- A path written component by component leads where looking them up does. -/
theorem Inv.leadsTo (h : Inv σ s) (hcs : cs ≠ []) (hc : ∀ c ∈ cs, c ≠ [] ∧ 47 ∉ c) :
    LeadsTo σ (leading 47 cs) cs := by
  have hp := h.namei_follow (leading 47 cs)
  rw [parts_leading hc, trail_leading hcs hc] at hp
  have hmissing : Missing σ (leading 47 cs) → σ.img.lookupPath σ.img.root cs = none →
      LeadsTo σ (leading 47 cs) cs := by
    intro hm hnone
    obtain ⟨⟨_, h1⟩, ⟨_, h2⟩, ⟨_, h3⟩, h4⟩ := hm.fails
    refine ⟨fun st => ?_, fun fp => ?_, fun dir => ?_, Or.inr ⟨by simp [hnone], h4⟩⟩
    · simp [h1, hnone]
    · simp [h2, hnone]
    · simp [h3, hnone]
  rcases h.tree.follow_cases _ _ h.tree.live_root h.tree.rootDir hcs with
    ⟨err, herr, hnone⟩ | ⟨nm, e, ⟨he, hed⟩, ⟨hinit, hlast⟩, hpath, hf⟩
  · exact hmissing (Or.inl ⟨err, hp.trans (herr 0)⟩) hnone
  rw [hf, Img.follow] at hp
  have hne := (hc nm (List.mem_of_getLast? hlast)).1
  cases hl : crfsLookupDirent (σ.img.val (σ.img.ino e).inFirst) nm with
  | none =>
    rw [hl] at hpath
    exact hmissing (Or.inr ⟨nm, e, hp, hne, hl⟩) hpath
  | some de =>
    rw [hl] at hpath
    obtain ⟨hlive, -⟩ := h.tree.lookup_live he hed hl
    have hfound : Found σ (leading 47 cs) e nm de := ⟨hp, hne, hl, (h.tree.inum _ hlive).2⟩
    have hrm := hfound.remove fun hfile hdot => by
      rw [h.tree.dot_dir he hed hl hdot] at hfile
      cases hfile
    have hsome : ∀ i, σ.img.lookupPath σ.img.root cs = some i ↔ de.deInode = i := fun i => by
      rw [hpath, Option.map_some, Option.some.injEq]
    by_cases hdir : σ.img.isDir de.deInode = true
    · refine ⟨fun st => ?_, fun fp => ?_, fun dir => ?_, Or.inr ⟨?_, .EISDIR, ?_⟩⟩
      · simp only [hfound.stat, hsome, Except.ok.injEq, exists_eq_left']
        exact eq_comm
      · simp [hfound.opened, hsome, hdir]
      · simp only [hfound.opendir, hsome, exists_eq_left', hdir, if_true, true_and, Except.ok.injEq]
        exact eq_comm
      · intro i hi
        rw [← (hsome i).mp hi]
        exact hdir
      · rw [hrm, if_pos hdir]
    · have hfile := Bool.of_not_eq_true hdir
      refine ⟨fun st => ?_, fun fp => ?_, fun dir => ?_, Or.inl ⟨de.deInode, e, nm,
        (hsome _).mpr rfl, hfile, hinit, hlast, ?_⟩⟩
      · simp only [hfound.stat, hsome, Except.ok.injEq, exists_eq_left']
        exact eq_comm
      · simp only [hfound.opened, hsome, exists_eq_left', hfile, Bool.false_eq_true, if_false,
          true_and, Except.ok.injEq]
        exact eq_comm
      · simp [hfound.opendir, hsome, hfile]
      · rw [hrm, if_neg hdir]

/-- "Multiple slashes are OK", except behind the name of something that exists. -/
theorem namei_slashes_iff (h : Inv σ s) (p : Name) :
    (SameResult σ p (squeeze 47 p) ∧
      ∀ cs : List Name, cs ≠ [] → (∀ c ∈ cs, c ≠ [] ∧ 47 ∉ c) → p = leading 47 cs →
        LeadsTo σ p cs) ↔
    trail 47 p ≤ 1 ∨ parts 47 p = [] ∨ σ.img.lookupPath σ.img.root (parts 47 p) = none := by
  rw [← h.sameResult_iff p]
  refine and_iff_left ?_
  rintro cs hcs hc rfl
  exact h.leadsTo hcs hc

/-- "//a" and "/a" are one path on the volume that holds "a". -/
theorem namei_slashes_leading : SameResult createdVol [47, 47, 97] [47, 97] := by
  obtain ⟨s, hm, -⟩ := createdVol_mounted
  exact ((namei_slashes_iff hm.inv [47, 47, 97]).mpr (Or.inl (by decide))).1

/-- "/a//" is not "/a/" there: `crfs_stat` reports ENOTDIR for the one and the file for
the other. -/
theorem namei_slashes_trailing :
    ¬ ∀ (σ : Vol) (s : Shape) (p : Name), Inv σ s → SameResult σ p (squeeze 47 p) := by
  intro h
  obtain ⟨s, hm, -⟩ := createdVol_mounted
  have hstat := (h createdVol s [47, 97, 47, 47] hm.inv).stat
  have hfirst : ((crfsStat [47, 97, 47, 47]).eval createdVol).1 = .error .ENOTDIR := by
    decide +kernel
  have hsecond : ((crfsStat (squeeze 47 [47, 97, 47, 47])).eval createdVol).1 =
      .ok ⟨2, fmaskFile, 0⟩ := by
    decide +kernel
  rw [hstat, hsecond] at hfirst
  cases hfirst

end Crfs
