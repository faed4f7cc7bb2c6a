import CobaltRom.Crfs.Tree

/-! The invariant of a mounted volume, and what looking things up in it returns. -/
namespace Crfs
open WriteBack SlotTree

/-- A mounted volume: a tree of directories, an owner for every block in use, and
free maps that agree with both. -/
structure Inv (σ : Vol) (s : Shape) : Prop where
  tree : Treed σ.img s.live
  owned : Owned σ.img s
  blocks : Ledger σ.bm s.own
  inums : InumLedger σ.im s.num
  live : ∀ i, s.live i → s.num i
  pwd : σ.glob.crfsPwd = σ.img.root

variable {σ : Vol} {s : Shape} {I : Img} {live : InodeId → Prop} {d : InodeId} {b : Block}
  {nm comp rest fname : Name} {de : Dirent} {k : Nat}

@[simp] theorem crfsLookupInode_eval (σ : Vol) (i : InodeId) :
    (crfsLookupInode i).eval σ = (σ.img.ino i, σ) := rfl

@[simp] theorem crfsReadBlock_eval (σ : Vol) (b : BlockId) :
    (crfsReadBlock b).eval σ = (σ.val b, σ) := rfl

@[simp] theorem blockIsDirty_eval (σ : Vol) (b : BlockId) :
    (blockIsDirty b).eval σ = (σ.dirty b, σ) := rfl

@[simp] theorem crfsWriteBlock_eval (σ : Vol) (b : BlockId) (c : Block) :
    (crfsWriteBlock b c).eval σ =
      ((), { σ with val := Function.update σ.val b c, dirty := Function.update σ.dirty b true }) :=
  rfl

@[simp] theorem unmarkBlock_eval (σ : Vol) (b : BlockId) :
    (unmarkBlock b).eval σ = ((), σ.setBm (freemapUnmark σ.bm b.toNat)) := rfl

@[simp] theorem unmarkInum_eval (σ : Vol) (i : InodeId) :
    (unmarkInum i).eval σ = ((), σ.setIm (freemapUnmark σ.im i.toNat)) := rfl

@[simp] theorem markBlock_eval (σ : Vol) (b : BlockId) :
    (markBlock b).eval σ = ((), σ.setBm (freemapMark σ.bm b.toNat)) := rfl

@[simp] theorem markInum_eval (σ : Vol) (i : InodeId) :
    (markInum i).eval σ = ((), σ.setIm (freemapMark σ.im i.toNat)) := rfl

/-! ### Entries -/

theorem crfsLookupDirent_some (h : crfsLookupDirent b nm = some de) :
    nm.length ≤ 59 ∧ de.name = nm ∧ de.deInode ≠ 0 ∧ ∃ k, k < 64 ∧ b.dirent k = de := by
  unfold crfsLookupDirent at h
  split at h
  · cases h
  · rename_i hl
    have hp := List.find?_some h
    have hm := List.mem_of_find?_eq_some h
    simp only [Bool.and_eq_true, beq_iff_eq, bne_iff_ne] at hp
    obtain ⟨k, hk, hke⟩ := List.mem_map.mp hm
    simp only [crfsFilenameMax] at hl
    exact ⟨by omega, hp.1, hp.2, k, List.mem_range.mp hk, hke⟩

theorem crfsLookupDirent_none (h : crfsLookupDirent b nm = none) (hl : nm.length ≤ 59)
    (hk : k < 64) (hd : (b.dirent k).deInode ≠ 0) : (b.dirent k).name ≠ nm := by
  unfold crfsLookupDirent at h
  rw [if_neg (by simp only [crfsFilenameMax]; omega), List.find?_eq_none] at h
  intro hn
  exact h (b.dirent k) (List.mem_map.mpr ⟨k, List.mem_range.mpr hk, rfl⟩) (by simp [hn, hd])

/-- With distinct names the lookup finds the entry of that name. -/
theorem DirOk.lookup {i : InodeId} (h : DirOk b.dirent i) (hl : nm.length ≤ 59) (hk : k < 64)
    (hd : (b.dirent k).deInode ≠ 0) (hn : (b.dirent k).name = nm) :
    crfsLookupDirent b nm = some (b.dirent k) := by
  cases hc : crfsLookupDirent b nm with
  | none => exact absurd hn (crfsLookupDirent_none hc hl hk hd)
  | some de =>
    obtain ⟨-, hn', hd', j, hj, rfl⟩ := crfsLookupDirent_some hc
    rw [h.distinct j k hj hk hd' hd (hn'.trans hn.symm)]

theorem freeSlot_some (h : b.freeSlot = some k) : k < 64 ∧ (b.dirent k).deInode = 0 := by
  have hp := List.find?_some h
  have hm := List.mem_of_find?_eq_some h
  exact ⟨List.mem_range.mp hm, by simpa using hp⟩

/-! ### Paths -/

/-- What `crfs_namei` does to an image: the last component and the number of the
directory that holds it. -/
def Img.resolve (I : Img) (d : InodeId) (comp : Name) : Name → Except Errno (Name × InodeId)
  | [] => .ok (comp, d)
  | c :: rest =>
    if c ≠ 47 then I.resolve d (comp ++ [c]) rest
    else if comp = [] then I.resolve d [] rest
    else
      match crfsLookupDirent (I.val (I.ino d).inFirst) comp with
      | none => .error .ENOENT
      | some de =>
        if rest = [] then .ok (comp, d)
        else if (I.ino de.deInode).inInode = 0 ∨ I.isDir de.deInode = false then .error .ENOTDIR
        else I.resolve de.deInode [] rest

def Img.namei (I : Img) (pwd : InodeId) (fname : Name) : Except Errno (Name × InodeId) :=
  if fname.head? = some 47 then I.resolve I.root [] fname.tail else I.resolve pwd [] fname

theorem nameiScan_eval (σ : Vol) (rest : Name) : ∀ (d : InodeId) (comp : Name),
    (nameiScan (σ.img.ino d) comp rest).eval σ =
      ((σ.img.resolve d comp rest).map fun r => (r.1, σ.img.ino r.2), σ) := by
  induction rest with
  | nil => intro d comp; rfl
  | cons c rest ih =>
    intro d comp
    unfold nameiScan Img.resolve
    by_cases hc : c = 47
    · have hc' : ¬ c ≠ 47 := not_not.mpr hc
      rw [if_neg hc', if_neg hc']
      by_cases he : comp = []
      · rw [if_pos he, if_pos he]
        exact ih d []
      · rw [if_neg he, if_neg he, Prog.eval_bind, crfsReadBlock_eval]
        change Prog.eval (match crfsLookupDirent (σ.img.val (σ.img.ino d).inFirst) comp with
          | none => _
          | some de => _) σ = _
        cases crfsLookupDirent (σ.img.val (σ.img.ino d).inFirst) comp with
        | none => rfl
        | some de =>
          by_cases hr : rest = []
          · simp only [if_pos hr]
            rfl
          · simp only [if_neg hr, Prog.eval_bind, crfsLookupInode_eval]
            change Prog.eval (if (σ.img.ino de.deInode).inInode = 0 ∨
              σ.img.isDir de.deInode = false then _ else _) σ = _
            split
            · rfl
            · exact ih de.deInode []
    · rw [if_pos hc, if_pos hc]
      exact ih d (comp ++ [c])

theorem crfsNamei_eval (σ : Vol) (fname : Name) : (crfsNamei fname).eval σ =
    ((σ.img.namei σ.glob.crfsPwd fname).map fun r => (r.1, σ.img.ino r.2), σ) := by
  unfold crfsNamei Img.namei
  rw [Prog.eval_bind, Prog.eval_getGlob]
  by_cases hc : fname.head? = some 47
  · rw [if_pos hc, if_pos hc, Prog.eval_bind, crfsLookupInode_eval]
    exact nameiScan_eval σ _ _ _
  · rw [if_neg hc, if_neg hc, Prog.eval_bind, crfsLookupInode_eval]
    exact nameiScan_eval σ _ _ _

/-- Following a path from a directory of the tree ends in one, and the last
component has neither a slash nor a NUL. -/
theorem Treed.resolve (h : Treed I live) (rest : Name) : ∀ (d : InodeId) (comp : Name),
    live d → I.isDir d = true → (0 : UInt8) ∉ comp ∧ (47 : UInt8) ∉ comp → (0 : UInt8) ∉ rest →
    ∀ nm e, I.resolve d comp rest = .ok (nm, e) →
      live e ∧ I.isDir e = true ∧ (0 : UInt8) ∉ nm ∧ (47 : UInt8) ∉ nm := by
  induction rest with
  | nil =>
    intro d comp hd hdir hcomp _ nm e he
    cases he
    exact ⟨hd, hdir, hcomp⟩
  | cons c rest ih =>
    intro d comp hd hdir hcomp hrest nm e he
    rw [List.mem_cons, not_or] at hrest
    unfold Img.resolve at he
    by_cases hc : c = 47
    · rw [if_neg (by simpa using hc)] at he
      by_cases hemp : comp = []
      · rw [if_pos hemp] at he
        exact ih d [] hd hdir (by simp) hrest.2 nm e he
      · rw [if_neg hemp] at he
        cases hl : crfsLookupDirent (I.val (I.ino d).inFirst) comp with
        | none => rw [hl] at he; cases he
        | some de =>
          rw [hl] at he
          by_cases hr : rest = []
          · simp only [if_pos hr] at he
            cases he
            exact ⟨hd, hdir, hcomp⟩
          · simp only [if_neg hr] at he
            split at he
            · cases he
            · rename_i hnd
              obtain ⟨-, -, hne, k, hk, rfl⟩ := crfsLookupDirent_some hl
              push Not at hnd
              exact ih _ [] (h.ent_live hd hdir hk hne) (Bool.of_not_eq_false hnd.2) (by simp)
                hrest.2 nm e he
    · rw [if_pos (by simpa using hc)] at he
      refine ih d (comp ++ [c]) hd hdir ?_ hrest.2 nm e he
      simp only [List.mem_append, List.mem_singleton, not_or]
      exact ⟨⟨hcomp.1, hrest.1⟩, hcomp.2, fun h => hc h.symm⟩

theorem Inv.namei (h : Inv σ s) (hz : (0 : UInt8) ∉ fname) {e : InodeId}
    (hr : σ.img.namei σ.glob.crfsPwd fname = .ok (nm, e)) :
    s.live e ∧ σ.img.isDir e = true ∧ (0 : UInt8) ∉ nm ∧ (47 : UInt8) ∉ nm := by
  unfold Img.namei at hr
  split at hr
  · exact h.tree.resolve _ _ _ h.tree.live_root h.tree.rootDir (by simp)
      (fun hm => hz (List.mem_of_mem_tail hm)) _ _ hr
  · rw [h.pwd] at hr
    exact h.tree.resolve _ _ _ h.tree.live_root h.tree.rootDir (by simp) hz _ _ hr

/-- Paths whose last component is empty: "", "/" and those that end in "//". -/
def lastEmpty (p : Name) : Prop := p = [] ∨ p = [47] ∨ [47, 47] <:+ p

instance (p : Name) : Decidable (lastEmpty p) :=
  inferInstanceAs (Decidable (p = [] ∨ p = [47] ∨ [47, 47] <:+ p))

theorem lastEmpty_append (p : Name) (h : lastEmpty rest) (hr : rest ≠ []) :
    lastEmpty (p ++ 47 :: rest) := by
  rcases h with rfl | rfl | ⟨q, rfl⟩
  · exact absurd rfl hr
  · exact Or.inr (Or.inr ⟨p, rfl⟩)
  · exact Or.inr (Or.inr ⟨p ++ 47 :: q, by simp⟩)

theorem resolve_lastEmpty (I : Img) (rest : Name) : ∀ (d : InodeId) (comp : Name) (e : InodeId),
    I.resolve d comp rest = .ok ([], e) → lastEmpty (comp ++ rest) := by
  induction rest with
  | nil =>
    intro d comp e he
    cases he
    exact Or.inl rfl
  | cons c rest ih =>
    intro d comp e he
    unfold Img.resolve at he
    by_cases hc : c = 47
    · subst hc
      rw [if_neg (by simp)] at he
      by_cases hemp : comp = []
      · rw [if_pos hemp] at he
        subst hemp
        by_cases hr : rest = []
        · subst hr
          exact Or.inr (Or.inl rfl)
        · exact lastEmpty_append [] (ih d [] e he) hr
      · rw [if_neg hemp] at he
        cases hl : crfsLookupDirent (I.val (I.ino d).inFirst) comp with
        | none => rw [hl] at he; cases he
        | some de =>
          rw [hl] at he
          by_cases hr : rest = []
          · simp only [if_pos hr] at he
            cases he
            exact absurd rfl hemp
          · simp only [if_neg hr] at he
            split at he
            · cases he
            · exact lastEmpty_append comp (ih _ [] e he) hr
    · rw [if_pos (by simpa using hc)] at he
      simpa using ih d (comp ++ [c]) e he

theorem namei_lastEmpty {pwd e : InodeId} (h : I.namei pwd fname = .ok ([], e)) :
    lastEmpty fname := by
  unfold Img.namei at h
  cases fname with
  | nil => exact Or.inl rfl
  | cons c rest =>
    by_cases hc : c = 47
    · subst hc
      rw [if_pos List.head?_cons] at h
      by_cases hr : rest = []
      · subst hr
        exact Or.inr (Or.inl rfl)
      · exact lastEmpty_append [] (resolve_lastEmpty I rest _ _ _ h) hr
    · rw [if_neg (by simpa using hc)] at h
      exact resolve_lastEmpty I (c :: rest) _ _ _ h

end Crfs
