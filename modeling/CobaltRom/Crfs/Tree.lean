import CobaltRom.Crfs.Ledger

/-! Entering and removing names in the directory tree. -/
namespace Crfs
open WriteBack SlotTree

variable {I I' : Img} {live : InodeId → Prop} {i d e j x : InodeId} {k : Nat} {nm : Name}

/-- Every entry in use names an inode of the tree. -/
theorem Treed.ent_live (h : Treed I live) (hd : live d) (hdir : I.isDir d = true) (hk : k < 64)
    (hne : (I.ent d k).deInode ≠ 0) : live (I.ent d k).deInode := by
  by_cases hk2 : 2 ≤ k
  · exact h.tree.kid_live d k _ hd (Img.kids_eq_some.mpr ⟨hdir, hk2, hk, hne, rfl⟩)
  · obtain rfl | rfl : k = 0 ∨ k = 1 := by omega
    · rw [(h.dirOk d hd hdir).dot.1]
      exact hd
    · -- ".." is the root itself, or the directory that holds `d`
      have hr := h.tree.reach d hd
      cases hr with
      | refl => rw [h.upRoot]; exact h.live_root
      | @step e _ l he hs =>
        have hel := h.tree.desc_live h.live_root he
        rw [h.upKid e l d hel hs hdir]
        exact hel

/-- A directory other than the root is a child of the one its ".." names. -/
theorem Treed.up_kid (h : Treed I live) (hd : live d) (hr : d ≠ I.root) :
    ∃ e l, live e ∧ I.kids e l = some d := by
  have hreach := h.tree.reach d hd
  cases hreach with
  | refl => exact absurd rfl hr
  | step he hs => exact ⟨_, _, h.tree.desc_live h.live_root he, hs⟩

/-- Entry `k` of directory `d` is filled with a new inode. -/
structure Entered (I : Img) (live : InodeId → Prop) (d : InodeId) (k : Nat) (nm : Name)
    (x : InodeId) (I' : Img) : Prop where
  root : I'.root = I.root
  dir : live d
  isDir : I.isDir d = true
  lt : k < 64
  free : (I.ent d k).deInode = 0
  fresh : ¬ live x
  ne : x ≠ 0
  num : ∀ i, live i ∨ i = x → (I'.ino i).inInode = i
  dirs : ∀ i, live i → I'.isDir i = I.isDir i
  other : ∀ i, live i → I.isDir i = true → i ≠ d → I'.ent i = I.ent i
  enter : ∀ j, I'.ent d j = if j = k then ⟨x, Dirent.pad nm⟩ else I.ent d j
  nul : (0 : UInt8) ∉ nm
  short : nm.length ≤ 59
  unused : ∀ j, j < 64 → (I.ent d j).deInode ≠ 0 → (I.ent d j).name ≠ nm
  new : I'.isDir x = true →
    DirOk (I'.ent x) x ∧ (I'.ent x 1).deInode = d ∧ ∀ j, 2 ≤ j → j < 64 → (I'.ent x j).deInode = 0

theorem Entered.two_le (h : Entered I live d k nm x I') (ht : Treed I live) : 2 ≤ k := by
  have hok := ht.dirOk d h.dir h.isDir
  by_contra hk
  obtain rfl | rfl : k = 0 ∨ k = 1 := by omega
  · exact (ht.inum d h.dir).1 (hok.dot.1.symm.trans h.free)
  · exact hok.dotdot.1 h.free

theorem Entered.name (h : Entered I live d k nm x I') : (I'.ent d k).name = nm := by
  rw [h.enter, if_pos rfl]
  exact Dirent.cstr_pad h.short h.nul

theorem Entered.dirOk (h : Entered I live d k nm x I') (hok : DirOk (I.ent d) d) (hk : 2 ≤ k) :
    DirOk (I'.ent d) d := by
  have hne : ∀ j, j ≠ k → I'.ent d j = I.ent d j := fun j hj => by rw [h.enter, if_neg hj]
  have hkk : (I'.ent d k).deInode = x := by rw [h.enter, if_pos rfl]
  have hnew : ∀ j, j < 64 → j ≠ k → (I'.ent d j).deInode ≠ 0 → (I'.ent d j).name ≠ nm := by
    intro j hj hjk hd
    rw [hne j hjk] at hd ⊢
    exact h.unused j hj hd
  refine ⟨by rw [hne 0 (by omega)]; exact hok.dot, by rw [hne 1 (by omega)]; exact hok.dotdot,
    ?_, ?_⟩
  · intro j hj hd
    by_cases hjk : j = k
    · subst hjk
      exact absurd (hkk.symm.trans hd) h.ne
    · rw [hne j hjk] at hd ⊢
      exact hok.dead j hj hd
  · intro a b ha hb hda hdb hn
    by_cases hak : a = k
    · by_cases hbk : b = k
      · rw [hak, hbk]
      · subst hak
        rw [h.name] at hn
        exact absurd hn.symm (hnew b hb hbk hdb)
    · by_cases hbk : b = k
      · subst hbk
        rw [h.name] at hn
        exact absurd hn (hnew a ha hak hda)
      · rw [hne a hak] at hda hn
        rw [hne b hbk] at hdb hn
        exact hok.distinct a b ha hb hda hdb hn

theorem Entered.kids (h : Entered I live d k nm x I') (ht : Treed I live) :
    (∀ e l, live e → ¬ (e = d ∧ l = k) → I'.kids e l = I.kids e l) ∧ I.kids d k = none ∧
      I'.kids d k = some x ∧ ∀ l, I'.kids x l = none := by
  refine ⟨?_, ?_, ?_, ?_⟩
  · intro e l he hne
    by_cases hed : e = d
    · subst hed
      have hlk : l ≠ k := fun hl => hne ⟨rfl, hl⟩
      simp only [Img.kids, h.dirs e he, h.enter, if_neg hlk]
    · exact congrFun (Treed.kids_congr (h.dirs e he) (fun hd => h.other e he hd hed)) l
  · simp [Img.kids, h.free]
  · refine Img.kids_eq_some.mpr ⟨(h.dirs d h.dir).trans h.isDir, h.two_le ht, h.lt, h.ne, ?_⟩
    rw [h.enter, if_pos rfl]
  · intro l
    by_contra hk
    obtain ⟨y, hy⟩ := Option.ne_none_iff_exists'.mp hk
    obtain ⟨hd, h2, h64, hy0, hye⟩ := Img.kids_eq_some.mp hy
    exact hy0 (hye.symm.trans ((h.new hd).2.2 l h2 h64))

/-- The tree with the new entry. -/
theorem Treed.link (h : Treed I live) (he : Entered I live d k nm x I') :
    Treed I' (fun y => live y ∨ y = x) := by
  obtain ⟨hother, hfree, hset, hleaf⟩ := he.kids h
  have hroot : I'.root ≠ x := by
    rw [he.root]
    rintro rfl
    exact he.fresh h.live_root
  have hent1 : ∀ i, live i → I.isDir i = true → I'.ent i 1 = I.ent i 1 := by
    intro i hi hd
    by_cases hid : i = d
    · subst hid
      rw [he.enter, if_neg (by have := he.two_le h; omega)]
    · rw [he.other i hi hd hid]
  refine ⟨?_, ?_, ?_, ?_, ?_, ?_⟩
  · rw [he.root]
    exact h.tree.link he.dir he.fresh hset hleaf hother hfree
  · rw [he.root, he.dirs _ h.live_root]
    exact h.rootDir
  · rintro i (hi | rfl)
    · exact ⟨(h.inum i hi).1, he.num i (Or.inl hi)⟩
    · exact ⟨he.ne, he.num _ (Or.inr rfl)⟩
  · rintro i (hi | rfl) hd
    · rw [he.dirs i hi] at hd
      by_cases hid : i = d
      · subst hid
        exact he.dirOk (h.dirOk i hi hd) (he.two_le h)
      · rw [he.other i hi hd hid]
        exact h.dirOk i hi hd
    · exact (he.new hd).1
  · rw [he.root, hent1 _ h.live_root h.rootDir]
    exact h.upRoot
  · rintro e l i (hel | rfl) hk hd
    · by_cases hc : e = d ∧ l = k
      · obtain ⟨rfl, rfl⟩ := hc
        rw [hset] at hk
        cases hk
        exact (he.new hd).2.1
      · rw [hother e l hel hc] at hk
        have hil := h.tree.kid_live e l i hel hk
        rw [he.dirs i hil] at hd
        rw [hent1 i hil hd]
        exact h.upKid e l i hel hk hd
    · rw [hleaf] at hk
      cases hk

theorem Named.link (h : Named I live) (he : Entered I live d k nm x I') (hnm : nm ≠ []) :
    Named I' (fun y => live y ∨ y = x) := by
  rintro i (hi | rfl) hd l hl hne
  · rw [he.dirs i hi] at hd
    by_cases hid : i = d
    · subst hid
      by_cases hlk : l = k
      · subst hlk
        rw [he.name]
        exact hnm
      · rw [he.enter, if_neg hlk] at hne ⊢
        exact h i hi hd l hl hne
    · rw [he.other i hi hd hid] at hne ⊢
      exact h i hi hd l hl hne
  · obtain ⟨hok, -, hz⟩ := he.new hd
    by_cases h2 : 2 ≤ l
    · exact absurd (hz l h2 hl) hne
    · obtain rfl | rfl : l = 0 ∨ l = 1 := by omega
      · rw [hok.dot.2]; simp
      · rw [hok.dotdot.2]; simp

/-- Entry `k` of directory `d` is emptied. -/
structure Erased (I : Img) (live : InodeId → Prop) (d : InodeId) (k : Nat) (j : InodeId)
    (I' : Img) : Prop where
  root : I'.root = I.root
  dir : live d
  isDir : I.isDir d = true
  kid : I.kids d k = some j
  num : ∀ i, live i → (I'.ino i).inInode = i
  dirs : ∀ i, live i → I'.isDir i = I.isDir i
  other : ∀ i, live i → I.isDir i = true → i ≠ d → I'.ent i = I.ent i
  keep : ∀ l, l ≠ k → I'.ent d l = I.ent d l
  gone : (I'.ent d k).deInode = 0 ∧ (I'.ent d k).name = []

theorem Erased.dirOk (h : Erased I live d k j I') (hok : DirOk (I.ent d) d) :
    DirOk (I'.ent d) d := by
  obtain ⟨-, h2, -, -, -⟩ := Img.kids_eq_some.mp h.kid
  have hne : ∀ l, (I'.ent d l).deInode ≠ 0 → l ≠ k := by
    rintro l hl rfl
    exact hl h.gone.1
  refine ⟨by rw [h.keep 0 (by omega)]; exact hok.dot, by rw [h.keep 1 (by omega)]; exact hok.dotdot,
    ?_, ?_⟩
  · intro l hl hd
    by_cases hlk : l = k
    · subst hlk
      exact h.gone.2
    · rw [h.keep l hlk] at hd ⊢
      exact hok.dead l hl hd
  · intro a b ha hb hda hdb hn
    have hka := h.keep a (hne a hda)
    have hkb := h.keep b (hne b hdb)
    rw [hka] at hda hn
    rw [hkb] at hdb hn
    exact hok.distinct a b ha hb hda hdb hn

/-- The tree without the subtree of that entry. -/
theorem Treed.unlink (h : Treed I live) (he : Erased I live d k j I') :
    Treed I' (fun y => live y ∧ ¬ Desc I.kids j y) := by
  obtain ⟨-, h2, h64, hj0, hj⟩ := Img.kids_eq_some.mp he.kid
  have hclr : I'.kids d k = none := by simp [Img.kids, he.gone.1]
  have hother : ∀ e l, live e → ¬ (e = d ∧ l = k) → I'.kids e l = I.kids e l := by
    intro e l hel hne
    by_cases hed : e = d
    · subst hed
      have hlk : l ≠ k := fun hl => hne ⟨rfl, hl⟩
      simp only [Img.kids, he.dirs e hel, he.keep l hlk]
    · exact congrFun (Treed.kids_congr (he.dirs e hel) (fun hd => he.other e hel hd hed)) l
  have hent1 : ∀ i, live i → I.isDir i = true → I'.ent i 1 = I.ent i 1 := by
    intro i hi hd
    by_cases hid : i = d
    · subst hid
      rw [he.keep 1 (by omega)]
    · rw [he.other i hi hd hid]
  refine ⟨?_, ?_, ?_, ?_, ?_, ?_⟩
  · rw [he.root]
    exact h.tree.unlink he.dir he.kid hclr hother
  · rw [he.root, he.dirs _ h.live_root]
    exact h.rootDir
  · rintro i ⟨hi, -⟩
    exact ⟨(h.inum i hi).1, he.num i hi⟩
  · rintro i ⟨hi, -⟩ hd
    rw [he.dirs i hi] at hd
    by_cases hid : i = d
    · subst hid
      exact he.dirOk (h.dirOk i hi hd)
    · rw [he.other i hi hd hid]
      exact h.dirOk i hi hd
  · rw [he.root, hent1 _ h.live_root h.rootDir]
    exact h.upRoot
  · rintro e l i ⟨hel, -⟩ hk hd
    have hc : ¬ (e = d ∧ l = k) := by
      rintro ⟨rfl, rfl⟩
      rw [hclr] at hk
      cases hk
    rw [hother e l hel hc] at hk
    have hil := h.tree.kid_live e l i hel hk
    rw [he.dirs i hil] at hd
    rw [hent1 i hil hd]
    exact h.upKid e l i hel hk hd

theorem Named.unlink (h : Named I live) (he : Erased I live d k j I') {live' : InodeId → Prop}
    (hsub : ∀ i, live' i → live i) : Named I' live' := by
  intro i hi hd l hl hne
  have hil := hsub i hi
  rw [he.dirs i hil] at hd
  by_cases hid : i = d
  · subst hid
    have hlk : l ≠ k := by
      rintro rfl
      exact hne he.gone.1
    rw [he.keep l hlk] at hne ⊢
    exact h i hil hd l hl hne
  · rw [he.other i hil hd hid] at hne ⊢
    exact h i hil hd l hl hne

end Crfs
