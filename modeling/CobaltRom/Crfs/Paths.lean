import CobaltRom.Crfs.Lookup
import CobaltRom.Crfs.Session

/-! Paths that still lead to the same place after a directory was changed. -/
namespace Crfs
open WriteBack SlotTree

/-- The inodes that `crfs_namei` looks up on its way. -/
def Img.way (I : Img) (d : InodeId) (comp : Name) : Name → List InodeId
  | [] => []
  | c :: rest =>
    if c ≠ 47 then I.way d (comp ++ [c]) rest
    else if comp = [] then I.way d [] rest
    else
      match crfsLookupDirent (I.val (I.ino d).inFirst) comp with
      | none => []
      | some de => de.deInode :: I.way de.deInode [] rest

/-- The inodes on the way of a whole path. -/
def Img.wayOf (I : Img) (pwd : InodeId) (fname : Name) : List InodeId :=
  if fname.head? = some 47 then I.way I.root [] fname.tail else I.way pwd [] fname

/-- What the directories of `I` hold of the inodes in `keep` can be found in `I'`. -/
structure Finds (live keep : InodeId → Prop) (I I' : Img) : Prop where
  root : I'.root = I.root
  keepRoot : keep I.root
  look : ∀ d nm de, live d → I.isDir d = true → keep d →
    crfsLookupDirent (I.val (I.ino d).inFirst) nm = some de → keep de.deInode →
      crfsLookupDirent (I'.val (I'.ino d).inFirst) nm = some de
  mask : ∀ i, live i → keep i → I'.isDir i = I.isDir i
  inum : ∀ i, live i → keep i → (I'.ino i).inInode = (I.ino i).inInode

variable {σ τ : Vol} {s s' : Shape} {I I' : Img} {live live' keep : InodeId → Prop}
  {d i j x pwd : InodeId} {de : Dirent} {fname nm comp rest : Name} {k : Nat}

/-- An entry that is still in its place is found by its name. -/
theorem Treed.lookup_ent (h : Treed I' live') (hd : live' d) (hdir : I'.isDir d = true)
    (hl : crfsLookupDirent (I.val (I.ino d).inFirst) nm = some de)
    (hent : ∀ k, k < 64 → I.ent d k = de → I'.ent d k = de) :
    crfsLookupDirent (I'.val (I'.ino d).inFirst) nm = some de := by
  obtain ⟨hlen, hname, hne, k, hk, hde⟩ := crfsLookupDirent_some hl
  have he : (I'.val (I'.ino d).inFirst).dirent k = de := hent k hk hde
  rw [(h.dirOk d hd hdir).lookup hlen hk (by rw [he]; exact hne) (by rw [he]; exact hname), he]

theorem Finds.resolve (h : Finds live keep I I') (ht : Treed I live) (rest : Name) :
    ∀ (d : InodeId) (comp : Name), live d → I.isDir d = true → keep d →
      (∀ i ∈ I.way d comp rest, keep i) → ∀ nm e, I.resolve d comp rest = .ok (nm, e) →
        I'.resolve d comp rest = .ok (nm, e) ∧ keep e := by
  induction rest with
  | nil =>
    intro d comp _ _ hk _ nm e he
    cases he
    exact ⟨rfl, hk⟩
  | cons c rest ih =>
    intro d comp hd hdir hk hway nm e he
    rw [Img.way] at hway
    rw [Img.resolve] at he ⊢
    split at he
    · rename_i hc
      rw [if_pos hc] at hway ⊢
      exact ih d _ hd hdir hk hway nm e he
    · rename_i hc
      rw [if_neg hc] at hway ⊢
      split at he
      · rename_i hnil
        rw [if_pos hnil] at hway ⊢
        exact ih d _ hd hdir hk hway nm e he
      · rename_i hnil
        rw [if_neg hnil] at hway ⊢
        cases hl : crfsLookupDirent (I.val (I.ino d).inFirst) comp with
        | none =>
          rw [hl] at he
          cases he
        | some de =>
          rw [hl] at hway he
          have hkd : keep de.deInode := hway _ List.mem_cons_self
          have hlive := (ht.lookup_live hd hdir hl).1
          rw [h.look d comp de hd hdir hk hl hkd]
          simp only [h.mask _ hlive hkd, h.inum _ hlive hkd] at he ⊢
          split at he
          · rename_i hr
            rw [if_pos hr]
            cases he
            exact ⟨rfl, hk⟩
          · rename_i hr
            rw [if_neg hr]
            split at he
            · cases he
            · rename_i hnd
              rw [if_neg hnd]
              rw [not_or] at hnd
              exact ih _ [] hlive (Bool.of_not_eq_false hnd.2) hkd
                (fun i hi => hway i (List.mem_cons_of_mem _ hi)) nm e he

/-- A path on whose way all inodes are kept leads to the same directory. -/
theorem Finds.namei (h : Finds live keep I I') (ht : Treed I live) (hpwd : pwd = I.root)
    (hway : ∀ i ∈ I.wayOf pwd fname, keep i) {e : InodeId} (he : I.namei pwd fname = .ok (nm, e)) :
    I'.namei pwd fname = .ok (nm, e) ∧ keep e := by
  rw [Img.wayOf, hpwd] at hway
  rw [Img.namei, hpwd] at he ⊢
  rw [h.root]
  split at he
  · rename_i hc
    rw [if_pos hc] at hway ⊢
    exact h.resolve ht _ _ _ ht.live_root ht.rootDir h.keepRoot hway _ _ he
  · rename_i hc
    rw [if_neg hc] at hway ⊢
    exact h.resolve ht _ _ _ ht.live_root ht.rootDir h.keepRoot hway _ _ he

/-! ### After a creation -/

theorem Linked.finds (hl : Linked σ s d nm x τ s') :
    Finds s.live (fun _ => True) σ.img τ.img := by
  obtain ⟨k, he⟩ := hl.entered
  have hlive : ∀ i, s.live i → s'.live i := by
    intro i hi
    rw [hl.live]
    exact Or.inl hi
  refine ⟨he.root, trivial, ?_, fun i hi _ => he.dirs i hi, ?_⟩
  · intro e nm' de hel hdir _ hlook _
    refine hl.inv.tree.lookup_ent (hlive e hel) (by rw [he.dirs e hel, hdir]) hlook ?_
    intro j hj hde
    by_cases hed : e = d
    · subst hed
      have hjk : j ≠ k := by
        rintro rfl
        have hfree := he.free
        rw [hde] at hfree
        exact (crfsLookupDirent_some hlook).2.2.1 hfree
      rw [he.enter, if_neg hjk, hde]
    · rw [he.other e hel hdir hed, hde]
  · intro i hi _
    by_cases hid : i = d
    · obtain ⟨f, l, hino⟩ := hl.inoDir
      rw [hid, hino]
    · rw [hl.ino i hi hid]

/-- The new file can be opened by the path it was created with. -/
theorem Linked.opens (hl : Linked σ s d nm x τ s') (h : Inv σ s) (hz : (0 : UInt8) ∉ fname)
    (hr : Room σ s fname d nm k) (hnm : nm ≠ []) (hf : τ.img.isDir x = false) :
    (crfsOpen fname).eval τ = (.ok (openHandle τ x), τ) := by
  obtain ⟨e, he⟩ := hl.entered
  have hpwd : τ.glob.crfsPwd = σ.glob.crfsPwd := by rw [hl.inv.pwd, he.root, h.pwd]
  have hnamei := (hl.finds.namei h.tree h.pwd (fun _ _ => trivial) hr.namei).1
  have hd : s'.live d := by
    rw [hl.live]
    exact Or.inl he.dir
  have hdir : τ.img.isDir d = true := by rw [he.dirs d he.dir, he.isDir]
  have hent : (τ.img.val (τ.img.ino d).inFirst).dirent e = ⟨x, Dirent.pad nm⟩ := by
    have henter := he.enter e
    rwa [if_pos rfl] at henter
  have hlook : crfsLookupDirent (τ.img.val (τ.img.ino d).inFirst) nm =
      some ⟨x, Dirent.pad nm⟩ := by
    rw [(hl.inv.tree.dirOk d hd hdir).lookup he.short he.lt (by rw [hent]; exact he.ne)
      (by rw [hent]; exact Dirent.cstr_pad he.short he.nul), hent]
  have hopened : τ.img.opened τ.glob.crfsPwd fname = .ok x := by
    rw [Img.opened, hpwd, hnamei]
    have hlen : ¬ nm.length > crfsFilenameMax := by
      have := he.short
      simp only [crfsFilenameMax]
      omega
    have hnode : ¬ (τ.img.nodeAt d nm).isDir = true := by
      rw [Img.nodeAt, if_neg hnm, hlook]
      exact Bool.eq_false_iff.mp hf
    simp only [if_neg hlen, if_neg hnode, hlook]
  rw [crfsOpen_eval hl.inv hz, hopened]
  rfl

/-! ### After a removal -/

theorem Removed.finds (hr : Removed σ s d k j τ s') (h : Inv σ s) :
    Finds s.live s'.live σ.img τ.img := by
  have he := hr.erased
  refine ⟨he.root, ?_, ?_, fun i hi _ => he.dirs i hi, ?_⟩
  · rw [← he.root]
    exact hr.inv.tree.live_root
  · intro e nm' de hel hdir hke hlook hkde
    refine hr.inv.tree.lookup_ent hke (by rw [he.dirs e hel, hdir]) hlook ?_
    intro l hl hde
    by_cases hed : e = d
    · subst hed
      have hlk : l ≠ k := by
        rintro rfl
        obtain ⟨-, -, -, -, hkid⟩ := Img.kids_eq_some.mp he.kid
        rw [hr.live] at hkde
        rw [hde] at hkid
        exact hkde.2 (hkid ▸ .refl)
      rw [he.keep l hlk, hde]
    · rw [he.other e hel hdir hed, hde]
  · intro i hi _
    rw [he.num i hi, (h.tree.inum i hi).2]

end Crfs
