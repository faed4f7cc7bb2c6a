import CobaltRom.Crfs.Session

/-! A device of 24 blocks that holds a file "a" over given blocks and an empty file "b". -/
namespace Crfs
open WriteBack SlotTree LinkChain

/-- The blocks of a file, in an order of its own, on such a device. -/
structure Spread (l : List BlockId) : Prop where
  nodup : l.Nodup
  low : ∀ b ∈ l, b.toNat < 24
  free : ∀ b ∈ l, b ≠ 0 ∧ b ≠ 2 ∧ b ≠ 3 ∧ b ≠ 16

abbrev filledSuper : Block := nextSuper (mkfsSuper 98304 1)

def filledRoot : Block := ((newDirectory 1 1).setDirent 2 2 [97]).setDirent 3 3 [98]

def filledTable (l : List BlockId) : Block :=
  (mkfsTable.setItInode 2 ⟨2, l.getD 0 0, l.getD (l.length - 1) 0, UInt32.ofNat (4080 * l.length),
    fmaskFile⟩).setItInode 3 ⟨3, 0, 0, 0, fmaskFile⟩

/-- The device. The data of the file is zero. -/
def filledDisk (l : List BlockId) : BlockId → Block := fun b =>
  if b ∈ l then zeroBlock.setFbNext (l.getD (l.idxOf b + 1) 0)
  else if b = 3 then filledRoot
  else if b = 2 then filledTable l
  else mkfsDisk 98304 (fun _ => zeroBlock) b

def filledShape (l : List BlockId) : Shape where
  live i := i = 1 ∨ i = 2 ∨ i = 3
  num i := i = 1 ∨ i = 2 ∨ i = 3
  own b := if b ∈ l then some (.file 2) else if b = 2 then some (.itable 0)
    else if b = 3 then some (.dir 1) else none

abbrev filledImg (l : List BlockId) : Img := imgOf (filledDisk l) filledSuper

variable {l : List BlockId} {i x : InodeId} {b : BlockId} {k : Nat}

theorem filledDisk_mem (h : b ∈ l) :
    filledDisk l b = zeroBlock.setFbNext (l.getD (l.idxOf b + 1) 0) := by
  rw [filledDisk, if_pos h]

theorem filledDisk_table (h : Spread l) : filledDisk l 2 = filledTable l := by
  have h2 : (2 : BlockId) ∉ l := fun h2 => (h.free 2 h2).2.1 rfl
  rw [filledDisk, if_neg h2]
  rfl

theorem filledDisk_root (h : Spread l) : filledDisk l 3 = filledRoot := by
  have h3 : (3 : BlockId) ∉ l := fun h3 => (h.free 3 h3).2.2.1 rfl
  rw [filledDisk, if_neg h3]
  rfl

theorem filledDisk_slot (h : Spread l) :
    filledDisk l 0 = filledSuper ∧ filledDisk l 16 = mkfsSuper 98304 1 := by
  have h0 : (0 : BlockId) ∉ l := fun h0 => (h.free 0 h0).1 rfl
  have h16 : (16 : BlockId) ∉ l := fun h16 => (h.free 16 h16).2.2.2 rfl
  refine ⟨?_, ?_⟩
  · rw [filledDisk, if_neg h0]
    rfl
  · rw [filledDisk, if_neg h16]
    rfl

theorem filledImg_vt (k : Nat) (hk : k < 256) : (filledImg l).vt k = if k = 0 then 2 else 0 := by
  change filledSuper.sbVtable k = _
  rw [sbVtable_nextSuper, sbVtable_mkfsSuper k hk]

theorem filledImg_root : (filledImg l).root = 1 := by
  change filledSuper.sbRoot = 1
  simp

theorem filledImg_ino (h : Spread l) (hi : i.toNat < 256) :
    (filledImg l).ino i = (filledTable l).itInode i.toNat := by
  change (filledDisk l (filledSuper.sbVtable (i.toNat / 256))).itInode (i.toNat % 256) = _
  rw [Nat.div_eq_of_lt hi, Nat.mod_eq_of_lt hi, sbVtable_nextSuper,
    sbVtable_mkfsSuper 0 (by decide),
    if_pos rfl, filledDisk_table h]

theorem filledImg_one (h : Spread l) : (filledImg l).ino 1 = ⟨1, 3, 3, 0, fmaskDir⟩ := by
  rw [filledImg_ino h (by decide), show (1 : InodeId).toNat = 1 from rfl, filledTable,
    Block.itInode_setItInode_ne (by decide), Block.itInode_setItInode_ne (by decide)]
  exact Block.itInode_setItInode_self (by decide) _ _

theorem filledImg_two (h : Spread l) : (filledImg l).ino 2 =
    ⟨2, l.getD 0 0, l.getD (l.length - 1) 0, UInt32.ofNat (4080 * l.length), fmaskFile⟩ := by
  rw [filledImg_ino h (by decide), show (2 : InodeId).toNat = 2 from rfl, filledTable,
    Block.itInode_setItInode_ne (by decide), Block.itInode_setItInode_self (by decide)]

theorem filledImg_three (h : Spread l) : (filledImg l).ino 3 = ⟨3, 0, 0, 0, fmaskFile⟩ := by
  rw [filledImg_ino h (by decide), show (3 : InodeId).toNat = 3 from rfl, filledTable,
    Block.itInode_setItInode_self (by decide)]

theorem filledImg_isDir (h : Spread l) (hi : (filledShape l).live i) :
    (filledImg l).isDir i = decide (i = 1) := by
  rcases hi with rfl | rfl | rfl
  · rw [Img.isDir, filledImg_one h]
    decide
  · rw [Img.isDir, filledImg_two h]
    change (fmaskFile &&& fmaskDir != 0) = _
    decide
  · rw [Img.isDir, filledImg_three h]
    decide

theorem filledRoot_dirent (k : Nat) : filledRoot.dirent k =
    if k = 3 then ⟨3, Dirent.pad [98]⟩ else if k = 2 then ⟨2, Dirent.pad [97]⟩
    else (newDirectory 1 1).dirent k := by
  unfold filledRoot
  by_cases h3 : k = 3
  · rw [if_pos h3, h3, Block.dirent_setDirent_self (by decide)]
  · rw [if_neg h3, Block.dirent_setDirent_ne h3]
    by_cases h2 : k = 2
    · rw [if_pos h2, h2, Block.dirent_setDirent_self (by decide)]
    · rw [if_neg h2, Block.dirent_setDirent_ne h2]

theorem filledImg_ent (h : Spread l) : (filledImg l).ent 1 = filledRoot.dirent := by
  funext k
  rw [Img.ent, filledImg_one h]
  exact congrArg (Block.dirent · k) (filledDisk_root h)

/-- The root holds the two files and nothing else does. -/
theorem filledImg_kids (h : Spread l) (hi : (filledShape l).live i) :
    (filledImg l).kids i k = some x ↔ i = 1 ∧ (k = 2 ∧ x = 2 ∨ k = 3 ∧ x = 3) := by
  have hok := newDirectory_ok (x := 1) (p := 1) (by decide) (by decide)
  rw [Img.kids_eq_some, filledImg_isDir h hi, decide_eq_true_eq]
  constructor
  · rintro ⟨rfl, h2, h64, hx, he⟩
    rw [filledImg_ent h, filledRoot_dirent] at he
    refine ⟨rfl, ?_⟩
    split at he
    · exact Or.inr ⟨by assumption, he.symm⟩
    · split at he
      · exact Or.inl ⟨by assumption, he.symm⟩
      · exact absurd (he.symm.trans (hok.2.2 k h2 h64)) hx
  · rintro ⟨rfl, ⟨rfl, rfl⟩ | ⟨rfl, rfl⟩⟩
    · exact ⟨rfl, by decide, by decide, by decide, by rw [filledImg_ent h, filledRoot_dirent]; rfl⟩
    · exact ⟨rfl, by decide, by decide, by decide, by rw [filledImg_ent h, filledRoot_dirent]; rfl⟩

theorem filledRoot_ok : DirOk filledRoot.dirent 1 := by
  have hok := (newDirectory_ok (x := 1) (p := 1) (by decide) (by decide)).1
  have hz := (newDirectory_ok (x := 1) (p := 1) (by decide) (by decide)).2.2
  have ha : Dirent.name ⟨2, Dirent.pad [97]⟩ = [97] := Dirent.cstr_pad (by decide) (by decide)
  have hb : Dirent.name ⟨3, Dirent.pad [98]⟩ = [98] := Dirent.cstr_pad (by decide) (by decide)
  have hname : ∀ j, j < 64 → (filledRoot.dirent j).deInode ≠ 0 →
      j < 4 ∧ (filledRoot.dirent j).name =
        if j = 3 then [98] else if j = 2 then [97] else if j = 1 then [46, 46] else [46] := by
    intro j hj hne
    rw [filledRoot_dirent] at hne ⊢
    by_cases h3 : j = 3
    · subst h3
      exact ⟨by decide, hb⟩
    · rw [if_neg h3] at hne ⊢
      rw [if_neg h3]
      by_cases h2 : j = 2
      · subst h2
        exact ⟨by decide, ha⟩
      · rw [if_neg h2] at hne ⊢
        rw [if_neg h2]
        have hlt : j < 2 := by
          by_contra hlt
          exact hne (hz j (by omega) hj)
        refine ⟨by omega, ?_⟩
        obtain rfl | rfl : j = 0 ∨ j = 1 := by omega
        · exact hok.dot.2
        · exact hok.dotdot.2
  refine ⟨?_, ?_, ?_, ?_⟩
  · rw [filledRoot_dirent]
    exact hok.dot
  · rw [filledRoot_dirent]
    exact hok.dotdot
  · intro j hj hd
    rw [filledRoot_dirent] at hd ⊢
    split at hd
    · cases hd
    · split at hd
      · cases hd
      · rw [if_neg (by assumption), if_neg (by assumption)]
        exact hok.dead j hj hd
  · intro j m hj hm hdj hdm hn
    obtain ⟨hj4, hjn⟩ := hname j hj hdj
    obtain ⟨hm4, hmn⟩ := hname m hm hdm
    rw [hjn, hmn] at hn
    clear hjn hmn hdj hdm hj hm
    revert hn
    interval_cases j <;> interval_cases m <;> decide

theorem filled_treed (h : Spread l) : Treed (filledImg l) (filledShape l).live := by
  have hkid : ∀ {i k x}, (filledShape l).live i → (filledImg l).kids i k = some x →
      i = 1 ∧ (k = 2 ∧ x = 2 ∨ k = 3 ∧ x = 3) := fun hi hk => (filledImg_kids h hi).mp hk
  have hone : (filledShape l).live 1 := Or.inl rfl
  have hup : ((filledImg l).ent 1 1).deInode = 1 := by
    rw [filledImg_ent h, filledRoot_dirent]
    exact (newDirectory_ok (x := 1) (p := 1) (by decide) (by decide)).2.1
  refine ⟨⟨?_, ?_, ?_, ?_, ?_⟩, ?_, ?_, ?_, ?_, ?_⟩
  · rw [filledImg_root]
    exact hone
  · intro d k x hd hk
    rcases hkid hd hk with ⟨-, ⟨-, rfl⟩ | ⟨-, rfl⟩⟩
    · exact Or.inr (Or.inl rfl)
    · exact Or.inr (Or.inr rfl)
  · rw [filledImg_root]
    rintro x (rfl | rfl | rfl)
    · exact .refl
    · exact .step .refl ((filledImg_kids h hone).mpr ⟨rfl, Or.inl ⟨rfl, rfl⟩⟩)
    · exact .step .refl ((filledImg_kids h hone).mpr ⟨rfl, Or.inr ⟨rfl, rfl⟩⟩)
  · intro d k e m x hd he hk hm
    rcases hkid hd hk with ⟨rfl, ⟨rfl, rfl⟩ | ⟨rfl, rfl⟩⟩
    · rcases hkid he hm with ⟨rfl, ⟨rfl, -⟩ | ⟨-, hx⟩⟩
      · exact ⟨rfl, rfl⟩
      · cases hx
    · rcases hkid he hm with ⟨rfl, ⟨-, hx⟩ | ⟨rfl, -⟩⟩
      · cases hx
      · exact ⟨rfl, rfl⟩
  · intro d k hd hk
    rw [filledImg_root] at hk
    rcases hkid hd hk with ⟨-, ⟨-, hx⟩ | ⟨-, hx⟩⟩
    · cases hx
    · cases hx
  · rw [filledImg_root, filledImg_isDir h hone]
    rfl
  · rintro i (rfl | rfl | rfl)
    · exact ⟨by decide, by rw [filledImg_one h]⟩
    · exact ⟨by decide, by rw [filledImg_two h]⟩
    · exact ⟨by decide, by rw [filledImg_three h]⟩
  · intro i hi hd
    rw [filledImg_isDir h hi, decide_eq_true_eq] at hd
    subst hd
    rw [filledImg_ent h]
    exact filledRoot_ok
  · rw [filledImg_root]
    exact hup
  · intro d k i hd hk hdir
    rcases hkid hd hk with ⟨rfl, ⟨-, rfl⟩ | ⟨-, rfl⟩⟩
    · rw [filledImg_isDir h (Or.inr (Or.inl rfl))] at hdir
      cases hdir
    · rw [filledImg_isDir h (Or.inr (Or.inr rfl))] at hdir
      cases hdir

theorem filled_named (h : Spread l) : Named (filledImg l) (filledShape l).live := by
  have hok := (newDirectory_ok (x := 1) (p := 1) (by decide) (by decide)).1
  have hz := (newDirectory_ok (x := 1) (p := 1) (by decide) (by decide)).2.2
  intro i hi hd k hk hne
  rw [filledImg_isDir h hi, decide_eq_true_eq] at hd
  subst hd
  rw [filledImg_ent h, filledRoot_dirent] at hne ⊢
  by_cases h3 : k = 3
  · rw [if_pos h3]
    decide
  · rw [if_neg h3] at hne ⊢
    by_cases h2 : k = 2
    · rw [if_pos h2]
      decide
    · rw [if_neg h2] at hne ⊢
      have hlt : k < 2 := by
        by_contra hlt
        exact hne (hz k (by omega) hk)
      obtain rfl | rfl : k = 0 ∨ k = 1 := by omega
      · rw [hok.dot.2]
        decide
      · rw [hok.dotdot.2]
        decide

/-- The chain of the first file. -/
theorem filled_chain (h : Spread l) : IsChain (filledImg l).val (l.getD 0 0) l := by
  refine isChain_of_getD (fun b hb => (h.free b hb).1) ?_
  intro k hk
  have hmem : l.getD k 0 ∈ l := by
    rw [List.getD_eq_getElem _ _ hk]
    exact List.getElem_mem hk
  have hidx : l.idxOf (l.getD k 0) = k := by
    rw [List.getD_eq_getElem _ _ hk]
    exact h.nodup.idxOf_getElem k hk
  change (filledDisk l (l.getD k 0)).fbNext = _
  rw [filledDisk_mem hmem, Block.fbNext_setFbNext, hidx]

theorem filledShape_own (h : Spread l) {o : Owner} : (filledShape l).own b = some o ↔
    (o = .file 2 ∧ b ∈ l) ∨ (o = .itable 0 ∧ b = 2) ∨ (o = .dir 1 ∧ b = 3) := by
  have hfree := h.free b
  change (if b ∈ l then _ else if b = 2 then _ else if b = 3 then _ else _ : Option Owner) = _ ↔ _
  by_cases hb : b ∈ l
  · obtain ⟨-, h2, h3, -⟩ := hfree hb
    simp only [hb, h2, h3, if_true, Option.some.injEq, and_true, and_false, or_false]
    exact eq_comm
  · by_cases h2 : b = 2
    · subst h2
      simp only [hb, if_true, if_false, Option.some.injEq, and_true, and_false, false_or,
        show ¬ (2 : BlockId) = 3 by decide, or_false]
      exact eq_comm
    · by_cases h3 : b = 3
      · subst h3
        simp only [hb, h2, if_true, if_false, Option.some.injEq, and_true, and_false, false_or]
        exact eq_comm
      · simp only [hb, h2, h3, if_false, and_false, or_false, reduceCtorEq]

theorem filledShape_used (h : Spread l) : (filledShape l).own b ≠ none ∨ b = 0 ∨ b = 16 ↔
    (b = 0 ∨ b = 2 ∨ b = 3 ∨ b = 16) ∨ b ∈ l := by
  have hown : (filledShape l).own b ≠ none ↔ b ∈ l ∨ b = 2 ∨ b = 3 := by
    rw [Option.ne_none_iff_exists']
    constructor
    · rintro ⟨o, ho⟩
      rcases (filledShape_own h).mp ho with ⟨-, hm⟩ | ⟨-, hm⟩ | ⟨-, hm⟩
      · exact Or.inl hm
      · exact Or.inr (Or.inl hm)
      · exact Or.inr (Or.inr hm)
    · rintro (hm | hm | hm)
      · exact ⟨_, (filledShape_own h).mpr (Or.inl ⟨rfl, hm⟩)⟩
      · exact ⟨_, (filledShape_own h).mpr (Or.inr (Or.inl ⟨rfl, hm⟩))⟩
      · exact ⟨_, (filledShape_own h).mpr (Or.inr (Or.inr ⟨rfl, hm⟩))⟩
  rw [hown]
  tauto

theorem filled_owned (h : Spread l) : Owned (filledImg l) (filledShape l) := by
  have htwo : (filledShape l).live 2 := Or.inr (Or.inl rfl)
  have hnext : ∀ b ∈ l, ((filledImg l).val b).fbNext = l.getD (l.idxOf b + 1) 0 := by
    intro b hb
    change (filledDisk l b).fbNext = _
    rw [filledDisk_mem hb, Block.fbNext_setFbNext]
  have hget : ∀ k, l.getD k 0 = 0 ∨ l.getD k 0 ∈ l := by
    intro k
    by_cases hk : k < l.length
    · rw [List.getD_eq_getElem _ _ hk]
      exact Or.inr (List.getElem_mem hk)
    · exact Or.inl (List.getD_eq_default _ _ (by omega))
  refine ⟨?_, ?_, ?_, ?_, ?_, ?_, ?_⟩
  · intro i hi
    have h0 : i.toNat / 256 = 0 := by
      rcases hi with rfl | rfl | rfl <;> rfl
    rw [h0, filledImg_vt 0 (by decide)]
    decide
  · intro k b
    rw [filledShape_own h]
    constructor
    · rintro (⟨ho, -⟩ | ⟨ho, rfl⟩ | ⟨ho, -⟩)
      · cases ho
      · cases ho
        exact ⟨by decide, by rw [filledImg_vt 0 (by decide)]; rfl, by decide⟩
      · cases ho
    · rintro ⟨hk, hv, h0⟩
      rw [filledImg_vt k hk] at hv
      split at hv
      · rename_i hk0
        subst hk0
        exact Or.inr (Or.inl ⟨rfl, hv.symm⟩)
      · exact absurd hv.symm h0
  · intro i b
    rw [filledShape_own h]
    constructor
    · rintro (⟨ho, -⟩ | ⟨ho, -⟩ | ⟨ho, rfl⟩)
      · cases ho
      · cases ho
      · cases ho
        exact ⟨Or.inl rfl, by rw [filledImg_isDir h (Or.inl rfl)]; rfl, by rw [filledImg_one h]⟩
    · rintro ⟨hi, hd, hf⟩
      rw [filledImg_isDir h hi, decide_eq_true_eq] at hd
      subst hd
      rw [filledImg_one h] at hf
      exact Or.inr (Or.inr ⟨rfl, hf.symm⟩)
  · intro i b ho
    rcases (filledShape_own h).mp ho with ⟨ho, hb⟩ | ⟨ho, -⟩ | ⟨ho, -⟩
    · cases ho
      refine ⟨htwo, by rw [filledImg_isDir h htwo]; rfl, ?_⟩
      rw [hnext b hb]
      exact (hget _).imp_right fun hm => (filledShape_own h).mpr (Or.inl ⟨rfl, hm⟩)
    · cases ho
    · cases ho
  · rintro i (rfl | rfl | rfl) hd
    · rw [filledImg_isDir h (Or.inl rfl)] at hd
      cases hd
    · rw [filledImg_two h]
      exact (hget 0).imp_right fun hm => (filledShape_own h).mpr (Or.inl ⟨rfl, hm⟩)
    · rw [filledImg_three h]
      exact Or.inl rfl
  · cases ho : (filledShape l).own 0 with
    | none => rfl
    | some o =>
      rcases (filledShape_own h).mp ho with ⟨-, hm⟩ | ⟨-, hm⟩ | ⟨-, hm⟩
      · exact absurd rfl (h.free 0 hm).1
      · cases hm
      · cases hm
  · cases ho : (filledShape l).own 16 with
    | none => rfl
    | some o =>
      rcases (filledShape_own h).mp ho with ⟨-, hm⟩ | ⟨-, hm⟩ | ⟨-, hm⟩
      · exact absurd rfl (h.free 16 hm).2.2.2
      · cases hm
      · cases hm

theorem filled_exact (h : Spread l) : Exact (filledImg l) (filledShape l) := by
  refine ⟨fun i => Iff.rfl, ?_, ?_, ?_⟩
  · intro b hb
    rcases (filledShape_own h).mp hb with ⟨ho, -⟩ | ⟨ho, -⟩ | ⟨ho, -⟩ <;> cases ho
  · rintro i (rfl | rfl | rfl) hd
    · rw [filledImg_isDir h (Or.inl rfl)] at hd
      cases hd
    · refine ⟨l, by rw [filledImg_two h]; exact filled_chain h, fun b => ?_⟩
      rw [filledShape_own h]
      simp
    · refine ⟨[], by rw [filledImg_three h]; rfl, fun b => ?_⟩
      rw [filledShape_own h]
      simp
  · intro k hk hne
    rw [filledImg_vt k hk] at hne
    split at hne
    · rename_i h0
      rw [h0]
      decide
    · exact absurd rfl hne

theorem filled_blockCount : blockCount filledSuper = 24 := goodSize_small.blockCount 1

theorem filled_wfImage (h : Spread l) : WfImage (filledDisk l) filledSuper (filledShape l) := by
  refine ⟨filled_treed h, filled_named h, filled_owned h, filled_exact h, ?_, ?_, ?_⟩
  · intro b hb
    rw [filled_blockCount]
    cases ho : (filledShape l).own b with
    | none => exact absurd ho hb
    | some o =>
      rcases (filledShape_own h).mp ho with ⟨-, hm⟩ | ⟨-, rfl⟩ | ⟨-, rfl⟩
      · exact h.low b hm
      · decide
      · decide
  · rw [filled_blockCount]
    decide
  · rw [filled_blockCount]
    decide

/-- The numbers in use, as a bitmap of `n` bytes. -/
def bitmapOf (n : Nat) (ks : List Nat) : List UInt8 :=
  ks.foldl Bitmap.set (List.replicate n 0)

theorem mem_foldl_set (ks : List Nat) : ∀ (m : List UInt8) (k : Nat),
    Bitmap.mem (ks.foldl Bitmap.set m) k =
      (Bitmap.mem m k || decide (k ∈ ks ∧ k < 8 * m.length)) := by
  induction ks with
  | nil =>
    intro m k
    simp
  | cons a ks ih =>
    intro m k
    rw [List.foldl_cons, ih, Bitmap.mem_set, Bitmap.length_set]
    by_cases ha : k = a
    · subst ha
      by_cases hk : k < 8 * m.length <;> simp [hk]
    · simp [ha]

theorem mem_bitmapOf (n k : Nat) (ks : List Nat) :
    Bitmap.mem (bitmapOf n ks) k = decide (k ∈ ks ∧ k < 8 * n) := by
  rw [bitmapOf, mem_foldl_set, Bitmap.mem_replicate, List.length_replicate, Bool.false_or]

theorem length_bitmapOf (n : Nat) (ks : List Nat) : (bitmapOf n ks).length = n := by
  have h : ∀ m : List UInt8, (ks.foldl Bitmap.set m).length = m.length := by
    induction ks with
    | nil => exact fun _ => rfl
    | cons a ks ih =>
      intro m
      rw [List.foldl_cons, ih, Bitmap.length_set]
  rw [bitmapOf, h, List.length_replicate]

theorem mem_filledInums (k n : Nat) : Bitmap.mem (15 :: List.replicate n 0) k =
    decide (k = 0 ∨ k = 1 ∨ k = 2 ∨ k = 3) := by
  rw [Bitmap.mem_cons_replicate]
  by_cases hk : k < 8
  · revert k
    decide
  · rw [Bitmap.bit_eq_false (by omega)]
    symm
    rw [decide_eq_false_iff_not]
    omega

theorem filled_pickSuper (h : Spread l) :
    pickSuper (filledDisk l 0) (filledDisk l 16) (-1) = some (0, filledSuper) := by
  obtain ⟨h0, h16⟩ := filledDisk_slot h
  rw [h0, h16]
  exact pickSuper_mkfs 98304 (fun _ => zeroBlock) (-1)

/-- The volume of the device once it is mounted. -/
def filledVol (l : List BlockId) : Vol where
  val := filledDisk l
  dirty _ := false
  glob :=
    { blockFreemap :=
        ⟨0, 3, bitmapOf 3 ([0, 2, 3, 16] ++ l.map UInt16.toNat), List.replicate 3 0, false, false⟩
      inodeFreemap :=
        ⟨0, 8192, 15 :: List.replicate 8191 0, List.replicate 8192 0, false, false⟩
      superBlock := filledSuper
      crfsWhichSuper := 0
      crfsPwd := 1 }

theorem filled_mounted (h : Spread l) : ∃ c : Machine,
    crfsInit (boot (filledDisk l)) = some (true, c) ∧ c.vol = filledVol l ∧
      Mounted c.vol (filledShape l) ∧ c.store.Coherent ∧ c.store.cache ≠ [] := by
  have hp : pickSuper ((boot (filledDisk l)).store.disk 0) ((boot (filledDisk l)).store.disk 16)
      (boot (filledDisk l)).glob.crfsWhichSuper = some (0, filledSuper) := filled_pickSuper h
  obtain ⟨c, hc, hm, -, hcoh, hne, hval, hdirty, hsb, hw, hfb, hfi, hbl, hil, hfull,
      hstray⟩ := crfsInit_mounted (c := boot (filledDisk l)) (filled_wfImage h) hp
  rw [filled_blockCount] at hbl
  refine ⟨c, hc, ?_, hm, hcoh, hne⟩
  have hbm : c.vol.bm =
      ⟨0, 3, bitmapOf 3 ([0, 2, 3, 16] ++ l.map UInt16.toNat), List.replicate 3 0,
        false, false⟩ := by
    refine hfb.eq_of_isset hm.inv.blocks.ok ?_ ?_ ?_ (length_bitmapOf _ _) ?_
    · rw [Freemap.limit] at hbl
      omega
    · exact Bool.of_not_eq_true fun hf => hfull (Or.inl hf)
    · exact Bool.of_not_eq_true fun hf => hstray (Or.inl hf)
    · intro k hk
      have hb := hm.inv.blocks.exact (UInt16.ofNat k)
      have hto : (UInt16.ofNat k).toNat = k :=
        UInt16.toNat_ofNat_of_lt' (by simp only [UInt16.size]; omega)
      rw [hto] at hb
      rw [mem_bitmapOf, Bool.eq_iff_iff, hb, decide_eq_true_eq]
      have hkl : k ∈ l.map UInt16.toNat ↔ UInt16.ofNat k ∈ l := by
        rw [List.mem_map]
        constructor
        · rintro ⟨b, hbl, rfl⟩
          rwa [UInt16.ofNat_toNat]
        · exact fun hmem => ⟨_, hmem, hto⟩
      have hnum : ∀ b : BlockId, UInt16.ofNat k = b ↔ k = b.toNat := by
        intro b
        rw [← UInt16.toNat_inj, hto]
      rw [filledShape_used h, List.mem_append, hkl, and_iff_left hk, hnum, hnum, hnum, hnum]
      simp only [List.mem_cons, List.not_mem_nil, or_false]
      exact Iff.rfl
  have him : c.vol.im =
      ⟨0, 8192, 15 :: List.replicate 8191 0, List.replicate 8192 0, false, false⟩ := by
    refine hfi.eq_of_isset hm.inv.inums.ok ?_ ?_ ?_ ?_ ?_
    · rw [Freemap.limit] at hil
      omega
    · exact Bool.of_not_eq_true fun hf => hfull (Or.inr hf)
    · exact Bool.of_not_eq_true fun hf => hstray (Or.inr hf)
    · simp only [List.length_cons, List.length_replicate]
    · intro k hk
      have hb := hm.inv.inums.exact (UInt16.ofNat k)
      have hto : (UInt16.ofNat k).toNat = k :=
        UInt16.toNat_ofNat_of_lt' (by simp only [UInt16.size]; omega)
      rw [hto] at hb
      have hnum : ∀ b : InodeId, UInt16.ofNat k = b ↔ k = b.toNat := by
        intro b
        rw [← UInt16.toNat_inj, hto]
      rw [mem_filledInums, Bool.eq_iff_iff, hb, decide_eq_true_eq]
      change (UInt16.ofNat k = 1 ∨ UInt16.ofNat k = 2 ∨ UInt16.ofNat k = 3) ∨ _ ↔ _
      rw [hnum, hnum, hnum, hnum]
      exact or_comm
  have hpwd : c.glob.crfsPwd = 1 := by
    rw [show c.glob.crfsPwd = c.vol.img.root from hm.inv.pwd]
    change c.glob.superBlock.sbRoot = 1
    rw [hsb]
    simp
  have hglob : c.glob = (filledVol l).glob := by
    change c.glob = ⟨_, _, _, _, _⟩
    rw [← hbm, ← him, ← hsb, ← hw, ← hpwd]
    rfl
  change (⟨c.vol.val, c.vol.dirty, c.glob⟩ : Vol) = _
  rw [hval, hglob, show c.vol.dirty = fun _ => false from funext hdirty]
  rfl

/-- With all blocks that are left in the first file, the device is full. -/
def fullChain : List BlockId :=
  [4, 5, 6, 7, 8, 9, 10, 11, 12, 13, 14, 15, 17, 18, 19, 20, 21, 22, 23, 1]

theorem spread_fullChain : Spread fullChain := ⟨by decide, by simp [fullChain], by simp [fullChain]⟩

end Crfs
