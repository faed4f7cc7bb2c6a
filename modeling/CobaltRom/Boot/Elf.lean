import CobaltRom.Lib.Ram

/-! ELF images in memory and how they are relocated (`elf.c`). -/
namespace Boot

/-! The members of `Elf32_Ehdr` and `Elf32_Phdr` that are read. -/

def eEntry (m : Ram) (eh : UInt32) : UInt32 := m.le32 (eh + 24)
def ePhoff (m : Ram) (eh : UInt32) : UInt32 := m.le32 (eh + 28)
def ePhentsize (m : Ram) (eh : UInt32) : UInt16 := m.le16 (eh + 42)
def ePhnum (m : Ram) (eh : UInt32) : UInt16 := m.le16 (eh + 44)

def pOffset (m : Ram) (ph : UInt32) : UInt32 := m.le32 (ph + 4)
def pVaddr (m : Ram) (ph : UInt32) : UInt32 := m.le32 (ph + 8)
def pFilesz (m : Ram) (ph : UInt32) : UInt32 := m.le32 (ph + 16)
def pMemsz (m : Ram) (ph : UInt32) : UInt32 := m.le32 (ph + 20)

def elfValid (m : Ram) (obj : UInt32) : Bool :=
  m obj == 0x7f && m (obj + 1) == 0x45 && m (obj + 2) == 0x4c && m (obj + 3) == 0x46 &&
    m (obj + 4) == 1 && m (obj + 5) == 1 && m.le16 (obj + 16) == 2 && m.le16 (obj + 18) == 3

/-- The result, the memory, and the areas that were copied to. -/
structure Relocated where
  ret : Int
  mem : Ram
  copies : List (UInt32 × UInt32)

/-- `ph_loc + (i*eh->e_phentsize)`, which wraps. -/
def phAddr (m : Ram) (eh phLoc : UInt32) (i : Nat) : UInt32 :=
  phLoc + .ofNat (i * (ePhentsize m eh).toNat)

/-- The loop from header `i` on. All headers are read where they are when their turn comes. -/
def elfLoop (eh toAddr maxSize phLoc : UInt32) (i : Nat) (m : Ram) : Relocated :=
  if _h : i < (ePhnum m eh).toNat then
    let ph := phAddr m eh phLoc i
    if pVaddr m ph < toAddr then ⟨-1, m, []⟩
    else if pVaddr m ph + pMemsz m ph > toAddr + maxSize then ⟨-1, m, []⟩
    else
      let rest := elfLoop eh toAddr maxSize phLoc (i + 1)
        (m.copy (pVaddr m ph) (eh + pOffset m ph) (pFilesz m ph).toNat)
      { rest with copies := (pVaddr m ph, pFilesz m ph) :: rest.copies }
  else ⟨0, m, []⟩
termination_by 0x10000 - i
decreasing_by
  have := (ePhnum m eh).toNat_lt
  omega

def elfRelocate (m : Ram) (eh toAddr maxSize : UInt32) : Relocated :=
  if elfValid m eh then elfLoop eh toAddr maxSize (eh + ePhoff m eh) 0 m else ⟨-1, m, []⟩

/-! ### The headers the loop comes to -/

section Loop

variable {eh toAddr maxSize phLoc : UInt32} {i j : Nat} {m m' : Ram} {ph : UInt32}

/-- The test of a header. -/
def Passes (toAddr maxSize : UInt32) (m : Ram) (ph : UInt32) : Prop :=
  ¬ pVaddr m ph < toAddr ∧ ¬ pVaddr m ph + pMemsz m ph > toAddr + maxSize

/-- From header `i` and this memory the loop comes to header `j` and that memory. -/
inductive Meets (eh toAddr maxSize phLoc : UInt32) : Nat → Ram → Nat → Ram → Prop where
  | here {i : Nat} {m : Ram} (h : i < (ePhnum m eh).toNat) : Meets eh toAddr maxSize phLoc i m i m
  | next {i j : Nat} {m m' : Ram} (h : i < (ePhnum m eh).toNat)
      (hpass : Passes toAddr maxSize m (phAddr m eh phLoc i))
      (hrest : Meets eh toAddr maxSize phLoc (i + 1)
        (m.copy (pVaddr m (phAddr m eh phLoc i)) (eh + pOffset m (phAddr m eh phLoc i))
          (pFilesz m (phAddr m eh phLoc i)).toNat) j m') : Meets eh toAddr maxSize phLoc i m j m'

theorem elfLoop_end (h : ¬ i < (ePhnum m eh).toNat) :
    elfLoop eh toAddr maxSize phLoc i m = ⟨0, m, []⟩ := by
  rw [elfLoop, dif_neg h]

theorem elfLoop_refuse (h : i < (ePhnum m eh).toNat)
    (hpass : ¬ Passes toAddr maxSize m (phAddr m eh phLoc i)) :
    elfLoop eh toAddr maxSize phLoc i m = ⟨-1, m, []⟩ := by
  rw [elfLoop, dif_pos h]
  by_cases hlow : pVaddr m (phAddr m eh phLoc i) < toAddr
  · rw [if_pos hlow]
  · rw [if_neg hlow, if_pos (not_not.mp fun hhigh => hpass ⟨hlow, hhigh⟩)]

theorem elfLoop_copy (h : i < (ePhnum m eh).toNat)
    (hpass : Passes toAddr maxSize m (phAddr m eh phLoc i)) :
    elfLoop eh toAddr maxSize phLoc i m =
      { elfLoop eh toAddr maxSize phLoc (i + 1)
          (m.copy (pVaddr m (phAddr m eh phLoc i)) (eh + pOffset m (phAddr m eh phLoc i))
            (pFilesz m (phAddr m eh phLoc i)).toNat) with
        copies := (pVaddr m (phAddr m eh phLoc i), pFilesz m (phAddr m eh phLoc i)) ::
          (elfLoop eh toAddr maxSize phLoc (i + 1)
            (m.copy (pVaddr m (phAddr m eh phLoc i)) (eh + pOffset m (phAddr m eh phLoc i))
              (pFilesz m (phAddr m eh phLoc i)).toNat)).copies } := by
  rw [elfLoop, dif_pos h, if_neg hpass.1, if_neg hpass.2]

theorem not_passes_of_meets (hpass : ¬ Passes toAddr maxSize m (phAddr m eh phLoc i))
    (hmeets : Meets eh toAddr maxSize phLoc i m j m') :
    ¬ Passes toAddr maxSize m' (phAddr m' eh phLoc j) := by
  cases hmeets with
  | here => exact hpass
  | next _ hp => exact absurd hp hpass

theorem not_meets (h : ¬ i < (ePhnum m eh).toNat) : ¬ Meets eh toAddr maxSize phLoc i m j m' := by
  intro hmeets
  cases hmeets with
  | here h' => exact h h'
  | next h' => exact h h'

/-- What is copied are the segments of the headers that pass. -/
theorem mem_copies_iff (seg : UInt32 × UInt32) :
    seg ∈ (elfLoop eh toAddr maxSize phLoc i m).copies ↔
      ∃ j m', Meets eh toAddr maxSize phLoc i m j m' ∧
        Passes toAddr maxSize m' (phAddr m' eh phLoc j) ∧
        seg = (pVaddr m' (phAddr m' eh phLoc j), pFilesz m' (phAddr m' eh phLoc j)) := by
  have hrefuse : ∀ i m, i < (ePhnum m eh).toNat →
      ¬ Passes toAddr maxSize m (phAddr m eh phLoc i) →
      (seg ∈ (elfLoop eh toAddr maxSize phLoc i m).copies ↔
        ∃ j m', Meets eh toAddr maxSize phLoc i m j m' ∧
          Passes toAddr maxSize m' (phAddr m' eh phLoc j) ∧
          seg = (pVaddr m' (phAddr m' eh phLoc j), pFilesz m' (phAddr m' eh phLoc j))) := by
    intro i m h hpass
    rw [elfLoop_refuse h hpass]
    refine iff_of_false List.not_mem_nil ?_
    rintro ⟨j, m', hmeets, hp, -⟩
    exact not_passes_of_meets hpass hmeets hp
  induction i, m using elfLoop.induct eh toAddr maxSize phLoc with
  | case1 i m h ph hlow => exact hrefuse i m h fun hp => hp.1 hlow
  | case2 i m h ph hlow hhigh => exact hrefuse i m h fun hp => hp.2 hhigh
  | case3 i m h ph hlow hhigh ih =>
    have hpass : Passes toAddr maxSize m (phAddr m eh phLoc i) := ⟨hlow, hhigh⟩
    rw [elfLoop_copy h hpass, List.mem_cons]
    refine (or_congr_right ih).trans ?_
    constructor
    · rintro (rfl | ⟨j, m', hmeets, hp, rfl⟩)
      · exact ⟨i, m, .here h, hpass, rfl⟩
      · exact ⟨j, m', .next h hpass hmeets, hp, rfl⟩
    · rintro ⟨j, m', hmeets, hp, rfl⟩
      cases hmeets with
      | here => exact Or.inl rfl
      | next _ _ hrest => exact Or.inr ⟨j, m', hrest, hp, rfl⟩
  | case4 i m h =>
    rw [elfLoop_end h]
    refine iff_of_false List.not_mem_nil ?_
    rintro ⟨j, m', hmeets, -⟩
    exact not_meets h hmeets

/-- The loop returns 0 if every header passes. -/
theorem ret_eq_zero_iff : (elfLoop eh toAddr maxSize phLoc i m).ret = 0 ↔
    ∀ j m', Meets eh toAddr maxSize phLoc i m j m' →
      Passes toAddr maxSize m' (phAddr m' eh phLoc j) := by
  have hrefuse : ∀ i m, i < (ePhnum m eh).toNat →
      ¬ Passes toAddr maxSize m (phAddr m eh phLoc i) →
      ((elfLoop eh toAddr maxSize phLoc i m).ret = 0 ↔
        ∀ j m', Meets eh toAddr maxSize phLoc i m j m' →
          Passes toAddr maxSize m' (phAddr m' eh phLoc j)) := by
    intro i m h hpass
    rw [elfLoop_refuse h hpass]
    exact iff_of_false (by decide : (-1 : Int) ≠ 0) fun hall => hpass (hall i m (.here h))
  induction i, m using elfLoop.induct eh toAddr maxSize phLoc with
  | case1 i m h ph hlow => exact hrefuse i m h fun hp => hp.1 hlow
  | case2 i m h ph hlow hhigh => exact hrefuse i m h fun hp => hp.2 hhigh
  | case3 i m h ph hlow hhigh ih =>
    have hpass : Passes toAddr maxSize m (phAddr m eh phLoc i) := ⟨hlow, hhigh⟩
    rw [elfLoop_copy h hpass]
    refine ih.trans ⟨fun hall j m' hmeets => ?_, fun hall j m' hrest =>
      hall j m' (.next h hpass hrest)⟩
    cases hmeets with
    | here => exact hpass
    | next _ _ hrest => exact hall j m' hrest
  | case4 i m h =>
    rw [elfLoop_end h]
    exact iff_of_true rfl fun j m' hmeets => absurd hmeets (not_meets h)

/-- Where 0 is returned the loop has come to every header of the image. -/
theorem meets_all (hret : (elfLoop eh toAddr maxSize phLoc i m).ret = 0) (hij : i ≤ j)
    (hj : j < (ePhnum (elfLoop eh toAddr maxSize phLoc i m).mem eh).toNat) :
    ∃ m', Meets eh toAddr maxSize phLoc i m j m' := by
  have hpass := ret_eq_zero_iff.mp hret
  induction i, m using elfLoop.induct eh toAddr maxSize phLoc with
  | case1 i m h ph hlow => exact absurd hlow (hpass i m (.here h)).1
  | case2 i m h ph hlow hhigh => exact absurd hhigh (hpass i m (.here h)).2
  | case3 i m h ph hlow hhigh ih =>
    rw [elfLoop_copy h ⟨hlow, hhigh⟩] at hret hj
    rcases Nat.eq_or_lt_of_le hij with rfl | hlt
    · exact ⟨m, .here h⟩
    · obtain ⟨m', hmeets⟩ := ih hret hlt hj (ret_eq_zero_iff.mp hret)
      exact ⟨m', .next h ⟨hlow, hhigh⟩ hmeets⟩
  | case4 i m h =>
    rw [elfLoop_end h] at hj
    exact absurd (Nat.lt_of_le_of_lt hij hj) h

end Loop

/-! ### The window -/

section Window

variable {toAddr maxSize vaddr memsz : UInt32}

/-- Every address of a range, which may reach over the end of the memory. -/
def RangeIn (toAddr maxSize vaddr memsz : UInt32) : Prop :=
  ∀ k, k < memsz.toNat → toAddr.toNat ≤ vaddr.toNat + k ∧
    vaddr.toNat + k < toAddr.toNat + maxSize.toNat

theorem rangeIn_iff (hmax : toAddr.toNat + maxSize.toNat < 2 ^ 32) (hlow : ¬ vaddr < toAddr)
    (hhigh : ¬ vaddr + memsz > toAddr + maxSize) :
    RangeIn toAddr maxSize vaddr memsz ↔ vaddr.toNat + memsz.toNat < 2 ^ 32 := by
  have hle : toAddr.toNat ≤ vaddr.toNat := UInt32.le_iff_toNat_le.mp (UInt32.not_lt.mp hlow)
  have hsum : (vaddr.toNat + memsz.toNat) % 2 ^ 32 ≤ (toAddr.toNat + maxSize.toNat) % 2 ^ 32 := by
    rw [← UInt32.toNat_add, ← UInt32.toNat_add]
    exact UInt32.le_iff_toNat_le.mp (UInt32.not_lt.mp hhigh)
  have hv := vaddr.toNat_lt
  constructor
  · intro hall
    by_contra hwrap
    have hlast := hall (memsz.toNat - 1) (by omega)
    omega
  · intro hwrap k hk
    omega

end Window

/-- What is written stays in the window, and 0 is returned only if all segments belong there. -/
def StaysIn (m : Ram) (eh toAddr maxSize : UInt32) : Prop :=
  (∀ seg, seg ∈ (elfRelocate m eh toAddr maxSize).copies → Ram.AreaIn toAddr maxSize seg) ∧
  ((elfRelocate m eh toAddr maxSize).ret = 0 →
    ∀ j m', Meets eh toAddr maxSize (eh + ePhoff m eh) 0 m j m' →
      RangeIn toAddr maxSize (pVaddr m' (phAddr m' eh (eh + ePhoff m eh) j))
        (pMemsz m' (phAddr m' eh (eh + ePhoff m eh) j)))

/-- No header that passes has more in the file than fits, and where all pass none reaches over the
end of the memory. -/
def Honest (m : Ram) (eh toAddr maxSize : UInt32) : Prop :=
  (∀ j m', Meets eh toAddr maxSize (eh + ePhoff m eh) 0 m j m' →
    Passes toAddr maxSize m' (phAddr m' eh (eh + ePhoff m eh) j) →
    pFilesz m' (phAddr m' eh (eh + ePhoff m eh) j) = 0 ∨
      (pVaddr m' (phAddr m' eh (eh + ePhoff m eh) j)).toNat +
        (pFilesz m' (phAddr m' eh (eh + ePhoff m eh) j)).toNat ≤ toAddr.toNat + maxSize.toNat) ∧
  ((∀ j m', Meets eh toAddr maxSize (eh + ePhoff m eh) 0 m j m' →
      Passes toAddr maxSize m' (phAddr m' eh (eh + ePhoff m eh) j)) →
    ∀ j m', Meets eh toAddr maxSize (eh + ePhoff m eh) 0 m j m' →
      (pVaddr m' (phAddr m' eh (eh + ePhoff m eh) j)).toNat +
        (pMemsz m' (phAddr m' eh (eh + ePhoff m eh) j)).toNat < 2 ^ 32)

theorem elfRelocate_staysIn_iff (m : Ram) (eh toAddr maxSize : UInt32)
    (hmax : toAddr.toNat + maxSize.toNat < 2 ^ 32) :
    StaysIn m eh toAddr maxSize ↔ (elfValid m eh = true → Honest m eh toAddr maxSize) := by
  unfold StaysIn
  by_cases hvalid : elfValid m eh = true
  · have hrun : elfRelocate m eh toAddr maxSize =
        elfLoop eh toAddr maxSize (eh + ePhoff m eh) 0 m := if_pos hvalid
    rw [hrun, ret_eq_zero_iff, forall_prop_of_true hvalid]
    refine and_congr ?_ ?_
    · constructor
      · intro hall j m' hmeets hpass
        exact (Ram.areaIn_iff hmax hpass.1).mp
          (hall _ ((mem_copies_iff _).mpr ⟨j, m', hmeets, hpass, rfl⟩))
      · intro hall seg hseg
        obtain ⟨j, m', hmeets, hpass, rfl⟩ := (mem_copies_iff seg).mp hseg
        exact (Ram.areaIn_iff hmax hpass.1).mpr (hall j m' hmeets hpass)
    · refine forall_congr' fun hall => forall_congr' fun j => forall_congr' fun m' =>
        forall_congr' fun hmeets => ?_
      exact rangeIn_iff hmax (hall j m' hmeets).1 (hall j m' hmeets).2
  · have hrun : elfRelocate m eh toAddr maxSize = ⟨-1, m, []⟩ := if_neg hvalid
    rw [hrun]
    refine iff_of_true ⟨fun seg hseg => absurd hseg List.not_mem_nil, ?_⟩ fun h => absurd h hvalid
    exact fun hret => absurd hret (by decide : (-1 : Int) ≠ 0)

/-- An image with one segment that has two bytes in the file and one in memory. -/
def longImage : List UInt8 :=
  [0x7f, 0x45, 0x4c, 0x46, 1, 1, 1, 0, 0, 0, 0, 0, 0, 0, 0, 0,
    2, 0, 3, 0, 1, 0, 0, 0, 0, 0x10, 0, 0, 52, 0, 0, 0, 0, 0, 0, 0, 0, 0, 0, 0, 52, 0, 32, 0, 1, 0,
    0, 0, 0, 0, 0, 0,
    1, 0, 0, 0, 84, 0, 0, 0, 0, 0x10, 0, 0, 0, 0x10, 0, 0, 2, 0, 0, 0, 1, 0, 0, 0, 7, 0, 0, 0, 0, 0,
    0, 0, 0xf4, 0xf4]

def longRam : Ram := fun a => longImage.getD a.toNat 0

theorem longRam_leaves : ¬ StaysIn longRam 0 0x1000 1 := by
  rintro ⟨hwritten, -⟩
  have hrun : elfRelocate longRam 0 0x1000 1 =
      elfLoop 0 0x1000 1 (0 + ePhoff longRam 0) 0 longRam := if_pos (by decide)
  have hseg : ((0x1000 : UInt32), (2 : UInt32)) ∈ (elfRelocate longRam 0 0x1000 1).copies := by
    rw [hrun, mem_copies_iff]
    exact ⟨0, longRam, .here (by decide), ⟨by decide, by decide⟩, by decide⟩
  obtain ⟨-, hin⟩ := hwritten _ hseg 1 (by decide)
  revert hin
  decide

/-- The same segment in a window of two bytes. -/
theorem elfRelocate_staysIn_iff_long : StaysIn longRam 0 0x1000 2 ↔
    (elfValid longRam 0 = true → Honest longRam 0 0x1000 2) :=
  elfRelocate_staysIn_iff longRam 0 0x1000 2 (by decide)

end Boot
