import CobaltRom.Memtest.Stride

/-! The tests of `memtest.c` that write and search a block with string instructions. `repe scas`
stops behind the first element that differs, with the remaining count in `ecx`. Output is left
out. -/
namespace Memtest
open StuckBits

/-- `rep stos` of elements of `w` bytes. -/
def repStos (w val : Nat) : Nat → UInt32 → Ram → Ram
  | 0, _, m => m
  | ecx + 1, edi, m => repStos w val ecx (edi + .ofNat w) (store m w edi val)

/-- `repe scas`: the count that remains and the pointer. -/
def repeScas (f : Faults) (m : Ram) (w val : Nat) : Nat → UInt32 → Nat × UInt32
  | 0, edi => (0, edi)
  | ecx + 1, edi =>
    if load f m w edi = val then repeScas f m w val ecx (edi + .ofNat w)
    else (ecx, edi + .ofNat w)

variable {f : Faults} {m : Ram} {base size edi pattern : UInt32} {w n i j k val : Nat} {ret : Int}

theorem repeScas_le (ecx : Nat) (edi : UInt32) : (repeScas f m w val ecx edi).1 ≤ ecx := by
  induction ecx generalizing edi with
  | zero => exact le_rfl
  | succ ecx ih =>
    rw [repeScas]
    split
    · exact (ih _).trans (Nat.le_succ ecx)
    · exact Nat.le_succ ecx

theorem repeScas_lt (h : 0 < i) (edi : UInt32) : (repeScas f m w val i edi).1 < i := by
  obtain ⟨ecx, rfl⟩ : ∃ ecx, i = ecx + 1 := ⟨i - 1, by omega⟩
  rw [repeScas]
  split
  · exact Nat.lt_succ_of_le (repeScas_le ecx _)
  · exact Nat.lt_succ_self ecx

/-- `while (i > 0)`: what is looked at after a difference is `base[i]`. -/
def scanLoop (f : Faults) (m : Ram) (w val : Nat) (base : UInt32) (i : Nat) (mem : UInt32)
    (ret : Int) : Int :=
  if _h : 0 < i then
    let r := repeScas f m w val i mem
    scanLoop f m w val base r.1 r.2
      (if 0 < r.1 then checkElem f m w w val (base + .ofNat (w * r.1)) ret else ret)
  else ret
termination_by i
decreasing_by exact repeScas_lt _h mem

/-- One pattern: `n` elements are written, then searched. -/
def blockPass (f : Faults) (w : Nat) (base : UInt32) (n : Nat) (s : Int × Ram) (pattern : UInt32) :
    Int × Ram :=
  let val := localVal w pattern
  let m := repStos w val n base s.2
  (scanLoop f m w val base n base s.1, m)

def blockTest (f : Faults) (w : Nat) (base : UInt32) (n : Nat) (m : Ram) : Int × Ram :=
  patterns.foldl (blockPass f w base n) (0, m)

def memtestByBlockbyte (f : Faults) (base size : UInt32) (m : Ram) : Int × Ram :=
  blockTest f 1 base size.toNat m

def memtestByBlockword (f : Faults) (base size : UInt32) (m : Ram) : Int × Ram :=
  blockTest f 2 base (size >>> 1).toNat m

def memtestByBlocklongword (f : Faults) (base size : UInt32) (m : Ram) : Int × Ram :=
  blockTest f 4 base (size >>> 2).toNat m

def memtestByLonglongword (_base _size : UInt32) (m : Ram) : Int × Ram := (-1, m)

def memtestByBlocklonglongword (_base _size : UInt32) (m : Ram) : Int × Ram := (-1, m)

def memtest (f : Faults) (base size : UInt32) (type : Int) (m : Ram) : Int × Ram :=
  match type with
  | 0 => memtestByByte f base size m
  | 1 => memtestByWord f base size m
  | 2 => memtestByLongword f base size m
  | 3 => memtestByLonglongword base size m
  | 4 => memtestByBlockbyte f base size m
  | 5 => memtestByBlockword f base size m
  | 6 => memtestByBlocklongword f base size m
  | 7 => memtestByBlocklonglongword base size m
  | _ => (-1, m)

/-! ### The string instructions -/

/-- The address of the next element. -/
theorem next_elem (w k : Nat) (base : UInt32) :
    base + .ofNat (w * k) + .ofNat w = base + .ofNat (w * (k + 1)) := by
  rw [UInt32.add_assoc, ← UInt32.ofNat_add, Nat.mul_succ]

theorem repStos_from (k left : Nat) (m : Ram) :
    repStos w val left (base + .ofNat (w * k)) (fill w k base val m) =
      fill w (k + left) base val m := by
  induction left generalizing k with
  | zero => rfl
  | succ left ih =>
    rw [repStos, next_elem, ← fill_succ, ih (k + 1), Nat.add_assoc, Nat.add_comm 1]

/-- `rep stos` writes what the loop over the elements writes. -/
theorem repStos_eq_fill (n : Nat) (m : Ram) : repStos w val n base m = fill w n base val m := by
  have h : repStos w val n (base + .ofNat (w * 0)) m = fill w (0 + n) base val m :=
    repStos_from 0 n m
  simpa using h

/-- Element `k` is not read as `val`. -/
def Differs (f : Faults) (m : Ram) (w val : Nat) (base : UInt32) (k : Nat) : Prop :=
  load f m w (base + .ofNat (w * k)) ≠ val

/-- From element `k` on the search comes to the end or stops behind the first that differs. -/
theorem repeScas_cases (f : Faults) (m : Ram) (w val : Nat) (base : UInt32) (hk : k + i = n) :
    (repeScas f m w val i (base + .ofNat (w * k))).1 = 0 ∧
        (∀ j, k ≤ j → j < n → ¬ Differs f m w val base j) ∨
      ∃ j, k ≤ j ∧ j < n ∧ Differs f m w val base j ∧
        (∀ l, k ≤ l → l < j → ¬ Differs f m w val base l) ∧
        repeScas f m w val i (base + .ofNat (w * k)) =
        (n - 1 - j, base + .ofNat (w * (j + 1))) := by
  induction i generalizing k with
  | zero => exact Or.inl ⟨rfl, fun j hlow hhigh => by omega⟩
  | succ i ih =>
    rw [repeScas, next_elem]
    by_cases hload : load f m w (base + .ofNat (w * k)) = val
    · have hsame : ¬ Differs f m w val base k := fun h => h hload
      have hfirst : ∀ j, k ≤ j → ¬ k + 1 ≤ j → ¬ Differs f m w val base j := by
        intro j hlow hhigh
        obtain rfl : j = k := by omega
        exact hsame
      rw [if_pos hload]
      have hk' : k + 1 + i = n := by omega
      rcases ih hk' with ⟨hzero, hrest⟩ | ⟨j, hlow, hhigh, hdiff, hbefore, hrun⟩
      · refine Or.inl ⟨hzero, fun j hlow hhigh => ?_⟩
        by_cases hj : k + 1 ≤ j
        · exact hrest j hj hhigh
        · exact hfirst j hlow hj
      · refine Or.inr ⟨j, by omega, hhigh, hdiff, fun l hl hlj => ?_, hrun⟩
        by_cases hj : k + 1 ≤ l
        · exact hbefore l hj hlj
        · exact hfirst l hl hj
    · rw [if_neg hload]
      refine Or.inr ⟨k, le_rfl, by omega, hload, fun l hl hlk => by omega, ?_⟩
      rw [show n - 1 - k = i by omega]

/-! ### What the search finds -/

/-- Element `j`, which is not the last, and the one that is as far from the end are both bad. -/
def Mirrored (bad : Nat → Prop) (n j : Nat) : Prop := j + 1 < n ∧ bad j ∧ bad (n - 1 - j)

theorem checkElem_ret (p : UInt32) :
    checkElem f m w w val p ret = -1 ↔ ret = -1 ∨ load f m w p ≠ val := by
  rw [checkElem_eq, load_mod le_rfl]
  split
  · exact iff_of_true rfl (Or.inr ‹_›)
  · exact (or_iff_left ‹_›).symm

/-- From element `k` on an error is found exactly if a difference has its mirror image. -/
theorem scanLoop_ret (i : Nat) : ∀ (k : Nat) (ret : Int), k + i = n →
    (scanLoop f m w val base i (base + .ofNat (w * k)) ret = -1 ↔
      ret = -1 ∨ ∃ j, k ≤ j ∧ Mirrored (Differs f m w val base) n j) := by
  induction i using Nat.strong_induction_on with
  | _ i ih =>
    intro k ret hk
    rw [scanLoop]
    by_cases hi : 0 < i
    · rw [dif_pos hi]
      have hcases := repeScas_cases f m w val base hk
      rcases hcases with ⟨hzero, hsame⟩ | ⟨j, hlow, hhigh, hdiff, hbefore, hrun⟩
      · -- nothing differs any more
        have hend : ¬ ∃ j, k ≤ j ∧ Mirrored (Differs f m w val base) n j := by
          rintro ⟨j, hlow, hlast, hdiff, -⟩
          exact hsame j hlow (by omega) hdiff
        dsimp only
        rw [hzero, scanLoop, dif_neg (lt_irrefl 0), if_neg (lt_irrefl 0), or_iff_left hend]
      · -- element `j` is the next that differs; what is left begins behind it
        have hnext : n - 1 - j < i := by omega
        have hstart : j + 1 + (n - 1 - j) = n := by omega
        dsimp only
        rw [hrun, ih (n - 1 - j) hnext (j + 1) _ hstart]
        have hfirst : (∃ l, k ≤ l ∧ Mirrored (Differs f m w val base) n l) ↔
            Mirrored (Differs f m w val base) n j ∨
              ∃ l, j + 1 ≤ l ∧ Mirrored (Differs f m w val base) n l := by
          constructor
          · rintro ⟨l, hl, hmirror⟩
            rcases lt_trichotomy l j with hlt | rfl | hgt
            · exact absurd hmirror.2.1 (hbefore l hl hlt)
            · exact Or.inl hmirror
            · exact Or.inr ⟨l, hgt, hmirror⟩
          · rintro (hmirror | ⟨l, hl, hmirror⟩)
            · exact ⟨j, hlow, hmirror⟩
            · exact ⟨l, by omega, hmirror⟩
        rw [hfirst, ← or_assoc]
        refine or_congr_left ?_
        by_cases hlast : 0 < n - 1 - j
        · rw [if_pos hlast, checkElem_ret]
          refine or_congr_right ⟨fun h => ⟨by omega, hdiff, h⟩, fun h => h.2.2⟩
        · rw [if_neg hlast]
          exact (or_iff_left fun h : Mirrored _ n j => hlast (by have := h.1; omega)).symm
    · rw [dif_neg hi]
      refine (or_iff_left ?_).symm
      rintro ⟨j, hlow, hlast, -⟩
      omega

end Memtest
