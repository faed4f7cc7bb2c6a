import CobaltRom.Boot.Elf

/-! How the segments of a kernel get to where it runs (`boot_main.c`). -/
namespace Boot
open Ram

abbrev ramDecompArea : UInt32 := 0x01000000

/-- The loop that copies; the header is read again in every turn. -/
def copySegment (phdr : UInt32) (ctr : Nat) (dest src : UInt32) (m : Ram) : Ram × UInt32 :=
  if _h : ctr < (pFilesz m phdr).toNat then
    copySegment phdr (ctr + 1) (dest + 1) (src + 1) (m.store dest (m src))
  else (m, dest)
termination_by 2 ^ 32 - ctr
decreasing_by
  have := (pFilesz m phdr).toNat_lt
  omega

/-- The loop that zeroes. -/
def zeroSegment (phdr : UInt32) (ctr : Nat) (dest : UInt32) (m : Ram) : Ram :=
  if _h : ctr < (pMemsz m phdr).toNat then
    zeroSegment phdr (ctr + 1) (dest + 1) (m.store dest 0)
  else m
termination_by 2 ^ 32 - ctr
decreasing_by
  have := (pMemsz m phdr).toNat_lt
  omega

/-- `dest`, with the bits above 16 MB masked off. -/
def segmentDest (m : Ram) (phdr : UInt32) : UInt32 := pVaddr m phdr &&& ~~~ 0xff000000

def segmentSrc (m : Ram) (phdr : UInt32) : UInt32 := ramDecompArea + pOffset m phdr

def relocateAndZero (m : Ram) (phdr : UInt32) : Ram :=
  if pFilesz m phdr = 0 then m
  else
    let (m, dest) := copySegment phdr 0 (segmentDest m phdr) (segmentSrc m phdr) m
    if pMemsz m phdr > pFilesz m phdr then zeroSegment phdr (pFilesz m phdr).toNat dest m else m

/-- The loop over the program headers, which counts in a byte; the headers it has handed to
`relocate_and_zero` are listed. -/
def extractLoop (addr : UInt32) : Nat → UInt8 → Ram → Option (Ram × List Nat)
  | 0, _, _ => none
  | fuel + 1, ctr, m =>
    if ctr.toUInt16 < ePhnum m addr then
      (extractLoop addr fuel (ctr + 1)
        (relocateAndZero m (phAddr m addr (addr + ePhoff m addr) ctr.toNat))).map
          fun x => (x.1, ctr.toNat :: x.2)
    else some (m, [])

/-- The memory, `kernel_start_addr` and the headers that have been relocated. -/
def extractHeaderInfo (fuel : Nat) (m : Ram) (addr : UInt32) : Option (Ram × UInt32 × List Nat) :=
  (extractLoop addr fuel 0 m).map fun x => (x.1, eEntry x.1 addr &&& 0xffffff, x.2)

/-! ### One segment -/

section Segment

variable {m : Ram} {phdr : UInt32} {n k : Nat}

/-- When `n` bytes have been copied. -/
def copied (m : Ram) (phdr : UInt32) (n : Nat) : Ram :=
  m.copy (segmentDest m phdr) (segmentSrc m phdr) n

/-- When `n` bytes have been copied and the next `k` zeroed. -/
def zeroed (m : Ram) (phdr : UInt32) (n k : Nat) : Ram :=
  (copied m phdr n).fill (segmentDest m phdr + .ofNat n) 0 k

/-- The sizes let the loops copy `n` bytes and zero `k`, as they read them in every turn. -/
structure Turns (m : Ram) (phdr : UInt32) (n k : Nat) : Prop where
  copying : ∀ c, c < n → c < (pFilesz (copied m phdr c) phdr).toNat
  copiedAll : (pFilesz (copied m phdr n) phdr).toNat ≤ n
  zeroing : ∀ j, j < k → (pFilesz (copied m phdr n) phdr).toNat + j <
    (pMemsz (zeroed m phdr n j) phdr).toNat
  zeroedAll : (pMemsz (zeroed m phdr n k) phdr).toNat ≤
    (pFilesz (copied m phdr n) phdr).toNat + k

theorem add_ofNat_add (a : UInt32) (i j : Nat) : a + .ofNat i + .ofNat j = a + .ofNat (i + j) := by
  rw [UInt32.add_assoc, UInt32.ofNat_add]

/-- No byte of the segment is one of the two sizes in its header. -/
def Apart (m : Ram) (phdr : UInt32) : Prop :=
  ∀ i, i < (pMemsz m phdr).toNat → ∀ k, k < 4 →
    phdr + 16 + .ofNat k ≠ segmentDest m phdr + .ofNat i ∧
      phdr + 20 + .ofNat k ≠ segmentDest m phdr + .ofNat i

theorem copied_sizes (hapart : Apart m phdr) {c : Nat} (hc : c ≤ (pMemsz m phdr).toNat) :
    pFilesz (copied m phdr c) phdr = pFilesz m phdr ∧
      pMemsz (copied m phdr c) phdr = pMemsz m phdr :=
  ⟨le32_congr fun k hk => copy_other fun i hi => (hapart i (by omega) k hk).1,
    le32_congr fun k hk => copy_other fun i hi => (hapart i (by omega) k hk).2⟩

theorem zeroed_memsz (hapart : Apart m phdr) {j : Nat}
    (hj : (pFilesz m phdr).toNat + j ≤ (pMemsz m phdr).toNat) :
    pMemsz (zeroed m phdr (pFilesz m phdr).toNat j) phdr = pMemsz m phdr := by
  obtain ⟨-, hmemsz⟩ := copied_sizes hapart (c := (pFilesz m phdr).toNat) (by omega)
  rw [← hmemsz]
  refine le32_congr fun k hk => fill_other fun i hi => ?_
  rw [add_ofNat_add]
  exact (hapart _ (by omega) k hk).2

theorem Apart.turns (hapart : Apart m phdr) (hsize : pFilesz m phdr < pMemsz m phdr) :
    Turns m phdr (pFilesz m phdr).toNat ((pMemsz m phdr).toNat - (pFilesz m phdr).toNat) := by
  have hlt := UInt32.lt_iff_toNat_lt.mp hsize
  have hfilesz : ∀ c ≤ (pFilesz m phdr).toNat, pFilesz (copied m phdr c) phdr = pFilesz m phdr :=
    fun c hc => (copied_sizes hapart (by omega)).1
  refine ⟨fun c hc => ?_, ?_, fun j hj => ?_, ?_⟩
  · rwa [hfilesz c (Nat.le_of_lt hc)]
  · rw [hfilesz _ (Nat.le_refl _)]
  · rw [hfilesz _ (Nat.le_refl _), zeroed_memsz hapart (by omega)]
    omega
  · rw [hfilesz _ (Nat.le_refl _), zeroed_memsz hapart (by omega)]
    omega

end Segment

/-! ### All segments -/

section Headers

variable {m : Ram} {addr : UInt32} {k n : Nat}

/-- The memory when the first headers have been relocated, each once. -/
def loaded (addr : UInt32) (m : Ram) : Nat → Ram
  | 0 => m
  | k + 1 => relocateAndZero (loaded addr m k)
      (phAddr (loaded addr m k) addr (addr + ePhoff (loaded addr m k) addr) k)

/-- The loop ends, and every header of the image has been relocated once and in order. -/
def LoadsAll (m : Ram) (addr : UInt32) : Prop :=
  ∃ fuel m' start, extractHeaderInfo fuel m addr =
    some (m', start, List.range (ePhnum m addr).toNat)

/-- The count fits a byte, and the headers' number, which is read again, does not end the loop
early or late. -/
def Counted (m : Ram) (addr : UInt32) : Prop :=
  (∀ k, k < (ePhnum m addr).toNat → k < 256 ∧ k < (ePhnum (loaded addr m k) addr).toNat) ∧
    (ePhnum (loaded addr m (ePhnum m addr).toNat) addr).toNat ≤ (ePhnum m addr).toNat % 256

theorem ofNat_lt_iff (k : Nat) (w : UInt16) :
    (UInt8.ofNat k).toUInt16 < w ↔ k % 256 < w.toNat := by
  rw [UInt16.lt_iff_toNat_lt, UInt8.toNat_toUInt16, UInt8.toNat_ofNat']

theorem extractLoop_stop (h : ¬ k % 256 < (ePhnum m addr).toNat) (fuel : Nat) :
    extractLoop addr (fuel + 1) (.ofNat k) m = some (m, []) := by
  rw [extractLoop, if_neg fun hlt => h ((ofNat_lt_iff k _).mp hlt)]

theorem extractLoop_turn (h : k % 256 < (ePhnum m addr).toNat) (fuel : Nat) :
    extractLoop addr (fuel + 1) (.ofNat k) m =
      (extractLoop addr fuel (.ofNat (k + 1))
        (relocateAndZero m (phAddr m addr (addr + ePhoff m addr) (k % 256)))).map
          fun x => (x.1, k % 256 :: x.2) := by
  rw [extractLoop, if_pos ((ofNat_lt_iff k _).mpr h), UInt8.toNat_ofNat', UInt8.ofNat_add]
  rfl

/-- From header `k` on. -/
theorem extractLoop_iff (left : Nat) (hk : k + left = n) :
    (∃ fuel m', extractLoop addr fuel (.ofNat k) (loaded addr m k) =
        some (m', List.range' k left)) ↔
      (∀ i, k ≤ i → i < n → i < 256 ∧ i < (ePhnum (loaded addr m i) addr).toNat) ∧
        (ePhnum (loaded addr m n) addr).toNat ≤ n % 256 := by
  induction left generalizing k with
  | zero =>
    obtain rfl : k = n := hk
    rw [and_iff_right fun i hlow hhigh => absurd hhigh (Nat.not_lt.mpr hlow)]
    constructor
    · rintro ⟨fuel, m', h⟩
      by_contra hmore
      cases fuel with
      | zero => cases h
      | succ fuel =>
        rw [extractLoop_turn (by omega)] at h
        obtain ⟨x, -, hx⟩ := Option.map_eq_some_iff.mp h
        exact absurd (congrArg Prod.snd hx) (List.cons_ne_nil _ _)
    · intro hend
      exact ⟨1, _, extractLoop_stop (by omega) 0⟩
  | succ left ih =>
    have hrest := ih (k := k + 1) (by omega)
    constructor
    · rintro ⟨fuel, m', h⟩
      cases fuel with
      | zero => cases h
      | succ fuel =>
        have hmore : k % 256 < (ePhnum (loaded addr m k) addr).toNat := by
          by_contra hend
          rw [extractLoop_stop hend] at h
          exact absurd (congrArg Prod.snd (Option.some.inj h)) (List.cons_ne_nil _ _).symm
        rw [extractLoop_turn hmore] at h
        obtain ⟨x, hx, hpair⟩ := Option.map_eq_some_iff.mp h
        obtain ⟨hhead, htail⟩ := List.cons.inj (congrArg Prod.snd hpair)
        rw [hhead] at hx hmore
        obtain ⟨hall, hend⟩ := hrest.mp ⟨fuel, x.1, hx.trans (congrArg some (Prod.ext rfl htail))⟩
        refine ⟨fun i hlow hhigh => ?_, hend⟩
        rcases Nat.eq_or_lt_of_le hlow with rfl | hlt
        · exact ⟨by omega, hmore⟩
        · exact hall i hlt hhigh
    · rintro ⟨hall, hend⟩
      obtain ⟨hbyte, hmore⟩ := hall k le_rfl (by omega)
      obtain ⟨fuel, m', h⟩ := hrest.mpr ⟨fun i hlow hhigh => hall i (by omega) hhigh, hend⟩
      have hmod : k % 256 = k := Nat.mod_eq_of_lt hbyte
      refine ⟨fuel + 1, m', ?_⟩
      rw [extractLoop_turn (by omega), hmod, List.range'_succ]
      exact congrArg (Option.map _) h

theorem loadsAll_iff (m : Ram) (addr : UInt32) : LoadsAll m addr ↔ Counted m addr := by
  have hloop : (∃ fuel m', extractLoop addr fuel (.ofNat 0) (loaded addr m 0) =
        some (m', List.range' 0 (ePhnum m addr).toNat)) ↔
      (∀ i, 0 ≤ i → i < (ePhnum m addr).toNat → i < 256 ∧
        i < (ePhnum (loaded addr m i) addr).toNat) ∧
        (ePhnum (loaded addr m (ePhnum m addr).toNat) addr).toNat ≤ (ePhnum m addr).toNat % 256 :=
    extractLoop_iff (ePhnum m addr).toNat (Nat.zero_add _)
  rw [← List.range_eq_range'] at hloop
  have hrun : LoadsAll m addr ↔ ∃ fuel m', extractLoop addr fuel (.ofNat 0) (loaded addr m 0) =
      some (m', List.range (ePhnum m addr).toNat) := by
    constructor
    · rintro ⟨fuel, m', start, h⟩
      obtain ⟨x, hx, hpair⟩ := Option.map_eq_some_iff.mp h
      exact ⟨fuel, x.1, hx.trans (congrArg some (Prod.ext rfl
        (congrArg (fun y => y.2.2) hpair)))⟩
    · rintro ⟨fuel, m', h⟩
      exact ⟨fuel, m', _, congrArg (Option.map _) h⟩
  rw [hrun, hloop, Counted]
  exact and_congr_left fun _ => ⟨fun h k hk => h k (Nat.zero_le k) hk, fun h k _ hk => h k hk⟩

/-- As long as the segments leave the number of headers alone, it may not exceed a byte. -/
theorem loadsAll_iff_of_stable
    (hstable : ∀ k, k ≤ (ePhnum m addr).toNat → ePhnum (loaded addr m k) addr = ePhnum m addr) :
    LoadsAll m addr ↔ (ePhnum m addr).toNat < 256 := by
  rw [loadsAll_iff, Counted, hstable _ le_rfl]
  constructor
  · rintro ⟨-, hend⟩
    omega
  · intro hbyte
    refine ⟨fun k hk => ⟨by omega, ?_⟩, by omega⟩
    rw [hstable k (by omega)]
    exact hk

end Headers

end Boot
