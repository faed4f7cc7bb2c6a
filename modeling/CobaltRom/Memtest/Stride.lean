import CobaltRom.Lib.StuckBits

/-! The tests of `memtest.c` that go through memory element by element. Output is left out. -/
namespace Memtest
open StuckBits

def patterns : List UInt32 :=
  [0x00000000, 0x55555555, 0xaaaaaaaa, 0x5a5a5a5a, 0xa5a5a5a5, 0xffffffff]

/-- `patterns[pattern]` in a local of `t` bytes. -/
def localVal (t : Nat) (pattern : UInt32) : Nat := pattern.toNat % 256 ^ t

/-- The three reads of the element at `p`, `w` bytes into locals of `t`, and the error they may
be. -/
def checkElem (f : Faults) (m : Ram) (w t val : Nat) (p : UInt32) (ret : Int) : Int :=
  let a := load f m w p % 256 ^ t
  let b := load f m w p % 256 ^ t
  let c := load f m w p % 256 ^ t
  if a = b ∧ b = c then (if a ≠ val then -1 else ret) else -1

/-- One pattern: `n` elements are written, then read. -/
def stridePass (f : Faults) (w t : Nat) (base : UInt32) (n : Nat) (s : Int × Ram)
    (pattern : UInt32) : Int × Ram :=
  let val := localVal t pattern
  let m := fill w n base val s.2
  ((List.range n).foldl (fun ret i => checkElem f m w t val (base + .ofNat (w * i)) ret) s.1, m)

def strideTest (f : Faults) (w t : Nat) (base : UInt32) (n : Nat) (m : Ram) : Int × Ram :=
  patterns.foldl (stridePass f w t base n) (0, m)

def memtestByByte (f : Faults) (base size : UInt32) (m : Ram) : Int × Ram :=
  strideTest f 1 1 base size.toNat m

def memtestByWord (f : Faults) (base size : UInt32) (m : Ram) : Int × Ram :=
  strideTest f 2 2 base (size >>> 1).toNat m

/-- The locals are `unsigned short`, as in the test by words. -/
def memtestByLongword (f : Faults) (base size : UInt32) (m : Ram) : Int × Ram :=
  strideTest f 4 2 base (size >>> 2).toNat m

variable {f : Faults} {m : Ram} {base p size pattern : UInt32} {w t n i j val : Nat} {ret : Int}

/-! ### What a pattern shows -/

/-- Some of the first `t` bytes of element `i` do not take the pattern. -/
def Shows (f : Faults) (base : UInt32) (w t : Nat) (pattern : UInt32) (i : Nat) : Prop :=
  ∃ j < t, (f (base + .ofNat (w * i + j))).see pattern.toUInt8 ≠ pattern.toUInt8

/-- The bytes of a pattern are all the same. -/
theorem byteOf_localVal (hp : pattern ∈ patterns) (ht : t ≤ 4) (hj : j < t) :
    byteOf (localVal t pattern) j = pattern.toUInt8 := by
  have hbyte : patterns.Forall fun pattern =>
      ∀ j < 4, byteOf pattern.toNat j = pattern.toUInt8 := by
    decide
  rw [localVal, byteOf_mod hj]
  exact List.forall_iff_forall_mem.mp hbyte pattern hp j (by omega)

theorem localVal_mod (t : Nat) (pattern : UInt32) :
    localVal t pattern % 256 ^ t = localVal t pattern :=
  Nat.mod_mod _ _

/-- What is read of a written element differs from what was written where the pattern shows it. -/
theorem load_fill_iff (hp : pattern ∈ patterns) (ht : t ≤ 4) (htw : t ≤ w) (hn : w * n ≤ 2 ^ 32)
    (hi : i < n) :
    load f (fill w n base (localVal t pattern) m) w (base + .ofNat (w * i)) % 256 ^ t ≠
      localVal t pattern ↔ Shows f base w t pattern i := by
  have hbyte : ∀ j < t, fill w n base (localVal t pattern) m (base + .ofNat (w * i) + .ofNat j) =
      pattern.toUInt8 := by
    intro j hj
    rw [UInt32.add_assoc, ← UInt32.ofNat_add, fill_apply hn hi (by omega), byteOf_localVal hp ht hj]
  have hload : load f (fill w n base (localVal t pattern) m) t (base + .ofNat (w * i)) =
      localVal t pattern % 256 ^ t ↔ _ := load_eq_iff
  rw [localVal_mod] at hload
  rw [load_mod htw, ne_eq, hload, Shows]
  push Not
  refine exists_congr fun j => and_congr_right fun hj => ?_
  rw [hbyte j hj, byteOf_localVal hp ht hj, UInt32.add_assoc, ← UInt32.ofNat_add]

/-- A byte has a stuck bit exactly if some pattern shows it. -/
theorem exists_shows_iff (a : UInt32) :
    (∃ pattern ∈ patterns, (f a).see pattern.toUInt8 ≠ pattern.toUInt8) ↔
    ∃ bit, StuckBit f a bit := by
  rw [exists_stuckBit_iff]
  constructor
  · rintro ⟨pattern, -, hsee⟩ hhealthy
    exact hsee (see_healthy hhealthy _)
  · intro hstuck
    by_contra hnone
    push Not at hnone
    have hzeros : (f a).see 0 = 0 := hnone 0x00000000 (by decide)
    have hones : (f a).see 0xff = 0xff := hnone 0xffffffff (by decide)
    exact hstuck (healthy_of_see hzeros hones)

/-! ### A test goes wrong exactly if a pattern shows an element -/

theorem checkElem_eq (f : Faults) (m : Ram) (w t val : Nat) (p : UInt32) (ret : Int) :
    checkElem f m w t val p ret = if load f m w p % 256 ^ t ≠ val then -1 else ret := by
  rw [checkElem, if_pos ⟨rfl, rfl⟩]

/-- What any round of a loop finds stays found. -/
theorem foldl_found {σ α : Type} (found : σ → Prop) (step : σ → α → σ) (bad : α → Prop) (l : List α)
    (hstep : ∀ x ∈ l, ∀ s, found (step s x) ↔ found s ∨ bad x) (s : σ) :
    found (l.foldl step s) ↔ found s ∨ ∃ x ∈ l, bad x := by
  induction l generalizing s with
  | nil => simp
  | cons x l ih =>
    have hrest := ih (fun y hy => hstep y (List.mem_cons_of_mem x hy)) (step s x)
    rw [List.foldl_cons, hrest, hstep x List.mem_cons_self s, or_assoc]
    simp only [List.mem_cons, exists_eq_or_imp]

theorem stridePass_ret (hp : pattern ∈ patterns) (ht : t ≤ 4) (htw : t ≤ w) (hn : w * n ≤ 2 ^ 32)
    (s : Int × Ram) : (stridePass f w t base n s pattern).1 = -1 ↔
      s.1 = -1 ∨ ∃ i < n, Shows f base w t pattern i := by
  rw [stridePass]
  refine (foldl_found (· = -1) _ (Shows f base w t pattern) _ (fun i hi ret => ?_) s.1).trans ?_
  · rw [List.mem_range] at hi
    rw [checkElem_eq, ← load_fill_iff (m := s.2) hp ht htw hn hi]
    split
    · exact iff_of_true rfl (Or.inr ‹_›)
    · exact (or_iff_left ‹_›).symm
  · simp only [List.mem_range]

/-- The result is an error exactly if some pattern shows an element. -/
theorem strideTest_ret (ht : t ≤ 4) (htw : t ≤ w) (hn : w * n ≤ 2 ^ 32) :
    (strideTest f w t base n m).1 = -1 ↔
      ∃ pattern ∈ patterns, ∃ i < n, Shows f base w t pattern i := by
  have hfound := foldl_found (fun s : Int × Ram => s.1 = -1) (stridePass f w t base n)
    (fun pattern => ∃ i < n, Shows f base w t pattern i) patterns
    (fun pattern hp s => stridePass_ret hp ht htw hn s) (0, m)
  have hstart : ¬ (0 : Int) = -1 := by decide
  exact hfound.trans (or_iff_right hstart)

/-- The test finds the bytes with a stuck bit, of those it keeps in its locals. -/
theorem strideTest_stuck (ht : t ≤ 4) (htw : t ≤ w) (hn : w * n ≤ 2 ^ 32) :
    (strideTest f w t base n m).1 = -1 ↔
      ∃ i < n, ∃ j < t, ∃ bit, StuckBit f (base + .ofNat (w * i + j)) bit := by
  rw [strideTest_ret ht htw hn]
  constructor
  · rintro ⟨pattern, hp, i, hi, j, hj, hsee⟩
    exact ⟨i, hi, j, hj, (exists_shows_iff _).mp ⟨pattern, hp, hsee⟩⟩
  · rintro ⟨i, hi, j, hj, hstuck⟩
    obtain ⟨pattern, hp, hsee⟩ := (exists_shows_iff _).mpr hstuck
    exact ⟨pattern, hp, i, hi, j, hj, hsee⟩

theorem toNat_half (size : UInt32) : (size >>> 1).toNat = size.toNat / 2 := by
  simp [UInt32.toNat_shiftRight, Nat.shiftRight_eq_div_pow]

theorem memtestByByte_ret (f : Faults) (base size : UInt32) (m : Ram) :
    (memtestByByte f base size m).1 = -1 ↔
      ∃ i < size.toNat, ∃ bit, StuckBit f (base + .ofNat i) bit := by
  have hsize := size.toNat_lt
  rw [memtestByByte, strideTest_stuck (by decide) le_rfl (by omega)]
  refine exists_congr fun i => and_congr_right fun _ => ?_
  simp

theorem memtestByWord_ret (f : Faults) (base size : UInt32) (m : Ram) :
    (memtestByWord f base size m).1 = -1 ↔
      ∃ i < 2 * (size.toNat / 2), ∃ bit, StuckBit f (base + .ofNat i) bit := by
  have hsize := size.toNat_lt
  rw [memtestByWord, toNat_half, strideTest_stuck (by decide) le_rfl (by omega)]
  constructor
  · rintro ⟨i, hi, j, hj, hstuck⟩
    exact ⟨2 * i + j, by omega, hstuck⟩
  · rintro ⟨k, hk, hstuck⟩
    refine ⟨k / 2, by omega, k % 2, Nat.mod_lt k (by decide), ?_⟩
    rwa [Nat.div_add_mod]

/-- Both tests find every stuck bit of the bytes they cover, and report nothing else. -/
theorem memtest_finds_stuck (f : Faults) (base size : UInt32) (m : Ram) :
    ((memtestByByte f base size m).1 = -1 ↔
      ∃ i < size.toNat, ∃ bit, StuckBit f (base + .ofNat i) bit) ∧
    ((memtestByWord f base size m).1 = -1 ↔
      ∃ i < 2 * (size.toNat / 2), ∃ bit, StuckBit f (base + .ofNat i) bit) :=
  ⟨memtestByByte_ret f base size m, memtestByWord_ret f base size m⟩

end Memtest
