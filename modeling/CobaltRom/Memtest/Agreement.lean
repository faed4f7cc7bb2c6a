import CobaltRom.Memtest.Block

/-! When the wider tests and the tests by blocks come to the result of the test by bytes. -/
namespace Memtest
open StuckBits

variable {f : Faults} {m : Ram} {base size pattern : UInt32} {w t n i k val : Nat} {ret r r' : Int}

/-! ### Results -/

/-- No error, or one. -/
def Result (ret : Int) : Prop := ret = 0 ∨ ret = -1

theorem Result.eq_iff (h : Result r) (h' : Result r') : r = r' ↔ (r = -1 ↔ r' = -1) := by
  rcases h with rfl | rfl <;> rcases h' with rfl | rfl <;> decide

/-- What every round of a loop keeps, the loop keeps. -/
theorem foldl_keeps {σ α : Type} (P : σ → Prop) (step : σ → α → σ) (l : List α)
    (hstep : ∀ x s, P s → P (step s x)) (s : σ) (hs : P s) : P (l.foldl step s) := by
  induction l generalizing s with
  | nil => exact hs
  | cons x l ih => exact ih (step s x) (hstep x s hs)

theorem checkElem_result (h : Result ret) : Result (checkElem f m w t val base ret) := by
  rw [checkElem_eq]
  split
  · exact Or.inr rfl
  · exact h

theorem strideTest_result (f : Faults) (w t : Nat) (base : UInt32) (n : Nat) (m : Ram) :
    Result (strideTest f w t base n m).1 :=
  foldl_keeps (fun s : Int × Ram => Result s.1) _ patterns
    (fun _ s hs => foldl_keeps Result _ _ (fun _ _ => checkElem_result) s.1 hs) _ (Or.inl rfl)

theorem scanLoop_result (i : Nat) : ∀ (mem : UInt32) (ret : Int), Result ret →
    Result (scanLoop f m w val base i mem ret) := by
  induction i using Nat.strong_induction_on with
  | _ i ih =>
    intro mem ret h
    rw [scanLoop]
    split
    · refine ih _ (repeScas_lt ‹_› mem) _ _ ?_
      split
      · exact checkElem_result h
      · exact h
    · exact h

theorem blockTest_result (f : Faults) (w : Nat) (base : UInt32) (n : Nat) (m : Ram) :
    Result (blockTest f w base n m).1 :=
  foldl_keeps (fun s : Int × Ram => Result s.1) _ patterns
    (fun _ s hs => scanLoop_result _ _ s.1 hs) _ (Or.inl rfl)

/-! ### What the tests find -/

theorem differs_fill_iff (hp : pattern ∈ patterns) (hw : w ≤ 4) (hn : w * n ≤ 2 ^ 32) (hk : k < n) :
    Differs f (fill w n base (localVal w pattern) m) w (localVal w pattern) base k ↔
      Shows f base w w pattern k := by
  rw [← load_fill_iff (m := m) hp hw le_rfl hn hk, load_mod le_rfl]
  rfl

/-- A block test goes wrong exactly if some pattern shows an element and its mirror image. -/
theorem blockTest_ret (hw : w ≤ 4) (hn : w * n ≤ 2 ^ 32) : (blockTest f w base n m).1 = -1 ↔
    ∃ pattern ∈ patterns, ∃ j, Mirrored (Shows f base w w pattern) n j := by
  have hpass : ∀ pattern ∈ patterns, ∀ s : Int × Ram,
      (blockPass f w base n s pattern).1 = -1 ↔
        s.1 = -1 ∨ ∃ j, Mirrored (Shows f base w w pattern) n j := by
    intro pattern hp s
    have hloop : (scanLoop f (fill w n base (localVal w pattern) s.2) w (localVal w pattern) base n
        (base + .ofNat (w * 0)) s.1 = -1 ↔ _) := scanLoop_ret n 0 s.1 (Nat.zero_add n)
    rw [blockPass, repStos_eq_fill]
    rw [Nat.mul_zero, show base + UInt32.ofNat 0 = base from UInt32.add_zero base] at hloop
    refine hloop.trans (or_congr_right (exists_congr fun j => ?_))
    rw [and_iff_right (Nat.zero_le j)]
    refine and_congr_right fun hj => ?_
    rw [differs_fill_iff hp hw hn (by omega), differs_fill_iff hp hw hn (by omega)]
  have hfound := foldl_found (fun s : Int × Ram => s.1 = -1) (blockPass f w base n)
    (fun pattern => ∃ j, Mirrored (Shows f base w w pattern) n j) patterns hpass (0, m)
  have hstart : ¬ (0 : Int) = -1 := by decide
  exact hfound.trans (or_iff_right hstart)

theorem toNat_quarter (size : UInt32) : (size >>> 2).toNat = size.toNat / 4 := by
  simp [UInt32.toNat_shiftRight, Nat.shiftRight_eq_div_pow]

/-- Only the lower halves of the elements get into the locals. -/
theorem memtestByLongword_ret (f : Faults) (base : UInt32) (hsize : size.toNat % 4 = 0) (m : Ram) :
    (memtestByLongword f base size m).1 = -1 ↔
      ∃ i < size.toNat, i % 4 < 2 ∧ ∃ bit, StuckBit f (base + .ofNat i) bit := by
  have hlt := size.toNat_lt
  rw [memtestByLongword, toNat_quarter, strideTest_stuck (by decide) (by decide) (by omega)]
  constructor
  · rintro ⟨i, hi, j, hj, hstuck⟩
    exact ⟨4 * i + j, by omega, by omega, hstuck⟩
  · rintro ⟨k, hk, hlow, hstuck⟩
    refine ⟨k / 4, by omega, k % 4, hlow, ?_⟩
    rwa [Nat.div_add_mod]

/-- Some pattern shows an element of the region that is not its last, and its mirror image. -/
def MirrorShown (f : Faults) (base size : UInt32) (w : Nat) : Prop :=
  ∃ pattern ∈ patterns, ∃ j, Mirrored (Shows f base w w pattern) (size.toNat / w) j

theorem memtestByBlockbyte_ret (f : Faults) (base size : UInt32) (m : Ram) :
    (memtestByBlockbyte f base size m).1 = -1 ↔ MirrorShown f base size 1 := by
  have hsize := size.toNat_lt
  rw [memtestByBlockbyte, blockTest_ret (by decide) (by omega), MirrorShown, Nat.div_one]

theorem memtestByBlockword_ret (f : Faults) (base size : UInt32) (m : Ram) :
    (memtestByBlockword f base size m).1 = -1 ↔ MirrorShown f base size 2 := by
  have hsize := size.toNat_lt
  rw [memtestByBlockword, toNat_half, blockTest_ret (by decide) (by omega), MirrorShown]

theorem memtestByBlocklongword_ret (f : Faults) (base size : UInt32) (m : Ram) :
    (memtestByBlocklongword f base size m).1 = -1 ↔ MirrorShown f base size 4 := by
  have hsize := size.toNat_lt
  rw [memtestByBlocklongword, toNat_quarter, blockTest_ret (by decide) (by omega), MirrorShown]

/-- What a block test finds is a stuck bit of the region. -/
theorem MirrorShown.stuck (hmirror : MirrorShown f base size w) :
    ∃ i < size.toNat, ∃ bit, StuckBit f (base + .ofNat i) bit := by
  obtain ⟨pattern, hp, j, hlast, ⟨b, hb, hsee⟩, -⟩ := hmirror
  have hstuck := (exists_shows_iff _).mp ⟨pattern, hp, hsee⟩
  refine ⟨w * j + b, ?_, hstuck⟩
  calc w * j + b < w * j + w := by omega
    _ = w * (j + 1) := (Nat.mul_succ w j).symm
    _ ≤ w * (size.toNat / w) := Nat.mul_le_mul_left w hlast.le
    _ ≤ size.toNat := Nat.mul_div_le size.toNat w

/-! ### Agreement -/

/-- The four tests return what the test by bytes returns. -/
def Agree (f : Faults) (base size : UInt32) (m : Ram) : Prop :=
  (memtestByLongword f base size m).1 = (memtestByByte f base size m).1 ∧
  (memtestByBlockbyte f base size m).1 = (memtestByByte f base size m).1 ∧
  (memtestByBlockword f base size m).1 = (memtestByByte f base size m).1 ∧
  (memtestByBlocklongword f base size m).1 = (memtestByByte f base size m).1

theorem agree_results (f : Faults) (base size : UInt32) (m : Ram) : Agree f base size m ↔
    ((memtestByLongword f base size m).1 = -1 ↔ (memtestByByte f base size m).1 = -1) ∧
    ((memtestByBlockbyte f base size m).1 = -1 ↔ (memtestByByte f base size m).1 = -1) ∧
    ((memtestByBlockword f base size m).1 = -1 ↔ (memtestByByte f base size m).1 = -1) ∧
    ((memtestByBlocklongword f base size m).1 = -1 ↔ (memtestByByte f base size m).1 = -1) := by
  have hbyte : Result (memtestByByte f base size m).1 := strideTest_result f 1 1 base _ m
  refine and_congr ?_ (and_congr ?_ (and_congr ?_ ?_))
  · exact Result.eq_iff (strideTest_result f 4 2 base _ m) hbyte
  · exact Result.eq_iff (blockTest_result f 1 base _ m) hbyte
  · exact Result.eq_iff (blockTest_result f 2 base _ m) hbyte
  · exact Result.eq_iff (blockTest_result f 4 base _ m) hbyte

/-- No bit of the region is stuck; or one is in the lower half of a longword, and among the bytes,
the words and the longwords a pattern shows an element together with its mirror image. -/
theorem agree_iff (f : Faults) (base size : UInt32) (m : Ram) (hsize : size.toNat % 4 = 0) :
    Agree f base size m ↔ (∀ i < size.toNat, ∀ bit, ¬ StuckBit f (base + .ofNat i) bit) ∨
      (∃ i < size.toNat, i % 4 < 2 ∧ ∃ bit, StuckBit f (base + .ofNat i) bit) ∧
        ∀ w ∈ [1, 2, 4], MirrorShown f base size w := by
  rw [agree_results, memtestByByte_ret, memtestByLongword_ret f base hsize,
    memtestByBlockbyte_ret, memtestByBlockword_ret, memtestByBlocklongword_ret]
  by_cases hstuck : ∃ i < size.toNat, ∃ bit, StuckBit f (base + .ofNat i) bit
  · have hsome : ¬ ∀ i < size.toNat, ∀ bit, ¬ StuckBit f (base + .ofNat i) bit := by
      intro hnone
      obtain ⟨i, hi, bit, hbit⟩ := hstuck
      exact hnone i hi bit hbit
    simp only [hstuck, hsome, iff_true, false_or, List.forall_mem_cons, List.not_mem_nil,
      false_imp_iff, forall_const, and_true]
  · have hnone : ∀ i < size.toNat, ∀ bit, ¬ StuckBit f (base + .ofNat i) bit :=
      fun i hi bit hbit => hstuck ⟨i, hi, bit, hbit⟩
    have hlow : ¬ ∃ i < size.toNat, i % 4 < 2 ∧ ∃ bit, StuckBit f (base + .ofNat i) bit := by
      rintro ⟨i, hi, -, hbit⟩
      exact hstuck ⟨i, hi, hbit⟩
    have hmirror : ∀ w, ¬ MirrorShown f base size w := fun w h => hstuck h.stuck
    exact iff_of_true
      ⟨iff_of_false hlow hstuck, iff_of_false (hmirror 1) hstuck, iff_of_false (hmirror 2) hstuck,
        iff_of_false (hmirror 4) hstuck⟩ (Or.inl hnone)

/-- The lowest bit of every byte reads as one. -/
theorem agree_everywhere : Agree (fun _ => ⟨1, 1⟩) 0x100000 8 (fun _ => 0) := by
  have hsee : (⟨1, 1⟩ : StuckByte).see (0x00000000 : UInt32).toUInt8 ≠
      (0x00000000 : UInt32).toUInt8 :=
    by decide
  refine (agree_iff (fun _ => ⟨1, 1⟩) 0x100000 8 (fun _ => 0) (by decide)).mpr (Or.inr ⟨?_, ?_⟩)
  · exact ⟨0, by decide, by decide, 0, by unfold StuckBit; decide⟩
  · intro w hw
    have hall : ∀ w ∈ [1, 2, 4], 0 + 1 < (8 : UInt32).toNat / w ∧ 0 < w := by decide
    obtain ⟨hlast, hpos⟩ := hall w hw
    exact ⟨0x00000000, by decide, 0, hlast, ⟨0, hpos, hsee⟩, ⟨0, hpos, hsee⟩⟩

/-- Bit 7 of the byte at `0x100002`, in the upper half of the only longword, reads as one. -/
theorem not_agree_upper :
    ¬ Agree (fun a => if a = 0x100002 then ⟨0x80, 0x80⟩ else ⟨0, 0⟩) 0x100000 4 (fun _ => 0) := by
  intro h
  exact absurd h.1 (by decide)

end Memtest
