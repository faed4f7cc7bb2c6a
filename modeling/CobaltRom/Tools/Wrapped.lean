import CobaltRom.Tools.Buildbin

/-! `buildbin` on sections whose end does not fit an `unsigned int`. -/
namespace Buildbin

/-- "keep looking" ends at `cur`. -/
def StopsAt (new cur : Section) : Prop := new.offset < cur.offset + cur.size

/-- "collision". -/
def Collides (new cur : Section) : Prop :=
  new.offset > cur.offset ∨ new.offset + new.size > cur.offset

instance : DecidableRel StopsAt := fun new cur =>
  inferInstanceAs (Decidable (new.offset < cur.offset + cur.size))

instance : DecidableRel Collides := fun new cur =>
  inferInstanceAs (Decidable (new.offset > cur.offset ∨ new.offset + new.size > cur.offset))

/-- By these tests `new` belongs in front of `s`. -/
def Ahead (new s : Section) : Prop := StopsAt new s ∧ ¬ Collides new s

/-- The sections in a row, each one in front of those given earlier from the first on that it
stops at. -/
def row (secs : List Section) : List Section := secs.reverse.insertionSort StopsAt

/-- The section of the row that `new` stops at. -/
def next (secs : List Section) (new : Section) : Option Section :=
  (row secs).find? fun cur => decide (StopsAt new cur)

/-- `new` collides with the section it stops at. -/
def Clash (secs : List Section) (new : Section) : Prop :=
  ∃ cur, next secs new = some cur ∧ Collides new cur

/-- Some section collides with one given earlier. -/
def Reported (secs : List Section) : Prop :=
  ∃ k x, secs[k]? = some x ∧ Clash (secs.take k) x

/-- Whatever belongs in front of the first section comes behind a collision, and there is an
error to report: a collision, no image size, or a last section of the row past the image. -/
def Refused (secs : List Section) (imglen : Int32) : Prop :=
  (∀ s x k, secs.head? = some s → secs[k]? = some x → Ahead x s → Reported (secs.take k)) ∧
    (Reported secs ∨ imglen ≤ 0 ∨
      ∃ p, (row secs).getLast? = some p ∧ imglen.toUInt32 ≤ p.offset + p.size)

variable {new s x : Section} {passed cur secs pre rest : List Section} {k : Nat} {imglen : Int32}

theorem row_concat (secs : List Section) (x : Section) :
    row (secs ++ [x]) = (row secs).orderedInsert StopsAt x := by
  rw [row, List.reverse_append, List.reverse_singleton, List.singleton_append,
    List.insertionSort_cons, row]

theorem not_clash_nil (x : Section) : ¬ Clash [] x := by
  rintro ⟨cur, hcur, -⟩
  cases hcur

theorem not_ahead_self (s : Section) : ¬ Ahead s s := fun h => h.2 (Or.inr h.1)

/-! ### One section -/

/-- Behind the head the loop reports the section it stops at, or puts the new one there. -/
theorem insertLoop_row (new : Section) : ∀ (cur passed : List Section), passed ≠ [] →
    (∃ c, cur.find? (fun c => decide (StopsAt new c)) = some c ∧ Collides new c ∧
      insertLoop new passed cur = .error (.exit 2)) ∨
    (∀ c, cur.find? (fun c => decide (StopsAt new c)) = some c → ¬ Collides new c) ∧
      insertLoop new passed cur = .ok (passed ++ cur.orderedInsert StopsAt new) := by
  intro cur
  induction cur with
  | nil =>
    intro passed hne
    refine Or.inr ⟨fun _ hc => absurd hc (Option.some_ne_none _).symm, ?_⟩
    rw [insertLoop, link, if_neg hne, List.orderedInsert_nil]
  | cons c cur ih =>
    intro passed hne
    rw [insertLoop, List.find?_cons, List.orderedInsert_cons]
    by_cases hstop : StopsAt new c
    · rw [if_neg (UInt32.not_le.mpr hstop), decide_eq_true hstop, if_pos hstop]
      by_cases hcol : Collides new c
      · exact Or.inl ⟨c, rfl, hcol, if_pos hcol⟩
      · refine Or.inr ⟨fun d hd => ?_, ?_⟩
        · rwa [← Option.some.inj hd]
        · exact (if_neg hcol).trans (if_neg hne)
    · rw [if_pos (UInt32.not_lt.mp hstop), decide_eq_false hstop, if_neg hstop]
      simpa using ih (passed ++ [c]) (by simp)

theorem next_of_head (hs : (row pre).head? = some s) (h : StopsAt new s) :
    next pre new = some s := by
  obtain ⟨l, hl⟩ := List.head?_eq_some_iff.mp hs
  rw [next, hl, List.find?_cons, decide_eq_true h]

theorem not_clash_of_ahead (hs : (row pre).head? = some s) (h : Ahead new s) :
    ¬ Clash pre new := by
  rintro ⟨c, hc, hcol⟩
  rw [next_of_head hs h.1] at hc
  rw [← Option.some.inj hc] at hcol
  exact h.2 hcol

theorem insertSection_row (hs : (row pre).head? = some s) (new : Section) :
    (insertSection (row pre) new = .error (.exit 2) ∧ Clash pre new ∧ ¬ Ahead new s) ∨
      (insertSection (row pre) new = .error .segfault ∧ Ahead new s) ∨
      insertSection (row pre) new = .ok (row (pre ++ [new])) ∧
        (row (pre ++ [new])).head? = some s ∧ ¬ Clash pre new ∧ ¬ Ahead new s := by
  obtain ⟨l, hl⟩ := List.head?_eq_some_iff.mp hs
  rw [row_concat, insertSection, hl, if_neg (List.cons_ne_nil s l), insertLoop,
    List.orderedInsert_cons]
  by_cases hstop : StopsAt new s
  · rw [if_neg (UInt32.not_le.mpr hstop), if_pos hstop]
    by_cases hcol : Collides new s
    · exact Or.inl ⟨if_pos hcol, ⟨s, next_of_head hs hstop, hcol⟩, fun h => h.2 hcol⟩
    · refine Or.inr (Or.inl ⟨?_, hstop, hcol⟩)
      exact (if_neg hcol).trans (if_pos rfl)
  · rw [if_pos (UInt32.not_lt.mp hstop), if_neg hstop]
    have hahead : ¬ Ahead new s := fun h => hstop h.1
    have hnext : next pre new = l.find? fun c => decide (StopsAt new c) := by
      rw [next, hl, List.find?_cons, decide_eq_false hstop]
    rcases insertLoop_row new l [s] (by simp) with ⟨c, hc, hcol, hrun⟩ | ⟨hnone, hrun⟩
    · exact Or.inl ⟨hrun, ⟨c, hnext.trans hc, hcol⟩, hahead⟩
    · refine Or.inr (Or.inr ⟨hrun, rfl, ?_, hahead⟩)
      rintro ⟨c, hc, hcol⟩
      exact hnone c (hnext.symm.trans hc) hcol

/-! ### All sections -/

/-- The first `k` sections are taken into the row without an error. -/
def TakenUpTo (secs : List Section) (s : Section) (k : Nat) : Prop :=
  ∀ j < k, ∀ y, secs[j]? = some y → ¬ Clash (secs.take j) y ∧ ¬ Ahead y s

theorem TakenUpTo.succ (h : TakenUpTo secs s k) (hx : secs[k]? = some x)
    (hc : ¬ Clash (secs.take k) x) (ha : ¬ Ahead x s) : TakenUpTo secs s (k + 1) := by
  intro j hj y hy
  rcases Nat.lt_succ_iff_lt_or_eq.mp hj with hj | rfl
  · exact h j hj y hy
  · rw [hx] at hy
    rw [← Option.some.inj hy]
    exact ⟨hc, ha⟩

/-- How the options end: in the row, or at the first section that is not taken into it. -/
theorem insertAll_row (secs : List Section) (s : Section) : ∀ (rest pre : List Section),
    secs = pre ++ rest → (row pre).head? = some s → TakenUpTo secs s pre.length →
    (insertAll (row pre) rest = .ok (row secs) ∧ TakenUpTo secs s secs.length) ∨
      ∃ k x, secs[k]? = some x ∧ TakenUpTo secs s k ∧
        ((insertAll (row pre) rest = .error (.exit 2) ∧ Clash (secs.take k) x ∧ ¬ Ahead x s) ∨
          (insertAll (row pre) rest = .error .segfault ∧ Ahead x s ∧
            ¬ Clash (secs.take k) x)) := by
  intro rest
  induction rest with
  | nil =>
    intro pre hsecs _ htaken
    rw [List.append_nil] at hsecs
    subst hsecs
    exact Or.inl ⟨rfl, htaken⟩
  | cons x rest ih =>
    intro pre hsecs hs htaken
    have hx : secs[pre.length]? = some x := by
      rw [hsecs, List.getElem?_append_right (Nat.le_refl _), Nat.sub_self,
        List.getElem?_cons_zero]
    have htake : secs.take pre.length = pre := by
      rw [hsecs]
      exact List.take_left
    rw [insertAll]
    rcases insertSection_row hs x with ⟨he, hc, ha⟩ | ⟨he, ha⟩ | ⟨he, hs', hc, ha⟩
    · rw [he]
      exact Or.inr ⟨_, x, hx, htaken, Or.inl ⟨rfl, htake.symm ▸ hc, ha⟩⟩
    · rw [he]
      exact Or.inr ⟨_, x, hx, htaken,
        Or.inr ⟨rfl, ha, htake.symm ▸ not_clash_of_ahead hs ha⟩⟩
    · rw [he]
      refine ih (pre ++ [x]) (by rw [hsecs, List.append_cons]) hs' ?_
      rw [List.length_append, List.length_singleton]
      exact htaken.succ hx (htake.symm ▸ hc) ha

theorem not_reported_take (h : TakenUpTo secs s k) : ¬ Reported (secs.take k) := by
  rintro ⟨j, y, hy, hc⟩
  obtain ⟨hj, -⟩ := List.getElem?_eq_some_iff.mp hy
  rw [List.length_take, Nat.lt_min] at hj
  rw [List.getElem?_take, if_pos hj.1] at hy
  rw [List.take_take, Nat.min_eq_left (Nat.le_of_lt hj.1)] at hc
  exact (h j hj.1 y hy).1 hc

theorem reported_take {j : Nat} (hx : secs[k]? = some x) (hc : Clash (secs.take k) x) (hk : k < j) :
    Reported (secs.take j) := by
  refine ⟨k, x, ?_, ?_⟩
  · rwa [List.getElem?_take, if_pos hk]
  · rwa [List.take_take, Nat.min_eq_left (Nat.le_of_lt hk)]

/-! ### The whole run -/

theorem not_fits_of_not_small (h : ∃ s ∈ secs, ¬ s.Small) : ¬ Fits imglen.toInt.toNat secs := by
  obtain ⟨s, hs, hsmall⟩ := h
  intro hfits
  have hhi : s.offset.toNat + s.file.length ≤ imglen.toInt.toNat := hfits s hs
  have hlt := imglen.toInt_lt
  unfold Section.Small at hsmall
  omega

/-- The last test, on a row that was put together without an error. -/
theorem sanity_row (hrun : insertAll [] secs = .ok (row secs)) (hne : row secs ≠ [])
    (hfits : ¬ Fits imglen.toInt.toNat secs) : Correct secs imglen ↔
      imglen ≤ 0 ∨ ∃ p, (row secs).getLast? = some p ∧ imglen.toUInt32 ≤ p.offset + p.size := by
  obtain ⟨p, hp⟩ : ∃ p, (row secs).getLast? = some p :=
    ⟨_, List.getLast?_eq_some_getLast hne⟩
  have hnot : ¬ (Separate secs ∧ Fits imglen.toInt.toNat secs) := fun h => hfits h.2
  by_cases hpos : imglen ≤ 0
  · have hexit : buildbin secs imglen = .error (.exit 3) := by
      simp only [buildbin, parseCmdline, hrun, sanity, if_pos hpos]
    exact iff_of_true ((correct_of_exit (by decide) hexit).mpr hnot) (Or.inl hpos)
  by_cases hle : imglen.toUInt32 ≤ p.offset + p.size
  · have hexit : buildbin secs imglen = .error (.exit 4) := by
      simp only [buildbin, parseCmdline, hrun, sanity, if_neg hpos, hp, if_pos (ge_iff_le.mpr hle)]
    exact iff_of_true ((correct_of_exit (by decide) hexit).mpr hnot) (Or.inr ⟨p, hp, hle⟩)
  · have hok : buildbin secs imglen = .ok (writeSections imglen.toInt.toNat 0 (row secs)) := by
      simp only [buildbin, parseCmdline, hrun, sanity, if_neg hpos, hp,
        if_neg (mt ge_iff_le.mp hle)]
    refine iff_of_false (fun hc => ?_) ?_
    · obtain ⟨code, -, hcode⟩ := hc.2 (Or.inr hfits)
      rw [hok] at hcode
      cases hcode
    · rintro (h | ⟨q, hq, h⟩)
      · exact hpos h
      · rw [hp] at hq
        exact hle (Option.some.inj hq ▸ h)

/-- With an end that does not fit an `unsigned int` the sections do not fit either. -/
theorem correct_iff_refused (hwrap : ∃ s ∈ secs, ¬ s.Small) :
    Correct secs imglen ↔ Refused secs imglen := by
  have hfits : ¬ Fits imglen.toInt.toNat secs := not_fits_of_not_small hwrap
  have hnot : ¬ (Separate secs ∧ Fits imglen.toInt.toNat secs) := fun h => hfits h.2
  cases secs with
  | nil => exact absurd hwrap (by simp)
  | cons s rest =>
    have hinsert : insertAll [] (s :: rest) = insertAll (row [s]) rest := rfl
    have hstart : TakenUpTo (s :: rest) s [s].length := by
      intro j hj y hy
      obtain rfl : j = 0 := Nat.lt_one_iff.mp hj
      rw [List.getElem?_cons_zero, Option.some.injEq] at hy
      subst hy
      exact ⟨not_clash_nil _, not_ahead_self _⟩
    rcases insertAll_row (s :: rest) s rest [s] rfl rfl hstart with ⟨hrun, htaken⟩ |
      ⟨k, x, hx, htaken, ⟨hrun, hc, ha⟩ | ⟨hrun, ha, hc⟩⟩
    · have hne : row (s :: rest) ≠ [] := by
        intro h
        have hlen := congrArg List.length h
        rw [row, List.length_insertionSort, List.length_reverse, List.length_cons] at hlen
        exact Nat.succ_ne_zero _ hlen
      have hrep : ¬ Reported (s :: rest) := by
        have := not_reported_take htaken
        rwa [List.take_length] at this
      rw [sanity_row (hinsert.trans hrun) hne hfits]
      refine ⟨fun h => ⟨?_, Or.inr h⟩, fun h => h.2.resolve_left hrep⟩
      intro s' y j hs' hy hahead
      obtain rfl : s = s' := Option.some.inj hs'
      exact absurd hahead (htaken j (List.getElem?_eq_some_iff.mp hy).1 y hy).2
    · have hexit : buildbin (s :: rest) imglen = .error (.exit 2) := by
        rw [buildbin, parseCmdline, hinsert, hrun]
      refine iff_of_true ((correct_of_exit (by decide) hexit).mpr hnot) ⟨?_, Or.inl ⟨k, x, hx, hc⟩⟩
      intro s' y j hs' hy hahead
      obtain rfl : s = s' := Option.some.inj hs'
      rcases Nat.lt_trichotomy j k with hj | rfl | hj
      · exact absurd hahead (htaken j hj y hy).2
      · rw [hx] at hy
        exact absurd (Option.some.inj hy ▸ hahead) ha
      · exact reported_take hx hc hj
    · have hdies : buildbin (s :: rest) imglen = .error .segfault := by
        rw [buildbin, parseCmdline, hinsert, hrun]
      exact iff_of_false (not_correct_of_segfault hdies) fun h =>
        not_reported_take htaken (h.1 s x k rfl hx ha)

/-- `buildbin` does what it should exactly if: where all ends fit an `unsigned int`, there is a
section, none comes in front of the first one given, and of sections that fit together none ends
with the image or is empty inside another; where some end does not, an error is reported before
any section comes in front of the first. -/
theorem buildbin_correct_iff (secs : List Section) (imglen : Int32) : Correct secs imglen ↔
    ((∀ s ∈ secs, s.Small) → secs ≠ [] ∧ HeadKept secs ∧
      (Separate secs ∧ Fits imglen.toInt.toNat secs → Loose imglen.toInt.toNat secs)) ∧
    ((∃ s ∈ secs, ¬ s.Small) → Refused secs imglen) := by
  by_cases hsmall : ∀ s ∈ secs, s.Small
  · have hnot : ¬ ∃ s ∈ secs, ¬ s.Small := by
      rintro ⟨s, hs, hwrap⟩
      exact hwrap (hsmall s hs)
    rw [correct_iff_of_small hsmall]
    exact ⟨fun h => ⟨fun _ => h, fun hwrap => absurd hwrap hnot⟩, fun h => h.1 hsmall⟩
  · have hwrap : ∃ s ∈ secs, ¬ s.Small := by
      push Not at hsmall
      exact hsmall
    rw [correct_iff_refused hwrap]
    exact ⟨fun h => ⟨fun hs => absurd hs hsmall, fun _ => h⟩, fun h => h.2 hwrap⟩

/-- The second section collides with the first, so the third, whose end wraps, is not read. -/
theorem buildbin_correct_collision :
    Correct [mkSection 0 [1, 2], mkSection 1 [1, 2], mkSection 0xffffffff [1, 2]] 16 := by
  refine (buildbin_correct_iff _ _).mpr ⟨fun h => absurd h (by decide), fun _ => ⟨?_, Or.inl ?_⟩⟩
  · intro s x k hs hx hahead
    obtain rfl : mkSection 0 [1, 2] = s := Option.some.inj hs
    rcases List.mem_cons.mp (List.mem_of_getElem? hx) with rfl | hx
    · exact absurd hahead (not_ahead_self _)
    · have hnone : ∀ y ∈ [mkSection 1 [1, 2], mkSection 0xffffffff [1, 2]],
          ¬ StopsAt y (mkSection 0 [1, 2]) ∨ Collides y (mkSection 0 [1, 2]) := by decide
      rcases hnone x hx with hn | hn
      · exact absurd hahead.1 hn
      · exact absurd hn hahead.2
  · exact ⟨1, mkSection 1 [1, 2], rfl, mkSection 0 [1, 2], rfl, by decide⟩

/-- The same sections the other way round write through a null pointer. -/
theorem buildbin_order : ¬ ∀ (secs : List Section) (imglen : Int32), (∀ s ∈ secs, s.Small) →
    Correct secs imglen := by
  intro h
  have hrun : buildbin [mkSection 4 [3], mkSection 0 [1, 2]] 16 = .error .segfault := rfl
  exact not_correct_of_segfault hrun (h _ _ (by decide))

end Buildbin
