import Mathlib
import CobaltRom.Lib.Spans

/-! `buildbin`: an image put together from sections of the command line. -/
namespace Buildbin

/-- `struct section`: the file is the contents behind `filename`, and `mk_section` takes
the size from `stat`. -/
structure Section where
  offset : UInt32
  file : List UInt8
  size : UInt32
  stat : size = UInt32.ofNat file.length

/-- `mk_section`, behind the numeric conversion. -/
def mkSection (offset : UInt32) (file : List UInt8) : Section := ⟨offset, file, _, rfl⟩

/-- How the program ends early. -/
inductive Failure where
  | exit (code : Nat)
  | segfault
  deriving DecidableEq

/-- `new->next = cur; prev->next = new`: without a `prev` there is nothing to write to. -/
def link (new : Section) (passed cur : List Section) : Except Failure (List Section) :=
  if passed = [] then .error .segfault else .ok (passed ++ new :: cur)

/-- The loop of `insert`: `passed` ends with `prev`. -/
def insertLoop (new : Section) : List Section → List Section → Except Failure (List Section)
  | passed, [] => link new passed []
  | passed, cur :: next =>
    if new.offset ≥ cur.offset + cur.size then insertLoop new (passed ++ [cur]) next
    else if new.offset > cur.offset ∨ new.offset + new.size > cur.offset then .error (.exit 2)
    else link new passed (cur :: next)

def insertSection (sections : List Section) (new : Section) : Except Failure (List Section) :=
  if sections = [] then .ok [new] else insertLoop new [] sections

/-- The `-s` options of the command line in turn. -/
def insertAll : List Section → List Section → Except Failure (List Section)
  | sections, [] => .ok sections
  | sections, new :: rest =>
    match insertSection sections new with
    | .error e => .error e
    | .ok sections => insertAll sections rest

/-- The sanity checks behind the options. -/
def sanity (sections : List Section) (imglen : Int32) : Except Failure (List Section) :=
  if imglen ≤ 0 then .error (.exit 3)
  else
    match sections.getLast? with
    | none => .error .segfault
    | some p =>
      if p.offset + p.size ≥ imglen.toUInt32 then .error (.exit 4) else .ok sections

def parseCmdline (secs : List Section) (imglen : Int32) : Except Failure (List Section) :=
  match insertAll [] secs with
  | .error e => .error e
  | .ok sections => sanity sections imglen

/-- The writer of `main`, from position `pos` on. -/
def writeSections (imglen : Nat) : Nat → List Section → List UInt8
  | pos, [] => List.replicate (imglen - pos) 0xff
  | pos, cur :: next =>
    List.replicate (cur.offset.toNat - pos) 0xff ++ cur.file.take cur.size.toNat ++
      writeSections imglen (max pos cur.offset.toNat + cur.size.toNat) next

/-- `main`: the image written before it returns 0. -/
def buildbin (secs : List Section) (imglen : Int32) : Except Failure (List UInt8) :=
  match parseCmdline secs imglen with
  | .error e => .error e
  | .ok sections => .ok (writeSections imglen.toInt.toNat 0 sections)

/-! ### What the image should be -/

namespace Section

/-- Where the section belongs in the image. -/
def span (s : Section) : Span := ⟨s.offset.toNat, s.offset.toNat + s.file.length, by omega⟩

/-- The end of the section can be computed in an `unsigned int`. -/
def Small (s : Section) : Prop := s.offset.toNat + s.file.length < 2 ^ 32

instance (s : Section) : Decidable s.Small :=
  inferInstanceAs (Decidable (s.offset.toNat + s.file.length < 2 ^ 32))

end Section

/-- No two sections have a byte in common. -/
def Separate (secs : List Section) : Prop := secs.Pairwise fun s t => s.span.Disjoint t.span

/-- No section reaches past the end of the image. -/
def Fits (n : Nat) (secs : List Section) : Prop := ∀ s ∈ secs, s.span.hi ≤ n

structure IsImage (n : Nat) (secs : List Section) (img : List UInt8) : Prop where
  length : img.length = n
  holds : ∀ s ∈ secs, ∀ k < s.file.length, img[s.offset.toNat + k]? = s.file[k]?
  fill : ∀ x < n, (∀ s ∈ secs, x ∉ s.span) → img[x]? = some 0xff

/-- Sections that fit together give their image, all others an error. -/
def Correct (secs : List Section) (imglen : Int32) : Prop :=
  (Separate secs ∧ Fits imglen.toInt.toNat secs →
    ∃ img, buildbin secs imglen = .ok img ∧ IsImage imglen.toInt.toNat secs img) ∧
  (¬ Separate secs ∨ ¬ Fits imglen.toInt.toNat secs →
    ∃ code, code ≠ 0 ∧ buildbin secs imglen = .error (.exit code))

/-- `s` belongs in front of `t`, and cannot be put behind it. -/
def Front (s t : Section) : Prop := s.span.Before t.span ∧ ¬ t.span.Before s.span

instance (s t : Section) : Decidable (Front s t) :=
  inferInstanceAs (Decidable (s.span.Before t.span ∧ ¬ t.span.Before s.span))

variable {new s t : Section} {passed cur secs pre rest l : List Section} {n : Nat}
  {imglen : Int32}

/-! ### One section -/

theorem Section.Small.size (h : s.Small) : s.size.toNat = s.file.length := by
  rw [s.stat]
  refine UInt32.toNat_ofNat_of_lt' ?_
  unfold Section.Small at h
  simp only [UInt32.size]
  omega

theorem Section.Small.hi (h : s.Small) : (s.offset + s.size).toNat = s.span.hi := by
  rw [UInt32.toNat_add, h.size]
  exact Nat.mod_eq_of_lt h

/-- "Keep looking" is what it says. -/
theorem behind_iff (h : s.Small) : new.offset ≥ s.offset + s.size ↔ s.span.Before new.span := by
  rw [ge_iff_le, UInt32.le_iff_toNat_le, h.hi]
  rfl

/-- The collision test lets pass what belongs in front. -/
theorem collision_iff (hn : new.Small) :
    (new.offset > s.offset ∨ new.offset + new.size > s.offset) ↔ ¬ new.span.Before s.span := by
  rw [gt_iff_lt, gt_iff_lt, UInt32.lt_iff_toNat_lt, UInt32.lt_iff_toNat_lt, hn.hi]
  simp only [Span.Before, Section.span]
  omega

/-- Behind the head the loop finds an overlap or the place for the section. -/
theorem insertLoop_cases (hn : new.Small) : ∀ (cur passed : List Section), passed ≠ [] →
    (∀ c ∈ cur, c.Small) → (passed ++ cur).Pairwise (fun s t => s.span.Before t.span) →
    (∀ c ∈ passed, c.span.Before new.span) →
    (insertLoop new passed cur = .error (.exit 2) ∧ ∃ c ∈ cur, ¬ c.span.Apart new.span) ∨
      ∃ l, insertLoop new passed cur = .ok l ∧ l.Perm (passed ++ cur ++ [new]) ∧
        l.Pairwise (fun s t => s.span.Before t.span) ∧ l.head? = passed.head? := by
  intro cur
  induction cur with
  | nil =>
    intro passed hne _ hrow hpass
    rw [insertLoop, link, if_neg hne]
    rw [List.append_nil] at hrow ⊢
    refine Or.inr ⟨_, rfl, .refl _, ?_, List.head?_append_of_ne_nil _ hne⟩
    rw [List.pairwise_append]
    refine ⟨hrow, List.pairwise_singleton _ _, ?_⟩
    intro a ha b hb
    rw [List.mem_singleton.mp hb]
    exact hpass a ha
  | cons c cur ih =>
    intro passed hne hsmall hrow hpass
    have hc := hsmall c List.mem_cons_self
    rw [insertLoop]
    by_cases hb : c.span.Before new.span
    · rw [if_pos ((behind_iff hc).mpr hb)]
      rw [List.append_cons] at hrow
      rcases ih (passed ++ [c]) (by simp) (fun d hd => hsmall d (List.mem_cons_of_mem _ hd)) hrow
        (by
          intro d hd
          rcases List.mem_append.mp hd with hd | hd
          · exact hpass d hd
          · rw [List.mem_singleton.mp hd]
            exact hb) with ⟨he, d, hd, hap⟩ | ⟨l, he, hperm, hl, hhead⟩
      · exact Or.inl ⟨he, d, List.mem_cons_of_mem _ hd, hap⟩
      · refine Or.inr ⟨l, he, ?_, hl, ?_⟩
        · rwa [List.append_cons passed c cur]
        · rw [hhead, List.head?_append_of_ne_nil _ hne]
    rw [if_neg (mt (behind_iff hc).mp hb)]
    by_cases hf : new.span.Before c.span
    · rw [if_neg (mt (collision_iff hn).mp (not_not.mpr hf)), link, if_neg hne]
      refine Or.inr ⟨_, rfl, ?_, ?_, List.head?_append_of_ne_nil _ hne⟩
      · rw [List.append_assoc]
        exact .append_left _ (List.perm_append_singleton new (c :: cur)).symm
      · rw [List.pairwise_append] at hrow ⊢
        obtain ⟨hp, hcur, hpc⟩ := hrow
        have hnew : ∀ b ∈ c :: cur, new.span.Before b.span := by
          intro b hbm
          rcases List.mem_cons.mp hbm with rfl | hbm
          · exact hf
          · exact hf.trans ((List.pairwise_cons.mp hcur).1 b hbm)
        refine ⟨hp, List.pairwise_cons.mpr ⟨hnew, hcur⟩, ?_⟩
        intro a ha b hbm
        rcases List.mem_cons.mp hbm with rfl | hbm
        · exact hpass a ha
        · exact hpc a ha b hbm
    · rw [if_pos ((collision_iff hn).mpr hf)]
      exact Or.inl ⟨rfl, c, List.mem_cons_self, fun h => h.elim hb hf⟩

/-! ### All sections -/

/-- The list that `insert` keeps: the sections so far, in a row, the first one given still
at the head. -/
structure Lined (s : Section) (pre l : List Section) : Prop where
  perm : l.Perm pre
  row : l.Pairwise fun s t => s.span.Before t.span
  head : l.head? = some s

theorem Lined.apart (h : Lined s pre l) : pre.Pairwise fun s t => s.span.Apart t.span :=
  (h.row.imp fun hb => Or.inl hb).perm h.perm fun hap => hap.symm

theorem insertSection_cases (hl : Lined s pre l) (hsmall : ∀ c ∈ pre, c.Small) (hn : new.Small) :
    (insertSection l new = .error (.exit 2) ∧ ¬ Front new s ∧
        ¬ (pre ++ [new]).Pairwise fun s t => s.span.Apart t.span) ∨
      (insertSection l new = .error .segfault ∧ Front new s) ∨
      ∃ l', insertSection l new = .ok l' ∧ ¬ Front new s ∧ Lined s (pre ++ [new]) l' := by
  obtain ⟨next, rfl⟩ := List.head?_eq_some_iff.mp hl.head
  have hmem : ∀ c ∈ s :: next, c.Small := fun c hc => hsmall c (hl.perm.mem_iff.mp hc)
  have hs := hmem s List.mem_cons_self
  have hclash : (∃ c ∈ s :: next, ¬ c.span.Apart new.span) →
      ¬ (pre ++ [new]).Pairwise fun s t => s.span.Apart t.span := by
    rintro ⟨c, hc, hap⟩ hpair
    exact hap ((List.pairwise_append.mp hpair).2.2 c (hl.perm.mem_iff.mp hc) new
      (List.mem_singleton.mpr rfl))
  rw [insertSection, if_neg (List.cons_ne_nil s next), insertLoop]
  by_cases hb : s.span.Before new.span
  · rw [if_pos ((behind_iff hs).mpr hb)]
    have hfront : ¬ Front new s := fun h => h.2 hb
    rcases insertLoop_cases hn next [s] (by simp)
      (fun c hc => hmem c (List.mem_cons_of_mem _ hc)) hl.row (by simpa using hb) with
      ⟨he, c, hc, hap⟩ | ⟨l', he, hperm, hrow, hhead⟩
    · exact Or.inl ⟨he, hfront, hclash ⟨c, List.mem_cons_of_mem _ hc, hap⟩⟩
    · exact Or.inr (Or.inr ⟨l', he, hfront,
        hperm.trans (hl.perm.append_right [new]), hrow, hhead⟩)
  rw [if_neg (mt (behind_iff hs).mp hb)]
  by_cases hf : new.span.Before s.span
  · rw [if_neg (mt (collision_iff hn).mp (not_not.mpr hf)), link, if_pos rfl]
    exact Or.inr (Or.inl ⟨rfl, hf, hb⟩)
  · rw [if_pos ((collision_iff hn).mpr hf)]
    exact Or.inl ⟨rfl, fun h => hf h.1, hclash ⟨s, List.mem_cons_self, fun h => h.elim hb hf⟩⟩

/-- How the options end: in a row, at an overlap, or at a section in front of the first. -/
theorem insertAll_cases (rest : List Section) : ∀ (pre l : List Section), Lined s pre l →
    (∀ c ∈ pre ++ rest, c.Small) →
    (∃ l', insertAll l rest = .ok l' ∧ Lined s (pre ++ rest) l' ∧ ∀ x ∈ rest, ¬ Front x s) ∨
      (insertAll l rest = .error (.exit 2) ∧ ∃ a x b, rest = a ++ x :: b ∧
        (∀ y ∈ a ++ [x], ¬ Front y s) ∧
        ¬ (pre ++ a ++ [x]).Pairwise fun s t => s.span.Apart t.span) ∨
      (insertAll l rest = .error .segfault ∧ ∃ a x b, rest = a ++ x :: b ∧ Front x s ∧
        (pre ++ a).Pairwise fun s t => s.span.Apart t.span) := by
  induction rest with
  | nil =>
    intro pre l hl _
    refine Or.inl ⟨l, rfl, ?_, by simp⟩
    rwa [List.append_nil]
  | cons new rest ih =>
    intro pre l hl hsmall
    rw [insertAll]
    rcases insertSection_cases hl (fun c hc => hsmall c (List.mem_append_left _ hc))
      (hsmall new (by simp)) with ⟨he, hf, hap⟩ | ⟨he, hf⟩ | ⟨l', he, hf, hl'⟩
    · rw [he]
      exact Or.inr (Or.inl ⟨rfl, [], new, rest, rfl, by simpa using hf, by simpa using hap⟩)
    · rw [he]
      exact Or.inr (Or.inr ⟨rfl, [], new, rest, rfl, hf, by simpa using hl.apart⟩)
    · rw [he]
      have hcons : pre ++ new :: rest = pre ++ [new] ++ rest := List.append_cons pre new rest
      rw [hcons] at hsmall ⊢
      rcases ih (pre ++ [new]) l' hl' hsmall with ⟨l'', he', hl'', hfs⟩ |
        ⟨he', a, x, b, rfl, hfs, hap⟩ | ⟨he', a, x, b, rfl, hx, hap⟩
      · refine Or.inl ⟨l'', he', hl'', ?_⟩
        intro x hx
        rcases List.mem_cons.mp hx with rfl | hx
        · exact hf
        · exact hfs x hx
      · refine Or.inr (Or.inl ⟨he', new :: a, x, b, rfl, ?_, ?_⟩)
        · intro y hy
          rcases List.mem_cons.mp hy with rfl | hy
          · exact hf
          · exact hfs y hy
        · rwa [List.append_cons pre new a]
      · refine Or.inr (Or.inr ⟨he', new :: a, x, b, rfl, hx, ?_⟩)
        rwa [List.append_cons pre new a]

/-! ### The writer -/

/-- What the writer owes from position `pos` on. -/
structure Written (n pos : Nat) (l : List Section) (out : List UInt8) : Prop where
  length : out.length = n - pos
  holds : ∀ s ∈ l, ∀ k < s.file.length, out[s.offset.toNat + k - pos]? = s.file[k]?
  fill : ∀ x, pos ≤ x → x < n → (∀ s ∈ l, x ∉ s.span) → out[x - pos]? = some 0xff

theorem writeSections_written (l : List Section) : ∀ pos : Nat, pos ≤ n →
    l.Pairwise (fun s t => s.span.Before t.span) → (∀ s ∈ l, s.Small) → Fits n l →
    (∀ s ∈ l, pos ≤ s.offset.toNat) → Written n pos l (writeSections n pos l) := by
  induction l with
  | nil =>
    intro pos _ _ _ _ _
    refine ⟨by rw [writeSections, List.length_replicate], by simp, ?_⟩
    intro x hpos hx _
    rw [writeSections, List.getElem?_replicate, if_pos (by omega)]
  | cons s l ih =>
    intro pos hn hrow hsmall hfits hpos
    obtain ⟨hs, hl⟩ := List.pairwise_cons.mp hrow
    have hsize := (hsmall s List.mem_cons_self).size
    have hat := hpos s List.mem_cons_self
    have hend : s.offset.toNat + s.file.length ≤ n := hfits s List.mem_cons_self
    have h := ih (s.offset.toNat + s.file.length) hend hl
      (fun t ht => hsmall t (List.mem_cons_of_mem _ ht))
      (fun t ht => hfits t (List.mem_cons_of_mem _ ht)) (fun t ht => hs t ht)
    rw [writeSections, hsize, List.take_of_length_le (Nat.le_refl _), Nat.max_eq_right hat]
    have hlen : (List.replicate (s.offset.toNat - pos) (0xff : UInt8) ++ s.file).length =
        s.offset.toNat + s.file.length - pos := by
      rw [List.length_append, List.length_replicate]
      omega
    refine ⟨?_, ?_, ?_⟩
    · rw [List.length_append, hlen, h.length]
      omega
    · intro t ht k hk
      rcases List.mem_cons.mp ht with rfl | ht
      · rw [List.getElem?_append_left (by omega), List.getElem?_append_right (by simp; omega),
          List.length_replicate]
        congr 1
        omega
      · have hbefore : s.offset.toNat + s.file.length ≤ t.offset.toNat := hs t ht
        rw [List.getElem?_append_right (by omega), hlen, ← h.holds t ht k hk]
        congr 1
        omega
    · intro x hx hxn hout
      have hself : ¬ (s.offset.toNat ≤ x ∧ x < s.offset.toNat + s.file.length) :=
        hout s List.mem_cons_self
      by_cases hlt : x < s.offset.toNat
      · rw [List.getElem?_append_left (by omega), List.getElem?_append_left (by simp; omega),
          List.getElem?_replicate, if_pos (by omega)]
      · rw [List.getElem?_append_right (by omega), hlen,
          ← h.fill x (by omega) hxn fun t ht => hout t (List.mem_cons_of_mem _ ht)]
        congr 1
        omega

/-! ### The whole run -/

/-- Whatever belongs in front of the first section comes too late to be reached: two
sections given before it overlap already. -/
def HeadKept (secs : List Section) : Prop :=
  ∀ s x k, secs.head? = some s → secs[k]? = some x → Front x s →
    ¬ (secs.take k).Pairwise fun s t => s.span.Apart t.span

/-- No section ends with the image, and none is empty and strictly inside another. -/
def Loose (n : Nat) (secs : List Section) : Prop :=
  (∀ s ∈ secs, s.span.hi ≠ n) ∧ ∀ s ∈ secs, ∀ t ∈ secs, ¬ s.span.Inside t.span

theorem apart_of_separate (hs : Separate secs) (hl : ∀ s ∈ secs, ∀ t ∈ secs,
    ¬ s.span.Inside t.span) : secs.Pairwise fun s t => s.span.Apart t.span := by
  refine hs.imp_of_mem ?_
  intro s t hms hmt hd
  rcases Span.disjoint_iff.mp hd with hap | hin | hin
  · exact hap
  · exact absurd hin (hl s hms t hmt)
  · exact absurd hin (hl t hmt s hms)

theorem not_inside_of_apart (h : secs.Pairwise fun s t => s.span.Apart t.span) :
    ∀ s ∈ secs, ∀ t ∈ secs, ¬ s.span.Inside t.span :=
  List.Pairwise.forall_of_forall_of_flip (fun s _ => s.span.not_inside_self)
    (h.imp fun hap => hap.not_inside) (h.imp fun hap => hap.symm.not_inside)

/-- The last section of the row is the one to look at. -/
theorem sanity_cases (imglen : Int32) (hl : Lined s pre l) (hsmall : ∀ c ∈ pre, c.Small) :
    (sanity l imglen = .ok l ∧ ∀ c ∈ pre, c.span.hi < imglen.toInt.toNat) ∨
      (∃ code, code ≠ 0 ∧ sanity l imglen = .error (.exit code)) ∧
        ∃ c ∈ pre, imglen.toInt.toNat ≤ c.span.hi := by
  have hmem : ∀ c, c ∈ l ↔ c ∈ pre := fun c => hl.perm.mem_iff
  have hs : s ∈ l := List.mem_of_mem_head? hl.head
  rw [sanity]
  by_cases hpos : imglen ≤ 0
  · rw [if_pos hpos]
    refine Or.inr ⟨⟨3, by decide, rfl⟩, s, (hmem s).mp hs, ?_⟩
    have h0 : imglen.toInt ≤ 0 := Int32.le_iff_toInt_le.mp hpos
    rw [Int.toNat_of_nonpos h0]
    exact Nat.zero_le _
  rw [if_neg hpos]
  have hlen : imglen.toUInt32.toNat = imglen.toInt.toNat :=
    Int32.toNat_toUInt32_of_le (Int32.le_of_lt (Int32.not_le.mp hpos))
  obtain ⟨p, hp⟩ : ∃ p, l.getLast? = some p :=
    ⟨_, List.getLast?_eq_some_getLast (List.ne_nil_of_mem hs)⟩
  have hpm := (hmem p).mp (List.mem_of_getLast? hp)
  have hge : p.offset + p.size ≥ imglen.toUInt32 ↔ imglen.toInt.toNat ≤ p.span.hi := by
    rw [ge_iff_le, UInt32.le_iff_toNat_le, (hsmall p hpm).hi, hlen]
  rw [hp]
  by_cases hle : imglen.toInt.toNat ≤ p.span.hi
  · simp only [if_pos (hge.mpr hle)]
    exact Or.inr ⟨⟨4, by decide, rfl⟩, p, hpm, hle⟩
  · simp only [if_neg (mt hge.mp hle)]
    refine Or.inl ⟨trivial, fun c hc => ?_⟩
    have hrow : (l.map Section.span).Pairwise Span.Before := List.pairwise_map.mpr hl.row
    have hlast : (l.map Section.span).getLast? = some p.span := by
      rw [List.getLast?_map, hp]
      rfl
    have := Span.hi_le_last hrow hlast (List.mem_map_of_mem ((hmem c).mpr hc))
    omega

theorem Written.isImage {img : List UInt8} (h : Written n 0 l img) (hl : l.Perm secs) :
    IsImage n secs img := by
  refine ⟨h.length, fun s hs k hk => h.holds s (hl.mem_iff.mpr hs) k hk, ?_⟩
  intro x hx hout
  exact h.fill x (Nat.zero_le _) hx fun s hs => hout s (hl.mem_iff.mp hs)

theorem not_front_self (s : Section) : ¬ Front s s := fun h => h.2 h.1

/-- The section the list cannot take in front of its head comes before any overlap. -/
theorem not_headKept {a b : List Section} {x : Section} (hx : Front x s)
    (hap : ([s] ++ a).Pairwise fun s t => s.span.Apart t.span) :
    ¬ HeadKept (s :: (a ++ x :: b)) := by
  intro h
  refine h s x (a.length + 1) rfl ?_ hx ?_
  · simp
  · simpa using hap

/-- Behind an overlap no section matters. -/
theorem headKept_of_clash {a b : List Section} {x : Section} (hf : ∀ y ∈ a ++ [x], ¬ Front y s)
    (hap : ¬ ([s] ++ a ++ [x]).Pairwise fun s t => s.span.Apart t.span) :
    HeadKept (s :: (a ++ x :: b)) := by
  intro s' y k hs' hy hfront hpair
  obtain rfl : s = s' := Option.some.inj hs'
  have hsplit : s :: (a ++ x :: b) = ([s] ++ a ++ [x]) ++ b := by simp
  rw [hsplit] at hy hpair
  by_cases hk : k < ([s] ++ a ++ [x]).length
  · rw [List.getElem?_append_left hk] at hy
    have hmem := List.mem_of_getElem? hy
    rw [List.append_assoc] at hmem
    rcases List.mem_append.mp hmem with hmem | hmem
    · rw [List.mem_singleton.mp hmem] at hfront
      exact not_front_self s hfront
    · exact hf y hmem hfront
  · rw [List.take_append, List.take_of_length_le (Nat.le_of_not_lt hk)] at hpair
    exact hap (List.pairwise_append.mp hpair).1

theorem headKept_of_not_front (hf : ∀ y ∈ rest, ¬ Front y s) : HeadKept (s :: rest) := by
  intro s' y k hs' hy hfront _
  obtain rfl : s = s' := Option.some.inj hs'
  rcases List.mem_cons.mp (List.mem_of_getElem? hy) with rfl | hmem
  · exact not_front_self y hfront
  · exact hf y hmem hfront

/-- An error at the end is right where the sections do not fit together. -/
theorem correct_of_exit {code : Nat} (hcode : code ≠ 0)
    (h : buildbin secs imglen = .error (.exit code)) :
    Correct secs imglen ↔ ¬ (Separate secs ∧ Fits imglen.toInt.toNat secs) := by
  constructor
  · intro hc hfit
    obtain ⟨img, himg, -⟩ := hc.1 hfit
    rw [h] at himg
    cases himg
  · intro hn
    exact ⟨fun hfit => absurd hfit hn, fun _ => ⟨code, hcode, h⟩⟩

theorem not_correct_of_segfault (h : buildbin secs imglen = .error .segfault) :
    ¬ Correct secs imglen := by
  intro hc
  by_cases hfit : Separate secs ∧ Fits imglen.toInt.toNat secs
  · obtain ⟨img, himg, -⟩ := hc.1 hfit
    rw [h] at himg
    cases himg
  · obtain ⟨code, -, hcode⟩ := hc.2 (by tauto)
    rw [h] at hcode
    cases hcode

/-- With ends that fit an `unsigned int`, `buildbin` does what it should exactly if there is
a section, none comes in front of the first one given, and of sections that fit together
none ends with the image or is empty inside another. -/
theorem correct_iff_of_small (hsmall : ∀ s ∈ secs, s.Small) : Correct secs imglen ↔
    secs ≠ [] ∧ HeadKept secs ∧
      (Separate secs ∧ Fits imglen.toInt.toNat secs → Loose imglen.toInt.toNat secs) := by
  cases secs with
  | nil =>
    refine iff_of_false ?_ fun h => h.1 rfl
    intro hc
    obtain ⟨img, himg, -⟩ := hc.1 ⟨.nil, by simp [Fits]⟩
    simp only [buildbin, parseCmdline, insertAll, sanity, List.getLast?_nil] at himg
    by_cases hpos : imglen ≤ 0
    · rw [if_pos hpos] at himg
      cases himg
    · rw [if_neg hpos] at himg
      cases himg
  | cons s rest =>
    have hstart : Lined s [s] [s] := ⟨.refl _, List.pairwise_singleton _ _, rfl⟩
    have hinsert : insertAll [] (s :: rest) = insertAll [s] rest := rfl
    simp only [ne_eq, reduceCtorEq, not_false_eq_true, true_and]
    rcases insertAll_cases rest [s] [s] hstart hsmall with ⟨l, he, hl, hf⟩ |
      ⟨he, a, x, b, rfl, hf, hap⟩ | ⟨he, a, x, b, rfl, hx, hap⟩
    · have hkept := headKept_of_not_front hf
      have hsep : Separate (s :: rest) := hl.apart.imp fun hap => hap.disjoint
      have hinside := not_inside_of_apart hl.apart
      rcases sanity_cases imglen hl hsmall with
        ⟨hsan, hlt⟩ | ⟨⟨code, hcode, hsan⟩, c, hc, hge⟩
      · have hrun : buildbin (s :: rest) imglen =
            .ok (writeSections imglen.toInt.toNat 0 l) := by
          rw [buildbin, parseCmdline, hinsert, he]
          simp only [hsan]
        have hfits : Fits imglen.toInt.toNat (s :: rest) := fun c hc => Nat.le_of_lt (hlt c hc)
        refine iff_of_true ⟨fun _ => ⟨_, hrun, ?_⟩, ?_⟩
          ⟨hkept, fun _ => ⟨fun c hc => Nat.ne_of_lt (hlt c hc), hinside⟩⟩
        · refine (writeSections_written l 0 (Nat.zero_le _) hl.row ?_ ?_ ?_).isImage hl.perm
          · exact fun c hc => hsmall c (hl.perm.mem_iff.mp hc)
          · exact fun c hc => hfits c (hl.perm.mem_iff.mp hc)
          · exact fun c _ => Nat.zero_le _
        · rintro (hn | hn)
          · exact absurd hsep hn
          · exact absurd hfits hn
      · have hrun : buildbin (s :: rest) imglen = .error (.exit code) := by
          rw [buildbin, parseCmdline, hinsert, he]
          simp only [hsan]
        rw [correct_of_exit hcode hrun]
        refine ⟨fun hn => ⟨hkept, fun hfit => absurd hfit hn⟩, fun h hfit => ?_⟩
        exact (h.2 hfit).1 c hc (Nat.le_antisymm (hfit.2 c hc) hge)
    · have hrun : buildbin (s :: (a ++ x :: b)) imglen = .error (.exit 2) := by
        rw [buildbin, parseCmdline, hinsert, he]
      rw [correct_of_exit (by decide) hrun]
      refine ⟨fun hn => ⟨headKept_of_clash hf hap, fun hfit => absurd hfit hn⟩, fun h hfit => ?_⟩
      have hall := apart_of_separate hfit.1 (h.2 hfit).2
      rw [show s :: (a ++ x :: b) = ([s] ++ a ++ [x]) ++ b by simp] at hall
      exact hap (List.pairwise_append.mp hall).1
    · have hrun : buildbin (s :: (a ++ x :: b)) imglen = .error .segfault := by
        rw [buildbin, parseCmdline, hinsert, he]
      exact iff_of_false (not_correct_of_segfault hrun) fun h => not_headKept hx hap h.1

end Buildbin
