import CobaltRom.Crfs.Written

/-! Successive reads of one handle. -/
namespace Crfs
open WriteBack LinkChain

/-- File `i` has the blocks `l` and the content `c`, and no block too many. -/
structure HasContent (σ : Vol) (i : InodeId) (l : List BlockId) (c : List UInt8) : Prop where
  chain : IsChain σ.val (σ.img.ino i).inFirst l
  count : l.length = (c.length + 4079) / 4080
  bytes : (chainData σ.val l).take c.length = c
  size : (σ.img.ino i).inFsize.toNat = c.length

/-- The loaded block is the one that holds the position, or the last one when the
position is behind it. -/
structure InStep (σ : Vol) (l : List BlockId) (c : List UInt8) (fp : CoFile) : Prop where
  le : fp.fFpos.toNat ≤ c.length
  block : fp.fFpos.toNat / 4080 < l.length ∧ fp.fCurblock = l.getD (fp.fFpos.toNat / 4080) 0 ∨
    fp.fFpos.toNat = c.length ∧ c.length = 4080 * l.length ∧
      fp.fCurblock = l.getD (l.length - 1) 0
  loaded : l ≠ [] → fp.fFblock = σ.val fp.fCurblock

/-- One request after the other: as long as the position does not leave 32 bits, each
returns the next slice of the content and keeps the handle in step. -/
def ServedAll (σ : Vol) (l : List BlockId) (c : List UInt8) : CoFile → List Nat → Prop
  | fp, [] => InStep σ l c fp
  | fp, n :: ns =>
    InStep σ l c fp ∧
      (fp.fFpos.toNat + n < 2 ^ 32 → ∃ fp' : CoFile,
        (crfsRead fp n).eval σ =
          ((.ok (min n (c.length - fp.fFpos.toNat)),
            (c.drop fp.fFpos.toNat).take (min n (c.length - fp.fFpos.toNat)), fp'), σ) ∧
        (min n (c.length - fp.fFpos.toNat) = 0 ↔ n = 0 ∨ fp.fFpos.toNat = c.length) ∧
        fp'.fFpos.toNat = fp.fFpos.toNat + min n (c.length - fp.fFpos.toNat) ∧
        ServedAll σ l c fp' ns)

variable {σ : Vol} {i : InodeId} {l pre post : List BlockId} {c : List UInt8}
  {fp : CoFile} {n : Nat}

theorem slice_of_take {d : List UInt8} {p m : Nat} (h : d.take c.length = c)
    (hm : p + m ≤ c.length) : (d.drop p).take m = (c.drop p).take m := by
  have hd : (c.drop p).take m = ((d.take c.length).drop p).take m := by rw [h]
  rw [hd, List.drop_take, List.take_take, Nat.min_eq_left (by omega)]

theorem HasContent.inStep (h : HasContent σ i l c)
    (hc : Cursor σ.val (σ.img.ino i).inFirst fp pre post)
    (hl : pre ++ fp.fCurblock :: post = l) (hat : At fp pre post)
    (hle : fp.fFpos.toNat ≤ c.length) :
    InStep σ l c fp := by
  have hlen := congrArg List.length hl
  rw [List.length_append, List.length_cons] at hlen
  have hcount := h.count
  have hget : l.getD pre.length 0 = fp.fCurblock := by
    rw [← hl, List.getD_append_right _ _ _ _ (Nat.le_refl _), Nat.sub_self]
    rfl
  have hlow := hat.lower
  refine ⟨hle, ?_, fun _ => hc.block⟩
  rcases hat.upper with hup | ⟨hup, rfl⟩
  · have hdiv : fp.fFpos.toNat / 4080 = pre.length := by omega
    rw [hdiv, hget]
    exact Or.inl ⟨by omega, rfl⟩
  · rw [List.length_nil] at hlen
    have hlast : l.length - 1 = pre.length := by omega
    rw [hlast, hget]
    exact Or.inr ⟨by omega, by omega, rfl⟩

/-- A handle within a file that is not empty. -/
theorem HasContent.served (h : HasContent σ i l c) (ns : List Nat) : ∀ (fp : CoFile)
    (pre post : List BlockId), Cursor σ.val (σ.img.ino i).inFirst fp pre post →
    pre ++ fp.fCurblock :: post = l → At fp pre post → fp.fMagic = coFileMagic → fp.fInode = i →
    fp.fFpos.toNat ≤ c.length → ServedAll σ l c fp ns := by
  induction ns with
  | nil => exact fun fp pre post hc hl hat _ _ hle => h.inStep hc hl hat hle
  | cons n ns ih =>
    intro fp pre post hc hl hat hm hi hle
    refine ⟨h.inStep hc hl hat hle, ?_⟩
    intro hsz
    have hlen := congrArg List.length hl
    rw [List.length_append, List.length_cons] at hlen
    have hcount := h.count
    have hlt := chain_length_lt h.chain
    obtain ⟨fp', pre', post', he, hc', hl', hat', hm', hi', hpos'⟩ := crfsRead_cursor hc hat hm
      (show (σ.img.ino fp.fInode).inFsize.toNat = c.length by rw [hi]; exact h.size) (by omega)
      (by omega) hle hsz
    rw [hl, slice_of_take h.bytes (by omega)] at he
    refine ⟨fp', he, by omega, hpos', ?_⟩
    exact ih fp' pre' post' hc' (hl'.trans hl) hat' (hm'.trans hm) (hi'.trans hi) (by omega)

/-- At the end of the file there is nothing to read. -/
theorem crfsRead_end (hm : fp.fMagic = coFileMagic)
    (hend : (σ.img.ino fp.fInode).inFsize ≤ fp.fFpos) (n : Nat) :
    (crfsRead fp n).eval σ = ((.ok 0, [], fp), σ) := by
  unfold crfsRead
  rw [if_neg (not_not.mpr hm), Prog.eval_bind, crfsLookupInode_eval, if_pos hend]
  rfl

/-- Reading an empty file. -/
theorem HasContent.served_empty (h : HasContent σ i [] []) (ns : List Nat) :
    ServedAll σ [] [] (openHandle σ i) ns := by
  have hstep : InStep σ [] [] (openHandle σ i) :=
    ⟨Nat.zero_le _, Or.inr ⟨rfl, rfl, h.chain⟩, fun hne => absurd rfl hne⟩
  induction ns with
  | nil => exact hstep
  | cons n ns ih =>
    refine ⟨hstep, fun _ => ⟨openHandle σ i, ?_, ?_, ?_, ih⟩⟩
    · have hend : (σ.img.ino (openHandle σ i).fInode).inFsize ≤ (openHandle σ i).fFpos := by
        rw [UInt32.le_iff_toNat_le]
        exact Nat.le_of_eq h.size
      have he := crfsRead_end rfl hend n
      rw [he, List.length_nil, Nat.zero_sub, Nat.min_zero, List.take_zero]
    · simp [openHandle]
    · simp

/-- Successive `crfs_read` calls on a fresh handle return the content in slices. -/
theorem crfsRead_sequential (h : HasContent σ i l c) (ns : List Nat) :
    ServedAll σ l c (openHandle σ i) ns := by
  by_cases hnil : c = []
  · subst hnil
    have hl : l = [] := List.length_eq_zero_iff.mp h.count
    subst hl
    exact h.served_empty ns
  · have hpos := List.length_pos_of_ne_nil hnil
    have hcount := h.count
    cases l with
    | nil =>
      rw [List.length_nil] at hcount
      omega
    | cons b l =>
      obtain ⟨hb, h0, htail⟩ := h.chain
      have hcur : (openHandle σ i).fCurblock = b := hb
      refine h.served ns (openHandle σ i) [] l ⟨?_, ?_⟩ ?_ ⟨Nat.zero_le _, Or.inl ?_⟩ rfl rfl
        (Nat.zero_le _)
      · rw [List.nil_append, hcur]
        exact h.chain
      · change (if (σ.img.ino i).inFirst ≠ 0 then _ else _) = σ.val (σ.img.ino i).inFirst
        rw [if_pos h0]
      · rw [List.nil_append, hcur]
      · exact Nat.mul_pos (by decide) (Nat.succ_pos _)

/-- Reads of the 5000 bytes across the end of the first block. -/
theorem crfsRead_sequential_long : ∃ (fp : CoFile) (τ : Vol) (fp₁ fp₂ fp₃ : CoFile),
    (crfsWrite (openHandle createdVol 2) longText).eval createdVol = ((.ok 5000, fp), τ) ∧
    (crfsRead (openHandle τ 2) 100).eval τ = ((.ok 100, longText.take 100, fp₁), τ) ∧
    (crfsRead fp₁ 4000).eval τ = ((.ok 4000, (longText.drop 100).take 4000, fp₂), τ) ∧
    (crfsRead fp₂ 5000).eval τ = ((.ok 900, (longText.drop 4100).take 900, fp₃), τ) := by
  obtain ⟨s, hm, hlive⟩ := createdVol_mounted
  obtain ⟨fp, τ, pre, he, hlen, hchain, -, -, -, hdata, hsize⟩ := crfsWrite_leaves hm.inv hlive
    (by decide +kernel) (by decide +kernel) (by decide +kernel) longText_ne_nil
    (by rw [length_longText]; decide +kernel)
  have hcontent : HasContent τ 2 (pre ++ [fp.fCurblock]) longText :=
    ⟨hchain, hlen, by rw [hdata, List.take_left], hsize⟩
  rw [length_longText] at he
  obtain ⟨-, hserved⟩ := crfsRead_sequential hcontent [100, 4000, 5000]
  obtain ⟨fp₁, he₁, -, hpos₁, -, hserved⟩ := hserved (show 0 + 100 < 2 ^ 32 by decide)
  rw [length_longText, show (openHandle τ 2).fFpos.toNat = 0 from rfl] at he₁ hpos₁
  obtain ⟨fp₂, he₂, -, hpos₂, -, hserved⟩ := hserved (by rw [hpos₁]; decide)
  rw [length_longText, hpos₁] at he₂ hpos₂
  obtain ⟨fp₃, he₃, -⟩ := hserved (by rw [hpos₂]; decide)
  rw [length_longText, hpos₂] at he₃
  exact ⟨fp, τ, fp₁, fp₂, fp₃, he, he₁, he₂, he₃⟩

end Crfs
