import CobaltRom.Crfs.Read

/-! A handle on a chain of file blocks, the bytes of the chain, and what
`crfs_read` returns of them. -/
namespace Crfs
open WriteBack

/-- The bytes of the blocks in `l`. -/
def chainData (val : BlockId → Block) (l : List BlockId) : List UInt8 :=
  l.flatMap fun b => (val b).fbData

/-- The handle has loaded the block behind `pre` in the chain from `a`. -/
structure Cursor (val : BlockId → Block) (a : BlockId) (fp : CoFile) (pre post : List BlockId) :
    Prop where
  chain : IsChain val a (pre ++ fp.fCurblock :: post)
  block : fp.fFblock = val fp.fCurblock

variable {σ : Vol} {a c : BlockId} {fp : CoFile} {pre post l m : List BlockId}
  {val val' : BlockId → Block} {p : UInt32} {n : Nat}

@[simp] theorem chainData_nil (val : BlockId → Block) : chainData val [] = [] := rfl

@[simp] theorem chainData_cons (val : BlockId → Block) (c : BlockId) (l : List BlockId) :
    chainData val (c :: l) = (val c).fbData ++ chainData val l := rfl

@[simp] theorem chainData_append (val : BlockId → Block) (l m : List BlockId) :
    chainData val (l ++ m) = chainData val l ++ chainData val m := List.flatMap_append

@[simp] theorem chainData_length (val : BlockId → Block) (l : List BlockId) :
    (chainData val l).length = 4080 * l.length := by
  induction l with
  | nil => simp only [chainData_nil, List.length_nil, Nat.mul_zero]
  | cons c l ih =>
    rw [chainData_cons, List.length_append, ih, Block.fbData_length, List.length_cons]
    omega

theorem chainData_congr (h : ∀ b ∈ l, (val' b).fbData = (val b).fbData) :
    chainData val' l = chainData val l := by
  induction l with
  | nil => simp only [chainData_nil]
  | cons c l ih =>
    rw [chainData_cons, chainData_cons, h c List.mem_cons_self,
      ih fun b hb => h b (List.mem_cons_of_mem _ hb)]

/-- The position of a handle does not wrap within a file. -/
theorem toNat_add_ofNat (h : p.toNat + n < 2 ^ 32) :
    (p + UInt32.ofNat n).toNat = p.toNat + n := by
  rw [UInt32.toNat_add, UInt32.toNat_ofNat', Nat.mod_eq_of_lt (a := n) (by omega),
    Nat.mod_eq_of_lt h]

theorem Cursor.ne_zero (h : Cursor val a fp pre post) : fp.fCurblock ≠ 0 := h.chain.after.1

theorem Cursor.fbNext (h : Cursor val a fp pre post) : IsChain val fp.fFblock.fbNext post := by
  rw [h.block]
  exact h.chain.after.2

theorem Cursor.fbNext_nil (h : Cursor val a fp pre []) : fp.fFblock.fbNext = 0 := h.fbNext

theorem Cursor.fbNext_cons (h : Cursor val a fp pre (c :: post)) :
    fp.fFblock.fbNext = c ∧ c ≠ 0 := by
  obtain ⟨hc, h0, -⟩ := h.fbNext
  exact ⟨hc, hc ▸ h0⟩

/-- The handle behind `next_fblock` if there is a next block. -/
theorem Cursor.advance (h : Cursor val a fp pre (c :: post)) :
    Cursor val a { fp with fCurblock := c, fFblock := val c } (pre ++ [fp.fCurblock]) post := by
  refine ⟨?_, rfl⟩
  have hc := h.chain
  rw [← List.append_cons] at *
  exact hc

/-! ### Reading -/

/-- Where a handle stands: inside the block it has loaded, or behind the last one. -/
structure At (fp : CoFile) (pre post : List BlockId) : Prop where
  lower : 4080 * pre.length ≤ fp.fFpos.toNat
  upper : fp.fFpos.toNat < 4080 * (pre.length + 1) ∨
    fp.fFpos.toNat = 4080 * (pre.length + 1) ∧ post = []

/-- One block copied out: the handle moves on unless the chain ends. -/
theorem readStep_cursor (hc : Cursor σ.val a fp pre post) {o : Nat} (ho : o < 4080)
    (hp : fp.fFpos.toNat = 4080 * pre.length + o) (hw : 4080 * (pre.length + 1) < 2 ^ 32)
    {size : Nat} (hs : 4080 - o ≤ size) (hen : o + size ≤ 4080 * (post.length + 1))
    (out : List UInt8) :
    ∃ fp' pre' post', (readStep fp o size out).eval σ =
        (⟨fp', size - (4080 - o), out ++ (σ.val fp.fCurblock).fbData.drop o, false⟩, σ) ∧
      Cursor σ.val a fp' pre' post' ∧
      pre' ++ fp'.fCurblock :: post' = pre ++ fp.fCurblock :: post ∧
      fp'.fMagic = fp.fMagic ∧ fp'.fInode = fp.fInode ∧
      fp'.fFpos.toNat = 4080 * (pre.length + 1) ∧
      (pre' = pre ++ [fp.fCurblock] ∨ pre' = pre ∧ post' = [] ∧ post = []) := by
  have hpos : (fp.fFpos + UInt32.ofNat (4080 - o)).toNat = 4080 * (pre.length + 1) := by
    rw [toNat_add_ofNat (by omega), hp]
    omega
  have htake : (fp.fFblock.fbData.drop o).take (4080 - o) = (σ.val fp.fCurblock).fbData.drop o := by
    rw [hc.block]
    exact List.take_of_length_le (by rw [List.length_drop, Block.fbData_length])
  unfold readStep
  simp only [Prog.eval_bind, nextFblock_eval, crfsFblockData, htake]
  cases post with
  | nil =>
    rw [if_neg (not_not.mpr hc.fbNext_nil)]
    have hsz : size - (4080 - o) = 0 := by
      rw [List.length_nil] at hen
      omega
    exact ⟨{ fp with fFpos := fp.fFpos + UInt32.ofNat (4080 - o) }, pre, [], by simp [hsz],
      ⟨hc.chain, hc.block⟩, rfl, rfl, rfl, hpos, Or.inr ⟨rfl, rfl, rfl⟩⟩
  | cons c post =>
    obtain ⟨hn, h0⟩ := hc.fbNext_cons
    rw [hn, if_pos h0]
    have ha := hc.advance
    exact ⟨{ fp with fFpos := fp.fFpos + UInt32.ofNat (4080 - o), fCurblock := c,
                     fFblock := σ.val c }, pre ++ [fp.fCurblock], post, rfl,
      ⟨ha.chain, ha.block⟩, by simp, rfl, rfl, hpos, Or.inl rfl⟩

/-- The loop over complete blocks: what it copied and the rest of the last block
are the bytes that were asked for. -/
theorem readBlocks_cursor (fuel : Nat) : ∀ (r : ReadState) (pre post : List BlockId),
    Cursor σ.val a r.fp pre post → r.bad = false → r.size ≤ fuel →
    r.fp.fFpos.toNat = 4080 * pre.length → r.size ≤ 4080 * (post.length + 1) →
    4080 * (pre.length + post.length + 1) < 2 ^ 32 →
    ∃ r' pre' post', (readBlocks fuel r).eval σ = (r', σ) ∧ Cursor σ.val a r'.fp pre' post' ∧
      pre' ++ r'.fp.fCurblock :: post' = pre ++ r.fp.fCurblock :: post ∧ r'.bad = false ∧
      r'.fp.fMagic = r.fp.fMagic ∧ r'.fp.fInode = r.fp.fInode ∧ r'.size < 4080 ∧
      r'.fp.fFpos.toNat + r'.size = r.fp.fFpos.toNat + r.size ∧
      (r'.fp.fFpos.toNat = 4080 * pre'.length ∨
        r'.size = 0 ∧ post' = [] ∧ r'.fp.fFpos.toNat = 4080 * (pre'.length + 1)) ∧
      r'.out ++ r'.fp.fFblock.fbData.take r'.size =
        r.out ++ (chainData σ.val (r.fp.fCurblock :: post)).take r.size := by
  induction fuel with
  | zero =>
    intro r pre post hc hb hf hp hs hw
    have h0 : r.size = 0 := by omega
    exact ⟨r, pre, post, rfl, hc, rfl, hb, rfl, rfl, by omega, rfl, Or.inl hp, by simp [h0]⟩
  | succ fuel ih =>
    intro r pre post hc hb hf hp hs hw
    unfold readBlocks
    by_cases hge : r.size ≥ crfsFblockData
    · rw [if_pos ⟨hb, hge⟩, Prog.eval_bind]
      simp only [crfsFblockData] at hge
      obtain ⟨fp', pre₁, post₁, he, hc₁, hlist, hm, hi, hp₁, hnext⟩ := readStep_cursor hc
        (o := 0) (by omega) (by omega) (by omega) (by omega) (by omega) r.out
      rw [he]
      simp only [List.drop_zero, Nat.sub_zero]
      have hcat : ∀ l : List UInt8, (chainData σ.val (r.fp.fCurblock :: post)).take r.size =
          (σ.val r.fp.fCurblock).fbData ++ (chainData σ.val post).take (r.size - 4080) := by
        intro _
        rw [chainData_cons, List.take_append, Block.fbData_length,
          List.take_of_length_le (by rw [Block.fbData_length]; exact hge)]
      rcases hnext with rfl | ⟨rfl, rfl, rfl⟩
      -- the handle moved on to the next block
      · obtain ⟨c, hcons⟩ : ∃ c, post = fp'.fCurblock :: post₁ := by
          refine ⟨0, ?_⟩
          simpa using hlist.symm
        subst hcons
        simp only [List.length_cons] at hs hw
        obtain ⟨r', pre', post', he', hc', hlist', hb', hm', hi', hs', hpos', hat', hout'⟩ :=
          ih ⟨fp', r.size - 4080, r.out ++ (σ.val r.fp.fCurblock).fbData, false⟩
            (pre ++ [r.fp.fCurblock]) post₁ hc₁ rfl (by simp only; omega)
            (by simp only [List.length_append, List.length_cons, List.length_nil]; omega)
            (by simp only; omega)
            (by simp only [List.length_append, List.length_cons, List.length_nil]; omega)
        refine ⟨r', pre', post', he', hc', hlist'.trans hlist, hb', hm'.trans hm, hi'.trans hi, hs',
          ?_, hat', ?_⟩
        · simp only at hpos'
          omega
        · rw [hout', hcat [], List.append_assoc]
      -- the chain ends with the request
      · rw [List.length_nil] at hs
        have hz : r.size - 4080 = 0 := by omega
        refine ⟨⟨fp', 0, r.out ++ (σ.val r.fp.fCurblock).fbData, false⟩, pre₁, [], ?_, hc₁, hlist,
          rfl, hm, hi, by simp only; omega, by simp only; omega, Or.inr ⟨rfl, rfl, hp₁⟩, ?_⟩
        · rw [hz]
          cases fuel with
          | zero => rfl
          | succ fuel =>
            unfold readBlocks
            rw [if_neg (by simp)]
            rfl
        · rw [hcat [], hz]
          simp
    · rw [if_neg (fun h => hge h.2)]
      simp only [crfsFblockData] at hge
      refine ⟨r, pre, post, rfl, hc, rfl, hb, rfl, rfl, by omega, rfl, Or.inl hp, ?_⟩
      rw [chainData_cons, List.take_append_of_le_length (by rw [Block.fbData_length]; omega),
        hc.block]

/-- `crfs_read` returns the next bytes of the file, at most up to its size. -/
theorem crfsRead_cursor (hc : Cursor σ.val a fp pre post) (hat : At fp pre post)
    (hm : fp.fMagic = coFileMagic) {fsize size : Nat}
    (hfs : (σ.img.ino fp.fInode).inFsize.toNat = fsize)
    (hfit : fsize ≤ 4080 * (pre.length + post.length + 1))
    (hw : 4080 * (pre.length + post.length + 1) < 2 ^ 32) (hle : fp.fFpos.toNat ≤ fsize)
    (hsz : fp.fFpos.toNat + size < 2 ^ 32) :
    ∃ fp' pre' post', (crfsRead fp size).eval σ =
        ((.ok (min size (fsize - fp.fFpos.toNat)),
          ((chainData σ.val (pre ++ fp.fCurblock :: post)).drop fp.fFpos.toNat).take
            (min size (fsize - fp.fFpos.toNat)), fp'), σ) ∧
      Cursor σ.val a fp' pre' post' ∧
      pre' ++ fp'.fCurblock :: post' = pre ++ fp.fCurblock :: post ∧ At fp' pre' post' ∧
      fp'.fMagic = fp.fMagic ∧ fp'.fInode = fp.fInode ∧
      fp'.fFpos.toNat = fp.fFpos.toNat + min size (fsize - fp.fFpos.toNat) := by
  unfold crfsRead
  rw [if_neg (not_not.mpr hm), Prog.eval_bind, crfsLookupInode_eval]
  by_cases hend : fp.fFpos ≥ (σ.img.ino fp.fInode).inFsize
  · rw [if_pos hend]
    have hge : fsize ≤ fp.fFpos.toNat := hfs ▸ UInt32.le_iff_toNat_le.mp hend
    have hz : fsize - fp.fFpos.toNat = 0 := by omega
    refine ⟨fp, pre, post, ?_, hc, rfl, hat, rfl, rfl, by rw [hz]; simp⟩
    rw [hz, Nat.min_zero, List.take_zero]
    rfl
  rw [if_neg hend]
  have hlt : fp.fFpos.toNat < fsize := by
    rw [← hfs]
    exact UInt32.lt_iff_toNat_lt.mp (UInt32.not_le.mp hend)
  generalize hM : min size (fsize - fp.fFpos.toNat) = M at *
  have hlim : (if (fp.fFpos.toNat + size) % 2 ^ 32 > (σ.img.ino fp.fInode).inFsize.toNat
      then (σ.img.ino fp.fInode).inFsize.toNat - fp.fFpos.toNat else size) = M := by
    rw [hfs, Nat.mod_eq_of_lt hsz]
    split <;> omega
  have hin : fp.fFpos.toNat < 4080 * (pre.length + 1) := by
    rcases hat.upper with h | ⟨h, rfl⟩
    · exact h
    · rw [List.length_nil] at hfit
      omega
  have hlow := hat.lower
  obtain ⟨o, ho⟩ : ∃ o, fp.fFpos.toNat = 4080 * pre.length + o :=
    ⟨_, (Nat.add_sub_cancel' hlow).symm⟩
  have homod : fp.fFpos.toNat % crfsFblockData = o := by
    simp only [crfsFblockData]
    omega
  have hdrop : (chainData σ.val (pre ++ fp.fCurblock :: post)).drop fp.fFpos.toNat =
      (σ.val fp.fCurblock).fbData.drop o ++ chainData σ.val post := by
    rw [chainData_append, List.drop_append, chainData_length, ho, Nat.add_sub_cancel_left,
      chainData_cons, List.drop_append_of_le_length (by rw [Block.fbData_length]; omega),
      List.drop_of_length_le (by rw [chainData_length]; omega), List.nil_append]
  simp only [hlim]
  rw [if_neg hc.ne_zero, hdrop]
  simp only [homod]
  by_cases hbig : M ≥ crfsFblockData - o
  · rw [if_pos hbig]
    simp only [crfsFblockData] at hbig
    obtain ⟨fp₁, pre₁, post₁, he₁, hc₁, hl₁, hm₁, hi₁, hp₁, hnext⟩ := readStep_cursor hc
      (o := o) (by omega) ho (by omega) hbig (by omega) []
    rw [Prog.eval_bind, he₁, Prog.eval_bind]
    simp only [List.nil_append]
    have hcat : ((σ.val fp.fCurblock).fbData.drop o ++ chainData σ.val post).take M =
        (σ.val fp.fCurblock).fbData.drop o ++ (chainData σ.val post).take (M - (4080 - o)) := by
      rw [List.take_append, List.length_drop, Block.fbData_length,
        List.take_of_length_le (by rw [List.length_drop, Block.fbData_length]; exact hbig)]
    have hlenM : ((σ.val fp.fCurblock).fbData.drop o ++
        (chainData σ.val post).take (M - (4080 - o))).length = M := by
      rw [List.length_append, List.length_drop, Block.fbData_length, List.length_take,
        chainData_length]
      omega
    rw [hcat]
    rcases hnext with rfl | ⟨rfl, rfl, rfl⟩
    · obtain ⟨c, hcons⟩ : ∃ c : Nat, post = fp₁.fCurblock :: post₁ := ⟨0, by simpa using hl₁.symm⟩
      subst hcons
      simp only [List.length_cons] at hfit hw
      obtain ⟨r, pre', post', he', hc', hl', hb', hm', hi', hs', hpos', hat', hout'⟩ :=
        readBlocks_cursor M ⟨fp₁, M - (4080 - o), (σ.val fp.fCurblock).fbData.drop o, false⟩
          (pre ++ [fp.fCurblock]) post₁ hc₁ rfl (by simp only; omega)
          (by simp only [List.length_append, List.length_cons, List.length_nil]; omega)
          (by simp only; omega)
          (by simp only [List.length_append, List.length_cons, List.length_nil]; omega)
      rw [he']
      simp only [hb', Bool.false_eq_true, if_false]
      simp only at hout' hpos'
      rw [hout', hlenM]
      have hposr : (r.fp.fFpos + UInt32.ofNat r.size).toNat = r.fp.fFpos.toNat + r.size :=
        toNat_add_ofNat (by omega)
      refine ⟨_, pre', post', rfl, ⟨hc'.chain, hc'.block⟩, hl'.trans hl₁, ⟨?_, ?_⟩, hm'.trans hm₁,
        hi'.trans hi₁, ?_⟩
      · simp only [hposr]
        rcases hat' with h | ⟨-, -, h⟩ <;> omega
      · simp only [hposr]
        rcases hat' with h | ⟨h0, hnil, h⟩
        · exact Or.inl (by omega)
        · exact Or.inr ⟨by omega, hnil⟩
      · simp only [hposr]
        omega
    · rw [List.length_nil] at hfit
      have hz : M - (4080 - o) = 0 := by omega
      have hloop : (readBlocks M ⟨fp₁, M - (4080 - o), (σ.val fp.fCurblock).fbData.drop o,
          false⟩).eval σ = (⟨fp₁, 0, (σ.val fp.fCurblock).fbData.drop o, false⟩, σ) := by
        rw [hz]
        cases M with
        | zero => rfl
        | succ M =>
          unfold readBlocks
          rw [if_neg (by simp)]
          rfl
      rw [hloop]
      simp only [Bool.false_eq_true, if_false, List.take_zero]
      rw [hz, List.take_zero] at hlenM ⊢
      rw [hlenM]
      have hadd : (fp₁.fFpos + UInt32.ofNat 0).toNat = fp₁.fFpos.toNat :=
        toNat_add_ofNat (by omega)
      refine ⟨_, pre₁, [], rfl, ⟨hc₁.chain, hc₁.block⟩, hl₁, ⟨?_, ?_⟩, hm₁, hi₁, ?_⟩
      · simp only [hadd]
        omega
      · exact Or.inr ⟨hadd.trans hp₁, rfl⟩
      · simp only [hadd]
        omega
  · rw [if_neg hbig]
    simp only [crfsFblockData] at hbig
    have hadd : (fp.fFpos + UInt32.ofNat M).toNat = fp.fFpos.toNat + M :=
      toNat_add_ofNat (by omega)
    have htk : ((σ.val fp.fCurblock).fbData.drop o ++ chainData σ.val post).take M =
        (fp.fFblock.fbData.drop o).take M := by
      rw [List.take_append_of_le_length (by rw [List.length_drop, Block.fbData_length]; omega),
        hc.block]
    have hlen : ((fp.fFblock.fbData.drop o).take M).length = M := by
      rw [List.length_take, List.length_drop, Block.fbData_length]
      omega
    rw [htk]
    refine ⟨{ fp with fFpos := fp.fFpos + UInt32.ofNat M }, pre, post, ?_,
      ⟨hc.chain, hc.block⟩, rfl,
      ⟨?_, ?_⟩, rfl, rfl, hadd⟩
    · rw [Prog.eval_pure, hlen]
    · simp only [hadd]
      omega
    · simp only [hadd]
      exact Or.inl (by omega)

end Crfs
