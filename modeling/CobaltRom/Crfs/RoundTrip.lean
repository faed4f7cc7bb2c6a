import CobaltRom.Crfs.NoLoss
import CobaltRom.Crfs.Paths
import CobaltRom.Crfs.Proper
import CobaltRom.Crfs.Views

/-! Files written in pieces and read back. -/
namespace Crfs
open WriteBack WriteBack.Prog LinkChain SlotTree

/-- Successive `crfs_write` calls on a handle. -/
def crfsWrites : CoFile → List (List UInt8) → FsM (List (Except Errno Nat) × CoFile)
  | fp, [] => pure ([], fp)
  | fp, buf :: bufs => do
    let r ← crfsWrite fp buf
    let rs ← crfsWrites r.2 bufs
    pure (r.1 :: rs.1, rs.2)

/-- A file opened and written. -/
def writeFile (fname : Name) (bufs : List (List UInt8)) :
    FsM (Except Errno (List (Except Errno Nat) × CoFile)) := do
  match ← crfsOpen fname with
  | .error e => pure (.error e)
  | .ok fp => do
    let rs ← crfsWrites fp bufs
    pure (.ok rs)

/-- What reads of these sizes should return of `data`. -/
def slices : List UInt8 → List UInt32 → List (Except Errno Nat × List UInt8)
  | _, [] => []
  | data, n :: ns =>
    (.ok (data.take n.toNat).length, data.take n.toNat) ::
      slices (data.drop n.toNat) ns

/-- The bytes written to the new file `p` call by call come back in reads of the sizes `ns` when
it was closed and opened again. -/
def RoundTrips (c : Machine) (p : Path) (bufs : List (List UInt8)) (ns : List UInt32) : Prop :=
  ∃ (fp : CoFile) (c₁ c₂ : Machine),
    (writeFile p.name bufs).exec c = (.ok (bufs.map fun buf => .ok buf.length, fp), c₁) ∧
    crfsClose fp c₁ = (.ok (), c₂) ∧
    ((readFile p.name (ns.map UInt32.toNat)).exec c₂).1 = .ok (slices bufs.flatten ns)

/-- Behind `n` bytes one of the calls starts where a block has been filled to its end. -/
def StartsAtEnd (n : Nat) : List (List UInt8) → Prop
  | [] => False
  | buf :: bufs => 0 < n ∧ n % 4080 = 0 ∨ StartsAtEnd (n + buf.length) bufs

/-- The end of a request, as a 32-bit number, comes out inside the file again. -/
def Overruns (len pos : Nat) (n : UInt32) : Prop :=
  pos < len ∧ 2 ^ 32 ≤ pos + n.toNat ∧ pos + n.toNat - 2 ^ 32 ≤ len

/-- No request does, from position `pos` on. -/
def InRange (len : Nat) (pos : Nat) : List UInt32 → Prop
  | [] => True
  | n :: ns => ¬ Overruns len pos n ∧ InRange len (min len (pos + n.toNat)) ns

/-- A new file as far as it was written: the handle is at its end, the content is `data`. -/
structure Grown (σ : Vol) (s : Shape) (fp : CoFile) (l : List BlockId) (data : List UInt8) :
    Prop where
  inv : Inv σ s
  own : ∀ b, s.own b = some (.file fp.fInode) ↔ b ∈ l
  atEnd : AtEnd σ s fp l
  nospc : fp.fNospc = false
  content : HasContent σ fp.fInode l data

/-- A file of `n` bytes with a chain too short for its length: the handle, on the last block, is
ahead of it, or has been around the 32-bit numbers. -/
structure Late (σ : Vol) (s : Shape) (fp : CoFile) (pre : List BlockId) (n : Nat) : Prop where
  seat : Seat σ s (σ.img.ino fp.fInode).inFirst fp pre []
  nospc : fp.fNospc = false
  fpos : fp.fFpos.toNat ≤ n
  size : (σ.img.ino fp.fInode).inFsize.toNat ≤ n
  short : 4080 * (pre.length + 1) < (σ.img.ino fp.fInode).inFsize.toNat
  ahead : 4080 * (pre.length + 1) < fp.fFpos.toNat ∧
      (σ.img.ino fp.fInode).inFsize = fp.fFpos ∨
    2 ^ 31 ≤ (σ.img.ino fp.fInode).inFsize.toNat

variable {σ τ : Vol} {s s' : Shape} {i x : InodeId} {fp fp' : CoFile} {pre post l : List BlockId}
  {data buf : List UInt8} {bufs : List (List UInt8)} {ns : List UInt32} {n : UInt32} {m o k q : Nat}

/-! ### Reading -/

/-- Only the clamped size of a request matters. -/
theorem crfsRead_clamped (h : ¬ fp.fFpos ≥ (σ.img.ino fp.fInode).inFsize)
    (hm : (fp.fFpos.toNat + m) % 2 ^ 32 > (σ.img.ino fp.fInode).inFsize.toNat) :
    (crfsRead fp m).eval σ =
      (crfsRead fp ((σ.img.ino fp.fInode).inFsize.toNat - fp.fFpos.toNat)).eval σ := by
  have hlt := (σ.img.ino fp.fInode).inFsize.toNat_lt
  have hle : fp.fFpos.toNat ≤ (σ.img.ino fp.fInode).inFsize.toNat := by
    rw [ge_iff_le, UInt32.le_iff_toNat_le] at h
    omega
  have hself : ¬ (fp.fFpos.toNat + ((σ.img.ino fp.fInode).inFsize.toNat - fp.fFpos.toNat)) %
      2 ^ 32 > (σ.img.ino fp.fInode).inFsize.toNat := by
    rw [Nat.add_sub_cancel' hle, Nat.mod_eq_of_lt hlt]
    exact Nat.lt_irrefl _
  unfold crfsRead
  split
  · rfl
  · rw [Prog.eval_bind, Prog.eval_bind, crfsLookupInode_eval]
    simp only [if_neg h, if_pos hm, if_neg hself]

/-- A request that is not clamped and is longer than the rest of the chain returns 0. -/
theorem Cursor.read_over {a : BlockId} (hc : Cursor σ.val a fp pre post)
    (hmag : fp.fMagic = coFileMagic) (h : ¬ fp.fFpos ≥ (σ.img.ino fp.fInode).inFsize)
    (hm : ¬ (fp.fFpos.toNat + m) % 2 ^ 32 > (σ.img.ino fp.fInode).inFsize.toNat)
    (hlong : 4080 * (post.length + 1) < m) :
    ∃ (out : List UInt8) (fp' : CoFile), (crfsRead fp m).eval σ = ((.ok 0, out, fp'), σ) := by
  have ho : fp.fFpos.toNat % 4080 < 4080 := Nat.mod_lt _ (by decide)
  unfold crfsRead
  rw [if_neg (not_not.mpr hmag), Prog.eval_bind, crfsLookupInode_eval]
  simp only [if_neg h, if_neg hm, if_neg hc.ne_zero, crfsFblockData]
  generalize fp.fFpos.toNat % 4080 = o at ho ⊢
  rw [if_pos (by omega : m ≥ 4080 - o), Prog.eval_bind]
  unfold readStep
  simp only [crfsFblockData, Prog.eval_bind, nextFblock_eval]
  cases post with
  | nil =>
    rw [List.length_nil] at hlong
    have hbad : decide (m - (4080 - o) ≠ 0) = true := decide_eq_true (by omega)
    simp only [if_neg (not_not.mpr hc.fbNext_nil), Prog.eval_pure, hbad]
    cases m with
    | zero => omega
    | succ m => exact ⟨_, _, rfl⟩
  | cons b post =>
    obtain ⟨hn, h0⟩ := hc.fbNext_cons
    rw [List.length_cons] at hlong
    simp only [hn, if_pos h0, Prog.eval_pure]
    obtain ⟨fp₁, hfp₁⟩ : ∃ fp₁ : CoFile, fp₁ = { fp with
      fCurblock := b, fFpos := fp.fFpos + UInt32.ofNat (4080 - o), fFblock := σ.val b } := ⟨_, rfl⟩
    have hc₁ : Cursor σ.val a fp₁ (pre ++ [fp.fCurblock]) post := by
      rw [hfp₁]
      exact ⟨hc.advance.chain, rfl⟩
    obtain ⟨r', hr', hbad⟩ := readBlocks_short m ⟨fp₁, m - (4080 - o),
      [] ++ (fp.fFblock.fbData.drop o).take (4080 - o), false⟩ _ post hc₁ rfl (Nat.sub_le _ _)
      (by dsimp only; omega)
    rw [← hfp₁, hr', if_pos hbad]
    exact ⟨_, _, rfl⟩

/-- A request within the file returns what is there and moves the handle on. -/
theorem HasContent.read (h : HasContent σ i l data)
    (hc : Cursor σ.val (σ.img.ino i).inFirst fp pre post)
    (hl : pre ++ fp.fCurblock :: post = l) (hat : At fp pre post) (hm : fp.fMagic = coFileMagic)
    (hi : fp.fInode = i) (hlt : fp.fFpos.toNat < data.length)
    (hn : ¬ Overruns data.length fp.fFpos.toNat n) :
    ∃ (fp' : CoFile) (pre' post' : List BlockId), (crfsRead fp n.toNat).eval σ =
        ((.ok ((data.drop fp.fFpos.toNat).take n.toNat).length,
          (data.drop fp.fFpos.toNat).take n.toNat, fp'), σ) ∧
      Cursor σ.val (σ.img.ino i).inFirst fp' pre' post' ∧ pre' ++ fp'.fCurblock :: post' = l ∧
      At fp' pre' post' ∧ fp'.fMagic = coFileMagic ∧ fp'.fInode = i ∧
      fp'.fFpos.toNat = min data.length (fp.fFpos.toNat + n.toNat) := by
  have hsize : (σ.img.ino fp.fInode).inFsize.toNat = data.length := by rw [hi, h.size]
  have hlen := congrArg List.length hl
  rw [List.length_append, List.length_cons] at hlen
  have hcount := h.count
  have hchain := chain_length_lt h.chain
  have hpos : ¬ fp.fFpos ≥ (σ.img.ino fp.fInode).inFsize := by
    rw [ge_iff_le, UInt32.le_iff_toNat_le]
    omega
  -- a request whose end wraps is clamped to the end of the file
  obtain ⟨m, hm32, hmin, hread⟩ : ∃ m, fp.fFpos.toNat + m < 2 ^ 32 ∧
      min m (data.length - fp.fFpos.toNat) = min n.toNat (data.length - fp.fFpos.toNat) ∧
      (crfsRead fp n.toNat).eval σ = (crfsRead fp m).eval σ := by
    by_cases hw : fp.fFpos.toNat + n.toNat < 2 ^ 32
    · exact ⟨n.toNat, hw, rfl, rfl⟩
    · have hnlt := n.toNat_lt
      have hwrap : (fp.fFpos.toNat + n.toNat) % 2 ^ 32 = fp.fFpos.toNat + n.toNat - 2 ^ 32 := by
        rw [Nat.mod_eq_sub_mod (by omega), Nat.mod_eq_of_lt (by omega)]
      have hover : fp.fFpos.toNat + n.toNat - 2 ^ 32 > data.length := by
        by_contra hle
        exact hn ⟨hlt, by omega, by omega⟩
      refine ⟨(σ.img.ino fp.fInode).inFsize.toNat - fp.fFpos.toNat, ?_, ?_,
        crfsRead_clamped hpos (by rw [hwrap, hsize]; exact hover)⟩
      · omega
      · rw [hsize]
        omega
  obtain ⟨fp', pre', post', he, hc', hl', hat', hm', hi', hpos'⟩ := crfsRead_cursor hc hat hm
    hsize (by omega) (by omega) (by omega) hm32
  rw [hl, slice_of_take h.bytes (by omega), hmin] at he
  refine ⟨fp', pre', post', ?_, hc', hl'.trans hl, hat', hm'.trans hm, hi'.trans hi, by omega⟩
  rw [hread, he, List.length_take, List.length_drop, ← List.length_drop, ← List.take_eq_take_min]

theorem crfsReads_cons {r : Except Errno Nat} {out : List UInt8} {ms : List Nat}
    (h : (crfsRead fp m).eval σ = ((r, out, fp'), σ)) :
    ((crfsReads fp (m :: ms)).eval σ).1 = (r, out) :: ((crfsReads fp' ms).eval σ).1 := by
  rw [crfsReads, Prog.eval_bind, h, Prog.eval_bind]
  rfl

/-- Reads of one handle return the bytes from its position on, exactly if none overruns. -/
theorem HasContent.reads (h : HasContent σ i l data) (ns : List UInt32) : ∀ (fp : CoFile)
    (pre post : List BlockId), Cursor σ.val (σ.img.ino i).inFirst fp pre post →
    pre ++ fp.fCurblock :: post = l → At fp pre post → fp.fMagic = coFileMagic → fp.fInode = i →
    fp.fFpos.toNat ≤ data.length →
    (((crfsReads fp (ns.map UInt32.toNat)).eval σ).1 = slices (data.drop fp.fFpos.toNat) ns ↔
      InRange data.length fp.fFpos.toNat ns) := by
  induction ns with
  | nil => exact fun _ _ _ _ _ _ _ _ _ => ⟨fun _ => trivial, fun _ => rfl⟩
  | cons n ns ih =>
    intro fp pre post hc hl hat hm hi hle
    have hsize : (σ.img.ino fp.fInode).inFsize.toNat = data.length := by rw [hi, h.size]
    rw [List.map_cons, slices, InRange]
    rcases Nat.eq_or_lt_of_le hle with hend | hlt
    · -- at the end of the file
      have hrest : data.drop fp.fFpos.toNat = [] := List.drop_of_length_le (by omega)
      have hno : ¬ Overruns data.length fp.fFpos.toNat n := fun ho => by
        have := ho.1
        omega
      have hih := ih fp pre post hc hl hat hm hi hle
      rw [crfsReads_cons (crfsRead_end hm (by rw [UInt32.le_iff_toNat_le]; omega) _), hrest,
        List.take_nil, List.drop_nil, List.length_nil, List.cons_eq_cons, and_iff_right rfl,
        and_iff_right hno,
        show min data.length (fp.fFpos.toNat + n.toNat) = fp.fFpos.toNat by omega,
        ← hih, hrest]
    · by_cases hn : Overruns data.length fp.fFpos.toNat n
      · obtain ⟨-, hge, hover⟩ := hn
        have hnlt := n.toNat_lt
        have hlen := congrArg List.length hl
        rw [List.length_append, List.length_cons] at hlen
        have hcount := h.count
        have hchain := chain_length_lt h.chain
        have hwrap : (fp.fFpos.toNat + n.toNat) % 2 ^ 32 = fp.fFpos.toNat + n.toNat - 2 ^ 32 := by
          rw [Nat.mod_eq_sub_mod (by omega), Nat.mod_eq_of_lt (by omega)]
        obtain ⟨out, fp', he⟩ := hc.read_over (m := n.toNat) hm
          (by rw [ge_iff_le, UInt32.le_iff_toNat_le]; omega) (by rw [hwrap, hsize]; omega)
          (by omega)
        rw [crfsReads_cons he]
        constructor
        · intro hall
          have hz := congrArg Prod.fst (List.cons_eq_cons.mp hall).1
          have hlz := Except.ok.inj hz
          rw [List.length_take, List.length_drop] at hlz
          omega
        · exact fun hall => absurd ⟨hlt, hge, hover⟩ hall.1
      · obtain ⟨fp', pre', post', he, hc', hl', hat', hm', hi', hpos'⟩ :=
          h.read hc hl hat hm hi hlt hn
        have hih := ih fp' pre' post' hc' hl' hat' hm' hi' (by omega)
        have hdrop : (data.drop fp.fFpos.toNat).drop n.toNat = data.drop fp'.fFpos.toNat := by
          rw [List.drop_drop, hpos']
          by_cases hge : fp.fFpos.toNat + n.toNat ≤ data.length
          · rw [Nat.min_eq_right hge]
          · rw [Nat.min_eq_left (by omega), List.drop_length, List.drop_of_length_le (by omega)]
        rw [crfsReads_cons he, List.cons_eq_cons, and_iff_right rfl, and_iff_right hn, hdrop, hih,
          hpos']

/-- Reads of an empty file return nothing. -/
theorem HasContent.reads_empty (h : HasContent σ i [] []) (ns : List UInt32) :
    ((crfsReads (openHandle σ i) (ns.map UInt32.toNat)).eval σ).1 = slices [] ns ∧
      InRange 0 0 ns := by
  have hend : (σ.img.ino (openHandle σ i).fInode).inFsize ≤ (openHandle σ i).fFpos := by
    rw [UInt32.le_iff_toNat_le]
    exact Nat.le_of_eq h.size
  induction ns with
  | nil => exact ⟨rfl, trivial⟩
  | cons n ns ih =>
    rw [List.map_cons, crfsReads_cons (crfsRead_end rfl hend _), ih.1, slices, InRange,
      List.take_nil, List.drop_nil, List.length_nil, Nat.zero_min]
    exact ⟨rfl, fun ho => absurd ho.1 (Nat.lt_irrefl 0), ih.2⟩

/-- A file opened again gives back its content, exactly if no request overruns. -/
theorem HasContent.readBack (h : HasContent σ i l data) (ns : List UInt32) :
    ((crfsReads (openHandle σ i) (ns.map UInt32.toNat)).eval σ).1 = slices data ns ↔
      InRange data.length 0 ns := by
  have hcount := h.count
  cases l with
  | nil =>
    rw [List.length_nil] at hcount
    obtain rfl : data = [] := List.length_eq_zero_iff.mp (by omega)
    obtain ⟨hread, hin⟩ := h.reads_empty ns
    exact ⟨fun _ => hin, fun _ => hread⟩
  | cons b l =>
    obtain ⟨hcur, hc⟩ := openHandle_cursor h.chain
    have hat : At (openHandle σ i) [] l :=
      ⟨Nat.zero_le _, Or.inl (Nat.mul_pos (by decide) (Nat.succ_pos _))⟩
    exact h.reads ns (openHandle σ i) [] l hc (by rw [hcur, List.nil_append]) hat rfl rfl
      (Nat.zero_le _)

/-! ### Writing -/

theorem Grown.fpos (h : Grown σ s fp l data) : fp.fFpos.toNat = data.length := by
  rw [h.atEnd.eof, h.content.size]

/-- The handle of a new file starts over exactly behind a filled block. -/
theorem Grown.startsOver_iff (h : Grown σ s fp l data) :
    StartsOver fp l ↔ 0 < data.length ∧ data.length % 4080 = 0 := by
  have hcount := h.content.count
  rw [StartsOver, h.fpos]
  constructor
  · rintro ⟨hne, -, hfull⟩
    have := List.length_pos_of_ne_nil hne
    omega
  · rintro ⟨hpos, hmod⟩
    refine ⟨?_, h.nospc, by omega⟩
    rintro rfl
    rw [List.length_nil] at hcount
    omega

/-- A call that does not start over puts its bytes behind the content. -/
theorem Grown.write (h : Grown σ s fp l data) (hb : buf ≠ []) (hso : ¬ StartsOver fp l)
    (hfull : ¬ ((crfsWrite fp buf).eval σ).2.glob.Full) :
    ∃ (fp' : CoFile) (τ : Vol) (s' : Shape) (l' : List BlockId),
      (crfsWrite fp buf).eval σ = ((.ok buf.length, fp'), τ) ∧ Touch fp.fInode σ s τ s' ∧
        fp'.fInode = fp.fInode ∧ Grown τ s' fp' l' (data ++ buf) := by
  obtain ⟨p, hp, hout⟩ := h.atEnd.write h.inv h.own buf
  have hpos : p = data.length := by
    rcases hp with ⟨hyes, -⟩ | ⟨-, hpe⟩
    · exact absurd hyes hso
    · rw [← hpe, h.fpos]
  rcases hout with ⟨fp', τ, s', a, pre, post, o, k, hw, hext⟩ | ⟨fp', τ, e, hw, hf, -⟩
  · refine ⟨fp', τ, s', pre ++ fp'.fCurblock :: post, hw, hext.touch, hext.inode, ?_⟩
    have hrec := hext.recorded hb
    rw [hw] at hfull
    rcases hrec with ⟨hfirst, hsize, -⟩ | ⟨-, -, -, -, hf⟩
    · have hseat := hext.seat
      have hlen := hext.pos
      have hle := hext.le
      have hgt := hext.gt hb
      have hcount := hext.count
      have hold := h.content.count
      have hfpos := hext.fpos
      rw [h.fpos] at hfpos
      obtain rfl : post = [] := by
        rcases hext.grown with rfl | hpost
        · exact List.length_eq_zero_iff.mp (by omega)
        · exact hpost
      have hchain : IsChain τ.val (τ.img.ino fp'.fInode).inFirst (pre ++ [fp'.fCurblock]) := by
        rw [hfirst]
        exact hseat.cursor.chain
      refine ⟨hseat.inv, hseat.blocks, ⟨hseat.handle.magic, hseat.handle.live, hseat.handle.file,
        hchain, hsize.symm, Or.inr ⟨pre, [], rfl, hseat.cursor.block, ⟨by omega, ?_⟩, ?_⟩⟩,
        hext.nospc, hchain, ?_, ?_, ?_⟩
      · rcases Nat.lt_or_ge o 4080 with ho | ho
        · exact Or.inl (by omega)
        · exact Or.inr ⟨by omega, rfl⟩
      · intro hn
        rw [hext.nospc] at hn
        cases hn
      · rw [List.length_append, List.length_append, List.length_singleton]
        omega
      · rw [List.length_append, ← hpos, hext.chain_take.1, hpos, h.content.bytes]
      · rw [hsize, hfpos, List.length_append]
    · exact absurd hf hfull
  · rw [hw] at hfull
    exact absurd hf hfull

/-- A call that starts over leaves a chain too short. -/
theorem Grown.write_late (h : Grown σ s fp l data) (hb : buf ≠ []) (hso : StartsOver fp l)
    (hfull : ¬ ((crfsWrite fp buf).eval σ).2.glob.Full) :
    ∃ (fp' : CoFile) (τ : Vol) (s' : Shape) (pre : List BlockId),
      (crfsWrite fp buf).eval σ = ((.ok buf.length, fp'), τ) ∧ Touch fp.fInode σ s τ s' ∧
        fp'.fInode = fp.fInode ∧ Late τ s' fp' pre (data.length + buf.length) := by
  obtain ⟨p, hp, hout⟩ := h.atEnd.write h.inv h.own buf
  have hpos : fp.fFpos.toNat = p + 4080 := by
    rcases hp with ⟨-, hpe⟩ | ⟨hno, -⟩
    · exact hpe
    · exact absurd hso hno
  rcases hout with ⟨fp', τ, s', a, pre, post, o, k, hw, hext⟩ | ⟨fp', τ, e, hw, hf, -⟩
  · have hrec := hext.recorded hb
    rw [hw] at hfull
    rcases hrec with ⟨hfirst, hsize, -⟩ | ⟨-, -, -, -, hf⟩
    · have hshort := hext.starts_over_short hb hso hpos
      have hlen := hext.pos
      have hle := hext.le
      have hgt := hext.gt hb
      have hcount := hext.count
      have hblocks := hso.2.2
      have hfpos := hext.fpos
      rw [List.length_append, List.length_cons] at hshort
      obtain rfl : post = [] := by
        rcases hext.grown with rfl | hpost
        · exact List.length_eq_zero_iff.mp (by omega)
        · exact hpost
      rw [List.length_nil] at hshort
      refine ⟨fp', τ, s', pre, hw, hext.touch, hext.inode, ?_, hext.nospc, ?_, ?_, ?_,
        Or.inl ⟨?_, hsize⟩⟩
      · rw [hfirst]
        exact hext.seat
      · rw [hfpos, h.fpos]
      · rw [hsize, hfpos, h.fpos]
      · rw [hsize]
        omega
      · omega
    · exact absurd hf hfull
  · rw [hw] at hfull
    exact absurd hf hfull

/-- Nothing puts that right. -/
theorem Late.write (h : Late σ s fp pre m) (buf : List UInt8)
    (hfull : ¬ ((crfsWrite fp buf).eval σ).2.glob.Full) :
    ∃ (fp' : CoFile) (τ : Vol) (s' : Shape) (pre' : List BlockId),
      (crfsWrite fp buf).eval σ = ((.ok buf.length, fp'), τ) ∧ Touch fp.fInode σ s τ s' ∧
        fp'.fInode = fp.fInode ∧ Late τ s' fp' pre' (m + buf.length) := by
  rw [crfsWrite_here h.seat.handle.magic h.seat.cursor.ne_zero h.nospc] at hfull ⊢
  rcases writeData_outcome h.seat rfl buf with
    ⟨fp', υ, τ, s₁, s', pre', post', o', hw, hfill, ho', hgt, hsz⟩ | ⟨fp', τ, e, hw, hf, -⟩
  · obtain rfl := hfill.post_nil
    have hseat := hsz.seat hfill.seat
    have hin := hfill.inode
    have hlen := chain_length_lt hseat.cursor.chain
    rw [List.length_append, List.length_singleton] at hlen
    have hpos := hfill.pos
    have hfwd := hfill.forward
    have hshort := h.short
    have hfp := h.fpos
    have hsize := h.size
    have hSlt := (σ.img.ino fp.fInode).inFsize.toNat_lt
    have hold : (υ.img.ino fp'.fInode).inFsize = (σ.img.ino fp.fInode).inFsize := by
      rw [hin, hfill.size]
    have hfpos : fp'.fFpos.toNat = (fp.fFpos.toNat + buf.length) % 2 ^ 32 := by
      rw [hfill.fpos, UInt32.toNat_add, UInt32.toNat_ofNat', Nat.add_mod_mod]
    have hfirst : (τ.img.ino fp'.fInode).inFirst = (σ.img.ino fp.fInode).inFirst := by
      rw [hsz.first hfill.seat, hin, hfill.first]
    -- the length only grows
    have hmax : (τ.img.ino fp'.fInode).inFsize.toNat =
        max (σ.img.ino fp.fInode).inFsize.toNat fp'.fFpos.toNat := by
      rcases hsz.size with ⟨hle, rfl⟩ | ⟨hlt, hst⟩
      · rw [hold] at hle ⊢
        exact (Nat.max_eq_left (UInt32.le_iff_toNat_le.mp hle)).symm
      · have hyi : ({ υ.img.ino fp'.fInode with inFsize := fp'.fFpos } : Inode).inInode =
            fp'.fInode := (hfill.seat.inv.tree.inum _ hfill.seat.handle.live).2
        rw [Stores, hyi] at hst
        rw [hold] at hlt
        rcases hst with ⟨hino, -⟩ | ⟨-, -, -, -, hf⟩
        · rw [hino]
          exact (Nat.max_eq_right (Nat.le_of_lt (UInt32.lt_iff_toNat_lt.mp hlt))).symm
        · rw [hw] at hfull
          exact absurd hf hfull
    have hend : buf.length = 0 ∨ 0 < o' := by
      by_cases hb : buf = []
      · exact Or.inl (by rw [hb, List.length_nil])
      · exact Or.inr (hgt hb)
    have hahead : 4080 * (pre'.length + 1) < fp'.fFpos.toNat ∧
        max (σ.img.ino fp.fInode).inFsize.toNat fp'.fFpos.toNat = fp'.fFpos.toNat ∨
        2 ^ 31 ≤ max (σ.img.ino fp.fInode).inFsize.toNat fp'.fFpos.toNat := by
      rcases h.ahead with ⟨hlt, heq⟩ | hfar
      · rw [heq]
        by_cases hwrap : fp.fFpos.toNat + buf.length < 2 ^ 32
        · rw [hfpos, Nat.mod_eq_of_lt hwrap]
          exact Or.inl ⟨by omega, by omega⟩
        · exact Or.inr (by omega)
      · exact Or.inr (by omega)
    refine ⟨fp', τ, s', pre', hw, ?_, hin, ?_, hfill.nospc h.nospc, ?_, ?_, ?_, ?_⟩
    · have htouch := hsz.touch
      rw [hin] at htouch
      exact hfill.touch.trans htouch
    · rw [hfirst]
      exact hseat
    · rw [hfpos]
      exact (Nat.mod_le _ _).trans (by omega)
    · rw [hmax, hfpos]
      have := Nat.mod_le (fp.fFpos.toNat + buf.length) (2 ^ 32)
      omega
    · omega
    · rcases hahead with ⟨hlt, heq⟩ | hfar
      · exact Or.inl ⟨hlt, UInt32.toNat_inj.mp (by rw [hmax, heq])⟩
      · exact Or.inr (by rw [hmax]; exact hfar)
  · rw [hw] at hfull
    exact absurd hf hfull

theorem crfsWrites_cons {r : Except Errno Nat} (h : (crfsWrite fp buf).eval σ = ((r, fp'), τ)) :
    (crfsWrites fp (buf :: bufs)).eval σ =
      ((r :: ((crfsWrites fp' bufs).eval τ).1.1, ((crfsWrites fp' bufs).eval τ).1.2),
        ((crfsWrites fp' bufs).eval τ).2) := by
  rw [crfsWrites, Prog.eval_bind, h, Prog.eval_bind]
  rfl

theorem keeps_crfsWrites {P : Globals → Prop} (h : BlockStable P) (bufs : List (List UInt8)) :
    ∀ fp : CoFile, Keeps P (crfsWrites fp bufs) := by
  induction bufs with
  | nil => exact fun _ => Keeps.pure _
  | cons buf bufs ih =>
    exact fun fp => (keeps_crfsWrite h fp buf).bind fun r => (ih r.2).bind fun rs => Keeps.pure _

theorem keeps_writeFile {P : Globals → Prop} (h : BlockStable P) (fname : Name)
    (bufs : List (List UInt8)) : Keeps P (writeFile fname bufs) := by
  refine (keeps_crfsOpen fname).bind fun r => ?_
  cases r with
  | error e => exact Keeps.pure _
  | ok fp => exact (keeps_crfsWrites h bufs fp).bind fun rs => Keeps.pure _

/-- If no search fails in all the calls, none does in the first. -/
theorem first_not_full (hfull : ¬ ((crfsWrites fp (buf :: bufs)).eval σ).2.glob.Full) :
    ¬ ((crfsWrite fp buf).eval σ).2.glob.Full := by
  intro hf
  generalize hr : (crfsWrite fp buf).eval σ = r at hf
  obtain ⟨⟨e, fp'⟩, τ⟩ := r
  rw [crfsWrites_cons hr] at hfull
  exact hfull (keeps_crfsWrites stable_full.block bufs fp' τ hf)

theorem Late.writes (bufs : List (List UInt8)) : ∀ (σ : Vol) (s : Shape) (fp : CoFile)
    (pre : List BlockId) (m : Nat), Late σ s fp pre m →
    ¬ ((crfsWrites fp bufs).eval σ).2.glob.Full →
    ∃ (fp' : CoFile) (τ : Vol) (s' : Shape) (pre' : List BlockId),
      (crfsWrites fp bufs).eval σ = ((bufs.map fun buf => .ok buf.length, fp'), τ) ∧
        Touch fp.fInode σ s τ s' ∧ fp'.fInode = fp.fInode ∧
        Late τ s' fp' pre' (m + bufs.flatten.length) := by
  induction bufs with
  | nil => exact fun σ s fp pre m h _ => ⟨fp, σ, s, pre, rfl, Touch.refl _ _ _, rfl, h⟩
  | cons buf bufs ih =>
    intro σ s fp pre m h hfull
    have hone := first_not_full hfull
    obtain ⟨fp₁, σ₁, s₁, pre₁, he, ht, hi, hl⟩ := h.write buf hone
    rw [crfsWrites_cons he] at hfull ⊢
    obtain ⟨fp', τ, s', pre', he', ht', hi', hl'⟩ := ih σ₁ s₁ fp₁ pre₁ _ hl hfull
    rw [hi] at ht'
    rw [he']
    refine ⟨fp', τ, s', pre', rfl, ht.trans ht', hi'.trans hi, ?_⟩
    rw [List.flatten_cons, List.length_append, ← Nat.add_assoc]
    exact hl'

/-- What the calls leave: a file with all the bytes, or one with a chain too short if a call
started over. -/
theorem Grown.writes (bufs : List (List UInt8)) : ∀ (σ : Vol) (s : Shape) (fp : CoFile)
    (l : List BlockId) (data : List UInt8), Grown σ s fp l data → (∀ buf ∈ bufs, buf ≠ []) →
    ¬ ((crfsWrites fp bufs).eval σ).2.glob.Full →
    ∃ (fp' : CoFile) (τ : Vol) (s' : Shape),
      (crfsWrites fp bufs).eval σ = ((bufs.map fun buf => .ok buf.length, fp'), τ) ∧
        Touch fp.fInode σ s τ s' ∧ fp'.fInode = fp.fInode ∧
        (¬ StartsAtEnd data.length bufs ∧ (∃ l', Grown τ s' fp' l' (data ++ bufs.flatten)) ∨
          StartsAtEnd data.length bufs ∧
            ∃ pre, Late τ s' fp' pre (data.length + bufs.flatten.length)) := by
  induction bufs with
  | nil =>
    intro σ s fp l data h _ _
    refine ⟨fp, σ, s, rfl, Touch.refl _ _ _, rfl, Or.inl ⟨fun hno => hno, l, ?_⟩⟩
    rwa [List.flatten_nil, List.append_nil]
  | cons buf bufs ih =>
    intro σ s fp l data h hne hfull
    have hb := hne buf List.mem_cons_self
    have hone := first_not_full hfull
    rw [StartsAtEnd, List.flatten_cons]
    by_cases hso : StartsOver fp l
    · obtain ⟨fp₁, σ₁, s₁, pre₁, he, ht, hi, hl⟩ := h.write_late hb hso hone
      rw [crfsWrites_cons he] at hfull ⊢
      obtain ⟨fp', τ, s', pre', he', ht', hi', hl'⟩ := hl.writes bufs _ _ _ _ _ hfull
      rw [hi] at ht'
      rw [he']
      refine ⟨fp', τ, s', rfl, ht.trans ht', hi'.trans hi,
        Or.inr ⟨Or.inl (h.startsOver_iff.mp hso), pre', ?_⟩⟩
      rw [List.length_append, ← Nat.add_assoc]
      exact hl'
    · obtain ⟨fp₁, σ₁, s₁, l₁, he, ht, hi, hg⟩ := h.write hb hso hone
      rw [crfsWrites_cons he] at hfull ⊢
      obtain ⟨fp', τ, s', he', ht', hi', hout⟩ := ih σ₁ s₁ fp₁ l₁ _ hg
        (fun b hbm => hne b (List.mem_cons_of_mem _ hbm)) hfull
      rw [hi] at ht'
      rw [he', or_iff_right (mt h.startsOver_iff.mpr hso)]
      rw [List.length_append, List.append_assoc] at hout
      refine ⟨fp', τ, s', rfl, ht.trans ht', hi'.trans hi, ?_⟩
      rw [List.length_append, ← Nat.add_assoc]
      exact hout

/-! ### Opening again -/

/-- A chain too short gives nothing back. -/
theorem Late.reads (h : Late σ s fp pre m) :
    ((crfsReads (openHandle σ fp.fInode) [(σ.img.ino fp.fInode).inFsize.toNat]).eval σ).1.map
      Prod.fst = [.ok 0] := by
  have hshort := h.short
  obtain ⟨out, fp', he⟩ := crfsRead_short (m := (σ.img.ino fp.fInode).inFsize.toNat)
    h.seat.cursor.chain (by rw [List.length_append, List.length_singleton]; exact hshort)
    (Nat.le_refl _)
  rw [crfsReads_cons he]
  rfl

/-- The file that `crfs_create` makes, opened. -/
theorem Linked.grown {d : InodeId} {nm : Name} (hl : Linked σ s d nm x τ s') (h : Inv σ s)
    (hf : τ.img.isDir x = false) : Grown τ s' (openHandle τ x) [] [] := by
  have hfirst := hl.newFirst hf
  have hlive : s'.live x := by
    rw [hl.live]
    exact Or.inr rfl
  have hown : ∀ b, s'.own b ≠ some (.file x) := by
    intro b hb
    rw [hl.ownFile] at hb
    exact hl.unused (h.live x (h.owned.ownFile x b hb).1)
  have hnext : (openHandle τ x).fFblock.fbNext = 0 := by
    change (if (τ.img.ino x).inFirst ≠ 0 then _ else zeroBlock).fbNext = 0
    rw [if_neg (not_not.mpr hfirst)]
    exact zeroBlock_fbNext
  refine ⟨hl.inv, fun b => ⟨fun hb => absurd hb (hown b), fun hb => by cases hb⟩,
    ⟨rfl, hlive, hf, hfirst, hl.inoNew.1.symm, Or.inl ⟨rfl, hfirst, hnext, rfl⟩⟩, rfl,
    hfirst, rfl, rfl, ?_⟩
  rw [show (openHandle τ x).fInode = x from rfl, hl.inoNew.1]
  rfl

/-- The calls that open the new file and write it. -/
theorem Grown.writeFile {d : InodeId} {nm fname : Name} (hl : Linked σ s d nm x τ s')
    (h : Inv σ s) (hz : (0 : UInt8) ∉ fname) (hr : Room σ s fname d nm k) (hnm : nm ≠ [])
    (hf : τ.img.isDir x = false) (hne : ∀ buf ∈ bufs, buf ≠ [])
    (hfull : ¬ ((writeFile fname bufs).eval τ).2.glob.Full) :
    ∃ (fp : CoFile) (υ : Vol) (s'' : Shape),
      (Crfs.writeFile fname bufs).eval τ = (.ok (bufs.map fun buf => .ok buf.length, fp), υ) ∧
        fp.fMagic = coFileMagic ∧ Inv υ s'' ∧
        (crfsOpen fname).eval υ = (.ok (openHandle υ fp.fInode), υ) ∧
        (¬ StartsAtEnd 0 bufs ∧ (∃ l', Grown υ s'' fp l' bufs.flatten) ∨
          StartsAtEnd 0 bufs ∧ ∃ pre, Late υ s'' fp pre bufs.flatten.length) := by
  have hopen := hl.opens h hz hr hnm hf
  unfold Crfs.writeFile at hfull ⊢
  rw [Prog.eval_bind, hopen] at hfull ⊢
  simp only [Prog.eval_bind, Prog.eval_pure] at hfull ⊢
  obtain ⟨fp, υ, s'', he, ht, hi, hout⟩ := (hl.grown h hf).writes bufs _ _ _ _ _ hne hfull
  rw [List.nil_append, List.length_nil, Nat.zero_add] at hout
  have hinv : fp.fMagic = coFileMagic ∧ Inv υ s'' := by
    rcases hout with ⟨-, l', hg⟩ | ⟨-, pre, hlate⟩
    · exact ⟨hg.atEnd.magic, hg.inv⟩
    · exact ⟨hlate.seat.handle.magic, hlate.seat.inv⟩
  refine ⟨fp, υ, s'', by rw [he], hinv.1, hinv.2, ?_, hout⟩
  rw [hi]
  exact ht.opens hl.inv hinv.2 hf hz hopen

/-- Closing a handle flushes; what is then read of a path is what was on the volume. -/
theorem Inv.closed_reads {c : Machine} {p : Path} (h : Inv c.vol s) (hc : c.store.Coherent)
    (hw : c.glob.crfsWhichSuper = 0 ∨ c.glob.crfsWhichSuper = 1) (hm : fp.fMagic = coFileMagic)
    (ho : (crfsOpen p.name).eval c.vol = (.ok (Crfs.openHandle c.vol i), c.vol)) :
    crfsClose fp c = (.ok (), cacheFlush c) ∧ ∀ ms, ((readFile p.name ms).exec (cacheFlush c)).1 =
      .ok ((crfsReads (Crfs.openHandle c.vol i) ms).eval c.vol).1 := by
  have hsame := (h.flush_agree hc hw).seesSame h (h.flush hc hw)
  refine ⟨if_neg (not_not.mpr hm), fun ms => ?_⟩
  rw [(exec_vol _ _).1, hsame.files, readFile_eval, ho]
  rfl

/-- What is read after the writes, the close and the open is what the file on the volume holds. -/
theorem Sound.roundTrips {t : Session} (h : Sound t s) {c : Machine} {p : Path}
    (hcreate : (crfsCreate p.name).exec t.mach = (.ok (), c)) (hne : ∀ buf ∈ bufs, buf ≠ [])
    (hfull : ¬ ((writeFile p.name bufs).exec c).2.glob.Full) :
    ∃ (fp : CoFile) (υ : Vol) (s' : Shape),
      (¬ StartsAtEnd 0 bufs ∧ (∃ l', Grown υ s' fp l' bufs.flatten) ∨
        StartsAtEnd 0 bufs ∧ ∃ pre, Late υ s' fp pre bufs.flatten.length) ∧
      ∀ ns, RoundTrips c p bufs ns ↔
        ((crfsReads (openHandle υ fp.fInode) (ns.map UInt32.toNat)).eval υ).1 =
          slices bufs.flatten ns := by
  obtain ⟨hres, hvol⟩ := exec_vol (crfsCreate p.name) t.mach
  have hcoh := exec_coherent (crfsCreate p.name) h.coherent
  have hwhich := exec_which (fun g => keeps_crfsCreate (stable_sameSuper g) p.name) t.mach
  rw [hcreate] at hres hvol hcoh hwhich
  obtain ⟨hwres, hwvol⟩ := exec_vol (writeFile p.name bufs) c
  have hwcoh := exec_coherent (writeFile p.name bufs) hcoh
  have hwwhich := exec_which (fun g => keeps_writeFile (stable_sameSuper g).block p.name bufs) c
  rw [hwhich] at hwwhich
  -- no search fails in `crfs_create` either
  change ¬ (Machine.vol ((writeFile p.name bufs).exec c).2).glob.Full at hfull
  rw [hwvol] at hfull
  have hcfull : ¬ ((crfsCreate p.name).eval t.vol).2.glob.Full := by
    rw [← hvol]
    exact fun hf => hfull (keeps_writeFile stable_full.block _ _ c.vol hf)
  rcases crfsCreate_spec h.mounted.inv p.nul hcfull with ⟨e, he⟩ |
    ⟨d, nm, k, x, τ, s₁, he, hroom, hnm, hl, hf, -⟩
  · rw [he] at hres
    cases hres
  rw [he] at hvol
  obtain rfl : c.vol = τ := hvol
  obtain ⟨fp, υ, s', hw, hm, hinv, hopen, hout⟩ :=
    Grown.writeFile hl h.mounted.inv p.nul hroom hnm hf hne hfull
  rw [hw] at hwres hwvol
  have hexec : (writeFile p.name bufs).exec c =
      (.ok (bufs.map fun buf => .ok buf.length, fp), ((writeFile p.name bufs).exec c).2) :=
    Prod.ext hwres rfl
  generalize ((writeFile p.name bufs).exec c).2 = c₁ at hwvol hwcoh hwwhich hexec
  obtain rfl : Machine.vol c₁ = υ := hwvol
  obtain ⟨hclose, hread⟩ := hinv.closed_reads hwcoh (by rw [hwwhich]; exact h.which) hm hopen
  refine ⟨fp, Machine.vol c₁, s', hout, fun ns => ?_⟩
  constructor
  · rintro ⟨fp', c₁', c₂', hw', hclose', hread'⟩
    rw [hexec, Prod.mk.injEq, Except.ok.injEq, Prod.mk.injEq] at hw'
    obtain ⟨⟨-, rfl⟩, rfl⟩ := hw'
    rw [hclose, Prod.mk.injEq] at hclose'
    obtain ⟨-, rfl⟩ := hclose'
    rw [hread, Except.ok.injEq] at hread'
    exact hread'
  · intro he
    refine ⟨fp, c₁, _, hexec, hclose, ?_⟩
    rw [hread, he]

/-- A request for the whole of a file with a chain too short does not give the bytes back. -/
theorem Late.not_slices (h : Late σ s fp pre data.length) :
    InRange data.length 0 [(σ.img.ino fp.fInode).inFsize] ∧
      ((crfsReads (openHandle σ fp.fInode)
        ([(σ.img.ino fp.fInode).inFsize].map UInt32.toNat)).eval σ).1 ≠
          slices data [(σ.img.ino fp.fInode).inFsize] := by
  have hlt := (σ.img.ino fp.fInode).inFsize.toNat_lt
  have hshort := h.short
  have hsize := h.size
  refine ⟨⟨fun ho => ?_, trivial⟩, fun he => ?_⟩
  · have := ho.2.1
    omega
  · have hfst := congrArg (List.map Prod.fst) he
    rw [List.map_singleton, h.reads, slices, slices, List.map_singleton, List.cons_eq_cons,
      Except.ok.injEq, List.length_take] at hfst
    omega

/-- The bytes written call by call to a new file come back, in reads that do not overrun, exactly
if no call after the first starts where a block has been filled to its end; and then they come
back exactly in such reads. -/
theorem write_read_roundTrip {t : Session} (h : Sound t s) {c : Machine} {p : Path}
    (hcreate : (crfsCreate p.name).exec t.mach = (.ok (), c)) (hne : ∀ buf ∈ bufs, buf ≠ [])
    (hfull : ¬ ((writeFile p.name bufs).exec c).2.glob.Full) :
    ((∀ ns, InRange bufs.flatten.length 0 ns → RoundTrips c p bufs ns) ↔ ¬ StartsAtEnd 0 bufs) ∧
      (¬ StartsAtEnd 0 bufs → ∀ ns,
        (RoundTrips c p bufs ns ↔ InRange bufs.flatten.length 0 ns)) := by
  obtain ⟨fp, υ, s', ⟨hno, l', hg⟩ | ⟨hyes, pre, hlate⟩, hiff⟩ := h.roundTrips hcreate hne hfull
  · have hread := fun ns => (hiff ns).trans (hg.content.readBack ns)
    exact ⟨⟨fun _ => hno, fun _ ns hns => (hread ns).mpr hns⟩, fun _ => hread⟩
  · obtain ⟨hin, hnot⟩ := hlate.not_slices
    refine ⟨⟨fun hall => absurd ((hiff _).mp (hall _ hin)) hnot, fun hno => absurd hyes hno⟩,
      fun hno => absurd hyes hno⟩

/-- The small device with the new file "a", and calls on it in which no search fails. -/
theorem fresh_file {bufs : List (List UInt8)}
    (hfull : ¬ ((writeFile pathA.name bufs).eval createdVol).2.glob.Full) :
    ∃ (t : Session) (c : Machine), Sound t mkfsShape ∧
      (crfsCreate pathA.name).exec t.mach = (.ok (), c) ∧
      ¬ ((writeFile pathA.name bufs).exec c).2.glob.Full := by
  obtain ⟨c₀, hc₀, hv, -⟩ := fresh_session
  obtain ⟨hres, hvol⟩ := exec_vol (crfsCreate pathA.name) c₀
  have hok : ((crfsCreate pathA.name).eval (freshVol 98304 3 fun _ => zeroBlock)).1 = .ok () := by
    decide +kernel
  rw [hv, hok] at hres
  rw [hv, show ((crfsCreate pathA.name).eval (freshVol 98304 3 fun _ => zeroBlock)).2 =
    createdVol from rfl] at hvol
  have hexec : (crfsCreate pathA.name).exec c₀ = (.ok (), ((crfsCreate pathA.name).exec c₀).2) :=
    Prod.ext hres rfl
  generalize ((crfsCreate pathA.name).exec c₀).2 = c at hvol hexec
  refine ⟨⟨c₀, fun _ => none⟩, c, sound_start goodSize_small _ hc₀, hexec, ?_⟩
  rw [← hvol, ← (exec_vol _ _).2] at hfull
  exact hfull

/-- Three pieces, the second of which goes over the end of a block. -/
def threePieces : List (List UInt8) := [List.replicate 3000 1, List.replicate 3000 2, [7]]

theorem length_threePieces : threePieces.flatten.length = 6001 := by
  simp only [threePieces, List.length_flatten, List.map_cons, List.map_nil, List.length_replicate,
    List.length_singleton, List.sum_cons, List.sum_nil, Nat.reduceAdd]

/-- They come back in three reads, of which the second goes over the end of the block as well. -/
theorem write_read_roundTrip_pieces : ∃ (t : Session) (c : Machine),
    Sound t mkfsShape ∧ (crfsCreate pathA.name).exec t.mach = (.ok (), c) ∧
      RoundTrips c pathA threePieces [100, 4000, 5000] := by
  have hfull : ¬ ((writeFile pathA.name threePieces).eval createdVol).2.glob.Full := by
    rintro (hf | hf)
    · exact absurd hf (by decide +kernel)
    · exact absurd hf (by decide +kernel)
  obtain ⟨t, c, h, hcreate, hfull⟩ := fresh_file hfull
  have hno : ¬ StartsAtEnd 0 threePieces := by
    simp only [threePieces, StartsAtEnd, List.length_replicate]
    decide
  have hne : ∀ buf ∈ threePieces, buf ≠ [] := by
    intro buf hbuf
    simp only [threePieces, List.mem_cons, List.not_mem_nil, or_false] at hbuf
    rcases hbuf with rfl | rfl | rfl
    · exact List.ne_nil_of_length_pos (by rw [List.length_replicate]; decide)
    · exact List.ne_nil_of_length_pos (by rw [List.length_replicate]; decide)
    · exact List.cons_ne_nil 7 []
  refine ⟨t, c, h, hcreate, ((write_read_roundTrip h hcreate hne hfull).2 hno _).mpr ?_⟩
  rw [length_threePieces]
  exact ⟨fun ho => absurd ho.2.1 (by decide), fun ho => absurd ho.2.1 (by decide),
    fun ho => absurd ho.2.1 (by decide), trivial⟩

/-- A whole block and one byte more do not come back. -/
theorem full_block_loses : ∃ (t : Session) (c : Machine) (bufs : List (List UInt8)),
    Sound t mkfsShape ∧ (crfsCreate pathA.name).exec t.mach = (.ok (), c) ∧
      (∀ buf ∈ bufs, buf ≠ []) ∧ ¬ ((writeFile pathA.name bufs).exec c).2.glob.Full ∧
      ∃ ns, InRange bufs.flatten.length 0 ns ∧ ¬ RoundTrips c pathA bufs ns := by
  have hfull : ¬ ((writeFile pathA.name [List.replicate 4080 0, [7]]).eval
      createdVol).2.glob.Full := by
    rintro (hf | hf)
    · exact absurd hf (by decide +kernel)
    · exact absurd hf (by decide +kernel)
  obtain ⟨t, c, h, hcreate, hfull⟩ := fresh_file hfull
  have hne : ∀ buf ∈ [List.replicate 4080 (0 : UInt8), [7]], buf ≠ [] := by
    rintro buf hb rfl
    rcases List.mem_cons.mp hb with he | hb
    · have hlen := congrArg List.length he
      rw [List.length_replicate] at hlen
      exact absurd hlen (by decide)
    · exact absurd (List.mem_singleton.mp hb) (by decide)
  have hends : StartsAtEnd 0 [List.replicate 4080 (0 : UInt8), [7]] := by
    refine Or.inr (Or.inl ?_)
    rw [List.length_replicate]
    decide
  refine ⟨t, c, _, h, hcreate, hne, hfull, ?_⟩
  obtain ⟨fp, υ, s', ⟨hno, -⟩ | ⟨-, pre, hlate⟩, hiff⟩ := h.roundTrips hcreate hne hfull
  · exact absurd hends hno
  · obtain ⟨hin, hnot⟩ := hlate.not_slices
    exact ⟨_, hin, fun hr => hnot ((hiff _).mp hr)⟩

end Crfs
