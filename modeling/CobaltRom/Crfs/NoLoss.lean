import CobaltRom.Crfs.Extend
import CobaltRom.Crfs.Filled

/-! What `crfs_write` says that it wrote, read from the file opened again. -/
namespace Crfs
open WriteBack LinkChain

/-- The file opened again has got the length of the handle, and reading that much of it returns
the bytes that the call said to have written in their place. -/
def NoLoss (σ : Vol) (fname : Name) (fp : CoFile) (buf : List UInt8) : Prop :=
  ∀ (n : Nat) (fp' : CoFile) (τ : Vol), (crfsWrite fp buf).eval σ = ((.ok n, fp'), τ) →
    ∃ (fp₁ fp₂ : CoFile) (out : List UInt8), (crfsOpen fname).eval τ = (.ok fp₁, τ) ∧
      fp'.fFpos ≤ (τ.img.ino fp₁.fInode).inFsize ∧
      (crfsRead fp₁ fp'.fFpos.toNat).eval τ = ((.ok fp'.fFpos.toNat, out, fp₂), τ) ∧
      out.drop fp.fFpos.toNat = buf.take n

instance (fp : CoFile) (l : List BlockId) : Decidable (StartsOver fp l) :=
  inferInstanceAs (Decidable (_ ∧ _ ∧ _))

/-- The byte of the chain at which the write starts: a full last block is filled again. -/
def writeStart (fp : CoFile) (l : List BlockId) : Nat :=
  if StartsOver fp l then fp.fFpos.toNat - 4080 else fp.fFpos.toNat

variable {σ τ : Vol} {s s' : Shape} {a : BlockId} {i : InodeId} {fp fp' : CoFile}
  {pre post l : List BlockId} {buf : List UInt8} {o k p : Nat} {fname : Name}

theorem Starts.eq (h : Starts fp l p) : p = writeStart fp l := by
  rw [writeStart]
  rcases h with ⟨hso, hp⟩ | ⟨hso, hp⟩
  · rw [if_pos hso]
    omega
  · rw [if_neg hso, hp]

/-- What was written is in the first bytes of the chain. -/
theorem Extended.chain_take (h : Extended σ s fp l p buf τ s' fp' a pre post o k) :
    (chainData τ.val (pre ++ fp'.fCurblock :: post)).take (p + buf.length) =
      (chainData σ.val l).take p ++ buf ∧ ((chainData σ.val l).take p).length = p := by
  have hdata := h.data
  rw [bytesTo_eq_take τ.val pre post fp'.fCurblock h.le, h.pos] at hdata
  refine ⟨hdata, ?_⟩
  have hlen := congrArg List.length hdata
  have hle := h.le
  have hpos := h.pos
  rw [List.length_take, chainData_length, List.length_append, List.length_append,
    List.length_cons, List.length_take] at hlen
  rw [List.length_take]
  omega

/-- The length is on the disk and the bytes are in their place. -/
theorem Extended.reads (h : Extended σ s fp l p buf τ s' fp' a pre post o k)
    (hp : fp.fFpos.toNat = p) (hfirst : (τ.img.ino fp.fInode).inFirst = a)
    (hsize : (τ.img.ino fp.fInode).inFsize = fp'.fFpos) :
    ∃ fp₂ : CoFile, (crfsRead (openHandle τ fp.fInode) fp'.fFpos.toNat).eval τ =
      ((.ok fp'.fFpos.toNat, (chainData σ.val l).take p ++ buf, fp₂), τ) := by
  have hpos := h.pos
  have hle := h.le
  have hfpos := h.fpos
  have hchain : IsChain τ.val (τ.img.ino fp.fInode).inFirst (pre ++ fp'.fCurblock :: post) := by
    rw [hfirst]
    exact h.seat.cursor.chain
  obtain ⟨fp₂, he⟩ := crfsRead_start (m := fp'.fFpos.toNat) hchain
    (by rw [hsize, List.length_append, List.length_cons]; omega) (by rw [hsize])
  rw [show fp'.fFpos.toNat = p + buf.length by omega, h.chain_take.1] at he
  rw [show fp'.fFpos.toNat = p + buf.length by omega]
  exact ⟨fp₂, he⟩

/-- An empty write leaves a file that reads up to its length. -/
theorem Extended.reads_nil (h : Extended σ s fp l p [] τ s' fp' a pre post o k)
    (he : AtEnd σ s fp l) : fp'.fFpos = fp.fFpos ∧
      fp'.fFpos ≤ (τ.img.ino fp.fInode).inFsize ∧ ∃ (out : List UInt8) (fp₂ : CoFile),
        (crfsRead (openHandle τ fp.fInode) fp'.fFpos.toNat).eval τ =
          ((.ok fp'.fFpos.toNat, out, fp₂), τ) ∧ out.length = fp'.fFpos.toNat := by
  have hfpos : fp'.fFpos = fp.fFpos := UInt32.toNat_inj.mp h.fpos
  have hsize : (τ.img.ino fp.fInode).inFsize = fp.fFpos := (h.size rfl).trans he.eof.symm
  refine ⟨hfpos, by rw [hfpos, hsize]; exact UInt32.le_refl _, ?_⟩
  rcases he.place with ⟨-, -, -, h0⟩ | ⟨pre₀, post₀, hl, -, hat, -⟩
  · have hend : (τ.img.ino (openHandle τ fp.fInode).fInode).inFsize ≤
        (openHandle τ fp.fInode).fFpos := by
      rw [show (openHandle τ fp.fInode).fInode = fp.fInode from rfl, hsize, h0]
      exact UInt32.le_refl 0
    rw [show fp'.fFpos.toNat = 0 by rw [hfpos, h0]; rfl]
    exact ⟨[], _, crfsRead_end rfl hend 0, rfl⟩
  · have hne : l ≠ [] := by
      rw [hl]
      simp
    obtain ⟨-, hfirst⟩ := h.first hne
    have hchain : IsChain τ.val (τ.img.ino fp.fInode).inFirst (pre ++ fp'.fCurblock :: post) := by
      rw [hfirst]
      exact h.seat.cursor.chain
    have hcount := h.count
    have hlen : l.length = pre₀.length + 1 + post₀.length := by
      rw [hl, List.length_append, List.length_cons]
      omega
    have hfit : fp.fFpos.toNat ≤ 4080 * (pre ++ fp'.fCurblock :: post).length := by
      rw [List.length_append, List.length_cons]
      rcases hat.upper with hup | ⟨hup, -⟩ <;> omega
    obtain ⟨fp₂, hread⟩ := crfsRead_start (m := fp'.fFpos.toNat) hchain (by rw [hsize]; exact hfit)
      (by rw [hsize, hfpos])
    refine ⟨_, fp₂, hread, ?_⟩
    rw [List.length_take, chainData_length, hfpos]
    omega

/-- A write that starts over leaves fewer blocks than the length asks for. -/
theorem Extended.starts_over_short (h : Extended σ s fp l p buf τ s' fp' a pre post o k)
    (hb : buf ≠ []) (hso : StartsOver fp l) (hp : fp.fFpos.toNat = p + 4080) :
    4080 * (pre ++ fp'.fCurblock :: post).length < fp'.fFpos.toNat := by
  have hlen := List.length_pos_of_ne_nil hb
  have hpos := h.pos
  have hgt := h.gt hb
  have hcount := h.count
  have hfpos := h.fpos
  have hfull := hso.2.2
  rw [List.length_append, List.length_cons]
  rcases h.grown with rfl | rfl
  · omega
  · rw [List.length_nil] at hcount ⊢
    omega

/-- A successful write is there after the call, unless it started over or its inode was left out. -/
theorem Extended.noLoss_iff (h : Extended σ s fp l p buf τ s' fp' a pre post o k)
    (he : AtEnd σ s fp l) (hb : buf ≠ []) (hp : Starts fp l p) :
    (fp'.fFpos ≤ (τ.img.ino fp.fInode).inFsize ∧ ∃ (out : List UInt8) (fp₂ : CoFile),
      (crfsRead (openHandle τ fp.fInode) fp'.fFpos.toNat).eval τ =
        ((.ok fp'.fFpos.toNat, out, fp₂), τ) ∧
      out.drop fp.fFpos.toNat = buf.take buf.length) ↔
    ¬ StartsOver fp l ∧ ¬ (NeedsTable σ fp.fInode ∧ σ.bm.avail = k ∧ k ≤ 1) := by
  have hlen := List.length_pos_of_ne_nil hb
  have hfpos := h.fpos
  have hrec := h.recorded hb
  rw [Recorded, h.inode] at hrec
  rcases hrec with ⟨hfirst, hsize, hstored⟩ | ⟨hsize, hneeds, havail, hk, -⟩
  · rw [and_iff_left hstored, hsize]
    constructor
    · rintro ⟨-, out, fp₂, hread, -⟩ hso
      have hpos : fp.fFpos.toNat = p + 4080 := by
        rcases hp with ⟨-, hp⟩ | ⟨hnot, -⟩
        · exact hp
        · exact absurd hso hnot
      have hchain : IsChain τ.val (τ.img.ino fp.fInode).inFirst (pre ++ fp'.fCurblock :: post) := by
        rw [hfirst]
        exact h.seat.cursor.chain
      obtain ⟨out', fp₃, hshort⟩ := crfsRead_short hchain (h.starts_over_short hb hso hpos)
        (by rw [hsize])
      rw [hread] at hshort
      have hz : fp'.fFpos.toNat = 0 := Except.ok.inj (Prod.mk.inj (Prod.mk.inj hshort).1).1
      omega
    · intro hso
      have hpos : fp.fFpos.toNat = p := by
        rcases hp with ⟨hyes, -⟩ | ⟨-, hp⟩
        · exact absurd hyes hso
        · exact hp
      obtain ⟨fp₂, hread⟩ := h.reads hpos hfirst hsize
      refine ⟨UInt32.le_refl _, _, fp₂, hread, ?_⟩
      have htake := h.chain_take.2
      rw [List.take_length, hpos, List.drop_append_of_le_length (by omega),
        List.drop_of_length_le (by omega), List.nil_append]
  · constructor
    · rintro ⟨hle, -⟩
      rw [hsize, ← he.eof, UInt32.le_iff_toNat_le] at hle
      omega
    · rintro ⟨-, hnot⟩
      exact absurd ⟨hneeds, havail, hk⟩ hnot

/-- What a write at the end of a file says to have written is there when the file is opened again,
exactly if nothing was to be written, or the write fails, or it does not start over in a full block
and a block is left for the inode table if that has to move. -/
theorem crfsWrite_noLoss (h : Mounted σ s) (he : AtEnd σ s fp l) (hz : (0 : UInt8) ∉ fname)
    (hpath : (crfsOpen fname).eval σ = (.ok (openHandle σ fp.fInode), σ)) (buf : List UInt8) :
    NoLoss σ fname fp buf ↔ buf = [] ∨
      Short σ fp.fInode (blocksNeeded l.length (writeStart fp l) buf.length) ∨
      ¬ StartsOver fp l ∧ ¬ (NeedsTable σ fp.fInode ∧
        σ.bm.avail = blocksNeeded l.length (writeStart fp l) buf.length ∧
        blocksNeeded l.length (writeStart fp l) buf.length ≤ 1) := by
  obtain ⟨p, hp, hout⟩ := crfsWrite_outcome h he buf
  rw [← hp.eq]
  rcases hout with ⟨fp', τ, s', a, pre, post, o, k, hw, hext⟩ | ⟨fp', τ, e, hw, -, hshort⟩
  · have hopen := hext.touch.opens h.inv hext.seat.inv he.file hz hpath
    by_cases hb : buf = []
    · subst hb
      refine ⟨fun _ => Or.inl rfl, fun _ => ?_⟩
      obtain ⟨hfpos, hsize, out, fp₂, hread, hlen⟩ := hext.reads_nil he
      intro n fp'' τ' hw'
      rw [hw, Prod.mk.injEq, Prod.mk.injEq] at hw'
      obtain ⟨⟨-, rfl⟩, rfl⟩ := hw'
      refine ⟨_, fp₂, out, hopen, hsize, hread, ?_⟩
      rw [List.take_nil, List.drop_of_length_le (by rw [hlen, hfpos])]
    · rw [← hext.needed hb, or_iff_right hb, or_iff_right (hext.enough hb),
        ← hext.noLoss_iff he hb hp]
      constructor
      · intro hno
        obtain ⟨fp₁, fp₂, out, hopen', hsize, hread, hdata⟩ := hno _ fp' τ hw
        rw [hopen, Prod.mk.injEq, Except.ok.injEq] at hopen'
        obtain ⟨rfl, -⟩ := hopen'
        exact ⟨hsize, out, fp₂, hread, hdata⟩
      · rintro ⟨hsize, out, fp₂, hread, hdata⟩ n fp'' τ' hw'
        rw [hw, Prod.mk.injEq, Prod.mk.injEq, Except.ok.injEq] at hw'
        obtain ⟨⟨rfl, rfl⟩, rfl⟩ := hw'
        exact ⟨_, fp₂, out, hopen, hsize, hread, hdata⟩
  · constructor
    · intro _
      by_cases hb : buf = []
      · exact Or.inl hb
      · exact Or.inr (Or.inl (hshort hb))
    · intro _ n fp'' τ' hw'
      rw [hw] at hw'
      cases (Prod.mk.inj (Prod.mk.inj hw').1).1

/-- 5000 bytes written to the new file "a" of a small device. -/
theorem crfsWrite_noLoss_long :
    NoLoss createdVol pathA.name (openHandle createdVol 2) longText := by
  obtain ⟨s, hm, hlive⟩ := createdVol_mounted
  have hpath : (crfsOpen pathA.name).eval createdVol =
      (.ok (openHandle createdVol 2), createdVol) := by
    have hopened : createdVol.img.opened createdVol.glob.crfsPwd pathA.name = .ok 2 := by
      decide +kernel
    rw [crfsOpen_eval hm.inv pathA.nul, hopened]
    rfl
  have hend : AtEnd createdVol s (openHandle createdVol 2) [] :=
    ⟨rfl, hlive, by decide +kernel, show (createdVol.img.ino 2).inFirst = 0 by decide +kernel,
      by decide +kernel, Or.inl ⟨rfl, by decide +kernel, by decide +kernel, rfl⟩⟩
  refine (crfsWrite_noLoss hm hend pathA.nul hpath longText).mpr
    (Or.inr (Or.inr ⟨fun hso => hso.1 rfl, ?_⟩))
  rw [length_longText]
  decide +kernel

/-- The blocks of "a" on a device with one block left. -/
def lastChain : List BlockId := fullChain.take 19

theorem spread_lastChain : Spread lastChain :=
  ⟨by decide, by simp [lastChain, fullChain], by simp [lastChain, fullChain]⟩

def pathB : Path := ⟨[98], by decide⟩

/-- The last block goes to the data of "b" and none is left for the inode table. -/
theorem crfsWrite_loses : ∃ c : Machine, crfsInit (boot (filledDisk lastChain)) = some (true, c) ∧
    Mounted c.vol (filledShape lastChain) ∧
    AtEnd c.vol (filledShape lastChain) (openHandle c.vol 3) [] ∧
    (crfsOpen pathB.name).eval c.vol = (.ok (openHandle c.vol 3), c.vol) ∧
    ¬ NoLoss c.vol pathB.name (openHandle c.vol 3) [7] := by
  obtain ⟨c, hc, hv, hm, -, -⟩ := filled_mounted spread_lastChain
  have hend : AtEnd c.vol (filledShape lastChain) (openHandle c.vol 3) [] := by
    rw [hv]
    exact ⟨rfl, Or.inr (Or.inr rfl), by decide +kernel,
      show ((filledVol lastChain).img.ino 3).inFirst = 0 by decide +kernel, by decide +kernel,
      Or.inl ⟨rfl, by decide +kernel, by decide +kernel, rfl⟩⟩
  have hpath : (crfsOpen pathB.name).eval c.vol = (.ok (openHandle c.vol 3), c.vol) := by
    have hopened : c.vol.img.opened c.vol.glob.crfsPwd pathB.name = .ok 3 := by
      rw [hv]
      decide +kernel
    rw [crfsOpen_eval hm.inv pathB.nul, hopened]
    rfl
  refine ⟨c, hc, hm, hend, hpath, fun hno => ?_⟩
  rw [hv] at hno
  obtain ⟨r, hr⟩ : ∃ r, r = (crfsWrite (openHandle (filledVol lastChain) 3) [7]).eval
      (filledVol lastChain) := ⟨_, rfl⟩
  have hok : r.1.1 = .ok 1 := by
    rw [hr]
    decide +kernel
  have hopen : ((crfsOpen pathB.name).eval r.2).1.map CoFile.fInode = .ok 3 := by
    rw [hr]
    decide +kernel
  have hsize : ¬ r.1.2.fFpos ≤ ((Vol.img r.2).ino 3).inFsize := by
    rw [hr]
    decide +kernel
  obtain ⟨fp₁, -, -, hopen', hle, -⟩ := hno 1 r.1.2 r.2 (by rw [← hr, ← hok])
  rw [hopen'] at hopen
  have hino : fp₁.fInode = 3 := Except.ok.inj hopen
  rw [hino] at hle
  exact hsize hle

end Crfs
