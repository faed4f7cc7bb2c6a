import CobaltRom.Crfs.Sequential
import CobaltRom.Crfs.Lookup

/-! `crfs_write` at the end of a file. -/
namespace Crfs
open WriteBack LinkChain

/-- An open handle at the end of its file; the blocks of the file are `l`. After an
append that failed the handle waits for a block to follow the last, full one. -/
structure AtEnd (σ : Vol) (s : Shape) (fp : CoFile) (l : List BlockId) : Prop where
  magic : fp.fMagic = coFileMagic
  live : s.live fp.fInode
  file : σ.img.isDir fp.fInode = false
  chain : IsChain σ.val (σ.img.ino fp.fInode).inFirst l
  eof : fp.fFpos = (σ.img.ino fp.fInode).inFsize
  place : (l = [] ∧ fp.fCurblock = 0 ∧ fp.fFblock.fbNext = 0 ∧ fp.fFpos = 0) ∨
    ∃ pre post, l = pre ++ fp.fCurblock :: post ∧ fp.fFblock = σ.val fp.fCurblock ∧
      At fp pre post ∧ (fp.fNospc = true → fp.fFpos.toNat = 4080 * (pre.length + 1))

/-- The last block is full and loaded: the write starts over at its first byte. -/
def StartsOver (fp : CoFile) (l : List BlockId) : Prop :=
  l ≠ [] ∧ fp.fNospc = false ∧ fp.fFpos.toNat = 4080 * l.length

/-- The byte of the chain at which the write starts. -/
def Starts (fp : CoFile) (l : List BlockId) (p : Nat) : Prop :=
  StartsOver fp l ∧ fp.fFpos.toNat = p + 4080 ∨ ¬ StartsOver fp l ∧ fp.fFpos.toNat = p

/-- The blocks that `n > 0` bytes from byte `p` on need behind a chain of `m` blocks. -/
def blocksNeeded (m p n : Nat) : Nat := (p + n - 1) / 4080 + 1 - m

/-- What the call did with the inode: stored it at last, or found no block for its
table and left it as it was. -/
def Recorded (σ : Vol) (a : BlockId) (k : Nat) (fp' : CoFile) (τ : Vol) : Prop :=
  ((τ.img.ino fp'.fInode).inFirst = a ∧ (τ.img.ino fp'.fInode).inFsize = fp'.fFpos ∧
    ¬ (NeedsTable σ fp'.fInode ∧ σ.bm.avail = k ∧ k ≤ 1)) ∨
  ((τ.img.ino fp'.fInode).inFsize = (σ.img.ino fp'.fInode).inFsize ∧
    NeedsTable σ fp'.fInode ∧ σ.bm.avail = k ∧ k ≤ 1 ∧ τ.glob.Full)

/-- The bytes `buf` were put into the chain from byte `p` on; it grew by `k` blocks. -/
structure Extended (σ : Vol) (s : Shape) (fp : CoFile) (l : List BlockId) (p : Nat)
    (buf : List UInt8) (τ : Vol) (s' : Shape) (fp' : CoFile) (a : BlockId)
    (pre post : List BlockId) (o k : Nat) : Prop where
  seat : Seat τ s' a fp' pre post
  touch : Touch fp.fInode σ s τ s'
  inode : fp'.fInode = fp.fInode
  nospc : fp'.fNospc = false
  fpos : fp'.fFpos.toNat = fp.fFpos.toNat + buf.length
  pos : 4080 * pre.length + o = p + buf.length
  le : o ≤ 4080
  gt : buf ≠ [] → 0 < o
  count : pre.length + 1 + post.length = l.length + k
  grown : k = 0 ∨ post = []
  data : bytesTo τ.val pre fp'.fCurblock o = (chainData σ.val l).take p ++ buf
  first : l ≠ [] → a = (σ.img.ino fp.fInode).inFirst ∧ (τ.img.ino fp.fInode).inFirst = a
  size : buf = [] → (τ.img.ino fp.fInode).inFsize = (σ.img.ino fp.fInode).inFsize
  recorded : buf ≠ [] → Recorded σ a k fp' τ
  enough : buf ≠ [] → ¬ Short σ fp.fInode k
  full : σ.glob.Full → τ.glob.Full

variable {σ τ υ : Vol} {s s' s₁ : Shape} {a n : BlockId} {i : InodeId} {fp fp' fp₁ : CoFile}
  {pre post pre' post' l : List BlockId} {buf : List UInt8} {o o' k m p : Nat}

theorem Extended.needed (h : Extended σ s fp l p buf τ s' fp' a pre post o k) (hb : buf ≠ []) :
    k = blocksNeeded l.length p buf.length := by
  have hpos := h.pos
  have hle := h.le
  have hgt := h.gt hb
  have hcount := h.count
  rw [blocksNeeded]
  rcases h.grown with rfl | hpost
  · omega
  · rw [hpost, List.length_nil] at hcount
    omega

theorem bytesTo_eq_take (val : BlockId → Block) (pre post : List BlockId) (c : BlockId)
    (ho : o ≤ 4080) : bytesTo val pre c o =
      (chainData val (pre ++ c :: post)).take (4080 * pre.length + o) := by
  rw [chainData_append, chainData_cons, List.take_append, chainData_length,
    List.take_of_length_le (by rw [chainData_length]; omega),
    show 4080 * pre.length + o - 4080 * pre.length = o by omega, List.take_append_of_le_length
      (by rw [Block.fbData_length]; exact ho)]
  rfl

/-- The position stays far below 32 bits. -/
theorem Seat.fpos (h : Seat τ s a fp' pre post) (hq : fp.fFpos.toNat ≤ p + 4080)
    (hpos : 4080 * pre.length + o = p + m) (ho : o ≤ 4080) :
    fp.fFpos.toNat + m < 2 ^ 32 := by
  have hlen := chain_length_lt h.cursor.chain
  rw [List.length_append, List.length_cons] at hlen
  omega

/-- Where a handle at the end of its file starts to write, the file owning its blocks. -/
theorem AtEnd.seat_of (h : Inv σ s) (hown : ∀ b, s.own b = some (.file fp.fInode) ↔ b ∈ l)
    (he : AtEnd σ s fp l) (hl : l = pre ++ fp.fCurblock :: post)
    (hload : fp.fFblock = σ.val fp.fCurblock) :
    Seat σ s (σ.img.ino fp.fInode).inFirst fp pre post := by
  have hcur : Cursor σ.val (σ.img.ino fp.fInode).inFirst fp pre post :=
    ⟨hl ▸ he.chain, hload⟩
  have hmem : s.own fp.fCurblock = some (.file fp.fInode) := by
    rw [hown, hl]
    simp
  refine ⟨h, ⟨he.magic, he.live, he.file, Or.inr hmem, ?_⟩, hcur, fun b => by rw [hown, hl]⟩
  rw [hload]
  exact (h.owned.ownFile _ _ hmem).2.2

/-- The blocks of a file at whose end a handle is are those of its chain. -/
theorem AtEnd.own (h : Mounted σ s) (he : AtEnd σ s fp l) (b : BlockId) :
    s.own b = some (.file fp.fInode) ↔ b ∈ l := by
  obtain ⟨l', hl', hown⟩ := h.exact.chain _ he.live he.file
  obtain rfl := hl'.unique he.chain
  exact hown b

theorem bytesTo_congr {val val' : BlockId → Block} {c : BlockId}
    (h : ∀ b ∈ pre ++ c :: post, val' b = val b) : bytesTo val' pre c o = bytesTo val pre c o := by
  rw [bytesTo, bytesTo, h c (by simp), chainData_congr fun b hb => by rw [h b (by simp [hb])]]

/-- What a write spent decides whether a block is left for the inode table. -/
theorem Spent.starves (h : Spent σ υ i k) : NeedsTable υ i ∧ υ.bm.avail = 0 ↔
    NeedsTable σ i ∧ σ.bm.avail = k ∧ k ≤ 1 := by
  rcases h with ⟨rfl, hn, ha⟩ | ⟨hk, hn, ha⟩ | ⟨rfl, hn, ha, hst, -⟩
  · rw [hn, ha]
    exact ⟨fun h => ⟨h.1, h.2, by omega⟩, fun h => ⟨h.1, h.2.1⟩⟩
  · constructor
    · exact fun h => absurd h.1 hn
    · rintro ⟨hns, hz, -⟩
      rw [tableCost, if_pos hns] at ha
      omega
  · exact ⟨fun _ => ⟨hn, ha, by omega⟩, fun _ => hst⟩

theorem Spent.not_short (h : Spent σ υ i k) : ¬ Short σ i k := by
  rintro ⟨hk, hlt, hone⟩
  rcases h with ⟨rfl, -, -⟩ | ⟨-, -, ha⟩ | ⟨rfl, -, ha, -⟩
  · omega
  · omega
  · have := hone rfl
    omega

/-- The last store of the inode, after `k` blocks were taken. -/
theorem Sized.recorded (h : Sized υ s₁ fp' τ s') (hs : Spent σ υ fp'.fInode k)
    (hnum : (υ.img.ino fp'.fInode).inInode = fp'.fInode)
    (hsize : (υ.img.ino fp'.fInode).inFsize = (σ.img.ino fp'.fInode).inFsize)
    (hlt : (σ.img.ino fp'.fInode).inFsize < fp'.fFpos)
    (hfirst : (υ.img.ino fp'.fInode).inFirst = a) : Recorded σ a k fp' τ := by
  rcases h.size with ⟨hle, -⟩ | ⟨-, hst⟩
  · rw [hsize] at hle
    exact absurd hlt (UInt32.not_lt.mpr hle)
  · have hyi : ({ υ.img.ino fp'.fInode with inFsize := fp'.fFpos } : Inode).inInode =
        fp'.fInode := hnum
    rw [Stores, hyi] at hst
    rcases hst with ⟨hino, hnt, hav⟩ | ⟨hino, hn, hz, -, hf⟩
    · refine Or.inl ⟨by rw [hino]; exact hfirst, by rw [hino], ?_⟩
      rw [← hs.starves]
      rintro ⟨hn, hz⟩
      rw [tableCost, if_pos hn] at hav
      omega
    · obtain ⟨h1, h2, h3⟩ := hs.starves.mp ⟨hn, hz⟩
      exact Or.inr ⟨by rw [hino, hsize], h1, h2, h3, hf⟩

/-- The whole call on a file that has blocks. -/
theorem Filled.extended (h : Filled σ s a fp pre post o buf υ s₁ fp' pre' post' o')
    (hz : Sized υ s₁ fp' τ s') (heof : fp.fFpos = (σ.img.ino fp.fInode).inFsize)
    (ha : a = (σ.img.ino fp.fInode).inFirst) (hl : l = pre ++ fp.fCurblock :: post)
    (hp : p = 4080 * pre.length + o) (hq : fp.fFpos.toNat ≤ p + 4080) (ho : o ≤ 4080)
    (ho' : o' ≤ 4080) (hgt : buf ≠ [] → 0 < o') (hn : fp'.fNospc = false) :
    ∃ k, Extended σ s fp l p buf τ s' fp' a pre' post' o' k := by
  obtain ⟨k, hcount, hgrown, hsp⟩ := h.grown
  have hseat := hz.seat h.seat
  have hpos := h.pos
  have hbound := hseat.fpos (m := buf.length) hq (by rw [hpos, hp]) ho'
  have hfpos : fp'.fFpos.toNat = fp.fFpos.toNat + buf.length := by
    rw [h.fpos]
    exact toNat_add_ofNat hbound
  have htouch := hz.touch
  have hin := h.inode
  rw [hin] at htouch
  refine ⟨k, hseat, h.touch.trans htouch, hin, hn, hfpos,
    by rw [hpos, hp], ho', hgt, ?_, hgrown, ?_,
    ?_, ?_, ?_, fun _ => hsp.not_short, fun hf => hz.full (h.full hf)⟩
  · rw [hl, List.length_append, List.length_cons]
    omega
  · rw [hl, hp, ← bytesTo_eq_take _ _ _ _ ho, ← h.data]
    exact bytesTo_congr fun b hb => hz.val b ((h.seat.blocks b).mpr hb)
  · intro _
    refine ⟨ha, ?_⟩
    rw [← hin, hz.first h.seat, hin, h.first, ha]
  · rintro rfl
    have hle : fp'.fFpos ≤ (υ.img.ino fp'.fInode).inFsize := by
      rw [hin, h.size, ← heof, UInt32.le_iff_toNat_le, hfpos]
      exact Nat.le_refl _
    rcases hz.size with ⟨-, hτ⟩ | ⟨hlt, -⟩
    · rw [hτ, h.size]
    · exact absurd hlt (UInt32.not_lt.mpr hle)
  · intro hb
    have hlen := List.length_pos_of_ne_nil hb
    refine hz.recorded (by rw [hin]; exact hsp) (h.seat.inv.tree.inum _ h.seat.handle.live).2
      (by rw [hin]; exact h.size) ?_ (by rw [hin, h.first, ha])
    rw [hin, ← heof, UInt32.lt_iff_toNat_lt, hfpos]
    omega

/-- The first block of a file and the store of its inode are spent too. -/
theorem Stores.spent {y : Inode} (h : Stores σ 1 y υ) (hy : y.inInode = i) : Spent σ υ i 1 := by
  rw [Stores, hy] at h
  rcases h with ⟨-, hn, ha⟩ | ⟨-, hn, ha, hst, hf⟩
  · exact Or.inr (Or.inl ⟨Nat.one_pos, hn, ha⟩)
  · exact Or.inr (Or.inr ⟨rfl, hn, ha, hst, hf⟩)

/-- A call on an empty file whose first block was taken on the way. -/
theorem Filled.extended_first (h : Filled υ s₁ n fp₁ [] [] 0 buf τ s' fp' pre' post' o')
    (hst : Stores σ 1 { σ.img.ino i with inFirst := n, inLast := n } υ)
    (hnum : (σ.img.ino i).inInode = i) (ht : Touch i σ s υ s₁) (hfull : σ.glob.Full → υ.glob.Full)
    {ω : Vol} {s'' : Shape} (hz : Sized τ s' fp' ω s'') (hfp : fp₁.fInode = i)
    (hfi : fp.fInode = i) (h0 : fp₁.fFpos = 0) (hf0 : fp.fFpos = 0)
    (hs0 : (σ.img.ino i).inFsize = 0) (ho' : o' ≤ 4080) (hgt : buf ≠ [] → 0 < o')
    (hn : fp'.fNospc = false) :
    ∃ k, Extended σ s fp [] 0 buf ω s'' fp' n pre' post' o' k := by
  obtain ⟨k, hcount, hgrown, hsp⟩ := h.grown
  have hseat := hz.seat h.seat
  have hpos := h.pos
  have hin := h.inode
  have htouch := h.touch
  have hsize := h.size
  have hfirst := h.first
  have htouch' := hz.touch
  rw [hfp] at hin hsp htouch hsize hfirst
  rw [hin] at htouch'
  have hbound := hseat.fpos (p := 0) (m := buf.length)
    (show fp₁.fFpos.toNat ≤ 0 + 4080 by rw [h0]; decide) (by rw [hpos]; simp) ho'
  have hfpos : fp'.fFpos.toNat = buf.length := by
    rw [h.fpos, toNat_add_ofNat hbound, h0]
    exact Nat.zero_add _
  have hyi : ({ σ.img.ino i with inFirst := n, inLast := n } : Inode).inInode = i := hnum
  have hall := (hst.spent hyi).trans hsp h.full
  rw [Stores, hyi] at hst
  have hsizeτ : (τ.img.ino i).inFsize = (σ.img.ino i).inFsize := by
    rw [hsize]
    rcases hst with ⟨hino, -⟩ | ⟨hino, -⟩ <;> rw [hino]
  refine ⟨1 + k, hseat, ?_,
    by rw [hin, hfi], hn, by rw [hfpos, hf0]; simp, by rw [hpos]; simp, ho', hgt,
    ?_, Or.inr h.post_nil, ?_, fun hl => absurd rfl hl, ?_, ?_, ?_,
    fun hf => hz.full (h.full (hfull hf))⟩
  · rw [hfi]
    exact (ht.trans htouch).trans htouch'
  · simp only [List.length_nil] at hcount ⊢
    omega
  · rw [chainData_nil, List.take_nil, List.nil_append,
      bytesTo_congr fun b hb => hz.val b ((h.seat.blocks b).mpr hb), h.data]
    simp [bytesTo]
  · rintro rfl
    have hle : fp'.fFpos ≤ (τ.img.ino fp'.fInode).inFsize := by
      rw [hin, UInt32.le_iff_toNat_le, hfpos]
      exact Nat.zero_le _
    rw [hfi]
    rcases hz.size with ⟨-, hω⟩ | ⟨hlt, -⟩
    · rw [hω, hsizeτ]
    · exact absurd hlt (UInt32.not_lt.mpr hle)
  · intro hb
    have hlen := List.length_pos_of_ne_nil hb
    have hlt : (τ.img.ino i).inFsize < fp'.fFpos := by
      rw [hsizeτ, hs0, UInt32.lt_iff_toNat_lt, hfpos]
      exact hlen
    rcases hst with ⟨hino, -⟩ | ⟨-, -, -, hstarved, -⟩
    · refine hz.recorded (by rw [hin]; exact hall) (h.seat.inv.tree.inum _ h.seat.handle.live).2
        (by rw [hin]; exact hsizeτ) (by rw [hin, ← hsizeτ]; exact hlt) ?_
      rw [hin, hfirst, hino]
    · -- the table of the inode found no block the first time, nor does it now
      have hs := hsp.starved hstarved
      rcases hz.size with ⟨hle, -⟩ | ⟨-, hst'⟩
      · rw [hin] at hle
        exact absurd hlt (UInt32.not_lt.mpr hle)
      · have hyi' : ({ τ.img.ino fp'.fInode with inFsize := fp'.fFpos } : Inode).inInode =
            fp'.fInode := (h.seat.inv.tree.inum _ h.seat.handle.live).2
        rw [Stores, hyi', hin] at hst'
        rcases hst' with ⟨-, -, hav⟩ | ⟨hino, -, -, -, hf⟩
        · rw [tableCost, if_pos hs.1, hs.2] at hav
          omega
        · obtain ⟨h1, h2, h3⟩ := hall.starves.mp hs
          rw [Recorded, hin]
          exact Or.inr ⟨by rw [hino, hsizeτ], h1, h2, h3, hf⟩
  · intro _
    rw [hfi]
    exact hall.not_short

/-- Both outcomes of `crfs_write` at the end of a file that owns its blocks: the bytes are in
the chain, or a search for one of its blocks failed. -/
theorem AtEnd.write (h : Inv σ s) (hown : ∀ b, s.own b = some (.file fp.fInode) ↔ b ∈ l)
    (he : AtEnd σ s fp l) (buf : List UInt8) :
    ∃ p, Starts fp l p ∧
      ((∃ (fp' : CoFile) (τ : Vol) (s' : Shape) (a : BlockId) (pre post : List BlockId) (o k : Nat),
        (crfsWrite fp buf).eval σ = ((.ok buf.length, fp'), τ) ∧
        Extended σ s fp l p buf τ s' fp' a pre post o k) ∨
      (∃ (fp' : CoFile) (τ : Vol) (e : Errno), (crfsWrite fp buf).eval σ = ((.error e, fp'), τ) ∧
        τ.glob.Full ∧ (buf ≠ [] → Short σ fp.fInode (blocksNeeded l.length p buf.length)))) := by
  have hnum := (h.tree.inum _ he.live).2
  rcases he.place with ⟨rfl, hc, hnx, h0⟩ | ⟨pre, post, hl, hload, hat, hfull⟩
  · -- no block yet
    refine ⟨0, Or.inr ⟨fun hso => hso.1 rfl, by rw [h0]; rfl⟩, ?_⟩
    have hempty : ∀ b, s.own b ≠ some (.file fp.fInode) := by
      intro b hb
      exact absurd ((hown b).mp hb) List.not_mem_nil
    have hh : Handle σ s fp := ⟨he.magic, he.live, he.file, Or.inl hc, Or.inl hnx⟩
    rcases h.startChain hh hc hempty with ⟨he', hz⟩ | ⟨n, υ₁, s₁, he', hseat, ht, -, -, hf, hst⟩
    · refine Or.inr ⟨_, _, _, crfsWrite_refused he.magic (Or.inl hc) he' buf,
        Or.inl rfl, fun hb => ?_⟩
      have hlen := List.length_pos_of_ne_nil hb
      refine ⟨by rw [blocksNeeded]; simp, ?_, fun _ => hz⟩
      rw [hz, blocksNeeded, List.length_nil]
      omega
    · rw [crfsWrite_append he.magic (Or.inl hc) he']
      have ho : (appended fp n).fFpos.toNat % 4080 = 0 := by
        rw [show (appended fp n).fFpos = fp.fFpos from rfl, h0]
        rfl
      rcases writeData_outcome hseat ho buf with
        ⟨fp', υ, τ, s₂, s', pre, post, o', hw, hfill, ho', hgt, hsz⟩ | ⟨fp', τ, e, hw, hfl, hshort⟩
      · obtain ⟨k, hext⟩ := hfill.extended_first hst hnum ht hf hsz rfl rfl h0 h0
          (by rw [← he.eof, h0]) ho' hgt (hfill.nospc rfl)
        exact Or.inl ⟨fp', τ, s', n, pre, post, o', k, hw, hext⟩
      · refine Or.inr ⟨fp', τ, e, hw, hfl, fun hb => ?_⟩
        have hlen := List.length_pos_of_ne_nil hb
        have hs := (hst.spent hnum).short hshort
        rwa [List.length_nil, Nat.sub_zero, Nat.zero_add, Nat.add_comm,
          show (buf.length - 1) / 4080 + 1 = blocksNeeded 0 0 buf.length by
            rw [blocksNeeded]; simp] at hs
  · have hseat := he.seat_of h hown hl hload
    have hlow := hat.lower
    have hlen : l.length = pre.length + 1 + post.length := by
      rw [hl, List.length_append, List.length_cons]
      omega
    have hne : l ≠ [] := by
      rw [hl]
      simp
    cases hn : fp.fNospc with
    | true =>
      -- the block that was missing is appended first
      have hpos := hfull hn
      obtain rfl : post = [] := by
        rcases hat.upper with hup | ⟨-, hp⟩
        · omega
        · exact hp
      have hnot : ¬ StartsOver fp l := by
        intro hso
        rw [hso.2.1] at hn
        cases hn
      refine ⟨fp.fFpos.toNat, Or.inr ⟨hnot, rfl⟩, ?_⟩
      rcases hseat.append with ⟨he', hz⟩ | ⟨n, υ₁, s₁, he', hfill₁⟩
      · refine Or.inr ⟨_, _, _, crfsWrite_refused he.magic (Or.inr hn) he' buf, Or.inl rfl,
          fun hb => ?_⟩
        have hb' := List.length_pos_of_ne_nil hb
        rw [List.length_nil] at hlen
        refine ⟨by rw [blocksNeeded]; omega, ?_, fun _ => hz⟩
        rw [hz, blocksNeeded]
        omega
      · rw [crfsWrite_append he.magic (Or.inr hn) he']
        have ho : (appended fp n).fFpos.toNat % 4080 = 0 := by
          rw [show (appended fp n).fFpos = fp.fFpos from rfl, hpos]
          exact Nat.mul_mod_right _ _
        rcases writeData_outcome hfill₁.seat ho buf with
          ⟨fp', υ, τ, s₂, s', pre', post', o', hw, hfill, ho', hgt, hsz⟩ |
            ⟨fp', τ, e, hw, hfl, hshort⟩
        · obtain ⟨k, hext⟩ := (hfill₁.trans hfill).extended (p := fp.fFpos.toNat) hsz he.eof rfl hl
            (by rw [hpos]; omega) (by omega) (Nat.le_refl _) ho' hgt (hfill.nospc rfl)
          exact Or.inl ⟨fp', τ, s', _, pre', post', o', k, hw, hext⟩
        · refine Or.inr ⟨fp', τ, e, hw, hfl, fun hb => ?_⟩
          have hb' := List.length_pos_of_ne_nil hb
          obtain ⟨k, hk, -, hsp⟩ := hfill₁.grown
          simp only [List.length_append, List.length_singleton, List.length_nil] at hk hlen hshort
          have hs := hsp.short hshort
          rwa [show k + ((0 + buf.length - 1) / 4080 - 0) =
            blocksNeeded l.length fp.fFpos.toNat buf.length by rw [blocksNeeded]; omega] at hs
    | false =>
      refine ⟨4080 * pre.length + fp.fFpos.toNat % 4080, ?_, ?_⟩
      · rcases hat.upper with hup | ⟨heq, rfl⟩
        · exact Or.inr ⟨fun hso => by have := hso.2.2; omega, by omega⟩
        · rw [List.length_nil] at hlen
          exact Or.inl ⟨⟨hne, hn, by omega⟩, by omega⟩
      · have hcur := hseat.cursor.ne_zero
        rw [crfsWrite_here he.magic hcur hn]
        rcases writeData_outcome hseat rfl buf with
          ⟨fp', υ, τ, s₂, s', pre', post', o', hw, hfill, ho', hgt, hsz⟩ |
            ⟨fp', τ, e, hw, hfl, hshort⟩
        · obtain ⟨k, hext⟩ := hfill.extended hsz he.eof rfl hl rfl
            (by rcases hat.upper with hup | ⟨heq, -⟩ <;> omega) (by omega) ho' hgt (hfill.nospc hn)
          exact Or.inl ⟨fp', τ, s', _, pre', post', o', k, hw, hext⟩
        · refine Or.inr ⟨fp', τ, e, hw, hfl, fun hb => ?_⟩
          have hb' := List.length_pos_of_ne_nil hb
          rwa [show (fp.fFpos.toNat % 4080 + buf.length - 1) / 4080 - post.length =
            blocksNeeded l.length (4080 * pre.length + fp.fFpos.toNat % 4080) buf.length by
              rw [blocksNeeded]; omega] at hshort

/-- Both outcomes of `crfs_write` at the end of a file: the bytes are in the chain, or a
search for one of its blocks failed. -/
theorem crfsWrite_outcome (h : Mounted σ s) (he : AtEnd σ s fp l) (buf : List UInt8) :
    ∃ p, Starts fp l p ∧
      ((∃ (fp' : CoFile) (τ : Vol) (s' : Shape) (a : BlockId) (pre post : List BlockId) (o k : Nat),
        (crfsWrite fp buf).eval σ = ((.ok buf.length, fp'), τ) ∧
        Extended σ s fp l p buf τ s' fp' a pre post o k) ∨
      (∃ (fp' : CoFile) (τ : Vol) (e : Errno), (crfsWrite fp buf).eval σ = ((.error e, fp'), τ) ∧
        τ.glob.Full ∧ (buf ≠ [] → Short σ fp.fInode (blocksNeeded l.length p buf.length)))) :=
  he.write h.inv (he.own h) buf

/-! ### Reading back -/

theorem openHandle_cursor {b : BlockId} (h : IsChain σ.val (σ.img.ino i).inFirst (b :: l)) :
    (openHandle σ i).fCurblock = b ∧ Cursor σ.val (σ.img.ino i).inFirst (openHandle σ i) [] l := by
  have hcur : (openHandle σ i).fCurblock = b := h.1
  have h0 := h.2.1
  refine ⟨hcur, ?_, ?_⟩
  · rw [List.nil_append, hcur]
    exact h
  · change (if (σ.img.ino i).inFirst ≠ 0 then _ else _) = σ.val (σ.img.ino i).inFirst
    rw [if_pos h0]

/-- The first bytes of a file with enough blocks for its size. -/
theorem crfsRead_start (h : IsChain σ.val (σ.img.ino i).inFirst l)
    (hfit : (σ.img.ino i).inFsize.toNat ≤ 4080 * l.length)
    (hm : m ≤ (σ.img.ino i).inFsize.toNat) :
    ∃ fp' : CoFile, (crfsRead (openHandle σ i) m).eval σ =
      ((.ok m, (chainData σ.val l).take m, fp'), σ) := by
  cases l with
  | nil =>
    rw [List.length_nil] at hfit
    obtain rfl : m = 0 := by omega
    refine ⟨openHandle σ i, ?_⟩
    rw [crfsRead_end rfl (by
      rw [UInt32.le_iff_toNat_le]
      exact hfit.trans (Nat.zero_le _))]
    rfl
  | cons b l =>
    obtain ⟨hcur, hc⟩ := openHandle_cursor h
    have hlen := chain_length_lt h
    rw [List.length_cons] at hfit hlen
    have hpos : (openHandle σ i).fFpos.toNat = 0 := rfl
    obtain ⟨fp', -, -, he, -⟩ := crfsRead_cursor
      hc ⟨Nat.zero_le _, Or.inl (by rw [hpos]; exact Nat.mul_pos (by decide) (Nat.succ_pos _))⟩
      rfl (show (σ.img.ino i).inFsize.toNat = _ from rfl) (by simpa using hfit) (by simp; omega)
      (Nat.zero_le _)
      (show (openHandle σ i).fFpos.toNat + m < 2 ^ 32 by rw [hpos]; omega)
    rw [hpos, Nat.sub_zero, Nat.min_eq_left hm, List.nil_append, hcur, List.drop_zero] at he
    exact ⟨fp', he⟩

/-- A request for more than the chain holds runs into its end. -/
theorem readBlocks_short (fuel : Nat) : ∀ (r : ReadState) (pre post : List BlockId),
    Cursor σ.val a r.fp pre post → r.bad = false → r.size ≤ fuel →
    4080 * (post.length + 1) < r.size →
    ∃ r', (readBlocks fuel r).eval σ = (r', σ) ∧ r'.bad = true := by
  induction fuel with
  | zero =>
    intro r pre post _ _ hf hs
    omega
  | succ fuel ih =>
    intro r pre post hc hb hf hs
    have hge : r.bad = false ∧ r.size ≥ crfsFblockData := by
      simp only [crfsFblockData]
      exact ⟨hb, by omega⟩
    unfold readBlocks readStep
    rw [if_pos hge, Prog.eval_bind]
    simp only [crfsFblockData, Nat.sub_zero, Prog.eval_bind, nextFblock_eval]
    cases post with
    | nil =>
      rw [if_neg (not_not.mpr hc.fbNext_nil)]
      rw [List.length_nil] at hs
      simp only [Prog.eval_pure]
      have hbad : decide (r.size - 4080 ≠ 0) = true := decide_eq_true (by omega)
      rw [hbad]
      cases fuel with
      | zero => exact ⟨_, rfl, rfl⟩
      | succ fuel => exact ⟨_, rfl, rfl⟩
    | cons b post =>
      obtain ⟨hn, h0⟩ := hc.fbNext_cons
      rw [if_pos (by rw [hn]; exact h0)]
      rw [List.length_cons] at hs
      have hadv := hc.advance
      rw [← hn] at hadv
      exact ih _ _ post ⟨by rw [hn] at hadv ⊢; exact hadv.chain, rfl⟩ rfl (by simp; omega)
        (by simp; omega)

theorem crfsRead_short (h : IsChain σ.val (σ.img.ino i).inFirst l) (hm : 4080 * l.length < m)
    (hsize : m ≤ (σ.img.ino i).inFsize.toNat) :
    ∃ (out : List UInt8) (fp' : CoFile),
      (crfsRead (openHandle σ i) m).eval σ = ((.ok 0, out, fp'), σ) := by
  have hlt := (σ.img.ino i).inFsize.toNat_lt
  have hpos : ¬ (openHandle σ i).fFpos ≥ (σ.img.ino i).inFsize := by
    rw [ge_iff_le, UInt32.le_iff_toNat_le]
    change ¬ _ ≤ 0
    omega
  have hclamp : ¬ ((openHandle σ i).fFpos.toNat + m) % 2 ^ 32 > (σ.img.ino i).inFsize.toNat := by
    change ¬ (0 + m) % 2 ^ 32 > _
    rw [Nat.zero_add, Nat.mod_eq_of_lt (by omega)]
    omega
  unfold crfsRead
  have hmagic : ¬ (openHandle σ i).fMagic ≠ coFileMagic := fun hne => hne rfl
  rw [if_neg hmagic, Prog.eval_bind, crfsLookupInode_eval]
  simp only
  rw [show (openHandle σ i).fInode = i from rfl, if_neg hpos, if_neg hclamp]
  cases l with
  | nil =>
    rw [if_pos (show (openHandle σ i).fCurblock = 0 from h)]
    exact ⟨_, _, rfl⟩
  | cons b l =>
    obtain ⟨hcur, hc⟩ := openHandle_cursor h
    rw [List.length_cons] at hm
    rw [if_neg hc.ne_zero]
    simp only [crfsFblockData, show (openHandle σ i).fFpos.toNat = 0 from rfl,
      Nat.zero_mod, Nat.sub_zero]
    rw [if_pos (by omega : m ≥ 4080), Prog.eval_bind]
    -- one round of the loop is what comes first
    obtain ⟨r', hr', hbad⟩ := readBlocks_short (m + 1) ⟨openHandle σ i, m, [], false⟩ [] l hc rfl
      (by simp) (by simpa using hm)
    unfold readBlocks at hr'
    rw [if_pos (by simp [crfsFblockData]; omega), Prog.eval_bind] at hr'
    generalize hstep : (readStep (openHandle σ i) 0 m []).eval σ = rs at hr' ⊢
    rw [Prog.eval_bind, hr', if_pos hbad]
    exact ⟨_, _, rfl⟩

end Crfs
