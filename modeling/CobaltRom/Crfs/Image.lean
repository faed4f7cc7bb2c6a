import CobaltRom.Lib.SlotTree
import CobaltRom.Crfs.Mount

/-! What the blocks of a volume mean: inodes, directories, file blocks and the
owner of every block. `Struct` says that an image is well formed. -/
namespace Crfs
open WriteBack SlotTree

/-- An image as the code reads it: inodes through the table vector, and blocks. -/
structure Img where
  ino : InodeId → Inode
  val : BlockId → Block
  vt : Nat → BlockId
  root : InodeId

def imgOf (val : BlockId → Block) (sb : Block) : Img where
  ino i := (val (sb.sbVtable (i.toNat / 256))).itInode (i.toNat % 256)
  val := val
  vt := sb.sbVtable
  root := sb.sbRoot

def Vol.img (σ : Vol) : Img := imgOf σ.val σ.glob.superBlock

theorem Vol.img_val (σ : Vol) : σ.img.val = σ.val := rfl

/-- Who a block belongs to. A block that was handed out and never linked is held
by nobody in particular. -/
inductive Owner where
  | itable (k : Nat)
  | dir (i : InodeId)
  | file (i : InodeId)
  | held
  deriving DecidableEq

/-- The inodes in the tree, the inode numbers handed out and the owners of the
blocks. -/
structure Shape where
  live : InodeId → Prop
  num : InodeId → Prop
  own : BlockId → Option Owner

namespace Img

variable (I : Img)

def isDir (i : InodeId) : Bool := (I.ino i).isDir

/-- Entry `k` of directory `i`. -/
def ent (i : InodeId) (k : Nat) : Dirent := (I.val (I.ino i).inFirst).dirent k

/-- The child in slot `k`; "." and ".." are not children. -/
def kids (i : InodeId) (k : Nat) : Option InodeId :=
  if I.isDir i = true ∧ 2 ≤ k ∧ k < 64 ∧ (I.ent i k).deInode ≠ 0 then some (I.ent i k).deInode
  else none

def setIno (i : InodeId) (x : Inode) : Img := { I with ino := Function.update I.ino i x }
def setVal (b : BlockId) (d : Block) : Img := { I with val := Function.update I.val b d }

variable {I}

theorem kids_eq_some {i x : InodeId} {k : Nat} : I.kids i k = some x ↔
    I.isDir i = true ∧ 2 ≤ k ∧ k < 64 ∧ x ≠ 0 ∧ (I.ent i k).deInode = x := by
  unfold kids
  split
  · rename_i h
    simp only [Option.some.injEq]
    constructor
    · rintro rfl
      exact ⟨h.1, h.2.1, h.2.2.1, h.2.2.2, rfl⟩
    · exact fun hx => hx.2.2.2.2
  · rename_i h
    simp only [reduceCtorEq, false_iff]
    rintro ⟨h1, h2, h3, h4, rfl⟩
    exact h ⟨h1, h2, h3, h4⟩

end Img

/-- A directory block: the two dot entries, free slots without a name, and
pairwise distinct names. -/
structure DirOk (ent : Nat → Dirent) (i : InodeId) : Prop where
  dot : (ent 0).deInode = i ∧ (ent 0).name = [46]
  dotdot : (ent 1).deInode ≠ 0 ∧ (ent 1).name = [46, 46]
  dead : ∀ k, k < 64 → (ent k).deInode = 0 → (ent k).name = []
  distinct : ∀ j k, j < 64 → k < 64 → (ent j).deInode ≠ 0 → (ent k).deInode ≠ 0 →
    (ent j).name = (ent k).name → j = k

/-- The directory tree of an image: the inodes in use form a tree under the
root, and every directory has its dot entries. -/
structure Treed (I : Img) (live : InodeId → Prop) : Prop where
  tree : IsTree I.kids I.root live
  rootDir : I.isDir I.root = true
  inum : ∀ i, live i → i ≠ 0 ∧ (I.ino i).inInode = i
  dirOk : ∀ i, live i → I.isDir i = true → DirOk (I.ent i) i
  upRoot : (I.ent I.root 1).deInode = I.root
  upKid : ∀ d k i, live d → I.kids d k = some i → I.isDir i = true → (I.ent i 1).deInode = d

/-- No entry in use has an empty name. -/
def Named (I : Img) (live : InodeId → Prop) : Prop :=
  ∀ i, live i → I.isDir i = true → ∀ k, k < 64 → (I.ent i k).deInode ≠ 0 → (I.ent i k).name ≠ []

/-- The blocks of the inode tables are those the table vector names. -/
def Tables (vt : Nat → BlockId) (own : BlockId → Option Owner) : Prop :=
  ∀ k b, own b = some (.itable k) ↔ k < 256 ∧ vt k = b ∧ b ≠ 0

/-- The owners of the blocks. A block has at most one because `own` is a
function; the chain of a file stays within the blocks of that file. -/
structure Owned (I : Img) (s : Shape) : Prop where
  table : ∀ i, s.live i → I.vt (i.toNat / 256) ≠ 0
  ownTable : Tables I.vt s.own
  ownDir : ∀ i b, s.own b = some (.dir i) ↔
    s.live i ∧ I.isDir i = true ∧ (I.ino i).inFirst = b
  ownFile : ∀ i b, s.own b = some (.file i) → s.live i ∧ I.isDir i = false ∧
    ((I.val b).fbNext = 0 ∨ s.own (I.val b).fbNext = some (.file i))
  first : ∀ i, s.live i → I.isDir i = false →
    (I.ino i).inFirst = 0 ∨ s.own (I.ino i).inFirst = some (.file i)
  ownZero : s.own 0 = none
  ownSlot : s.own 16 = none

/-- A well-formed image. -/
structure Struct (I : Img) (s : Shape) : Prop extends Treed I s.live, Owned I s

/-- `x` can stand in the tree for `y`: a directory keeps its block. -/
def Inode.Alike (x y : Inode) : Prop :=
  x.inInode = y.inInode ∧ x.isDir = y.isDir ∧ (y.isDir = true → x.inFirst = y.inFirst)

section
variable {I I' : Img} {s s' : Shape} {live : InodeId → Prop} {i d x : InodeId} {b n : BlockId}
  {k : Nat}

/-! ### The tree -/

theorem Treed.live_root (h : Treed I live) : live I.root := h.tree.root_live

theorem Treed.kids_congr (hdir : I'.isDir i = I.isDir i)
    (hent : I.isDir i = true → I'.ent i = I.ent i) : I'.kids i = I.kids i := by
  funext k
  unfold Img.kids
  rw [hdir]
  by_cases hd : I.isDir i = true
  · rw [hent hd]
  · simp [hd]

/-- The tree is a matter of the entries of the live directories only. -/
theorem Treed.congr (h : Treed I live) (hroot : I'.root = I.root)
    (hnum : ∀ i, live i → (I'.ino i).inInode = i) (hdir : ∀ i, live i → I'.isDir i = I.isDir i)
    (hent : ∀ i, live i → I.isDir i = true → I'.ent i = I.ent i) : Treed I' live := by
  have hkids : ∀ i, live i → I'.kids i = I.kids i := fun i hi =>
    Treed.kids_congr (hdir i hi) (hent i hi)
  refine ⟨?_, ?_, fun i hi => ⟨(h.inum i hi).1, hnum i hi⟩, ?_, ?_, ?_⟩
  · rw [hroot]
    exact h.tree.congr hkids
  · rw [hroot, hdir _ h.live_root]
    exact h.rootDir
  · intro i hi hd
    rw [hdir i hi] at hd
    rw [hent i hi hd]
    exact h.dirOk i hi hd
  · rw [hroot, hent _ h.live_root h.rootDir]
    exact h.upRoot
  · intro d k i hd hk hi
    rw [hkids d hd] at hk
    have hil := h.tree.kid_live d k i hd hk
    rw [hdir i hil] at hi
    rw [hent i hil hi]
    exact h.upKid d k i hd hk hi

/-- Writing a block that is not a directory. -/
theorem Treed.setVal (h : Treed I live)
    (hb : ∀ i, live i → I.isDir i = true → (I.ino i).inFirst ≠ b) (c : Block) :
    Treed (I.setVal b c) live := by
  refine h.congr rfl (fun i hi => (h.inum i hi).2) (fun _ _ => rfl) ?_
  intro i hi hd
  funext k
  change ((Function.update I.val b c) (I.ino i).inFirst).dirent k = _
  rw [Function.update_of_ne (hb i hi hd)]
  rfl

/-- Rewriting an inode in place, or one that is not in use. -/
theorem Treed.setIno (h : Treed I live) {y : Inode} (hy : live i → y.Alike (I.ino i)) :
    Treed (I.setIno i y) live := by
  have hal : ∀ j, live j → ((I.setIno i y).ino j).Alike (I.ino j) := by
    intro j hj
    by_cases he : j = i
    · subst he
      simpa [Img.setIno] using hy hj
    · simp [Img.setIno, Function.update_of_ne he, Inode.Alike]
  refine h.congr rfl ?_ ?_ ?_
  · intro j hj
    exact (hal j hj).1.trans (h.inum j hj).2
  · intro j hj
    exact (hal j hj).2.1
  · intro j hj hd
    funext k
    rw [Img.ent, Img.ent, (hal j hj).2.2 hd]
    rfl

/-! ### Owners -/

theorem Owned.dirBlock (h : Owned I s) (hi : s.live i) (hd : I.isDir i = true) :
    s.own (I.ino i).inFirst = some (.dir i) := (h.ownDir i _).mpr ⟨hi, hd, rfl⟩

theorem Owned.ne_zero (h : Owned I s) (hb : s.own b ≠ none) : b ≠ 0 := by
  rintro rfl
  exact hb h.ownZero

theorem Owned.ne_slot (h : Owned I s) (hb : s.own b ≠ none) : b ≠ 16 := by
  rintro rfl
  exact hb h.ownSlot

theorem Owned.dirBlock_ne_zero (h : Owned I s) (hi : s.live i) (hd : I.isDir i = true) :
    (I.ino i).inFirst ≠ 0 := h.ne_zero (by rw [h.dirBlock hi hd]; simp)

/-- Distinct directories have distinct blocks. -/
theorem Owned.dirBlock_inj (h : Owned I s) {j : InodeId} (hi : s.live i)
    (hd : I.isDir i = true) (hj : s.live j) (hdj : I.isDir j = true)
    (he : (I.ino i).inFirst = (I.ino j).inFirst) : i = j := by
  have h1 := h.dirBlock hi hd
  have h2 := h.dirBlock hj hdj
  rw [he, h2] at h1
  cases h1
  rfl

/-- Only the forward links of file blocks matter. -/
theorem Owned.setVal (h : Owned I s) {c : Block}
    (hc : ∀ i, s.own b = some (.file i) → c.fbNext = 0 ∨ s.own c.fbNext = some (.file i)) :
    Owned (I.setVal b c) s := by
  refine ⟨h.table, h.ownTable, h.ownDir, ?_, h.first, h.ownZero, h.ownSlot⟩
  intro i e he
  obtain ⟨hi, hd, hn⟩ := h.ownFile i e he
  refine ⟨hi, hd, ?_⟩
  by_cases heb : e = b
  · subst heb
    simpa [Img.setVal] using hc i he
  · simpa [Img.setVal, Function.update_of_ne heb] using hn

theorem Owned.setIno (h : Owned I s) {y : Inode} (hd : s.live i → y.isDir = I.isDir i)
    (hdir : s.live i → I.isDir i = true → y.inFirst = (I.ino i).inFirst)
    (hfile : s.live i → I.isDir i = false → y.inFirst = 0 ∨ s.own y.inFirst = some (.file i)) :
    Owned (I.setIno i y) s := by
  have hisDir : ∀ j, s.live j → (I.setIno i y).isDir j = I.isDir j := by
    intro j hj
    by_cases he : j = i
    · subst he
      simpa [Img.setIno, Img.isDir] using hd hj
    · simp [Img.setIno, Img.isDir, Function.update_of_ne he]
  have hfirst : ∀ j, s.live j → I.isDir j = true →
      ((I.setIno i y).ino j).inFirst = (I.ino j).inFirst := by
    intro j hj hdj
    by_cases he : j = i
    · subst he
      simpa [Img.setIno] using hdir hj hdj
    · simp [Img.setIno, Function.update_of_ne he]
  refine ⟨h.table, h.ownTable, ?_, ?_, ?_, h.ownZero, h.ownSlot⟩
  · intro j c
    rw [h.ownDir]
    constructor
    · rintro ⟨hj, hdj, hc⟩
      exact ⟨hj, (hisDir j hj).trans hdj, (hfirst j hj hdj).trans hc⟩
    · rintro ⟨hj, hdj, hc⟩
      rw [hisDir j hj] at hdj
      exact ⟨hj, hdj, (hfirst j hj hdj).symm.trans hc⟩
  · intro j c hc
    obtain ⟨hj, hdj, hn⟩ := h.ownFile j c hc
    exact ⟨hj, (hisDir j hj).trans hdj, hn⟩
  · intro j hj hdj
    rw [hisDir j hj] at hdj
    by_cases he : j = i
    · subst he
      simpa [Img.setIno] using hfile hj hdj
    · simpa [Img.setIno, Function.update_of_ne he] using h.first j hj hdj

end

/-- Give block `b` to `o`. -/
def Shape.give (s : Shape) (b : BlockId) (o : Owner) : Shape :=
  { s with own := Function.update s.own b (some o) }

/-- Take block `b` from its owner. -/
def Shape.take (s : Shape) (b : BlockId) : Shape := { s with own := Function.update s.own b none }

/-- The owners after inode table `k` moved to block `nb`. -/
def retable (own : BlockId → Option Owner) (k : Nat) (nb : BlockId) : BlockId → Option Owner :=
  fun b => if b = nb then some (.itable k) else if own b = some (.itable k) then none else own b

/-- Moving a table leaves the other owners alone. -/
theorem retable_other {own : BlockId → Option Owner} {k : Nat} {nb b : BlockId} {o : Owner}
    (hnb : own nb = none ∨ own nb = some (.itable k)) (ho : ∀ j, o ≠ .itable j) :
    retable own k nb b = some o ↔ own b = some o := by
  unfold retable
  by_cases hb : b = nb
  · subst hb
    rcases hnb with hnb | hnb <;> simp [hnb, Ne.symm (ho k)]
  · rw [if_neg hb]
    by_cases hbk : own b = some (.itable k)
    · simp [hbk, Ne.symm (ho k)]
    · rw [if_neg hbk]

/-- Inode table `k` moves to block `nb`. -/
def Shape.retable (s : Shape) (k : Nat) (nb : BlockId) : Shape :=
  { s with own := Crfs.retable s.own k nb }

section
variable {I I' : Img} {s s' : Shape} {live : InodeId → Prop} {i d x : InodeId} {b n : BlockId}
  {k : Nat}

/-- A free block joins the blocks of a file. -/
theorem Owned.claim (h : Owned I s) (hn : s.own n = none) (h0 : n ≠ 0) (h16 : n ≠ 16)
    (hi : s.live i) (hd : I.isDir i = false) (hnext : (I.val n).fbNext = 0) :
    Owned I (s.give n (.file i)) := by
  have hown : ∀ b o, o ≠ .file i → ((s.give n (.file i)).own b = some o ↔ s.own b = some o) := by
    intro b o ho
    by_cases he : b = n
    · subst he
      simp [Shape.give, hn, Ne.symm ho]
    · simp [Shape.give, Function.update_of_ne he]
  have hmono : ∀ b o, s.own b = some o → (s.give n (.file i)).own b = some o := by
    intro b o hb
    have he : b ≠ n := by
      rintro rfl
      rw [hn] at hb
      cases hb
    simpa [Shape.give, Function.update_of_ne he] using hb
  refine ⟨h.table, ?_, ?_, ?_, ?_, ?_, ?_⟩
  · intro k b
    rw [hown b _ (by simp), h.ownTable]
  · intro j b
    rw [hown b _ (by simp), h.ownDir]
    rfl
  · intro j b hb
    by_cases he : b = n
    · subst he
      have hj : i = j := by simpa [Shape.give] using hb
      subst hj
      exact ⟨hi, hd, Or.inl hnext⟩
    · have hb' : s.own b = some (.file j) := by
        simpa [Shape.give, Function.update_of_ne he] using hb
      obtain ⟨h1, h2, h3⟩ := h.ownFile j b hb'
      exact ⟨h1, h2, h3.imp_right (hmono _ _)⟩
  · intro j hj hdj
    exact (h.first j hj hdj).imp_right (hmono _ _)
  · simpa [Shape.give, Function.update_of_ne (Ne.symm h0)] using h.ownZero
  · simpa [Shape.give, Function.update_of_ne (Ne.symm h16)] using h.ownSlot

/-- A directory moves to a free block. -/
theorem Owned.moveDir (h : Owned I s) (hi : s.live i) (hd : I.isDir i = true)
    (hn : s.own n = none) (h0 : n ≠ 0) (h16 : n ≠ 16) {y : Inode} (hy : y.isDir = true)
    (hf : y.inFirst = n) :
    Owned (I.setIno i y) ((s.take (I.ino i).inFirst).give n (.dir i)) := by
  have hold := h.dirBlock hi hd
  have hne : (I.ino i).inFirst ≠ n := by
    intro he
    rw [he, hn] at hold
    cases hold
  have hown : ∀ b o, o ≠ .dir i →
      (((s.take (I.ino i).inFirst).give n (.dir i)).own b = some o ↔ s.own b = some o) := by
    intro b o ho
    by_cases he : b = n
    · subst he
      simp [Shape.give, hn, Ne.symm ho]
    · by_cases hb : b = (I.ino i).inFirst
      · subst hb
        simp [Shape.give, Shape.take, Function.update_of_ne he, hold, Ne.symm ho]
      · simp [Shape.give, Shape.take, Function.update_of_ne he, Function.update_of_ne hb]
  have hisDir : ∀ j, (I.setIno i y).isDir j = I.isDir j := by
    intro j
    by_cases he : j = i
    · subst he
      simpa [Img.setIno, Img.isDir, hy] using hd.symm
    · simp [Img.setIno, Img.isDir, Function.update_of_ne he]
  refine ⟨h.table, ?_, ?_, ?_, ?_, ?_, ?_⟩
  · intro k b
    rw [hown b _ (by simp), h.ownTable]
    rfl
  · intro j b
    rw [hisDir]
    by_cases hj : j = i
    · subst hj
      simp only [Img.setIno, Function.update_self, hf]
      constructor
      · intro hb
        refine ⟨hi, hd, ?_⟩
        by_contra hbn
        by_cases hb2 : b = (I.ino j).inFirst
        · simp [Shape.give, Shape.take, hb2, Function.update_of_ne hne] at hb
        · rw [Shape.give, Shape.take] at hb
          simp only [Function.update_of_ne (Ne.symm hbn), Function.update_of_ne hb2] at hb
          exact hb2 ((h.ownDir j b).mp hb).2.2.symm
      · rintro ⟨_, _, rfl⟩
        simp [Shape.give]
    · rw [hown b _ (by simpa using hj), h.ownDir]
      simp [Img.setIno, Function.update_of_ne hj, Shape.give, Shape.take]
  · intro j b hb
    rw [hown b _ (by simp)] at hb
    rw [hisDir, hown _ _ (by simp)]
    exact h.ownFile j b hb
  · intro j hj hdj
    rw [hisDir] at hdj
    have hji : j ≠ i := by
      rintro rfl
      rw [hd] at hdj
      cases hdj
    rw [hown _ _ (by simp)]
    simpa [Img.setIno, Function.update_of_ne hji] using h.first j hj hdj
  · have hz : (0 : BlockId) ≠ (I.ino i).inFirst := Ne.symm (h.dirBlock_ne_zero hi hd)
    simpa [Shape.give, Shape.take, Function.update_of_ne (Ne.symm h0),
      Function.update_of_ne hz] using h.ownZero
  · have hz : (16 : BlockId) ≠ (I.ino i).inFirst :=
      Ne.symm (h.ne_slot (by rw [hold]; simp))
    simpa [Shape.give, Shape.take, Function.update_of_ne (Ne.symm h16),
      Function.update_of_ne hz] using h.ownSlot

/-- An inode table moves to a block that is free, or is rewritten in place. -/
theorem Owned.retable (h : Owned I s) (hk : k < 256) (h0 : n ≠ 0) (h16 : n ≠ 16)
    (hn : n = I.vt k ∨ s.own n = none) (hino : ∀ i, s.live i → I'.ino i = I.ino i)
    (hval : ∀ b, b ≠ n → I'.val b = I.val b)
    (hvt : ∀ j, I'.vt j = if j = k then n else I.vt j) : Owned I' (s.retable k n) := by
  have hnk : s.own n = none ∨ s.own n = some (.itable k) := by
    rcases hn with rfl | hn
    · exact Or.inr ((h.ownTable k _).mpr ⟨hk, rfl, h0⟩)
    · exact Or.inl hn
  have hown : ∀ b o, (∀ j, o ≠ .itable j) →
      ((s.retable k n).own b = some o ↔ s.own b = some o) :=
    fun b o ho => retable_other hnk ho
  have hisDir : ∀ j, s.live j → I'.isDir j = I.isDir j := by
    intro j hj
    rw [Img.isDir, Img.isDir, hino j hj]
  refine ⟨?_, ?_, ?_, ?_, ?_, ?_, ?_⟩
  · intro j hj
    rw [hvt]
    split
    · exact h0
    · exact h.table j hj
  · intro j b
    rw [hvt]
    simp only [Shape.retable, Crfs.retable]
    by_cases hb : b = n
    · subst hb
      rw [if_pos rfl]
      by_cases hj : j = k
      · subst hj; simp [hk, h0]
      · rw [if_neg hj]
        simp only [Option.some.injEq, Owner.itable.injEq, Ne.symm hj, false_iff, not_and]
        intro hj256 hjb _
        have hb2 := (h.ownTable j b).mpr ⟨hj256, hjb, h0⟩
        rcases hnk with hnk | hnk <;> rw [hnk] at hb2 <;> simp_all
    · rw [if_neg hb]
      by_cases hj : j = k
      · subst hj
        simp [Ne.symm hb]
      · rw [if_neg hj]
        by_cases hbk : s.own b = some (.itable k)
        · rw [if_pos hbk, ← h.ownTable, hbk]
          simp [Ne.symm hj]
        · rw [if_neg hbk, h.ownTable]
  · intro j b
    rw [hown b _ (by simp), h.ownDir]
    constructor
    · rintro ⟨hj, hd, hb⟩
      exact ⟨hj, (hisDir j hj).trans hd, by rw [hino j hj]; exact hb⟩
    · rintro ⟨hj, hd, hb⟩
      exact ⟨hj, (hisDir j hj).symm.trans hd, by rw [← hino j hj]; exact hb⟩
  · intro j b hb
    rw [hown b _ (by simp)] at hb
    obtain ⟨hj, hd, hnx⟩ := h.ownFile j b hb
    have hbn : b ≠ n := by
      rintro rfl
      rcases hnk with hnk | hnk <;> rw [hnk] at hb <;> cases hb
    rw [hval b hbn, hown _ _ (by simp)]
    exact ⟨hj, (hisDir j hj).trans hd, hnx⟩
  · intro j hj hd
    rw [hisDir j hj] at hd
    rw [hino j hj, hown _ _ (by simp)]
    exact h.first j hj hd
  · simp [Shape.retable, Crfs.retable, Ne.symm h0, h.ownZero]
  · simp [Shape.retable, Crfs.retable, Ne.symm h16, h.ownSlot]

/-- A new empty file. -/
theorem Owned.addFile (h : Owned I s) (hx : ¬ s.live x) (hd : I.isDir x = false)
    (hf : (I.ino x).inFirst = 0) (ht : I.vt (x.toNat / 256) ≠ 0) :
    Owned I { s with live := fun y => s.live y ∨ y = x } := by
  refine ⟨?_, h.ownTable, ?_, ?_, ?_, h.ownZero, h.ownSlot⟩
  · rintro i (hi | rfl)
    · exact h.table i hi
    · exact ht
  · intro i b
    rw [h.ownDir]
    constructor
    · rintro ⟨hi, hrest⟩
      exact ⟨Or.inl hi, hrest⟩
    · rintro ⟨hi | rfl, hdi, hb⟩
      · exact ⟨hi, hdi, hb⟩
      · rw [hd] at hdi
        cases hdi
  · intro i b hb
    obtain ⟨hi, hrest⟩ := h.ownFile i b hb
    exact ⟨Or.inl hi, hrest⟩
  · rintro i (hi | rfl) hdi
    · exact h.first i hi hdi
    · exact Or.inl hf

/-- A new directory in a block that was held for it. -/
theorem Owned.addDir (h : Owned I s) (hx : ¬ s.live x) (hd : I.isDir x = true)
    (hf : (I.ino x).inFirst = n) (hn : s.own n = some .held) (h0 : n ≠ 0) (h16 : n ≠ 16)
    (ht : I.vt (x.toNat / 256) ≠ 0) :
    Owned I { s.give n (.dir x) with live := fun y => s.live y ∨ y = x } := by
  have hown : ∀ b o, o ≠ .dir x → o ≠ .held →
      ((s.give n (.dir x)).own b = some o ↔ s.own b = some o) := by
    intro b o ho hh
    by_cases he : b = n
    · subst he
      simp [Shape.give, hn, Ne.symm ho, Ne.symm hh]
    · simp [Shape.give, Function.update_of_ne he]
  refine ⟨?_, ?_, ?_, ?_, ?_, ?_, ?_⟩
  · rintro i (hi | rfl)
    · exact h.table i hi
    · exact ht
  · intro k b
    rw [hown b _ (by simp) (by simp), h.ownTable]
  · intro i b
    by_cases hi : i = x
    · subst hi
      constructor
      · intro hb
        refine ⟨Or.inr rfl, hd, ?_⟩
        rw [hf]
        by_contra hbn
        simp only [Shape.give, Function.update_of_ne (Ne.symm hbn)] at hb
        exact hx ((h.ownDir i b).mp hb).1
      · rintro ⟨_, _, hb⟩
        rw [hf] at hb
        subst hb
        simp [Shape.give]
    · rw [hown b _ (by simpa using hi) (by simp), h.ownDir]
      simp [hi]
  · intro i b hb
    rw [hown b _ (by simp) (by simp)] at hb
    rw [hown _ _ (by simp) (by simp)]
    obtain ⟨hi, hrest⟩ := h.ownFile i b hb
    exact ⟨Or.inl hi, hrest⟩
  · rintro i (hi | rfl) hdi
    · rw [hown _ _ (by simp) (by simp)]
      exact h.first i hi hdi
    · rw [hd] at hdi
      cases hdi
  · simpa [Shape.give, Function.update_of_ne (Ne.symm h0)] using h.ownZero
  · simpa [Shape.give, Function.update_of_ne (Ne.symm h16)] using h.ownSlot

/-- A block is set aside. -/
theorem Owned.hold (h : Owned I s) (hn : s.own n = none) (h0 : n ≠ 0) (h16 : n ≠ 16) :
    Owned I (s.give n .held) := by
  have hown : ∀ b o, o ≠ .held → ((s.give n .held).own b = some o ↔ s.own b = some o) := by
    intro b o ho
    by_cases he : b = n
    · subst he
      simp [Shape.give, hn, Ne.symm ho]
    · simp [Shape.give, Function.update_of_ne he]
  refine ⟨h.table, ?_, ?_, ?_, ?_, ?_, ?_⟩
  · intro k b
    rw [hown b _ (by simp), h.ownTable]
  · intro i b
    rw [hown b _ (by simp), h.ownDir]
    rfl
  · intro i b hb
    rw [hown b _ (by simp)] at hb
    rw [hown _ _ (by simp)]
    exact h.ownFile i b hb
  · intro i hi hd
    rw [hown _ _ (by simp)]
    exact h.first i hi hd
  · simpa [Shape.give, Function.update_of_ne (Ne.symm h0)] using h.ownZero
  · simpa [Shape.give, Function.update_of_ne (Ne.symm h16)] using h.ownSlot

/-- The inode a block belongs to, for directory and file blocks. -/
def Owner.inode : Owner → Option InodeId
  | .itable _ => none
  | .dir i => some i
  | .file i => some i
  | .held => none

open Classical in
/-- The inodes of `gone` are dropped with their blocks, but for those `kept` that
nobody released. -/
noncomputable def Shape.drop (s : Shape) (gone : InodeId → Prop) (kept : BlockId → Prop) :
    Shape where
  live i := s.live i ∧ ¬ gone i
  num i := s.num i ∧ ¬ gone i
  own b :=
    if ∃ i, (s.own b).bind Owner.inode = some i ∧ gone i then
      if kept b then some .held else none
    else s.own b

theorem Shape.drop_own {gone : InodeId → Prop} {kept : BlockId → Prop} {o : Owner}
    (ho : o ≠ .held) : (s.drop gone kept).own b = some o ↔
      s.own b = some o ∧ ∀ i, o.inode = some i → ¬ gone i := by
  simp only [Shape.drop]
  split
  · rename_i h
    obtain ⟨i, hi, hg⟩ := h
    constructor
    · intro hb
      split at hb
      · exact absurd (Option.some.inj hb).symm ho
      · cases hb
    · rintro ⟨hb, hn⟩
      rw [hb] at hi
      exact absurd hg (hn i hi)
  · rename_i h
    constructor
    · intro hb
      refine ⟨hb, ?_⟩
      intro i hi hg
      exact h ⟨i, by rw [hb]; exact hi, hg⟩
    · exact fun hb => hb.1

theorem Owned.drop (h : Owned I s) (gone : InodeId → Prop) (kept : BlockId → Prop) :
    Owned I (s.drop gone kept) := by
  refine ⟨fun i hi => h.table i hi.1, ?_, ?_, ?_, ?_, ?_, ?_⟩
  · intro k b
    rw [Shape.drop_own (by simp), h.ownTable]
    simp [Owner.inode]
  · intro i b
    rw [Shape.drop_own (by simp), h.ownDir]
    constructor
    · rintro ⟨⟨hi, hd, hb⟩, hg⟩
      exact ⟨⟨hi, hg i rfl⟩, hd, hb⟩
    · rintro ⟨⟨hi, hg⟩, hd, hb⟩
      refine ⟨⟨hi, hd, hb⟩, ?_⟩
      intro j hj
      cases hj
      exact hg
  · intro i b hb
    rw [Shape.drop_own (by simp)] at hb
    obtain ⟨hi, hd, hn⟩ := h.ownFile i b hb.1
    refine ⟨⟨hi, hb.2 i rfl⟩, hd, hn.imp_right ?_⟩
    intro hn
    exact (Shape.drop_own (by simp)).mpr ⟨hn, hb.2⟩
  · rintro i ⟨hi, hg⟩ hd
    refine (h.first i hi hd).imp_right ?_
    intro hf
    refine (Shape.drop_own (by simp)).mpr ⟨hf, ?_⟩
    intro j hj
    cases hj
    exact hg
  · have h0 := h.ownZero
    simp [Shape.drop, h0]
  · have h0 := h.ownSlot
    simp [Shape.drop, h0]

theorem Owned.withNum (h : Owned I s) (num : InodeId → Prop) : Owned I { s with num := num } :=
  ⟨h.table, h.ownTable, h.ownDir, h.ownFile, h.first, h.ownZero, h.ownSlot⟩

/-! ### Images that agree on what is in use -/

structure Agree (s : Shape) (I I' : Img) : Prop where
  root : I'.root = I.root
  vt : I'.vt = I.vt
  ino : ∀ i, s.live i → I'.ino i = I.ino i
  dir : ∀ i b, s.own b = some (.dir i) → I'.val b = I.val b
  file : ∀ i b, s.own b = some (.file i) → I'.val b = I.val b

theorem Agree.isDir (h : Agree s I I') (hi : s.live i) : I'.isDir i = I.isDir i := by
  rw [Img.isDir, Img.isDir, h.ino i hi]

theorem Agree.ent (h : Agree s I I') (ho : Owned I s) (hi : s.live i) (hd : I.isDir i = true) :
    I'.ent i = I.ent i := by
  funext k
  rw [Img.ent, Img.ent, h.ino i hi, h.dir i _ (ho.dirBlock hi hd)]

theorem Agree.treed (h : Agree s I I') (ho : Owned I s) (ht : Treed I s.live) :
    Treed I' s.live :=
  ht.congr h.root (fun i hi => by rw [h.ino i hi]; exact (ht.inum i hi).2)
    (fun i hi => h.isDir hi) (fun i hi hd => h.ent ho hi hd)

theorem Agree.named (h : Agree s I I') (ho : Owned I s) (ht : Named I s.live) :
    Named I' s.live := by
  intro i hi hd k hk
  rw [h.isDir hi] at hd
  rw [h.ent ho hi hd]
  exact ht i hi hd k hk

/-- Owners are a matter of the inodes in use and the links of file blocks. -/
theorem Owned.relink (h : Owned I s) (hvt : I'.vt = I.vt)
    (hino : ∀ i, s.live i → I'.ino i = I.ino i)
    (hfile : ∀ i b, s.own b = some (.file i) →
      (I'.val b).fbNext = 0 ∨ s.own (I'.val b).fbNext = some (.file i)) : Owned I' s := by
  have hisDir : ∀ i, s.live i → I'.isDir i = I.isDir i := by
    intro i hi
    rw [Img.isDir, Img.isDir, hino i hi]
  refine ⟨?_, ?_, ?_, ?_, ?_, h.ownZero, h.ownSlot⟩
  · intro i hi
    rw [hvt]
    exact h.table i hi
  · rw [hvt]
    exact h.ownTable
  · intro i b
    rw [h.ownDir]
    constructor
    · rintro ⟨hi, hd, hb⟩
      exact ⟨hi, (hisDir i hi).trans hd, by rw [hino i hi]; exact hb⟩
    · rintro ⟨hi, hd, hb⟩
      exact ⟨hi, (hisDir i hi).symm.trans hd, by rw [← hino i hi]; exact hb⟩
  · intro i b hb
    obtain ⟨hi, hd, -⟩ := h.ownFile i b hb
    exact ⟨hi, (hisDir i hi).trans hd, hfile i b hb⟩
  · intro i hi hd
    rw [hisDir i hi] at hd
    rw [hino i hi]
    exact h.first i hi hd

theorem Owned.congr (h : Owned I s) (hvt : I'.vt = I.vt)
    (hino : ∀ i, s.live i → I'.ino i = I.ino i)
    (hfile : ∀ i b, s.own b = some (.file i) → (I'.val b).fbNext = (I.val b).fbNext) :
    Owned I' s := by
  refine h.relink hvt hino ?_
  intro i b hb
  rw [hfile i b hb]
  exact (h.ownFile i b hb).2.2

theorem Agree.owned (h : Agree s I I') (ho : Owned I s) : Owned I' s :=
  ho.congr h.vt h.ino (fun i b hb => by rw [h.file i b hb])

/-- An image is determined by the blocks in use. -/
theorem agree_imgOf {v v' : BlockId → Block} {sb sb' : Block} (ho : Owned (imgOf v sb) s)
    (hvt : sb'.sbVtable = sb.sbVtable) (hroot : sb'.sbRoot = sb.sbRoot)
    (hv : ∀ b, s.own b ≠ none → s.own b ≠ some .held → v' b = v b) :
    Agree s (imgOf v sb) (imgOf v' sb') := by
  refine ⟨hroot, hvt, ?_, ?_, ?_⟩
  · intro i hi
    have htab := ho.table i hi
    have hlt : i.toNat / 256 < 256 := by
      have := i.toNat_lt
      omega
    have hown : s.own (sb.sbVtable (i.toNat / 256)) = some (.itable (i.toNat / 256)) :=
      (ho.ownTable (i.toNat / 256) _).mpr ⟨hlt, rfl, htab⟩
    have hb := hv (sb.sbVtable (i.toNat / 256)) (by rw [hown]; simp) (by rw [hown]; simp)
    change (v' (sb'.sbVtable (i.toNat / 256))).itInode (i.toNat % 256) =
      (v (sb.sbVtable (i.toNat / 256))).itInode (i.toNat % 256)
    rw [hvt, hb]
  · intro i b hb
    exact hv b (by rw [hb]; simp) (by rw [hb]; simp)
  · intro i b hb
    exact hv b (by rw [hb]; simp) (by rw [hb]; simp)

end
end Crfs
