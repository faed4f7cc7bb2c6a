import CobaltRom.Lib.ByteBuf

/-! The on-disk structures of `crfs.h`. Every structure is a view of one 4096-byte
block at the offsets the C compiler gives its members (x86, little endian). -/
namespace Crfs
open ByteBuf

abbrev crfsBlockSize : Nat := 0x1000
abbrev crfsNsblocks : Nat := 2
abbrev crfsSbVtableLen : Nat := 16
abbrev crfsItableNinodes : Nat := 256
abbrev crfsFblockData : Nat := 4080
abbrev crfsFilenameMax : Nat := 59
abbrev crfsDirNents : Nat := 64

abbrev fmaskFile : UInt32 := 0x1
abbrev fmaskDir : UInt32 := 0x4

abbrev InodeId := UInt16
abbrev BlockId := UInt16
abbrev Block := Buf 4096

/-- A file name or path: the bytes before the NUL. -/
abbrev Name := List UInt8

/-- `memset (buf, 0, CRFS_BLOCK_SIZE)`. -/
def zeroBlock : Block := ⟨fun _ => 0⟩

/-- `_crfs_inode`: 16 bytes, two of them padding before `in_fsize`. -/
structure Inode where
  inInode : InodeId
  inFirst : BlockId
  inLast : BlockId
  inFsize : UInt32
  inFmask : UInt32
  deriving DecidableEq, Repr

/-- `_crfs_dirent`: the inode number and the 60 bytes of `de_name`. -/
structure Dirent where
  deInode : InodeId
  deName : List UInt8
  deriving DecidableEq, Repr

namespace Inode

def isDir (x : Inode) : Bool := x.inFmask &&& fmaskDir != 0

def bytes (x : Inode) : List UInt8 :=
  leBytes 2 x.inInode.toNat ++ leBytes 2 x.inFirst.toNat ++ leBytes 2 x.inLast.toNat ++ [0, 0] ++
    leBytes 4 x.inFsize.toNat ++ leBytes 4 x.inFmask.toNat

def ofBytes (l : List UInt8) : Inode :=
  ⟨u16 (l.take 2), u16 ((l.drop 2).take 2), u16 ((l.drop 4).take 2), u32 ((l.drop 8).take 4),
    u32 ((l.drop 12).take 4)⟩

@[simp] theorem bytes_length (x : Inode) : x.bytes.length = 16 := by simp [bytes]

@[simp] theorem ofBytes_bytes (x : Inode) : ofBytes x.bytes = x := by
  have h2 : ∀ v : UInt16, ∃ a b, leBytes 2 v.toNat = [a, b] := fun v => ⟨_, _, rfl⟩
  have h4 : ∀ v : UInt32, ∃ a b c d, leBytes 4 v.toNat = [a, b, c, d] := fun v => ⟨_, _, _, _, rfl⟩
  obtain ⟨i0, i1, hi⟩ := h2 x.inInode
  obtain ⟨f0, f1, hf⟩ := h2 x.inFirst
  obtain ⟨l0, l1, hl⟩ := h2 x.inLast
  obtain ⟨s0, s1, s2, s3, hs⟩ := h4 x.inFsize
  obtain ⟨m0, m1, m2, m3, hm⟩ := h4 x.inFmask
  have e1 := u16_leBytes x.inInode
  have e2 := u16_leBytes x.inFirst
  have e3 := u16_leBytes x.inLast
  have e4 := u32_leBytes x.inFsize
  have e5 := u32_leBytes x.inFmask
  rw [hi] at e1
  rw [hf] at e2
  rw [hl] at e3
  rw [hs] at e4
  rw [hm] at e5
  simp [ofBytes, bytes, hi, hf, hl, hs, hm, e1, e2, e3, e4, e5]

end Inode

namespace Dirent

/-- `de_name` as a C string. -/
def name (e : Dirent) : Name := cstr e.deName

def ofBytes (l : List UInt8) : Dirent := ⟨u16 (l.take 2), l.drop 2⟩

/-- The 60 bytes `strncpy (de_name, name, 59)` and the final NUL leave. -/
def pad (name : Name) : List UInt8 :=
  name.take crfsFilenameMax ++ List.replicate (60 - (name.take crfsFilenameMax).length) 0

theorem pad_length (name : Name) : (pad name).length = 60 := by
  simp only [pad, List.length_append, List.length_replicate, List.length_take, crfsFilenameMax]
  omega

theorem cstr_pad {name : Name} (hl : name.length ≤ 59) (hz : (0 : UInt8) ∉ name) :
    cstr (pad name) = name := by
  have ht : name.take 59 = name := List.take_of_length_le hl
  obtain ⟨k, hk⟩ : ∃ k, 60 - name.length = k + 1 := ⟨59 - name.length, by omega⟩
  rw [pad, ht, hk, List.replicate_succ, cstr_append_zero hz]

end Dirent

namespace Block

/-! ### The super block -/

def sbFsver (b : Block) : UInt32 := u32 (slice b 4 4)
def sbChecksum (b : Block) : UInt32 := u32 (slice b 8 4)
def sbBlockver (b : Block) : UInt32 := u32 (slice b 12 4)
def sbFssize (b : Block) : UInt32 := u32 (slice b 16 4)
def sbRoot (b : Block) : InodeId := u16 (slice b 20 2)

/-- `sb_vtable[k]`. The array has 16 entries; the code indexes it with an inode
number shifted by 8, so larger indices read the padding of the union. -/
def sbVtable (b : Block) (k : Nat) : BlockId := u16 (slice b (22 + 2 * k) 2)

def setSbChecksum (b : Block) (v : UInt32) : Block := put b 8 (leBytes 4 v.toNat)
def setSbBlockver (b : Block) (v : UInt32) : Block := put b 12 (leBytes 4 v.toNat)
def setSbFssize (b : Block) (v : UInt32) : Block := put b 16 (leBytes 4 v.toNat)
def setSbRoot (b : Block) (v : InodeId) : Block := put b 20 (leBytes 2 v.toNat)
def setSbVtable (b : Block) (k : Nat) (v : BlockId) : Block :=
  put b (22 + 2 * k) (leBytes 2 v.toNat)

/-- `"CRfs"`. -/
def crfsMagic : List UInt8 := [67, 82, 102, 115]

/-- `!strcmp (sb->sb_magic, "CRfs")`: the array has no room for the NUL, so the
comparison ends in the first byte of `sb_fsver`. -/
def magicOk (b : Block) : Bool := cstr (slice b 0 4096) == crfsMagic

/-- The 32-bit word `i` of a block. -/
def word (b : Block) (i : Nat) : UInt32 := u32 (slice b (4 * i) 4)

/-! ### Inode tables, directories and file blocks -/

def itInode (b : Block) (k : Nat) : Inode := Inode.ofBytes (slice b (16 * k) 16)
def setItInode (b : Block) (k : Nat) (x : Inode) : Block := put b (16 * k) x.bytes

def dirent (b : Block) (k : Nat) : Dirent := Dirent.ofBytes (slice b (64 * k) 62)

/-- `de_inode = inum` and the bounded copy of the name. -/
def setDirent (b : Block) (k : Nat) (inum : InodeId) (name : Name) : Block :=
  put b (64 * k) (leBytes 2 inum.toNat ++ Dirent.pad name)

/-- `de_inode = 0; de_name[0] = '\0'`. -/
def clearDirent (b : Block) (k : Nat) : Block := put b (64 * k) [0, 0, 0]

def fbPrev (b : Block) : BlockId := u16 (slice b 0 2)
def fbNext (b : Block) : BlockId := u16 (slice b 2 2)
def fbOffset (b : Block) : BlockId := u16 (slice b 4 2)
def fbData (b : Block) : List UInt8 := slice b 16 crfsFblockData

def setFbPrev (b : Block) (v : BlockId) : Block := put b 0 (leBytes 2 v.toNat)
def setFbNext (b : Block) (v : BlockId) : Block := put b 2 (leBytes 2 v.toNat)
def setFbOffset (b : Block) (v : BlockId) : Block := put b 4 (leBytes 2 v.toNat)

/-- `memcpy (fb_data + o, l, l.length)`. -/
def setFbData (b : Block) (o : Nat) (l : List UInt8) : Block := put b (16 + o) l

variable {b : Block} {i j k : Nat}

@[simp] theorem itInode_setItInode_self (hk : k < 256) (b : Block) (x : Inode) :
    itInode (setItInode b k x) k = x := by
  have h := slice_put_self (b := b) (o := 16 * k) (l := x.bytes) (by rw [Inode.bytes_length]; omega)
  rw [Inode.bytes_length] at h
  rw [itInode, setItInode, h, Inode.ofBytes_bytes]

theorem itInode_setItInode_ne (h : j ≠ k) (b : Block) (x : Inode) :
    itInode (setItInode b k x) j = itInode b j := by
  rw [itInode, setItInode, slice_put_disjoint (by rw [Inode.bytes_length]; omega), itInode]

theorem dirent_setDirent_self (hk : k < 64) (b : Block) (inum : InodeId) (name : Name) :
    dirent (setDirent b k inum name) k = ⟨inum, Dirent.pad name⟩ := by
  have hl : (leBytes 2 inum.toNat ++ Dirent.pad name).length = 62 := by
    simp [Dirent.pad_length]
  have h := slice_put_self (b := b) (o := 64 * k) (l := leBytes 2 inum.toNat ++ Dirent.pad name)
    (by rw [hl]; omega)
  rw [hl] at h
  rw [dirent, setDirent, h, Dirent.ofBytes, List.take_left' (by simp), List.drop_left' (by simp),
    u16_leBytes]

theorem dirent_setDirent_ne (h : j ≠ k) (b : Block) (inum : InodeId) (name : Name) :
    dirent (setDirent b k inum name) j = dirent b j := by
  have hl : (leBytes 2 inum.toNat ++ Dirent.pad name).length = 62 := by
    simp [Dirent.pad_length]
  rw [dirent, setDirent, slice_put_disjoint (by rw [hl]; omega), dirent]

theorem slice_clearDirent (hk : k < 64) (b : Block) :
    slice (clearDirent b k) (64 * k) 62 = [0, 0] ++ 0 :: slice b (64 * k + 3) 59 :=
  slice_put_append (by simp; omega) 59

theorem dirent_clearDirent_deInode (hk : k < 64) (b : Block) :
    (dirent (clearDirent b k) k).deInode = 0 := by
  rw [dirent, slice_clearDirent hk]
  change u16 [0, 0] = 0
  decide

theorem dirent_clearDirent_name (hk : k < 64) (b : Block) :
    (dirent (clearDirent b k) k).name = [] := by
  rw [dirent, slice_clearDirent hk]
  rfl

theorem dirent_clearDirent_ne (h : j ≠ k) (b : Block) :
    dirent (clearDirent b k) j = dirent b j := by
  rw [dirent, clearDirent, slice_put_disjoint (by simp; omega), dirent]

theorem dirent_zeroBlock (k : Nat) : dirent zeroBlock k = ⟨0, List.replicate 60 0⟩ := by
  have h : slice zeroBlock (64 * k) 62 = List.replicate 62 0 := by
    apply List.ext_getElem?
    intro i
    rw [slice_getElem?, List.getElem?_replicate]
    have hz : byte zeroBlock (64 * k + i) = 0 := by simp [byte, zeroBlock]
    rw [hz]
  rw [dirent, h]
  decide

@[simp] theorem sbVtable_setSbVtable (hk : k < 256) (b : Block) (v : BlockId) :
    sbVtable (setSbVtable b k v) j = if j = k then v else sbVtable b j := by
  unfold sbVtable setSbVtable
  by_cases h : j = k
  · subst h
    have hs := slice_put_self (b := b) (o := 22 + 2 * j) (l := leBytes 2 v.toNat) (by simp; omega)
    rw [leBytes_length] at hs
    rw [if_pos rfl, hs, u16_leBytes]
  · rw [if_neg h, slice_put_disjoint (by simp; omega)]

@[simp] theorem sbRoot_setSbVtable (b : Block) (k : Nat) (v : BlockId) :
    sbRoot (setSbVtable b k v) = sbRoot b := by
  rw [sbRoot, setSbVtable, slice_put_disjoint (Or.inl (by omega)), sbRoot]

@[simp] theorem sbFssize_setSbVtable (b : Block) (k : Nat) (v : BlockId) :
    sbFssize (setSbVtable b k v) = sbFssize b := by
  rw [sbFssize, setSbVtable, slice_put_disjoint (by simp; omega), sbFssize]

@[simp] theorem sbBlockver_setSbVtable (b : Block) (k : Nat) (v : BlockId) :
    sbBlockver (setSbVtable b k v) = sbBlockver b := by
  rw [sbBlockver, setSbVtable, slice_put_disjoint (by simp; omega), sbBlockver]

/-- The string comparison looks at exactly five bytes. -/
theorem magicOk_iff : magicOk b = true ↔ slice b 0 5 = crfsMagic ++ [0] := by
  rw [magicOk, beq_iff_eq]
  constructor
  · intro h
    have ht := take_cstr h (by rw [slice_length]; decide)
    rwa [slice_take (by decide)] at ht
  · intro h
    have hs : slice b 0 4096 = slice b 0 5 ++ slice b 5 4091 := slice_add b 0 5 4091
    rw [hs, h, List.append_assoc]
    exact cstr_append_zero (by decide)

theorem magicOk_put (ho : 5 ≤ i) (l : List UInt8) : magicOk (put b i l) = magicOk b := by
  rw [Bool.eq_iff_iff, magicOk_iff, magicOk_iff, slice_put_disjoint (Or.inl (by omega))]

@[simp] theorem sbChecksum_setSbChecksum (b : Block) (v : UInt32) :
    sbChecksum (setSbChecksum b v) = v := by
  have hs := slice_put_self (b := b) (o := 8) (l := leBytes 4 v.toNat) (by simp)
  rw [leBytes_length] at hs
  rw [sbChecksum, setSbChecksum, hs, u32_leBytes]

@[simp] theorem sbBlockver_setSbChecksum (b : Block) (v : UInt32) :
    sbBlockver (setSbChecksum b v) = sbBlockver b := by
  rw [sbBlockver, setSbChecksum, slice_put_disjoint (by simp), sbBlockver]

@[simp] theorem sbFssize_setSbChecksum (b : Block) (v : UInt32) :
    sbFssize (setSbChecksum b v) = sbFssize b := by
  rw [sbFssize, setSbChecksum, slice_put_disjoint (by simp), sbFssize]

@[simp] theorem sbRoot_setSbChecksum (b : Block) (v : UInt32) :
    sbRoot (setSbChecksum b v) = sbRoot b := by
  rw [sbRoot, setSbChecksum, slice_put_disjoint (by simp), sbRoot]

@[simp] theorem sbVtable_setSbChecksum (b : Block) (v : UInt32) (k : Nat) :
    sbVtable (setSbChecksum b v) k = sbVtable b k := by
  rw [sbVtable, setSbChecksum, slice_put_disjoint (by simp; omega), sbVtable]

theorem word_setSbChecksum (h : i ≠ 2) (b : Block) (v : UInt32) :
    word (setSbChecksum b v) i = word b i := by
  rw [word, setSbChecksum, slice_put_disjoint (by simp; omega), word]

@[simp] theorem sbBlockver_setSbBlockver (b : Block) (v : UInt32) :
    sbBlockver (setSbBlockver b v) = v := by
  have hs := slice_put_self (b := b) (o := 12) (l := leBytes 4 v.toNat) (by simp)
  rw [leBytes_length] at hs
  rw [sbBlockver, setSbBlockver, hs, u32_leBytes]

@[simp] theorem sbFssize_setSbBlockver (b : Block) (v : UInt32) :
    sbFssize (setSbBlockver b v) = sbFssize b := by
  rw [sbFssize, setSbBlockver, slice_put_disjoint (by simp), sbFssize]

@[simp] theorem sbRoot_setSbBlockver (b : Block) (v : UInt32) :
    sbRoot (setSbBlockver b v) = sbRoot b := by
  rw [sbRoot, setSbBlockver, slice_put_disjoint (by simp), sbRoot]

@[simp] theorem sbVtable_setSbBlockver (b : Block) (v : UInt32) (k : Nat) :
    sbVtable (setSbBlockver b v) k = sbVtable b k := by
  rw [sbVtable, setSbBlockver, slice_put_disjoint (by simp; omega), sbVtable]

@[simp] theorem sbFssize_setSbFssize (b : Block) (v : UInt32) :
    sbFssize (setSbFssize b v) = v := by
  have hs := slice_put_self (b := b) (o := 16) (l := leBytes 4 v.toNat) (by simp)
  rw [leBytes_length] at hs
  rw [sbFssize, setSbFssize, hs, u32_leBytes]

@[simp] theorem sbFssize_setSbRoot (b : Block) (v : InodeId) :
    sbFssize (setSbRoot b v) = sbFssize b := by
  rw [sbFssize, setSbRoot, slice_put_disjoint (by simp), sbFssize]

@[simp] theorem sbRoot_setSbRoot (b : Block) (v : InodeId) : sbRoot (setSbRoot b v) = v := by
  have hs := slice_put_self (b := b) (o := 20) (l := leBytes 2 v.toNat) (by simp)
  rw [leBytes_length] at hs
  rw [sbRoot, setSbRoot, hs, u16_leBytes]

@[simp] theorem sbVtable_setSbRoot (b : Block) (v : InodeId) (k : Nat) :
    sbVtable (setSbRoot b v) k = sbVtable b k := by
  rw [sbVtable, setSbRoot, slice_put_disjoint (by simp), sbVtable]

@[simp] theorem sbVtable_setSbFssize (b : Block) (v : UInt32) (k : Nat) :
    sbVtable (setSbFssize b v) k = sbVtable b k := by
  rw [sbVtable, setSbFssize, slice_put_disjoint (by simp; omega), sbVtable]

@[simp] theorem fbNext_setFbNext (b : Block) (v : BlockId) : fbNext (setFbNext b v) = v := by
  have hs := slice_put_self (b := b) (o := 2) (l := leBytes 2 v.toNat) (by simp)
  rw [leBytes_length] at hs
  rw [fbNext, setFbNext, hs, u16_leBytes]

@[simp] theorem fbNext_setFbData (b : Block) (o : Nat) (l : List UInt8) :
    fbNext (setFbData b o l) = fbNext b := by
  rw [fbNext, setFbData, slice_put_disjoint (by omega), fbNext]

@[simp] theorem fbPrev_setFbData (b : Block) (o : Nat) (l : List UInt8) :
    fbPrev (setFbData b o l) = fbPrev b := by
  rw [fbPrev, setFbData, slice_put_disjoint (by omega), fbPrev]

@[simp] theorem fbPrev_setFbNext (b : Block) (v : BlockId) :
    fbPrev (setFbNext b v) = fbPrev b := by
  rw [fbPrev, setFbNext, slice_put_disjoint (by simp), fbPrev]

@[simp] theorem fbPrev_setFbPrev (b : Block) (v : BlockId) : fbPrev (setFbPrev b v) = v := by
  have hs := slice_put_self (b := b) (o := 0) (l := leBytes 2 v.toNat) (by simp)
  rw [leBytes_length] at hs
  rw [fbPrev, setFbPrev, hs, u16_leBytes]

@[simp] theorem fbPrev_setFbOffset (b : Block) (v : BlockId) :
    fbPrev (setFbOffset b v) = fbPrev b := by
  rw [fbPrev, setFbOffset, slice_put_disjoint (by simp), fbPrev]

@[simp] theorem fbOffset_setFbOffset (b : Block) (v : BlockId) :
    fbOffset (setFbOffset b v) = v := by
  have hs := slice_put_self (b := b) (o := 4) (l := leBytes 2 v.toNat) (by simp)
  rw [leBytes_length] at hs
  rw [fbOffset, setFbOffset, hs, u16_leBytes]

@[simp] theorem fbOffset_setFbNext (b : Block) (v : BlockId) :
    fbOffset (setFbNext b v) = fbOffset b := by
  rw [fbOffset, setFbNext, slice_put_disjoint (by simp), fbOffset]

@[simp] theorem fbOffset_setFbPrev (b : Block) (v : BlockId) :
    fbOffset (setFbPrev b v) = fbOffset b := by
  rw [fbOffset, setFbPrev, slice_put_disjoint (by simp), fbOffset]

@[simp] theorem fbOffset_setFbData (b : Block) (o : Nat) (l : List UInt8) :
    fbOffset (setFbData b o l) = fbOffset b := by
  rw [fbOffset, setFbData, slice_put_disjoint (by omega), fbOffset]

@[simp] theorem fbData_setFbNext (b : Block) (v : BlockId) :
    fbData (setFbNext b v) = fbData b := by
  rw [fbData, setFbNext, slice_put_disjoint (by simp), fbData]

@[simp] theorem fbData_length (b : Block) : (fbData b).length = 4080 := slice_length _ _ _

/-- Copying into the data area overwrites that part of the data. -/
theorem fbData_setFbData {o : Nat} {l : List UInt8} (h : o + l.length ≤ 4080) (b : Block) :
    fbData (setFbData b o l) = (fbData b).take o ++ l ++ (fbData b).drop (o + l.length) := by
  have hsplit : ∀ c : Block, fbData c =
      slice c 16 o ++ slice c (16 + o) l.length ++
        slice c (16 + o + l.length) (4080 - (o + l.length)) := by
    intro c
    rw [fbData, show crfsFblockData = o + l.length + (4080 - (o + l.length)) by
      simp only [crfsFblockData]; omega, slice_add, slice_add, Nat.add_assoc 16]
  have ht : (fbData b).take o = slice b 16 o := slice_take (by simp only [crfsFblockData]; omega)
  have hd : (fbData b).drop (o + l.length) =
      slice b (16 + o + l.length) (4080 - (o + l.length)) := by
    rw [fbData, slice_drop (by simp only [crfsFblockData]; omega), Nat.add_assoc 16]
  rw [hsplit, ht, hd, setFbData, slice_put_disjoint (Or.inl (Nat.le_refl _)),
    slice_put_self (by omega), slice_put_disjoint (Or.inr (Nat.le_refl _))]

end Block
end Crfs
