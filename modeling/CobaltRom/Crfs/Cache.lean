import CobaltRom.Lib.WriteBack
import CobaltRom.Crfs.Layout
import CobaltRom.Crfs.Freemap

/-! The globals of `crfs_func.c`, the block cache and its flush. A routine is a
program over the cache (`FsM`); only the flush writes to the device. -/
namespace Crfs
open WriteBack

inductive Errno where
  | ENOENT | EBADF | ENOMEM | EEXIST | ENOTDIR | EISDIR | EINVAL | ENOSPC | ENAMETOOLONG
  deriving DecidableEq, Repr

structure Globals where
  blockFreemap : Freemap
  inodeFreemap : Freemap
  superBlock : Block
  crfsWhichSuper : Int
  crfsPwd : InodeId

abbrev FsM := Prog BlockId Block Globals

/-- What the code sees through the cache: blocks, dirty marks and globals. -/
abbrev Vol := Flat BlockId Block Globals

/-- The running program: device, cache list and globals. -/
abbrev Machine := Cached BlockId Block Globals

/-- A fresh process over a device, before `crfs_init` or `crfs_mkfs`. -/
def boot (disk : BlockId → Block) : Machine :=
  ⟨⟨disk, []⟩, ⟨freemapInit 0, freemapInit 0, zeroBlock, -1, 0⟩⟩

def crfsReadBlock (idx : BlockId) : FsM Block := Prog.readAt idx
def crfsWriteBlock (idx : BlockId) (data : Block) : FsM Unit := Prog.writeAt idx data
def blockIsDirty (idx : BlockId) : FsM Bool := Prog.dirtyAt idx

/-- `freemap_next (block_freemap)`. -/
def nextBlock : FsM Int := do
  let g ← Prog.getGlob
  Prog.setGlob { g with blockFreemap := (freemapNext g.blockFreemap).2 }
  pure (freemapNext g.blockFreemap).1

/-- `freemap_next (inode_freemap)`. -/
def nextInode : FsM Int := do
  let g ← Prog.getGlob
  Prog.setGlob { g with inodeFreemap := (freemapNext g.inodeFreemap).2 }
  pure (freemapNext g.inodeFreemap).1

def markBlock (b : BlockId) : FsM Unit := do
  let g ← Prog.getGlob
  Prog.setGlob { g with blockFreemap := freemapMark g.blockFreemap b.toNat }

def markInum (i : InodeId) : FsM Unit := do
  let g ← Prog.getGlob
  Prog.setGlob { g with inodeFreemap := freemapMark g.inodeFreemap i.toNat }

def unmarkBlock (b : BlockId) : FsM Unit := do
  let g ← Prog.getGlob
  Prog.setGlob { g with blockFreemap := freemapUnmark g.blockFreemap b.toNat }

def unmarkInum (i : InodeId) : FsM Unit := do
  let g ← Prog.getGlob
  Prog.setGlob { g with inodeFreemap := freemapUnmark g.inodeFreemap i.toNat }

def sbBlocknum (sb : Int) : BlockId := UInt16.ofInt (sb * 16)

/-- The sum over all words but the checksum itself, negated. -/
def crfsChecksum (sblock : Block) : UInt32 :=
  ~~~ ((List.range 1024).foldl (fun sum i => if i ≠ 2 then sum + sblock.word i else sum) 0 - 1)

/-- The test `crfs_init` makes on each slot. -/
def validSuper (b : Block) : Bool := b.sbChecksum == crfsChecksum b && b.magicOk

/-- The super block `cache_flush` stores: next version, fresh checksum. -/
def nextSuper (sb : Block) : Block :=
  let sb := sb.setSbBlockver (sb.sbBlockver + 1)
  sb.setSbChecksum (crfsChecksum sb)

/-- The other slot, as `cache_flush` computes it. -/
def nextWhich (which : Int) : Int := (which + 1).tmod crfsNsblocks

/-- The device writes of `cache_flush`, in order: the dirty copies, then, if the
cache was not empty, the super block. -/
def flushWrites (c : Machine) : List (BlockId × Block) :=
  c.store.pending ++
    if c.store.cache = [] then []
    else [(sbBlocknum (nextWhich c.glob.crfsWhichSuper), nextSuper c.glob.superBlock)]

/-- `cache_flush`. The second `freemap_flush` names the block map again, so the
inode map keeps its released numbers. -/
def cacheFlush (c : Machine) : Machine where
  store := ⟨apply c.store.disk (flushWrites c), []⟩
  glob :=
    { c.glob with
      superBlock :=
        if c.store.cache = [] then c.glob.superBlock else nextSuper c.glob.superBlock
      crfsWhichSuper :=
        if c.store.cache = [] then c.glob.crfsWhichSuper else nextWhich c.glob.crfsWhichSuper
      blockFreemap := freemapFlush (freemapFlush c.glob.blockFreemap) }

end Crfs
