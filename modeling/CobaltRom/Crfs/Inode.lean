import CobaltRom.Crfs.Cache

/-! Inodes, directory entries and path resolution. -/
namespace Crfs
open WriteBack

/-- `ITABLE_BLOCKNUM (inum)`. -/
def Globals.itableBlocknum (g : Globals) (inum : InodeId) : BlockId :=
  g.superBlock.sbVtable (inum.toNat / 256)

/-- `INODE_IDX (inum)`. -/
def inodeIdx (inum : InodeId) : Nat := inum.toNat % 256

def setItableBlocknum (inum : InodeId) (b : BlockId) : FsM Unit := do
  let g ← Prog.getGlob
  Prog.setGlob { g with superBlock := g.superBlock.setSbVtable (inum.toNat / 256) b }

def crfsLookupInode (inum : InodeId) : FsM Inode := do
  let g ← Prog.getGlob
  let it ← crfsReadBlock (g.itableBlocknum inum)
  pure (it.itInode (inodeIdx inum))

/-- `mem` is whether `malloc` has memory for a new table. -/
def crfsWriteInode (inode : Inode) (mem : Bool := true) : FsM (Except Errno Unit) := do
  let g ← Prog.getGlob
  let blockIndex := g.itableBlocknum inode.inInode
  if blockIndex = 0 then do
    let tmp ← nextBlock
    if tmp < 0 then pure (.error .ENOSPC)
    else do
      setItableBlocknum inode.inInode (UInt16.ofInt tmp)
      match mem with
      | false => pure (.error .ENOMEM)
      | true => do
        crfsWriteBlock (UInt16.ofInt tmp) (zeroBlock.setItInode (inodeIdx inode.inInode) inode)
        pure (.ok ())
  else do
    let it ← crfsReadBlock blockIndex
    let dirty ← blockIsDirty blockIndex
    if dirty then do
      crfsWriteBlock blockIndex (it.setItInode (inodeIdx inode.inInode) inode)
      pure (.ok ())
    else do
      let tmp ← nextBlock
      if tmp < 0 then pure (.error .ENOSPC)
      else do
        unmarkBlock blockIndex
        setItableBlocknum inode.inInode (UInt16.ofInt tmp)
        crfsWriteBlock (UInt16.ofInt tmp) (it.setItInode (inodeIdx inode.inInode) inode)
        pure (.ok ())

/-- The entries of a directory block, slot by slot. -/
def Block.dEntries (d : Block) : List Dirent := (List.range crfsDirNents).map d.dirent

/-- The first live entry with that name. -/
def crfsLookupDirent (dir : Block) (name : Name) : Option Dirent :=
  if name.length > crfsFilenameMax then none
  else dir.dEntries.find? fun de => de.name == name && de.deInode != 0

/-- The scan of `crfs_namei`: `comp` holds the characters from `str_start` to
`str_end`, the list is the rest of the string. -/
def nameiScan (inode : Inode) (comp : Name) : Name → FsM (Except Errno (Name × Inode))
  | [] => pure (.ok (comp, inode))
  | c :: rest =>
    if c ≠ 47 then nameiScan inode (comp ++ [c]) rest
    else if comp = [] then nameiScan inode [] rest
    else do
      let d ← crfsReadBlock inode.inFirst
      match crfsLookupDirent d comp with
      | none => pure (.error .ENOENT)
      | some de =>
        if rest = [] then pure (.ok (comp, inode))
        else do
          let inode ← crfsLookupInode de.deInode
          if inode.inInode = 0 ∨ inode.isDir = false then pure (.error .ENOTDIR)
          else nameiScan inode [] rest

/-- `crfs_namei`: the last component and the inode of the directory that holds it. -/
def crfsNamei (fname : Name) : FsM (Except Errno (Name × Inode)) := do
  let g ← Prog.getGlob
  if fname.head? = some 47 then do
    let inode ← crfsLookupInode g.superBlock.sbRoot
    nameiScan inode [] fname.tail
  else do
    let inode ← crfsLookupInode g.crfsPwd
    nameiScan inode [] fname

def inodeLookupFromNamei (dirnode : Inode) (fname : Name) : FsM Inode := do
  if fname = [] then pure dirnode
  else do
    let d ← crfsReadBlock dirnode.inFirst
    match crfsLookupDirent d fname with
    | none => pure ⟨0, 0, 0, 0, 0⟩
    | some de => crfsLookupInode de.deInode

def isDir (dirnode : Inode) (fname : Name) : FsM Bool := do
  let inode ← inodeLookupFromNamei dirnode fname
  pure inode.isDir

end Crfs
