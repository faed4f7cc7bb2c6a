import CobaltRom.Crfs.File

/-! Creating, removing and listing directory entries. -/
namespace Crfs
open WriteBack

/-- Call `f` for every element; `none` once a call does not return. -/
def forEach {α : Type} (f : α → FsM (Option Unit)) : List α → FsM (Option Unit)
  | [] => pure (some ())
  | a :: as => do
    match ← f a with
    | none => pure none
    | some () => forEach f as

/-- Numbers are 16 bits wide and the walks below change no block, so a walk that
is longer than this has come back to where it was and does not end. -/
def walkFuel : Nat := 65536

/-- The first slot without an inode. -/
def Block.freeSlot (d : Block) : Option Nat :=
  (List.range crfsDirNents).find? fun i => (d.dirent i).deInode == 0

/-- The phased-commit branch: the old block is released, the inode sent to
`dirblock2` and the directory written there. -/
def moveDirent (dirnode : Inode) (d : Block) (slot : Nat) (inum : InodeId) (fname : Name)
    (dirblock2 : BlockId) (mem : Bool := true) : FsM (Except Errno Unit) := do
  unmarkBlock dirnode.inFirst
  match ← crfsWriteInode { dirnode with inFirst := dirblock2, inLast := dirblock2 } mem with
  | .error e => pure (.error e)
  | .ok () => do
    crfsWriteBlock dirblock2 (d.setDirent slot inum fname)
    pure (.ok ())

/-- The last part shared by `crfs_create` and `crfs_mkdir`: move the directory to
a fresh block if it is not in the cache as dirty, then enter the name. The result
of this `freemap_next` is not checked. -/
def linkDirent (dirnode : Inode) (d : Block) (slot : Nat) (inum : InodeId) (fname : Name)
    (mem : Bool := true) : FsM (Except Errno Unit) := do
  let dirblock := dirnode.inFirst
  let dirty ← blockIsDirty dirblock
  if dirty then do
    crfsWriteBlock dirblock (d.setDirent slot inum fname)
    pure (.ok ())
  else do
    let tmp ← nextBlock
    moveDirent dirnode d slot inum fname (UInt16.ofInt tmp) mem

/-- `crfs_create` once slot `i` is found and `inum` handed out, or -1. The two times an inode
is stored may each ask for memory. -/
def createInum (fname : Name) (dirnode : Inode) (d : Block) (i : Nat) (inum : Int)
    (mem mem' : Bool := true) : FsM (Except Errno Unit) := do
  match ← crfsWriteInode ⟨UInt16.ofInt inum, 0, 0, 0, fmaskFile⟩ mem with
  | .error e => pure (.error e)
  | .ok () => linkDirent dirnode d i (UInt16.ofInt inum) fname mem'

def crfsCreate (fname : Name) (mem mem' : Bool := true) : FsM (Except Errno Unit) := do
  match ← crfsNamei fname with
  | .error e => pure (.error e)
  | .ok (fname, dirnode) =>
    if fname.length > crfsFilenameMax then pure (.error .ENAMETOOLONG)
    else do
      let dir ← isDir dirnode fname
      if dir then pure (.error .EISDIR)
      else do
        let d ← crfsReadBlock dirnode.inFirst
        if (crfsLookupDirent d fname).isSome then pure (.error .EEXIST)
        else
          match d.freeSlot with
          | none => pure (.error .ENOSPC)
          | some i => do
            let inum ← nextInode
            createInum fname dirnode d i inum mem mem'

/-- The block `crfs_mkdir` builds: "." and "..". -/
def newDirectory (inum parent : InodeId) : Block :=
  (zeroBlock.setDirent 0 inum [46]).setDirent 1 parent [46, 46]

/-- `crfs_mkdir` once slot `i` is found and both numbers are handed out, or -1. -/
def mkdirInum (path : Name) (dirnode : Inode) (d : Block) (i : Nat) (inum blocknum : Int)
    (mem mem' : Bool := true) : FsM (Except Errno Unit) := do
  let inode : Inode :=
    ⟨UInt16.ofInt inum, UInt16.ofInt blocknum, UInt16.ofInt blocknum, 0, fmaskDir⟩
  crfsWriteBlock (UInt16.ofInt blocknum) (newDirectory (UInt16.ofInt inum) dirnode.inInode)
  match ← crfsWriteInode inode mem with
  | .error e => pure (.error e)
  | .ok () => linkDirent dirnode d i (UInt16.ofInt inum) path mem'

def crfsMkdir (path : Name) (mem mem' : Bool := true) : FsM (Except Errno Unit) := do
  match ← crfsNamei path with
  | .error e => pure (.error e)
  | .ok (path, dirnode) =>
    if path.length > crfsFilenameMax then pure (.error .ENAMETOOLONG)
    else do
      let d ← crfsReadBlock dirnode.inFirst
      if (crfsLookupDirent d path).isSome then pure (.error .EEXIST)
      else
        match d.freeSlot with
        | none => pure (.error .ENOSPC)
        | some i => do
          let inum ← nextInode
          let blocknum ← nextBlock
          mkdirInum path dirnode d i inum blocknum mem mem'

/-- Release the blocks of a file chain. -/
def unmarkChain : Nat → BlockId → FsM (Option Unit)
  | 0, b => pure (if b = 0 then some () else none)
  | fuel + 1, b =>
    if b = 0 then pure (some ())
    else do
      unmarkBlock b
      let f ← crfsReadBlock b
      unmarkChain fuel f.fbNext

/-- `unmark_inode`: the inode, its blocks and, below a directory, every entry
but the first two. -/
def unmarkInode : Nat → InodeId → FsM (Option Unit)
  | 0, _ => pure none
  | fuel + 1, inode => do
    unmarkInum inode
    let inn ← crfsLookupInode inode
    if inn.isDir then do
      unmarkBlock inn.inFirst
      let d ← crfsReadBlock inn.inFirst
      forEach (fun de : Dirent =>
        if de.deInode ≠ 0 then unmarkInode fuel de.deInode else pure (some ()))
        (d.dEntries.drop 2)
    else unmarkChain walkFuel inn.inFirst

/-- The loop of `rm_file` that empties the first slot with that name, live or not. -/
def clearEntry (dirblock : BlockId) (d : Block) (fname : Name) : FsM Unit :=
  match (List.range crfsDirNents).find? fun i => (d.dirent i).name == fname with
  | none => pure ()
  | some i => crfsWriteBlock dirblock (d.clearDirent i)

def rmFile (fname : Name) (doDirs : Bool) : FsM (Option (Except Errno Unit)) := do
  match ← crfsNamei fname with
  | .error e => pure (some (.error e))
  | .ok (fname, dirnode) =>
    if fname.length > crfsFilenameMax then pure (some (.error .ENAMETOOLONG))
    else do
      let dir ← isDir dirnode fname
      if dir = true ∧ doDirs = false then pure (some (.error .EISDIR))
      else if fname = [46] ∨ fname = [46, 46] then pure (some (.error .EINVAL))
      else do
        let d ← crfsReadBlock dirnode.inFirst
        match crfsLookupDirent d fname with
        | none => pure (some (.error .ENOENT))
        | some de => do
          clearEntry dirnode.inFirst d fname
          match ← unmarkInode walkFuel de.deInode with
          | none => pure none
          | some () => pure (some (.ok ()))

def crfsRemove (fname : Name) : FsM (Option (Except Errno Unit)) := rmFile fname false
def crfsRmdir (dname : Name) : FsM (Option (Except Errno Unit)) := rmFile dname true

structure CrfsStat where
  stIno : InodeId
  stFmask : UInt32
  stSize : UInt32
  deriving DecidableEq, Repr

def crfsStat (fname : Name) : FsM (Except Errno CrfsStat) := do
  match ← crfsNamei fname with
  | .error e => pure (.error e)
  | .ok (fname, dirnode) =>
    if fname.length > crfsFilenameMax then pure (.error .ENAMETOOLONG)
    else do
      let d ← crfsReadBlock dirnode.inFirst
      match crfsLookupDirent d fname with
      | none => pure (.error .ENOENT)
      | some de => do
        let inode ← crfsLookupInode de.deInode
        pure (.ok ⟨de.deInode, inode.inFmask, inode.inFsize⟩)

abbrev coDirMagic : UInt32 := 0x00c0d100

structure CoDir where
  dMagic : UInt32
  dInode : InodeId
  dPos : Nat

def crfsOpendir (dname : Name) : FsM (Except Errno CoDir) := do
  match ← crfsNamei dname with
  | .error e => pure (.error e)
  | .ok (dname, dirnode) =>
    if dname.length > crfsFilenameMax then pure (.error .ENAMETOOLONG)
    else do
      let dirnode ← inodeLookupFromNamei dirnode dname
      if dirnode.isDir then pure (.ok ⟨coDirMagic, dirnode.inInode, 0⟩)
      else pure (.error .ENOTDIR)

/-- The next live entry and the handle behind it; `none` at the end. -/
def crfsReaddir (dir : CoDir) : FsM (Except Errno (Option Dirent) × CoDir) := do
  if dir.dMagic ≠ coDirMagic then pure (.error .EBADF, dir)
  else do
    let inode ← crfsLookupInode dir.dInode
    let d ← crfsReadBlock inode.inFirst
    match ((List.range crfsDirNents).drop dir.dPos).find? fun i => (d.dirent i).deInode != 0 with
    | none => pure (.ok none, { dir with dPos := max dir.dPos crfsDirNents })
    | some i => pure (.ok (some (d.dirent i)), { dir with dPos := i + 1 })

end Crfs
