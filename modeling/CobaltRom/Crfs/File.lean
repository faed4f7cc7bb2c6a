import CobaltRom.Crfs.Inode

/-! Open files: `crfs_open`, `crfs_close`, `crfs_read`, `crfs_write`. -/
namespace Crfs
open WriteBack

abbrev coFileMagic : UInt32 := 0x00c0f100

structure CoFile where
  fMagic : UInt32
  fInode : InodeId
  fCurblock : BlockId
  fFpos : UInt32
  fNospc : Bool
  fFblock : Block

/-- Load the next block of the chain; `none` at its end. -/
def nextFblock (fp : CoFile) : FsM (Option CoFile) := do
  if fp.fFblock.fbNext ≠ 0 then do
    let b ← crfsReadBlock fp.fFblock.fbNext
    pure (some { fp with fCurblock := fp.fFblock.fbNext, fFblock := b })
  else pure none

/-- The block `append_fblock` starts: linked back, not forward, and zeroed. -/
def freshFblock (fblock : Block) (prev : BlockId) : Block :=
  ((fblock.setFbPrev prev).setFbNext 0).setFbData 0 (List.replicate crfsFblockData 0)

def appendFblock (fp : CoFile) : FsM (Except Errno Unit × CoFile) := do
  let tmp ← nextBlock
  if tmp < 0 then pure (.error .ENOSPC, { fp with fNospc := true })
  else do
    let blockIndex := UInt16.ofInt tmp
    let inode ← crfsLookupInode fp.fInode
    if fp.fCurblock ≠ 0 then do
      let old := fp.fFblock.setFbNext blockIndex
      crfsWriteBlock fp.fCurblock old
      let new := freshFblock (old.setFbOffset (old.fbOffset + 1)) fp.fCurblock
      crfsWriteBlock blockIndex new
      let _ ← crfsWriteInode { inode with inLast := blockIndex }
      pure (.ok (), { fp with fNospc := false, fCurblock := blockIndex, fFblock := new })
    else do
      let new := freshFblock (fp.fFblock.setFbOffset 0) fp.fCurblock
      crfsWriteBlock blockIndex new
      let _ ← crfsWriteInode { inode with inFirst := blockIndex, inLast := blockIndex }
      pure (.ok (), { fp with fNospc := false, fCurblock := blockIndex, fFblock := new })

def crfsOpen (fname : Name) : FsM (Except Errno CoFile) := do
  match ← crfsNamei fname with
  | .error e => pure (.error e)
  | .ok (fname, dirnode) =>
    if fname.length > crfsFilenameMax then pure (.error .ENAMETOOLONG)
    else do
      let dir ← isDir dirnode fname
      if dir then pure (.error .EISDIR)
      else do
        let d ← crfsReadBlock dirnode.inFirst
        match crfsLookupDirent d fname with
        | none => pure (.error .ENOENT)
        | some de => do
          let inode ← crfsLookupInode de.deInode
          let file : CoFile := ⟨coFileMagic, inode.inInode, inode.inFirst, 0, false, zeroBlock⟩
          if inode.inFirst ≠ 0 then do
            let b ← crfsReadBlock inode.inFirst
            pure (.ok { file with fFblock := b })
          else pure (.ok file)

/-- `crfs_close` flushes everything; the handle is gone afterwards. -/
def crfsClose (fp : CoFile) (c : Machine) : Except Errno Unit × Machine :=
  if fp.fMagic ≠ coFileMagic then (.error .EBADF, c) else (.ok (), cacheFlush c)

/-- Bytes copied so far, what is left of the request, and whether the chain
ended early (the `return 0` marked VERY BAD in the source). -/
structure ReadState where
  fp : CoFile
  size : Nat
  out : List UInt8
  bad : Bool

/-- One whole or partial block copied out and the next block loaded. -/
def readStep (fp : CoFile) (fboff size : Nat) (out : List UInt8) : FsM ReadState := do
  let fbleft := crfsFblockData - fboff
  let out := out ++ (fp.fFblock.fbData.drop fboff).take fbleft
  let fp := { fp with fFpos := fp.fFpos + UInt32.ofNat fbleft }
  let size := size - fbleft
  match ← nextFblock fp with
  | some fp => pure ⟨fp, size, out, false⟩
  | none => pure ⟨fp, size, out, decide (size ≠ 0)⟩

/-- The loop over complete blocks; every round takes at least one byte. -/
def readBlocks : Nat → ReadState → FsM ReadState
  | 0, r => pure r
  | fuel + 1, r =>
    if r.bad = false ∧ r.size ≥ crfsFblockData then do
      let r ← readStep r.fp 0 r.size r.out
      readBlocks fuel r
    else pure r

/-- `crfs_read`: the return value, the bytes stored in the buffer, the handle. -/
def crfsRead (fp : CoFile) (size : Nat) : FsM (Except Errno Nat × List UInt8 × CoFile) := do
  if fp.fMagic ≠ coFileMagic then pure (.error .EBADF, [], fp)
  else do
    let inode ← crfsLookupInode fp.fInode
    if fp.fFpos ≥ inode.inFsize then pure (.ok 0, [], fp)
    else do
      let size :=
        if (fp.fFpos.toNat + size) % 2 ^ 32 > inode.inFsize.toNat
        then inode.inFsize.toNat - fp.fFpos.toNat else size
      if fp.fCurblock = 0 then pure (.ok 0, [], fp)
      else do
        let fboff := fp.fFpos.toNat % crfsFblockData
        if size ≥ crfsFblockData - fboff then do
          let r ← readStep fp fboff size []
          let r ← readBlocks size r
          if r.bad then pure (.ok 0, r.out, r.fp)
          else do
            let out := r.out ++ r.fp.fFblock.fbData.take r.size
            pure (.ok out.length, out,
              { r.fp with fFpos := r.fp.fFpos + UInt32.ofNat r.size })
        else do
          let out := (fp.fFblock.fbData.drop fboff).take size
          pure (.ok out.length, out, { fp with fFpos := fp.fFpos + UInt32.ofNat size })

/-- The handle, the bytes still to write and the count so far; an error once an
append has failed. -/
structure WriteState where
  fp : CoFile
  buf : List UInt8
  nwrote : Except Errno Nat

/-- Fill the current block from `fboff` on, write it out, and if more is to come
move to the next block, appending one at the end of the chain. -/
def writeStep (fp : CoFile) (fboff : Nat) (buf : List UInt8) (nwrote : Nat) : FsM WriteState := do
  let fbleft := crfsFblockData - fboff
  let fp := { fp with
    fFblock := fp.fFblock.setFbData fboff (buf.take fbleft)
    fFpos := fp.fFpos + UInt32.ofNat fbleft }
  let buf := buf.drop fbleft
  crfsWriteBlock fp.fCurblock fp.fFblock
  if buf = [] then pure ⟨fp, buf, .ok (nwrote + fbleft)⟩
  else do
    match ← nextFblock fp with
    | some fp => pure ⟨fp, buf, .ok (nwrote + fbleft)⟩
    | none => do
      match ← appendFblock fp with
      | (.ok (), fp) => pure ⟨fp, buf, .ok (nwrote + fbleft)⟩
      | (.error e, fp) => pure ⟨fp, [], .error e⟩

def writeBlocks : Nat → WriteState → FsM WriteState
  | 0, w => pure w
  | fuel + 1, w =>
    match w.nwrote with
    | .error _ => pure w
    | .ok n =>
      if w.buf.length ≥ crfsFblockData then do
        let w ← writeStep w.fp 0 w.buf n
        writeBlocks fuel w
      else pure w

/-- The end of `crfs_write`: the partial block, the last write of the current
block and the new length. The result of the inode update is not looked at. -/
def writeTail (w : WriteState) (fboff : Nat) : FsM (Except Errno Nat × CoFile) := do
  let fp :=
    if w.buf = [] then w.fp
    else { w.fp with
      fFblock := w.fp.fFblock.setFbData fboff w.buf
      fFpos := w.fp.fFpos + UInt32.ofNat w.buf.length }
  crfsWriteBlock fp.fCurblock fp.fFblock
  let inode ← crfsLookupInode fp.fInode
  if inode.inFsize < fp.fFpos then do
    let _ ← crfsWriteInode { inode with inFsize := fp.fFpos }
    pure (w.nwrote.map (· + w.buf.length), fp)
  else pure (w.nwrote.map (· + w.buf.length), fp)

/-- The part of `crfs_write` after a current block is there. -/
def writeData (fp : CoFile) (buf : List UInt8) : FsM (Except Errno Nat × CoFile) := do
  let fboff := fp.fFpos.toNat % crfsFblockData
  if buf.length ≥ crfsFblockData - fboff then do
    let w ← writeStep fp fboff buf 0
    let w ← writeBlocks buf.length w
    writeTail w 0
  else writeTail ⟨fp, buf, .ok 0⟩ fboff

def crfsWrite (fp : CoFile) (buf : List UInt8) : FsM (Except Errno Nat × CoFile) := do
  if fp.fMagic ≠ coFileMagic then pure (.error .EBADF, fp)
  else if fp.fCurblock = 0 ∨ fp.fNospc = true then do
    match ← appendFblock fp with
    | (.error e, fp) => pure (.error e, fp)
    | (.ok (), fp) => writeData fp buf
  else writeData fp buf

end Crfs
