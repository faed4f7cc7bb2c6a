import CobaltRom.Crfs.Dir

/-! Formatting and mounting. -/
namespace Crfs
open WriteBack

/-- Mark the blocks of a file chain as used. -/
def markChain : Nat → BlockId → FsM (Option Unit)
  | 0, b => pure (if b = 0 then some () else none)
  | fuel + 1, b =>
    if b = 0 then pure (some ())
    else do
      markBlock b
      let f ← crfsReadBlock b
      markChain fuel f.fbNext

/-- `mark_inode`: an inode, its blocks and every inode its entries name that is
not marked yet. -/
def markInode : Nat → InodeId → FsM (Option Unit)
  | 0, _ => pure none
  | fuel + 1, inode => do
    markInum inode
    let inn ← crfsLookupInode inode
    if inn.isDir then do
      markBlock inn.inFirst
      let d ← crfsReadBlock inn.inFirst
      forEach (fun de : Dirent => do
        let g ← Prog.getGlob
        if de.deInode ≠ 0 ∧ g.inodeFreemap.isset de.deInode.toNat = false
        then markInode fuel de.deInode else pure (some ()))
        d.dEntries
    else markChain walkFuel inn.inFirst

/-- The loop that looks for the newest of the valid super blocks. -/
def bestSuper : List Block → Nat → Int → UInt32 → Int
  | [], _, which, _ => which
  | sb :: rest, i, which, sbver =>
    if sb.sbBlockver > sbver then bestSuper rest (i + 1) i sb.sbBlockver
    else bestSuper rest (i + 1) which sbver

/-- The two calls of `freemap_init`, and whether both got their memory. -/
def mountMaps (mem : Nat → Bool) (g : Globals) (which : Int) (sb : Block) : Bool × Globals :=
  let (i, bm) := freemapTryInit (mem 0) (mem 1) g.blockFreemap
    (sb.sbFssize.toNat / crfsBlockSize / 8)
  let (j, im) := freemapTryInit (mem 2) (mem 3) g.inodeFreemap (65536 / 8)
  (i && j,
    { g with superBlock := sb, crfsWhichSuper := which, blockFreemap := bm, inodeFreemap := im })

/-- The globals with which marking starts when they did. -/
def mountGlobals (g : Globals) (which : Int) (sb : Block) : Globals :=
  { g with
    superBlock := sb
    crfsWhichSuper := which
    blockFreemap := freemapInit (sb.sbFssize.toNat / crfsBlockSize / 8)
    inodeFreemap := freemapInit (65536 / 8) }

/-- The body of `crfs_init` after the cache is dropped: `some false` for -1. `mem k` is the answer
to call `k` of `malloc` for the two free maps. -/
def initBody (mem : Nat → Bool := fun _ => true) : FsM (Option Bool) := do
  let g ← Prog.getGlob
  let sb0 ← crfsReadBlock (sbBlocknum 0)
  let sb1 ← crfsReadBlock (sbBlocknum 1)
  let sblocks := [sb0, sb1].filter validSuper
  let which := bestSuper sblocks 0 g.crfsWhichSuper 0
  match if which < 0 then none else sblocks[which.toNat]? with
  | none => pure (some false)
  | some sb => do
    let (i, g) := mountMaps mem g which sb
    Prog.setGlob g
    if i = false then pure (some false)
    else do
      markInum 0
      markBlock (sbBlocknum 0)
      markBlock (sbBlocknum 1)
      let _ ← forEach (fun i => do
        if sb.sbVtable i ≠ 0 then do
          markBlock (sb.sbVtable i)
          pure (some ())
        else pure (some ())) (List.range crfsSbVtableLen)
      match ← markInode (walkFuel + 1) sb.sbRoot with
      | none => pure none
      | some () => do
        let g ← Prog.getGlob
        Prog.setGlob { g with crfsPwd := sb.sbRoot }
        pure (some true)

/-- `crfs_init`; no result if marking does not end. `entries` is how many copies of blocks there
is memory for: `cache_add` asks again for as long as it gets none. -/
def crfsInit (c : Machine) (mem : Nat → Bool := fun _ => true) (entries : Nat := 65536) :
    Option (Bool × Machine) :=
  match (initBody mem).exec { c with store := ⟨c.store.disk, []⟩ } with
  | (none, _) => none
  | (some r, c) => if c.store.cache.length ≤ entries then some (r, c) else none

/-- The super block `crfs_mkfs` writes to slot `i`. -/
def mkfsSuper (size : UInt32) (i : UInt32) : Block :=
  let sb : Block := ByteBuf.put zeroBlock 0 Block.crfsMagic
  let sb : Block := ((sb.setSbFssize (size &&& ~~~ 0x1000)).setSbRoot 1).setSbVtable 0 2
  let sb : Block := sb.setSbBlockver i
  sb.setSbChecksum (crfsChecksum sb)

def mkfsBody (size : UInt32) : FsM Unit := do
  crfsWriteBlock (sbBlocknum 0) (mkfsSuper size 0)
  crfsWriteBlock (sbBlocknum 1) (mkfsSuper size 1)
  let g ← Prog.getGlob
  Prog.setGlob { g with crfsWhichSuper := 1, superBlock := mkfsSuper size 1 }
  crfsWriteBlock 2 (zeroBlock.setItInode 1 ⟨1, 3, 3, 0, fmaskDir⟩)
  crfsWriteBlock 3 (newDirectory 1 1)

def crfsMkfs (size : UInt32) (c : Machine) : Machine :=
  cacheFlush ((mkfsBody size).exec c).2

end Crfs
