import CobaltRom.Lib.Hoare
import CobaltRom.Memory.Memfuncs

/-! The heap of `sbrk` and the allocator on top of it (`sbrk.c`, `malloc/`). -/
namespace Malloc
open Hoare Memfuncs

abbrev ramHeapSpace : UInt32 := 0x01b00000
abbrev ramHeapSpaceMax : UInt32 := 0x01f00000
abbrev blocksize : UInt32 := 4096
abbrev heap : UInt32 := 4194304
abbrev finalFreeBlocks : Int := 8

/-- `union info`, by the names of its `free` member. -/
structure Info where
  size : Int
  next : Int
  prev : Int
  deriving DecidableEq, Repr

namespace Info

/-! The `busy` member lies over the same three integers. -/

abbrev type (i : Info) : Int := i.size
abbrev busySize (i : Info) : Int := i.next
abbrev nfree (i : Info) : Int := i.next
abbrev first (i : Info) : Int := i.prev

end Info

/-- The variables of the allocator, how far `sbrk` has come and the memory. `fragheads` is where
the linker put the list heads; the table of blocks is kept apart from the memory it lies in.

Where the heap is out of space `sbrk` prints a warning before it fails, and `printf` itself calls
`realloc` and `free` for its buffer, in the middle of what the allocator is doing. The warning is
left out and only noted in `warned`: a machine on which it is set is not the program's any more. -/
structure Machine where
  highWater : UInt32
  initialized : Bool
  heapbase : UInt32
  heapsize : Int
  heapinfo : Int → Info
  infoAddr : UInt32
  heapindex : Int
  heaplimit : Int
  fragblocks : Nat → Int
  fragheads : UInt32
  mem : Ram
  /-- `sbrk` has come to its warning. -/
  warned : Bool

abbrev HeapM := StateT Machine Option

namespace Machine

variable (m : Machine)

/-- `BLOCK (a)`. -/
def block (a : UInt32) : Int := (a - m.heapbase).toInt32.toInt.tdiv 4096 + 1

/-- `ADDRESS (b)`. -/
def address (b : Int) : UInt32 := UInt32.ofInt ((b - 1) * 4096) + m.heapbase

/-- `&_fraghead[log]`. -/
def fraghead (log : Nat) : UInt32 := m.fragheads + .ofNat (8 * log)

/-- `p->next` and `p->prev` of a `struct list`. -/
def listNext (p : UInt32) : UInt32 := m.mem.le32 p
def listPrev (p : UInt32) : UInt32 := m.mem.le32 (p + 4)

def setNext (p v : UInt32) : Machine := { m with mem := m.mem.store32 p v }
def setPrev (p v : UInt32) : Machine := { m with mem := m.mem.store32 (p + 4) v }

def setInfo (b : Int) (i : Info) : Machine :=
  { m with heapinfo := Function.update m.heapinfo b i }

def setSize (b v : Int) : Machine := m.setInfo b { m.heapinfo b with size := v }
def setFreeNext (b v : Int) : Machine := m.setInfo b { m.heapinfo b with next := v }
def setFreePrev (b v : Int) : Machine := m.setInfo b { m.heapinfo b with prev := v }

def setIndex (v : Int) : Machine := { m with heapindex := v }

abbrev setType (b v : Int) : Machine := m.setSize b v
abbrev setBusySize (b v : Int) : Machine := m.setFreeNext b v
abbrev setNfree (b v : Int) : Machine := m.setFreeNext b v
abbrev setFirst (b v : Int) : Machine := m.setFreePrev b v

end Machine

section Fields

variable {m : Machine} (b c v : Int)

@[simp]
theorem heapinfo_setIndex : (m.setIndex v).heapinfo = m.heapinfo := rfl

@[simp]
theorem heapindex_setSize : (m.setSize b v).heapindex = m.heapindex := rfl

@[simp]
theorem heapindex_setFreeNext : (m.setFreeNext b v).heapindex = m.heapindex := rfl

@[simp]
theorem size_setSize :
    ((m.setSize b v).heapinfo c).size = if c = b then v else (m.heapinfo c).size := by
  by_cases h : c = b <;> simp [Machine.setSize, Machine.setInfo, h]

@[simp]
theorem next_setSize : ((m.setSize b v).heapinfo c).next = (m.heapinfo c).next := by
  by_cases h : c = b <;> simp [Machine.setSize, Machine.setInfo, h]

@[simp]
theorem prev_setSize : ((m.setSize b v).heapinfo c).prev = (m.heapinfo c).prev := by
  by_cases h : c = b <;> simp [Machine.setSize, Machine.setInfo, h]

@[simp]
theorem size_setFreeNext : ((m.setFreeNext b v).heapinfo c).size = (m.heapinfo c).size := by
  by_cases h : c = b <;> simp [Machine.setFreeNext, Machine.setInfo, h]

@[simp]
theorem next_setFreeNext :
    ((m.setFreeNext b v).heapinfo c).next = if c = b then v else (m.heapinfo c).next := by
  by_cases h : c = b <;> simp [Machine.setFreeNext, Machine.setInfo, h]

@[simp]
theorem prev_setFreeNext : ((m.setFreeNext b v).heapinfo c).prev = (m.heapinfo c).prev := by
  by_cases h : c = b <;> simp [Machine.setFreeNext, Machine.setInfo, h]

@[simp]
theorem size_setFreePrev : ((m.setFreePrev b v).heapinfo c).size = (m.heapinfo c).size := by
  by_cases h : c = b <;> simp [Machine.setFreePrev, Machine.setInfo, h]

@[simp]
theorem next_setFreePrev : ((m.setFreePrev b v).heapinfo c).next = (m.heapinfo c).next := by
  by_cases h : c = b <;> simp [Machine.setFreePrev, Machine.setInfo, h]

@[simp]
theorem prev_setFreePrev :
    ((m.setFreePrev b v).heapinfo c).prev = if c = b then v else (m.heapinfo c).prev := by
  by_cases h : c = b <;> simp [Machine.setFreePrev, Machine.setInfo, h]

variable {b c}

theorem heapinfo_setSize_ne (h : c ≠ b) : (m.setSize b v).heapinfo c = m.heapinfo c :=
  Function.update_of_ne h _ _

theorem heapinfo_setFreeNext_ne (h : c ≠ b) : (m.setFreeNext b v).heapinfo c = m.heapinfo c :=
  Function.update_of_ne h _ _

theorem heapinfo_setFreePrev_ne (h : c ≠ b) : (m.setFreePrev b v).heapinfo c = m.heapinfo c :=
  Function.update_of_ne h _ _

end Fields

/-- The end of the memory, the limit of the heap and the bytes exchanged. -/
def Machine.withCore (m : Machine) (brk : UInt32) (limit : Int) (mem : Ram) : Machine :=
  { m with highWater := brk, heaplimit := limit, mem := mem }

section Core

variable (m : Machine) (brk : UInt32) (limit : Int) (mem : Ram)

@[simp]
theorem heapinfo_withCore : (m.withCore brk limit mem).heapinfo = m.heapinfo := rfl

@[simp]
theorem warned_withCore : (m.withCore brk limit mem).warned = m.warned := rfl

@[simp]
theorem heapindex_withCore : (m.withCore brk limit mem).heapindex = m.heapindex := rfl

@[simp]
theorem heapbase_withCore : (m.withCore brk limit mem).heapbase = m.heapbase := rfl

@[simp]
theorem mem_withCore : (m.withCore brk limit mem).mem = mem := rfl

@[simp]
theorem heaplimit_withCore : (m.withCore brk limit mem).heaplimit = limit := rfl

@[simp]
theorem fragheads_withCore : (m.withCore brk limit mem).fragheads = m.fragheads := rfl

@[simp]
theorem fragblocks_withCore : (m.withCore brk limit mem).fragblocks = m.fragblocks := rfl

theorem withCore_self : m.withCore m.highWater m.heaplimit m.mem = m := rfl

theorem withCore_mem (mem' : Ram) :
    Machine.withCore { m with mem := mem' } brk limit mem = m.withCore brk limit mem := rfl

end Core

/-- Only the table of blocks and the index of the search may differ. -/
def OnlyTable (m m' : Machine) : Prop :=
  m' = { m with heapinfo := m'.heapinfo, heapindex := m'.heapindex }

namespace OnlyTable

variable {m m' m'' : Machine} {b v : Int}

theorem refl (m : Machine) : OnlyTable m m := rfl

theorem trans (h : OnlyTable m m') (h' : OnlyTable m' m'') : OnlyTable m m'' :=
  Eq.trans h' (congrArg (fun s => { s with
    heapinfo := m''.heapinfo, heapindex := m''.heapindex }) h)

theorem heapbase (h : OnlyTable m m') : m'.heapbase = m.heapbase := by rw [h]

theorem mem (h : OnlyTable m m') : m'.mem = m.mem := by rw [h]

theorem warned (h : OnlyTable m m') : m'.warned = m.warned := by rw [h]

theorem heaplimit (h : OnlyTable m m') : m'.heaplimit = m.heaplimit := by rw [h]

theorem fragheads (h : OnlyTable m m') : m'.fragheads = m.fragheads := by rw [h]

theorem fragblocks (h : OnlyTable m m') : m'.fragblocks = m.fragblocks := by rw [h]

theorem setSize (h : OnlyTable m m') : OnlyTable m (m'.setSize b v) := h.trans rfl

theorem setFreeNext (h : OnlyTable m m') : OnlyTable m (m'.setFreeNext b v) := h.trans rfl

theorem setFreePrev (h : OnlyTable m m') : OnlyTable m (m'.setFreePrev b v) := h.trans rfl

theorem setIndex (h : OnlyTable m m') : OnlyTable m (m'.setIndex v) := h.trans rfl

end OnlyTable

/-- `BLOCKIFY (size)`. -/
def blockify (size : UInt32) : Int := ((size + blocksize - 1) / blocksize).toNat

/-! ### Getting memory -/

/-- `size` is the bit pattern of an `int`. -/
def sbrk (size : UInt32) : HeapM UInt32 := do
  let m ← get
  let brk := m.highWater
  if m.highWater + size > ramHeapSpaceMax then do
    -- `printf ("WARNING!  Rom out of heap space.\n")`
    set { m with warned := true }
    pure 0
  else do
    set { m with
      highWater := m.highWater + size
      mem := if size.toInt32.toInt > 0 then (memset brk 0 size m.mem).2 else m.mem }
    pure brk

def defaultMorecore (size : UInt32) : HeapM UInt32 := do
  let result ← sbrk size
  pure (if result = 0xffffffff then 0 else result)

def align (size : UInt32) : HeapM UInt32 := do
  let result ← defaultMorecore size
  let adj := result % blocksize
  if adj ≠ 0 then do
    let _ ← defaultMorecore (blocksize - adj)
    pure (result + (blocksize - adj))
  else pure result

/-- `sizeof (union info)`. -/
abbrev infoBytes : UInt32 := 12

def mallocInitialize : HeapM Bool := do
  modify fun m => { m with heapsize := (heap / blocksize).toNat }
  let info ← align (heap / blocksize * infoBytes)
  modify fun m => { m with infoAddr := info }
  if info = 0 then pure false
  else do
    modify fun m => { m with
      heapinfo := fun _ => ⟨0, 0, 0⟩
      heapindex := 0
      heapbase := info
      initialized := true }
    pure true

/-! ### Giving back blocks -/

/-- The end of the first loop in `free`: back along the list to a cluster that is not behind. -/
def backTo (block : Int) : Nat → Int → HeapM Int
  | 0, _ => failure
  | fuel + 1, i => do
    let m ← get
    if i > block then backTo block fuel (m.heapinfo i).prev
    else pure i

/-- The end of the second loop: forth to a cluster behind, or around. -/
def forthTo (block : Int) : Nat → Int → HeapM Int
  | 0, _ => failure
  | fuel + 1, i => do
    let m ← get
    let i := (m.heapinfo i).next
    if i > 0 ∧ i < block then forthTo block fuel i
    else pure i

/-- The free cluster before the block. -/
def findPrevious (fuel : Nat) (block : Int) : HeapM Int := do
  let m ← get
  let i := m.heapindex
  if i > block then backTo block fuel i
  else do
    let i ← forthTo block fuel i
    let m ← get
    pure (m.heapinfo i).prev

/-- Put the block on the list behind `i`, or add it to `i`; the cluster it is in. -/
def linkBehind (block i : Int) : HeapM Int := do
  let m ← get
  if block = i + (m.heapinfo i).size then do
    modify fun m => m.setSize i ((m.heapinfo i).size + (m.heapinfo block).busySize)
    pure i
  else do
    modify fun m => m.setSize block (m.heapinfo block).busySize
    modify fun m => m.setFreeNext block (m.heapinfo i).next
    modify fun m => m.setFreePrev block i
    modify fun m => m.setFreeNext i block
    modify fun m =>
      let n := (m.heapinfo block).next
      m.setFreePrev n block
    pure block

/-- Add the cluster behind to the block. -/
def mergeNext (block : Int) : HeapM Unit := do
  let m ← get
  if block + (m.heapinfo block).size = (m.heapinfo block).next then do
    modify fun m =>
      let n := (m.heapinfo block).next
      m.setSize block ((m.heapinfo block).size + (m.heapinfo n).size)
    modify fun m =>
      let n := (m.heapinfo block).next
      m.setFreeNext block (m.heapinfo n).next
    modify fun m =>
      let n := (m.heapinfo block).next
      m.setFreePrev n block
  else pure ()

/-- Return the last cluster to the system if it is large; where the next search begins. -/
def returnTail (block : Int) : HeapM Int := do
  let m ← get
  let blocks := (m.heapinfo block).size
  if blocks ≥ finalFreeBlocks ∧ block + blocks = m.heaplimit then do
    let brk ← defaultMorecore 0
    if brk = m.address (block + blocks) then do
      modify fun m => { m with heaplimit := m.heaplimit - blocks }
      let _ ← defaultMorecore (UInt32.ofInt (-blocks * 4096))
      modify fun m =>
        let p := (m.heapinfo block).prev
        m.setFreeNext p (m.heapinfo block).next
      modify fun m =>
        let n := (m.heapinfo block).next
        m.setFreePrev n (m.heapinfo block).prev
      let m ← get
      pure (m.heapinfo block).prev
    else pure block
  else pure block

/-- `free` of a pointer to whole blocks. -/
def freeBlocks (fuel : Nat) (ptr : UInt32) : HeapM Unit := do
  if ptr = 0 then pure ()
  else do
    let m ← get
    let block := m.block ptr
    let i ← findPrevious fuel block
    let block ← linkBehind block i
    mergeNext block
    let block ← returnTail block
    modify fun m => m.setIndex block

/-! ### Handing out blocks -/

/-- `while (end > newsize) newsize *= 2`. -/
def doubleTo (limit : Int) : Nat → Int → HeapM Int
  | 0, _ => failure
  | fuel + 1, newsize => if limit > newsize then doubleTo limit fuel (newsize * 2) else pure newsize

def morecore (fuel : Nat) (size : UInt32) : HeapM UInt32 := do
  let result ← align size
  if result = 0 then pure 0
  else do
    let m ← get
    let last := m.block (result + size)
    if last > m.heapsize then do
      let newsize ← doubleTo last fuel m.heapsize
      let newinfo ← align (UInt32.ofInt newsize * infoBytes)
      if newinfo = 0 then do
        let _ ← defaultMorecore (0 - size)
        pure 0
      else do
        let old := m.infoAddr
        modify fun m => { m with
          heapinfo := fun b => if b < m.heapsize then m.heapinfo b else ⟨0, 0, 0⟩ }
        modify fun m => m.setType (m.block old) 0
        modify fun m => m.setBusySize (m.block old) (blockify (UInt32.ofInt m.heapsize * infoBytes))
        modify fun m => { m with infoAddr := newinfo }
        freeBlocks fuel old
        modify fun m => { m with heapsize := newsize }
        modify fun m => { m with heaplimit := m.block (result + size) }
        pure result
    else do
      modify fun m => { m with heaplimit := m.block (result + size) }
      pure result

/-- How the search of the free list ends: with a cluster, or with memory from the system. -/
inductive Found where
  | cluster (block : Int)
  | fresh (result : UInt32)

/-- Let the last cluster grow, if it is at the end of the heap and the system has more memory. -/
def growLast (fuel : Nat) (blocks : Int) : HeapM Bool := do
  let m ← get
  let block := (m.heapinfo 0).prev
  let lastblocks := (m.heapinfo block).size
  if m.heaplimit ≠ 0 ∧ block + lastblocks = m.heaplimit then do
    let brk ← defaultMorecore 0
    if brk = m.address (block + lastblocks) then do
      let more ← morecore fuel (UInt32.ofInt ((blocks - lastblocks) * 4096))
      if more ≠ 0 then do
        modify fun m =>
          let block := (m.heapinfo 0).prev
          m.setSize block ((m.heapinfo block).size + (blocks - lastblocks))
        pure true
      else pure false
    else pure false
  else pure false

def newBlocks (fuel : Nat) (blocks : Int) : HeapM UInt32 := do
  let result ← morecore fuel (UInt32.ofInt (blocks * 4096))
  if result = 0 then pure 0
  else do
    let m ← get
    let block := m.block result
    modify fun m => m.setType block 0
    modify fun m => m.setBusySize block blocks
    pure result

/-- Around the free list from `start`; after one turn more memory is needed. -/
def search (fuel : Nat) (blocks start : Int) : Nat → Int → HeapM Found
  | 0, _ => failure
  | turns + 1, block => do
    let m ← get
    if (m.heapinfo block).size < blocks then do
      let block := (m.heapinfo block).next
      if block = start then do
        let grown ← growLast fuel blocks
        if grown then do
          let m ← get
          search fuel blocks start turns (m.heapinfo 0).prev
        else do
          let result ← newBlocks fuel blocks
          pure (.fresh result)
      else search fuel blocks start turns block
    else pure (.cluster block)

/-- Take the first blocks of a cluster. -/
def takeBlocks (block blocks : Int) : HeapM UInt32 := do
  let m ← get
  let result := m.address block
  if (m.heapinfo block).size > blocks then do
    let rest := block + blocks
    modify fun m => m.setSize rest ((m.heapinfo block).size - blocks)
    modify fun m => m.setFreeNext rest (m.heapinfo block).next
    modify fun m => m.setFreePrev rest (m.heapinfo block).prev
    modify fun m =>
      let n := (m.heapinfo block).next
      m.setFreePrev n rest
    modify fun m => m.setIndex rest
    modify fun m =>
      let p := (m.heapinfo block).prev
      m.setFreeNext p rest
  else do
    modify fun m =>
      let n := (m.heapinfo block).next
      m.setFreePrev n (m.heapinfo block).prev
    modify fun m =>
      let p := (m.heapinfo block).prev
      m.setFreeNext p (m.heapinfo block).next
    modify fun m => m.setIndex (m.heapinfo block).next
  modify fun m => m.setType block 0
  modify fun m => m.setBusySize block blocks
  pure result

/-- The large case of `malloc`. -/
def mallocBlocks (fuel : Nat) (size : UInt32) : HeapM UInt32 := do
  let m ← get
  let blocks := blockify size
  match ← search fuel blocks m.heapindex fuel m.heapindex with
  | .fresh result => pure result
  | .cluster block => takeBlocks block blocks

/-! ### Fragments -/

/-- `for (log = 1; (size >>= 1) != 0; ++log)`. -/
def logLoop : Nat → UInt32 → Nat → Nat
  | 0, _, log => log
  | n + 1, size, log =>
    let size := size >>> 1
    if size ≠ 0 then logLoop n size (log + 1) else log

/-- The logarithm of the fragment size. -/
def fragLog (size : UInt32) : Nat := logLoop 32 (size - 1) 1

/-- Take a fragment off its list. -/
def unlinkFragment (next : UInt32) : HeapM Unit := do
  modify fun m => m.setNext (m.listPrev next) (m.listNext next)
  let m ← get
  if m.listNext next ≠ 0 then
    modify fun m => m.setPrev (m.listNext next) (m.listPrev next)

/-- Count a fragment less in its block; the first free one is now the one behind it. -/
def countTaken (log : Nat) (next : UInt32) : HeapM Unit := do
  let m ← get
  let block := m.block next
  modify fun m => m.setNfree block ((m.heapinfo block).nfree - 1)
  let m ← get
  if (m.heapinfo block).nfree ≠ 0 then
    modify fun m => m.setFirst block
      ((m.listNext next % blocksize) >>> (.ofNat log : UInt32)).toNat

/-- Hand out the first fragment of a list. -/
def popFragment (log : Nat) (next : UInt32) : HeapM UInt32 := do
  unlinkFragment next
  countTaken log next
  pure next

/-- Put a fragment at the front of the list of its size. -/
def pushFragment (log : Nat) (next : UInt32) : HeapM Unit := do
  modify fun m => m.setNext next (m.listNext (m.fraghead log))
  modify fun m => m.setPrev next (m.fraghead log)
  modify fun m => m.setNext (m.listPrev next) next
  let m ← get
  if m.listNext next ≠ 0 then
    modify fun m => m.setPrev (m.listNext next) next

/-- All fragments of a new block but the first; the next one is `i`. -/
def linkFragments (log : Nat) (result : UInt32) : Nat → Nat → HeapM Unit
  | 0, _ => pure ()
  | n + 1, i => do
    pushFragment log (result + (.ofNat i : UInt32) <<< (.ofNat log : UInt32))
    linkFragments log result n (i + 1)

/-- Break a new block into fragments. -/
def newFragments (fuel log : Nat) : HeapM UInt32 := do
  let result ← mallocBlocks fuel blocksize
  if result = 0 then pure 0
  else do
    modify fun m => { m with
      fragblocks := Function.update m.fragblocks log (m.fragblocks log + 1) }
    let count := 4096 >>> log - 1
    linkFragments log result count 1
    modify fun m =>
      let block := m.block result
      m.setInfo block ⟨log, count, count⟩
    pure result

/-- `sizeof (struct list)`. -/
abbrev listBytes : UInt32 := 8

def malloc (fuel : Nat) (size : UInt32) : HeapM UInt32 := do
  let m ← get
  let ready ← if m.initialized then pure true else mallocInitialize
  if ready = false then pure 0
  else if size = 0 then pure 0
  else do
    let size := if size < listBytes then listBytes else size
    if size ≤ blocksize / 2 then do
      let log := fragLog size
      let m ← get
      let next := m.listNext (m.fraghead log)
      if next ≠ 0 then popFragment log next
      else newFragments fuel log
    else mallocBlocks fuel size

/-- `n` steps along a list of fragments. -/
def listAfter (m : Machine) : Nat → UInt32 → UInt32
  | 0, p => p
  | n + 1, p => listAfter m n (m.listNext p)

/-- Take the fragments of a block, the first of them `prev`, off their list. -/
def dropFragments (log : Nat) (prev : UInt32) : HeapM Unit := do
  let m ← get
  let next := listAfter m (4096 >>> log - 1) prev
  modify fun m => m.setNext (m.listPrev prev) next
  if next ≠ 0 then
    modify fun m => m.setPrev next (m.listPrev prev)

/-- Link a fragment in behind another. -/
def linkAfter (ptr prev : UInt32) : HeapM Unit := do
  modify fun m => m.setNext ptr (m.listNext prev)
  modify fun m => m.setPrev ptr prev
  modify fun m => m.setNext prev ptr
  let m ← get
  if m.listNext ptr ≠ 0 then
    modify fun m => m.setPrev (m.listNext ptr) ptr

/-- `free` of a fragment of `block`. -/
def freeFragment (fuel : Nat) (ptr : UInt32) (block : Int) (log : Nat) : HeapM Unit := do
  let m ← get
  let prev := m.address block + UInt32.ofInt (m.heapinfo block).first <<< (.ofNat log : UInt32)
  if (m.heapinfo block).nfree = (4096 >>> log : Nat) - 1 ∧ m.fragblocks log > 1 then do
    modify fun m => { m with
      fragblocks := Function.update m.fragblocks log (m.fragblocks log - 1) }
    dropFragments log prev
    modify fun m => m.setType block 0
    modify fun m => m.setBusySize block 1
    let m ← get
    freeBlocks fuel (m.address block)
  else if (m.heapinfo block).nfree ≠ 0 then do
    linkAfter ptr prev
    modify fun m => m.setNfree block ((m.heapinfo block).nfree + 1)
  else do
    modify fun m => m.setNfree block 1
    modify fun m => m.setFirst block ((ptr % blocksize) >>> (.ofNat log : UInt32)).toNat
    pushFragment log ptr

def free (fuel : Nat) (ptr : UInt32) : HeapM Unit := do
  if ptr = 0 then pure ()
  else do
    let m ← get
    let block := m.block ptr
    if (m.heapinfo block).type = 0 then freeBlocks fuel ptr
    else freeFragment fuel ptr block (m.heapinfo block).type.toNat

/-! ### Changing the size -/

/-- Take `blocks` blocks back that `free` has put on the list; they may have become part of the
cluster before. -/
def unfree (fuel : Nat) (block blocks : Int) : HeapM Unit := do
  let m ← get
  if m.heapindex = block then do
    let _ ← malloc fuel (UInt32.ofInt (blocks * 4096))
  else do
    let previous ← malloc fuel (UInt32.ofInt ((block - m.heapindex) * 4096))
    let _ ← malloc fuel (UInt32.ofInt (blocks * 4096))
    free fuel previous

/-- `realloc` of whole blocks. -/
def reallocBlocks (fuel : Nat) (ptr size : UInt32) (block : Int) : HeapM UInt32 := do
  if size ≤ blocksize / 2 then do
    let result ← malloc fuel size
    if result ≠ 0 then
      modify fun m => { m with mem := (memcpy result ptr size m.mem).2 }
      free fuel ptr
    pure result
  else do
    let m ← get
    let blocks := blockify size
    if blocks < (m.heapinfo block).busySize then do
      let rest := block + blocks
      modify fun m => m.setType rest 0
      modify fun m => m.setBusySize rest ((m.heapinfo block).busySize - blocks)
      modify fun m => m.setBusySize block blocks
      free fuel (m.address rest)
      pure ptr
    else if blocks = (m.heapinfo block).busySize then pure ptr
    else do
      let blocks := (m.heapinfo block).busySize
      let oldlimit := m.heaplimit
      modify fun m => { m with heaplimit := 0 }
      free fuel ptr
      modify fun m => { m with heaplimit := oldlimit }
      let result ← malloc fuel size
      if result = 0 then do
        unfree fuel block blocks
        pure 0
      else do
        if ptr ≠ result then
          modify fun m => { m with
            mem := (memmove result ptr (UInt32.ofInt (blocks * 4096)) m.mem).2 }
        pure result

/-- `realloc` of a fragment. -/
def reallocFragment (fuel : Nat) (ptr size : UInt32) (log : Nat) : HeapM UInt32 := do
  if size.toInt32.toInt > 2 ^ (log - 1) ∧ size.toInt32.toInt ≤ 2 ^ log then pure ptr
  else do
    let result ← malloc fuel size
    if result = 0 then pure 0
    else do
      modify fun m => { m with
        mem := (memcpy result ptr (UInt32.ofInt (min size.toInt32.toInt (2 ^ log))) m.mem).2 }
      free fuel ptr
      pure result

def realloc (fuel : Nat) (ptr size : UInt32) : HeapM UInt32 := do
  if ptr = 0 then malloc fuel size
  else if size = 0 then do
    free fuel ptr
    malloc fuel 0
  else do
    let m ← get
    let block := m.block ptr
    if (m.heapinfo block).type = 0 then reallocBlocks fuel ptr size block
    else reallocFragment fuel ptr size (m.heapinfo block).type.toNat

end Malloc
