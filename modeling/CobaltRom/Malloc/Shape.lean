import CobaltRom.Lib.DoubleLink
import CobaltRom.Lib.Tiling
import CobaltRom.Malloc.Heap

/-! What the heap consists of, and when the variables of the allocator say so. -/
namespace Malloc
open DoubleLink Tiling

/-! ### Addresses -/

/-- The address of a block. -/
def blockAddr (b : Int) : UInt32 := UInt32.ofInt ((b - 1) * 4096) + ramHeapSpace

/-- The address of fragment `i` of a block. -/
def fragAddr (b : Int) (log i : Nat) : UInt32 := blockAddr b + .ofNat (i * 2 ^ log)

theorem toInt_toInt32 (a : UInt32) : a.toInt32.toInt = (a.toNat : Int).bmod (2 ^ 32) :=
  BitVec.toInt_eq_toNat_bmod a.toBitVec

theorem toNat_ofInt {k : Int} (hpos : 0 ≤ k) (h : k < 2 ^ 32) :
    ((UInt32.ofInt k).toNat : Int) = k := by
  unfold UInt32.ofInt
  rw [UInt32.toNat_ofNat']
  omega

theorem toNat_blockAddr {b : Int} (hpos : 1 ≤ b) (h : b ≤ 1025) :
    ((blockAddr b).toNat : Int) = 0x01b00000 + (b - 1) * 4096 := by
  have hoff := toNat_ofInt (k := (b - 1) * 4096) (by omega) (by omega)
  have hbase : ramHeapSpace.toNat = 0x01b00000 := rfl
  rw [blockAddr, UInt32.toNat_add, hbase]
  omega

theorem frag_lt {log i : Nat} (hlog : log ≤ 12) (hi : i < 2 ^ (12 - log)) :
    i * 2 ^ log + 2 ^ log ≤ 4096 := by
  calc i * 2 ^ log + 2 ^ log = (i + 1) * 2 ^ log := (Nat.succ_mul i _).symm
    _ ≤ 2 ^ (12 - log) * 2 ^ log := Nat.mul_le_mul_right _ hi
    _ = 4096 := by rw [← Nat.pow_add, Nat.sub_add_cancel hlog]

theorem toNat_fragAddr {b : Int} {log i : Nat} (hpos : 1 ≤ b) (h : b ≤ 1024) (hlog : log ≤ 12)
    (hi : i < 2 ^ (12 - log)) :
    ((fragAddr b log i).toNat : Int) = 0x01b00000 + (b - 1) * 4096 + (i * 2 ^ log : Nat) := by
  have hblock := toNat_blockAddr hpos (by omega)
  have hlt := frag_lt hlog hi
  rw [fragAddr, UInt32.toNat_add, UInt32.toNat_ofNat']
  generalize i * 2 ^ log = k at hlt
  generalize 2 ^ log = len at hlt
  omega

/-! ### Clusters and fragments -/

inductive Use where
  | free
  | large
  | frag (log : Nat)
  deriving DecidableEq, Repr

/-- Blocks in a row: a free cluster, a large area or a block of fragments. -/
structure Cluster where
  start : Int
  size : Int
  use : Use
  deriving DecidableEq, Repr

/-- The clusters up to the limit, the free fragments of each block of fragments in the order of
their list, and the blocks that have any in the order of the list. -/
structure Shape where
  lim : Int
  clusters : List Cluster
  group : Int → List Nat
  order : Nat → List Int

/-- Where the free clusters begin. -/
def frees (cs : List Cluster) : List Int :=
  (cs.filter fun c => c.use = .free).map Cluster.start

/-- The blocks that are broken into fragments of a size. -/
def fragBlocks (log : Nat) (cs : List Cluster) : List Int :=
  (cs.filter fun c => c.use = .frag log).map Cluster.start

/-- The list of free fragments of a size. -/
def Shape.nodes (s : Shape) (log : Nat) : List UInt32 :=
  (s.order log).flatMap fun b => (s.group b).map (fragAddr b log)

/-- What the table says of a cluster. -/
def Entry (i : Info) (group : List Nat) (c : Cluster) : Prop :=
  match c.use with
  | .free => i.size = c.size
  | .large => i.type = 0 ∧ i.busySize = c.size
  | .frag log => c.size = 1 ∧ 3 ≤ log ∧ log < 12 ∧ i.type = log ∧ i.nfree = group.length ∧
      ∀ f ∈ group.head?, i.first = f

/-- The links of the table run around the free clusters. -/
def Ring (info : Int → Info) (l : List Int) : Prop :=
  Threaded (fun b => (info b).next) (fun b => (info b).prev) (fun _ => True) 0 0 l

/-- The table of blocks describes the clusters. -/
structure Blocks (info : Int → Info) (lim : Int) (group : Int → List Nat) (cs : List Cluster) :
    Prop where
  tiled : Tiled Cluster.start Cluster.size 4 cs lim
  entries : ∀ c ∈ cs, Entry (info c.start) (group c.start) c
  origin : (info 0).size = 0
  ring : Ring info (frees cs)

/-- No two free clusters lie side by side. -/
def Apart (cs : List Cluster) : Prop := cs.IsChain fun c d => ¬ (c.use = .free ∧ d.use = .free)

/-- The free fragments of one list, in order behind its head. -/
def Fragments (m : Machine) (h : UInt32) (l : List UInt32) : Prop :=
  Threaded m.listNext m.listPrev (· ≠ 0) h 0 l

/-- The lists in memory run through the free fragments. -/
structure Frags (m : Machine) (s : Shape) : Prop where
  inside : ∀ log, ∀ b ∈ fragBlocks log s.clusters, ∀ i ∈ s.group b, i < 2 ^ (12 - log)
  groups : ∀ b, (s.group b).Nodup
  orders : ∀ log, (s.order log).Nodup
  listed : ∀ log b, b ∈ s.order log ↔ b ∈ fragBlocks log s.clusters ∧ s.group b ≠ []
  lists : ∀ log, log < 12 → Fragments m (m.fraghead log) (s.nodes log)
  counts : ∀ log, m.fragblocks log = (fragBlocks log s.clusters).length

/-- The list heads are words outside the heap. -/
structure Placed (fragheads : UInt32) : Prop where
  aligned : fragheads.toNat % 4 = 0
  outside : fragheads.toNat + 96 ≤ ramHeapSpace.toNat ∨
    ramHeapSpaceMax.toNat ≤ fragheads.toNat ∧ fragheads.toNat + 96 ≤ 2 ^ 32

/-- The allocator has been initialized, and the memory it has got ends at a block. -/
structure Ready (m : Machine) (lim : Int) : Prop where
  initialized : m.initialized = true
  heapbase : m.heapbase = ramHeapSpace
  heapsize : m.heapsize = 1024
  highWater : m.highWater = blockAddr lim
  placed : Placed m.fragheads
  low : 4 ≤ lim
  high : lim ≤ 1024

theorem Ready.only {m m' : Machine} {lim : Int} (hr : Ready m lim) (h : OnlyTable m m') :
    Ready m' lim := by
  rw [h]
  exact ⟨hr.initialized, hr.heapbase, hr.heapsize, hr.highWater, hr.placed, hr.low, hr.high⟩

theorem Ready.withMem {m : Machine} {lim : Int} (hr : Ready m lim) (mem : Ram) :
    Ready { m with mem := mem } lim :=
  ⟨hr.initialized, hr.heapbase, hr.heapsize, hr.highWater, hr.placed, hr.low, hr.high⟩

theorem Ready.spent {m : Machine} {lim : Int} (hr : Ready m lim) (mem : Ram) :
    Ready { m with mem := mem, warned := true } lim :=
  ⟨hr.initialized, hr.heapbase, hr.heapsize, hr.highWater, hr.placed, hr.low, hr.high⟩

theorem Ready.withCore {m : Machine} {lim lim' limit : Int} {brk : UInt32} (hr : Ready m lim)
    (hbrk : brk = blockAddr lim') (hlow : 4 ≤ lim') (hhigh : lim' ≤ 1024) (mem : Ram) :
    Ready (m.withCore brk limit mem) lim' :=
  ⟨hr.initialized, hr.heapbase, hr.heapsize, hbrk, hr.placed, hlow, hhigh⟩

/-- The variables of the allocator describe the heap. -/
structure Describes (m : Machine) (s : Shape) : Prop where
  ready : Ready m s.lim
  blocks : Blocks m.heapinfo s.lim s.group s.clusters
  frags : Frags m s
  apart : Apart s.clusters
  index : m.heapindex ∈ 0 :: frees s.clusters

end Malloc
