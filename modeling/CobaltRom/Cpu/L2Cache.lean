import CobaltRom.Cpu.Msr

/-! What `systype_init_proc_intel` finds out about a processor, and the size of its L2 cache. Output
is left out. -/
namespace Cpu

structure Regs where
  eax : UInt32
  ebx : UInt32
  ecx : UInt32
  edx : UInt32

inductive BoardType
  | unknown | pacifica | carmel | monterey | alpine
  deriving DecidableEq

/-- The processor and the board. `cpuid2 i` is the result of call number `i` of `cpuid(2)`. -/
structure Processor where
  cpuid0 : Regs
  cpuid1 : Regs
  cpuid2 : Nat → Regs
  ticksPerUs : UInt32
  boardtype : BoardType
  gpio : UInt8
  delayCacheFlag : Bool
  lapicId : UInt8
  lapicVersion : UInt8
  lapicBsp : UInt8

structure CpuInfo where
  vendorString : List UInt8
  family : UInt8
  model : UInt8
  stepping : UInt8
  type : UInt8
  featureMask : UInt32
  l2Cache : UInt32
  clockRatio : UInt8
  cpuClock : UInt32
  hostBusClock : UInt32
  bsp : UInt8
  apicId : UInt8
  apicVersion : UInt8

structure IntelCacheEntry where
  key : UInt8
  size : UInt32
  desc : Option String

def intelCacheTable : List IntelCacheEntry :=
  [⟨0x40, 0, some "None"⟩,
   ⟨0x41, 128, some "128K, 4-way"⟩,
   ⟨0x42, 256, some "256K, 4-way"⟩,
   ⟨0x43, 512, some "512K, 4-way"⟩,
   ⟨0x44, 1024, some "1M, 4-way"⟩,
   ⟨0x45, 2048, some "2M, 4-way"⟩,
   ⟨0x82, 256, some "256K, 8-way"⟩,
   ⟨0x84, 1024, some "1M, 8-way"⟩,
   ⟨0x85, 2048, some "2M, 8-way"⟩,
   ⟨0x00, 0, none⟩]

/-- The search stops at the key 0. -/
def entryOf (mask : UInt8) : List IntelCacheEntry → IntelCacheEntry
  | [] => ⟨0, 0, none⟩
  | e :: entries => if e.key ≠ 0 ∧ e.key ≠ mask then entryOf mask entries else e

def lookupCacheMask (mask : UInt8) (info : CpuInfo) : Option String × CpuInfo :=
  let e := entryOf mask intelCacheTable
  (e.desc, { info with l2Cache := e.size })

def cacheDecode (reg : UInt32) (mask : UInt32) : UInt8 := (reg >>> (mask * 8) &&& 0xff).toUInt8

/-- The bytes of one register, if it is valid. -/
def decodeReg (reg : UInt32) (bytes : List UInt32) (info : CpuInfo) : CpuInfo :=
  if reg >>> 31 ≠ 1 then
    bytes.foldl (fun info j => (lookupCacheMask (cacheDecode reg j) info).2) info
  else info

def decodeRegs (r : Regs) (info : CpuInfo) : CpuInfo :=
  decodeReg r.edx [3, 2, 1, 0] (decodeReg r.eax [3, 2, 1] info)

/-- The `do` loop over the calls of `cpuid(2)`. The first call says how many there are. -/
def cacheLoop (p : Processor) (i : Nat) (max : UInt8) (info : CpuInfo) : CpuInfo :=
  let r := p.cpuid2 i
  let last := if max = 0 then (r.eax &&& 0xff).toUInt8 else max
  let info := decodeRegs r info
  if i + 1 < last.toNat then cacheLoop p (i + 1) last info else info
termination_by 256 - i
decreasing_by
  have := last.toNat_lt
  omega

def intelCpuClockRatio : List UInt8 := [10, 6, 8, 4, 11, 7, 17, 5, 7, 14, 16, 20, 4, 15, 3, 13]

def initClock (p : Processor) (msrval : UInt32) (info : CpuInfo) : CpuInfo :=
  let info := { info with cpuClock := p.ticksPerUs }
  match p.boardtype with
  | .monterey =>
    let ratio := intelCpuClockRatio.getD ((msrval >>> 22) &&& 0xf).toNat 0
    { info with clockRatio := ratio, hostBusClock := info.cpuClock * 2 / ratio.toUInt32 }
  | .alpine =>
    let host : UInt32 := if p.gpio &&& 2 ≠ 0 then 133 else 100
    let ratio := (info.cpuClock * 2 / host).toUInt8
    let ratio := if host / 3 < info.cpuClock * 2 % host then ratio + 1 else ratio
    { info with clockRatio := ratio, hostBusClock := host }
  | _ => info

def leBytes (x : UInt32) : List UInt8 :=
  [x.toUInt8, (x >>> 8).toUInt8, (x >>> 16).toUInt8, (x >>> 24).toUInt8]

/-- `vendor_string` has 13 bytes: the 0 for its index 13 goes to `family`. -/
def initVendor (r : Regs) (info : CpuInfo) : CpuInfo :=
  { info with
    vendorString := leBytes r.ebx ++ leBytes r.edx ++ leBytes r.ecx ++ info.vendorString.drop 12
    family := 0 }

def initFeatures (r : Regs) (info : CpuInfo) : CpuInfo :=
  { info with
    featureMask := r.edx
    stepping := (r.eax &&& 0xf).toUInt8
    model := ((r.eax >>> 4) &&& 0xf).toUInt8
    family := ((r.eax >>> 8) &&& 0xf).toUInt8
    type := ((r.eax >>> 12) &&& 0x3).toUInt8 }

def initCache (p : Processor) (m : Msrs) (info : CpuInfo) : Msrs × CpuInfo :=
  let info := { info with l2Cache := 0 }
  let m := if p.delayCacheFlag then msrSetOn 0x11e 0x100 m else m
  let info := cacheLoop p 0 0 info
  let m := if p.delayCacheFlag then msrSetOff 0x11e 0x100 m else m
  (m, info)

def systypeInitProcIntel (is5k : Bool) (p : Processor) (m : Msrs) (info : CpuInfo) :
    Msrs × CpuInfo :=
  if !is5k then (m, info)
  else
    let info := initClock p (msrGet 0x2a m).toUInt32 info
    let info := initVendor p.cpuid0 info
    let info := if 1 ≤ p.cpuid0.eax then initFeatures p.cpuid1 info else info
    let (m, info) := if 2 ≤ p.cpuid0.eax then initCache p m info else (m, info)
    (m, { info with apicId := p.lapicId, apicVersion := p.lapicVersion, bsp := p.lapicBsp })

/-! ### The descriptors -/

/-- The bytes of a register that are examined. -/
def examinedIn (reg : UInt32) (bytes : List UInt32) : List UInt8 :=
  if reg >>> 31 ≠ 1 then bytes.map (cacheDecode reg) else []

def examined (r : Regs) : List UInt8 := examinedIn r.eax [3, 2, 1] ++ examinedIn r.edx [3, 2, 1, 0]

/-- How often `cpuid(2)` is called. -/
def callCount (p : Processor) : Nat := max 1 ((p.cpuid2 0).eax &&& 0xff).toUInt8.toNat

/-- All bytes that are examined, in their order. -/
def descriptors (p : Processor) : List UInt8 :=
  (List.range' 0 (callCount p)).flatMap fun i => examined (p.cpuid2 i)

def IsKey (b : UInt8) : Prop := ∃ e ∈ intelCacheTable, e.key ≠ 0 ∧ e.key = b

def lookups (bytes : List UInt8) (info : CpuInfo) : CpuInfo :=
  bytes.foldl (fun info b => (lookupCacheMask b info).2) info

variable {p : Processor} {info : CpuInfo} {m : Msrs} {r : Regs} {bytes pre post : List UInt8}
  {b : UInt8} {e : IntelCacheEntry} {entries : List IntelCacheEntry} {i : Nat} {max : UInt8}

/-! ### The table -/

theorem entryOf_found (hend : ∃ e ∈ entries, e.key = 0) (b : UInt8) :
    entryOf b entries ∈ entries ∧ ((entryOf b entries).key = 0 ∨ (entryOf b entries).key = b) := by
  induction entries with
  | nil =>
    obtain ⟨e, he, -⟩ := hend
    cases he
  | cons e entries ih =>
    rw [entryOf]
    split
    case isTrue hgo =>
      have hrest : ∃ e ∈ entries, e.key = 0 := by
        obtain ⟨x, hx, hzero⟩ := hend
        rcases List.mem_cons.mp hx with rfl | hx
        · exact absurd hzero hgo.1
        · exact ⟨x, hx, hzero⟩
      exact ⟨List.mem_cons_of_mem e (ih hrest).1, (ih hrest).2⟩
    case isFalse hstop =>
      refine ⟨List.mem_cons_self, ?_⟩
      by_contra hneither
      exact hstop (not_or.mp hneither)

/-- What is not a key has the size 0 of the last entry. -/
theorem size_of_not_key (hb : ¬ IsKey b) : (entryOf b intelCacheTable).size = 0 := by
  have hzero : ∀ e ∈ intelCacheTable, e.key = 0 → e.size = 0 := by decide
  have hend : ∃ e ∈ intelCacheTable, e.key = 0 := by decide
  obtain ⟨hmem, hkey⟩ := entryOf_found hend b
  by_contra hsize
  have hne : (entryOf b intelCacheTable).key ≠ 0 := fun h => hsize (hzero _ hmem h)
  exact hb ⟨_, hmem, hne, hkey.resolve_left hne⟩

theorem size_of_key (he : e ∈ intelCacheTable) (hkey : e.key ≠ 0) :
    (entryOf e.key intelCacheTable).size = e.size := by
  have hall : ∀ e ∈ intelCacheTable, e.key ≠ 0 → (entryOf e.key intelCacheTable).size = e.size := by
    decide
  exact hall e he hkey

theorem size_eq_zero_iff (he : e ∈ intelCacheTable) (hkey : e.key ≠ 0) :
    e.size = 0 ↔ e.key = 0x40 := by
  have hall : ∀ e ∈ intelCacheTable, e.key ≠ 0 → (e.size = 0 ↔ e.key = 0x40) := by decide
  exact hall e he hkey

/-! ### The loop -/

theorem decodeReg_eq (reg : UInt32) (bytes : List UInt32) (info : CpuInfo) :
    decodeReg reg bytes info = lookups (examinedIn reg bytes) info := by
  rw [decodeReg, examinedIn]
  split
  · rw [lookups, List.foldl_map]
  · rfl

theorem lookups_append (bytes bytes' : List UInt8) (info : CpuInfo) :
    lookups (bytes ++ bytes') info = lookups bytes' (lookups bytes info) := List.foldl_append

theorem decodeRegs_eq (r : Regs) (info : CpuInfo) :
    decodeRegs r info = lookups (examined r) info := by
  rw [decodeRegs, decodeReg_eq, decodeReg_eq, examined, lookups_append]

/-- From call `i` on, with the number of calls known. -/
theorem cacheLoop_from (left : Nat) (hmax : max ≠ 0) : ∀ (i : Nat) (info : CpuInfo),
    i + left + 1 = max.toNat → cacheLoop p i max info =
      lookups ((List.range' i (left + 1)).flatMap fun i => examined (p.cpuid2 i)) info := by
  induction left with
  | zero =>
    intro i info hi
    rw [cacheLoop, if_neg hmax, if_neg (by omega), decodeRegs_eq, List.range'_one,
      List.flatMap_singleton]
  | succ left ih =>
    intro i info hi
    rw [cacheLoop, if_neg hmax, if_pos (by omega), ih (i + 1) _ (by omega), decodeRegs_eq,
      ← lookups_append,
      List.range'_succ (s := i), List.flatMap_cons]

/-- The calls are those that the first one asks for, and at least one. -/
theorem cacheLoop_eq (p : Processor) (info : CpuInfo) :
    cacheLoop p 0 0 info = lookups (descriptors p) info := by
  rw [descriptors, callCount]
  by_cases hzero : ((p.cpuid2 0).eax &&& 0xff).toUInt8 = 0
  · rw [cacheLoop, if_pos rfl, hzero, if_neg (by decide), decodeRegs_eq]
    simp
  · obtain ⟨left, hleft⟩ : ∃ left, ((p.cpuid2 0).eax &&& 0xff).toUInt8.toNat = left + 1 :=
      Nat.exists_eq_succ_of_ne_zero fun h => hzero (UInt8.toNat_inj.mp h)
    have hfirst : cacheLoop p 0 0 info =
        cacheLoop p 0 ((p.cpuid2 0).eax &&& 0xff).toUInt8 info := by
      rw [cacheLoop.eq_def p 0 0, cacheLoop.eq_def p 0 ((p.cpuid2 0).eax &&& 0xff).toUInt8]
      dsimp only
      rw [if_pos rfl, if_neg hzero]
    rw [hfirst, cacheLoop_from left hzero 0 info (by omega), hleft, Nat.max_eq_right (by omega)]

/-! ### The size -/

/-- The size is that of the byte that is looked up last. -/
theorem lookups_last (bytes : List UInt8) (b : UInt8) (info : CpuInfo) :
    (lookups (bytes ++ [b]) info).l2Cache = (entryOf b intelCacheTable).size := by
  rw [lookups_append]
  rfl

theorem systypeInitProcIntel_l2Cache (p : Processor) (m : Msrs) (info : CpuInfo)
    (htop : 2 ≤ p.cpuid0.eax) : ∃ info', (systypeInitProcIntel true p m info).2.l2Cache =
      (lookups (descriptors p) info').l2Cache := by
  have hcache : ∀ info, ∃ info', (initCache p m info).2.l2Cache =
      (lookups (descriptors p) info').l2Cache := by
    intro info
    rw [initCache, cacheLoop_eq]
    exact ⟨_, rfl⟩
  rw [systypeInitProcIntel, if_neg (by decide)]
  dsimp only
  rw [if_pos htop]
  exact hcache _

/-- Of a key with no other behind it, the size is kept exactly if it is the last byte examined or
says that there is no cache. -/
theorem l2Cache_eq_iff (p : Processor) (m : Msrs) (info : CpuInfo) (e : IntelCacheEntry)
    (pre post : List UInt8) (htop : 2 ≤ p.cpuid0.eax) (he : e ∈ intelCacheTable) (hkey : e.key ≠ 0)
    (hbytes : descriptors p = pre ++ e.key :: post) (hpost : ∀ b ∈ post, ¬ IsKey b) :
    (systypeInitProcIntel true p m info).2.l2Cache = e.size ↔ post = [] ∨ e.key = 0x40 := by
  obtain ⟨info', hinfo⟩ := systypeInitProcIntel_l2Cache p m info htop
  rw [hinfo, hbytes]
  rcases List.eq_nil_or_concat' post with rfl | ⟨rest, b, rfl⟩
  · rw [lookups_last]
    exact iff_of_true (size_of_key he hkey) (Or.inl rfl)
  · have hlast : pre ++ e.key :: (rest ++ [b]) = (pre ++ e.key :: rest) ++ [b] := by simp
    have hnone : ¬ rest ++ [b] = [] := by simp
    rw [hlast, lookups_last, size_of_not_key (hpost b (by simp)), or_iff_right hnone,
      ← size_eq_zero_iff he hkey]
    exact eq_comm

/-- A processor whose descriptors come with one call. -/
abbrev p6 (edx : UInt32) : Processor where
  cpuid0 := ⟨2, 0x756e6547, 0x6c65746e, 0x49656e69⟩
  cpuid1 := ⟨0x683, 0, 0, 0x0387fbff⟩
  cpuid2 := fun _ => ⟨0x03020101, 0, 0, edx⟩
  ticksPerUs := 733
  boardtype := .alpine
  gpio := 2
  delayCacheFlag := true
  lapicId := 0
  lapicVersion := 0x11
  lapicBsp := 1

abbrev noInfo : CpuInfo := ⟨.replicate 13 0, 0, 0, 0, 0, 0, 0, 0, 0, 0, 0, 0, 0⟩

theorem l2Cache_last :
    (systypeInitProcIntel true (p6 0x0c040843) (fun _ => 0) noInfo).2.l2Cache = 512 :=
  (l2Cache_eq_iff (p6 0x0c040843) (fun _ => 0) noInfo ⟨0x43, 512, some "512K, 4-way"⟩
    [3, 2, 1, 0x0c, 4, 8] [] (by decide) (by simp [intelCacheTable]) (by decide) (by decide)
    (fun b hb => absurd hb List.not_mem_nil)).mpr (Or.inl rfl)

/-- The only key stands in front of another descriptor. -/
theorem l2Cache_lost : descriptors (p6 0x0c044308) = [3, 2, 1, 0x0c, 4] ++ 0x43 :: [8] ∧
    (∀ b ∈ [3, 2, 1, 0x0c, 4] ++ [8], ¬ IsKey b) ∧
    (systypeInitProcIntel true (p6 0x0c044308) (fun _ => 0) noInfo).2.l2Cache ≠ 512 := by
  have hbytes : descriptors (p6 0x0c044308) = [3, 2, 1, 0x0c, 4, 0x43] ++ [8] := by decide
  obtain ⟨info', hinfo⟩ :=
    systypeInitProcIntel_l2Cache (p6 0x0c044308) (fun _ => 0) noInfo (by decide)
  have hkeys : ∀ e ∈ intelCacheTable, e.key ≠ 0 → e.key ∉ [3, 2, 1, 0x0c, 4, 8] := by decide
  refine ⟨hbytes, fun b hb ⟨e, he, hne, hkey⟩ => hkeys e he hne (hkey ▸ hb), ?_⟩
  rw [hinfo, hbytes, lookups_last]
  decide

end Cpu
