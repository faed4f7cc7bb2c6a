import CobaltRom.Lib.Windows
import CobaltRom.Pci.Exhaustion

/-! The list of regions of `common/region.c`. A call finds its region by the id. -/
namespace Pci.RegionList
open Resource (Region roundup2 top)
open Windows (Apart Block)

structure RegionInfo where
  id : UInt8
  name : String
  region : Region

def regionFind (id : UInt8) (regions : List RegionInfo) : Option RegionInfo :=
  regions.find? (·.id = id)

/-- The new region goes to the end of the list. `served` tells if `malloc` has memory for it. -/
def regionInit (served : Bool) (id align : UInt8) (base : UInt32) (name : String)
    (regions : List RegionInfo) : List RegionInfo :=
  if served then regions ++ [⟨id, name, Resource.regionInit align base⟩] else regions

/-- The region that is found is changed in its place. -/
def update (id : UInt8) (f : Region → UInt32 × Region) :
    List RegionInfo → Option (UInt32 × List RegionInfo)
  | [] => none
  | info :: regions =>
    if info.id = id then
      some ((f info.region).1, { info with region := (f info.region).2 } :: regions)
    else (update id f regions).map fun s => (s.1, info :: s.2)

def regionAllocate (id : UInt8) (size : UInt32) (regions : List RegionInfo) :
    UInt32 × List RegionInfo :=
  (update id (Resource.regionAllocate size) regions).getD (0, regions)

/-- The region is used without a check that it has been found. -/
def regionAlign (id : UInt8) (mask : UInt32) (regions : List RegionInfo) :
    Option (UInt32 × List RegionInfo) :=
  update id (Resource.regionAlign mask) regions

def regionGet {α : Type} (get : RegionInfo → α) (absent : α) (id : UInt8)
    (regions : List RegionInfo) : α :=
  match regionFind id regions with
  | some r => get r
  | none => absent

def regionGetName : UInt8 → List RegionInfo → Option String := regionGet (some ·.name) none
def regionGetSize : UInt8 → List RegionInfo → UInt32 := regionGet (·.region.size) 0
def regionGetBase : UInt8 → List RegionInfo → UInt32 := regionGet (·.region.base) 0
def regionGetLimit : UInt8 → List RegionInfo → UInt32 := regionGet (·.region.limit) 0

/-! ### Runs -/

/-- The arguments of `region_init`. -/
structure InitCall where
  served : Bool
  id : UInt8
  align : UInt8
  base : UInt32
  name : String

def initAll (inits : List InitCall) : List RegionInfo :=
  inits.foldl (fun regions c => regionInit c.served c.id c.align c.base c.name regions) []

inductive Call
  | allocate (id : UInt8) (size : UInt32)
  | align (id : UInt8) (mask : UInt32)

def Call.id : Call → UInt8
  | .allocate id _ => id
  | .align id _ => id

/-- What a call does to its region. -/
def Call.on : Call → Region → UInt32 × Region
  | .allocate _ size => Resource.regionAllocate size
  | .align _ mask => Resource.regionAlign mask

def Call.exec : Call → List RegionInfo → Option (UInt32 × List RegionInfo)
  | .allocate id size, regions => some (regionAllocate id size regions)
  | .align id mask, regions => regionAlign id mask regions

/-- The calls of a run, with what they return. -/
abbrev Log := List (Call × UInt32)

def run : List Call → List RegionInfo → Option (Log × List RegionInfo)
  | [], regions => some ([], regions)
  | c :: calls, regions => do
    let (v, regions) ← c.exec regions
    let (log, regions) ← run calls regions
    some ((c, v) :: log, regions)

/-- The same calls on one region. -/
def runOn : List Call → Region → Log × Region
  | [], r => ([], r)
  | c :: calls, r =>
    let (v, r) := c.on r
    let (log, r) := runOn calls r
    ((c, v) :: log, r)

/-- The call does not take the base below 0. -/
def Call.Fits : Call → Region → Prop
  | .allocate _ size, r => size ≠ 0 → (roundup2 size).toNat ≤ (top size r).toNat
  | .align _ _, _ => True

def NoBaseWraps : List Call → List RegionInfo → Prop
  | [], _ => True
  | c :: calls, regions => (∀ info ∈ regionFind c.id regions, c.Fits info.region) ∧
      ∀ s ∈ c.exec regions, NoBaseWraps calls s.2

instance (c : Call) (r : Region) : Decidable (c.Fits r) :=
  match c with
  | .allocate _ size => inferInstanceAs (Decidable (size ≠ 0 → _ ≤ _))
  | .align _ _ => inferInstanceAs (Decidable True)

instance decidableNoBaseWraps :
    (calls : List Call) → (regions : List RegionInfo) → Decidable (NoBaseWraps calls regions)
  | [], _ => isTrue trivial
  | c :: calls, regions =>
    have := decidableNoBaseWraps calls
    inferInstanceAs (Decidable ((∀ info ∈ regionFind c.id regions, c.Fits info.region) ∧
      ∀ s ∈ c.exec regions, NoBaseWraps calls s.2))

def NoWrapOn : List Call → Region → Prop
  | [], _ => True
  | c :: calls, r => c.Fits r ∧ NoWrapOn calls (c.on r).2

def own (id : UInt8) (log : Log) : Log := log.filter (·.1.id = id)

/-- The blocks that a run has returned, with their sizes rounded up. -/
def blocks (log : Log) : List Block :=
  log.filterMap fun e => match e.1 with
    | .allocate _ size => if size = 0 then none else some (e.2.toNat, (roundup2 size).toNat)
    | .align _ _ => none

variable {id id' : UInt8} {size n : UInt32} {r : Region} {info : RegionInfo} {log : Log}
  {regions regions' : List RegionInfo} {calls : List Call} {c : Call} {v : UInt32} {b : Block}
  {f : Region → UInt32 × Region} {inits : List InitCall}

/-! ### Rounding up -/

/-- `roundup2` gives the least power of two that is not below. -/
theorem roundup2_least (hn : 1 ≤ n.toNat) (hle : n.toNat ≤ 2 ^ 31) :
    IsLeast {p | (∃ k, p = 2 ^ k) ∧ n.toNat ≤ p} (roundup2 n).toNat := by
  have hne : n ≠ 0 := by
    rintro rfl
    exact absurd hn (by decide)
  rw [Resource.roundup2_toNat hne hle, Resource.roundUp]
  refine ⟨⟨⟨_, rfl⟩, Nat.le_pow_clog (by decide) _⟩, ?_⟩
  rintro p ⟨⟨k, rfl⟩, hk⟩
  exact Nat.pow_le_pow_right (by decide) (Nat.clog_le_of_le_pow hk)

/-- Above `2 ^ 31` too it gives a power of two, of the wrong size. -/
theorem roundup2_two_pow (hn : size ≠ 0) : ∃ k < 32, (roundup2 size).toNat = 2 ^ k := by
  by_cases hle : size.toNat ≤ 2 ^ 31
  · refine ⟨Nat.clog 2 size.toNat, ?_, Resource.roundup2_toNat hn hle⟩
    exact Nat.lt_succ_of_le (Nat.clog_le_of_le_pow hle)
  · refine ⟨0, by decide, ?_⟩
    rw [(Resource.roundUp_large (Nat.lt_of_not_le hle)).2]
    rfl

theorem not_or_eq (a b : UInt32) : ~~~(a ||| b) = ~~~a &&& ~~~b := by
  rw [← UInt32.toBitVec_inj]
  simp only [UInt32.toBitVec_not, UInt32.toBitVec_or, UInt32.toBitVec_and, BitVec.not_or]

/-- Whatever the mask of the region, a block ends at a multiple of its size. -/
theorem roundup2_dvd_top (hn : size ≠ 0) : (roundup2 size).toNat ∣ (top size r).toNat := by
  obtain ⟨k, hk, hpow⟩ := roundup2_two_pow hn
  have hpos : 0 < 2 ^ k := Nat.two_pow_pos k
  have hmask : (roundup2 size - 1).toNat = 2 ^ k - 1 := by
    rw [UInt32.toNat_sub_of_le _ _ (by rw [UInt32.le_iff_toNat_le, hpow]; exact hpos), hpow]
    rfl
  have htop : top size r = (r.base &&& ~~~r.mask.toUInt32) &&& ~~~(roundup2 size - 1) := by
    rw [top, not_or_eq, UInt32.and_assoc, UInt32.and_comm (~~~(roundup2 size - 1))]
  rw [htop, AlignMask.toNat_and_not_mask _ hk.le hmask, hpow]
  exact Nat.dvd_mul_left _ _

/-! ### One region -/

/-- An allocation takes an aligned block off the top. -/
theorem allocate_block (hn : size ≠ 0) (hfit : (roundup2 size).toNat ≤ (top size r).toNat) :
    let s := Resource.regionAllocate size r
    s.1 = s.2.base ∧ s.1.toNat + (roundup2 size).toNat ≤ r.base.toNat ∧
      (roundup2 size).toNat ∣ s.1.toNat := by
  obtain ⟨hret, hbase, -, -⟩ := Resource.regionAllocate_base hn r
  have hsub : (Resource.regionAllocate size r).1.toNat =
      (top size r).toNat - (roundup2 size).toNat := by
    rw [hret, UInt32.toNat_sub_of_le _ _ (UInt32.le_iff_toNat_le.mpr hfit)]
  have htop := Resource.top_le size r
  refine ⟨hret.trans hbase.symm, ?_, ?_⟩
  · rw [hsub]
    omega
  · rw [hsub]
    exact Nat.dvd_sub (roundup2_dvd_top hn) dvd_rfl

/-- No call takes a base up. -/
theorem on_base_le (hfit : c.Fits r) : (c.on r).2.base.toNat ≤ r.base.toNat := by
  cases c with
  | allocate id size =>
    by_cases hn : size = 0
    · simp [Call.on, Resource.regionAllocate, hn]
    · obtain ⟨hbase, hle, -⟩ := allocate_block hn (hfit hn)
      change (Resource.regionAllocate size r).2.base.toNat ≤ _
      rw [← hbase]
      omega
  | align id mask =>
    change (r.base &&& ~~~mask).toNat ≤ r.base.toNat
    rw [UInt32.toNat_and]
    exact Nat.and_le_left

/-- The blocks that a run on one region returns are aligned, below its base, and below each
other. -/
theorem runOn_blocks (calls : List Call) (r : Region) (hwrap : NoWrapOn calls r) :
    (∀ b ∈ blocks (runOn calls r).1, b.1 + b.2 ≤ r.base.toNat ∧ b.2 ∣ b.1) ∧
      (blocks (runOn calls r).1).Pairwise Apart := by
  induction calls generalizing r with
  | nil => exact ⟨by simp [runOn, blocks], List.Pairwise.nil⟩
  | cons c calls ih =>
    obtain ⟨hfit, hrest⟩ := hwrap
    obtain ⟨hblocks, hapart⟩ := ih (c.on r).2 hrest
    have hle := on_base_le hfit
    have hbelow : ∀ b ∈ blocks (runOn calls (c.on r).2).1, b.1 + b.2 ≤ r.base.toNat ∧ b.2 ∣ b.1 :=
      fun b hb => ⟨(hblocks b hb).1.trans hle, (hblocks b hb).2⟩
    cases c with
    | align id mask => exact ⟨hbelow, hapart⟩
    | allocate id size =>
      by_cases hn : size = 0
      · simp only [runOn, blocks, List.filterMap_cons, if_pos hn]
        exact ⟨hbelow, hapart⟩
      · obtain ⟨hbase, hend, hdvd⟩ := allocate_block hn (hfit hn)
        simp only [runOn, blocks, List.filterMap_cons, if_neg hn]
        refine ⟨?_, List.pairwise_cons.mpr ⟨fun b hb => Or.inr ?_, hapart⟩⟩
        · rintro b (_ | ⟨_, hb⟩)
          · exact ⟨hend, hdvd⟩
          · exact hbelow b hb
        · -- what comes later lies below the base that this call has left
          have hbelow := (hblocks b hb).1
          change _ ≤ (Resource.regionAllocate size r).1.toNat
          rw [hbase]
          exact hbelow

/-! ### The list -/

theorem update_some (hrun : update id f regions = some (v, regions')) :
    ∃ info, regionFind id regions = some info ∧ v = (f info.region).1 ∧
      regionFind id regions' = some { info with region := (f info.region).2 } ∧
      ∀ id', id' ≠ id → regionFind id' regions' = regionFind id' regions := by
  induction regions generalizing v regions' with
  | nil => cases hrun
  | cons info regions ih =>
    rw [update] at hrun
    split at hrun
    case isTrue hid =>
      obtain ⟨rfl, rfl⟩ := Prod.mk.inj (Option.some.inj hrun)
      refine ⟨info, by simp [regionFind, hid], rfl, by simp [regionFind, hid], fun id' hother => ?_⟩
      have hne : ¬ info.id = id' := fun h => hother (h.symm.trans hid)
      simp [regionFind, hne]
    case isFalse hid =>
      obtain ⟨⟨v₁, regions₁⟩, hrest, heq⟩ := Option.map_eq_some_iff.mp hrun
      obtain ⟨rfl, rfl⟩ := Prod.mk.inj heq
      obtain ⟨found, hfind, hv, hafter, hothers⟩ := ih hrest
      refine ⟨found,
        by simpa [regionFind, hid] using hfind, hv, by simpa [regionFind, hid] using hafter,
        fun id' hother => ?_⟩
      have hsame := hothers id' hother
      simp only [regionFind] at hsame
      by_cases hhead : info.id = id'
      · simp [regionFind, hhead]
      · simp [regionFind, hhead, hsame]

theorem update_none (hrun : update id f regions = none) : regionFind id regions = none := by
  induction regions with
  | nil => rfl
  | cons info regions ih =>
    rw [update] at hrun
    split at hrun
    case isTrue => cases hrun
    case isFalse hid =>
      have hrest := ih (Option.map_eq_none_iff.mp hrun)
      simpa [regionFind, hid] using hrest

/-- A call acts on the region with its id, and on no other. -/
theorem exec_find (hexec : c.exec regions = some (v, regions')) (id : UInt8)
    (hfind : regionFind id regions = some info) :
    if c.id = id then
      v = (c.on info.region).1 ∧
        regionFind id regions' = some { info with region := (c.on info.region).2 }
    else regionFind id regions' = some info := by
  have hupdate : update c.id c.on regions = some (v, regions') ∨
      regionFind c.id regions = none ∧ regions' = regions := by
    cases c with
    | align id mask => exact Or.inl hexec
    | allocate id size =>
      simp only [Call.exec, regionAllocate, Option.some.injEq] at hexec
      change update id (Resource.regionAllocate size) regions = _ ∨ _
      cases hrun : update id (Resource.regionAllocate size) regions with
      | none =>
        rw [hrun] at hexec
        exact Or.inr ⟨update_none hrun, (Prod.mk.inj hexec).2.symm⟩
      | some s =>
        rw [hrun] at hexec
        exact Or.inl (congrArg some hexec)
  rcases hupdate with hupdate | ⟨habsent, rfl⟩
  · obtain ⟨found, hfound, hv, hafter, hothers⟩ := update_some hupdate
    split
    case isTrue hid =>
      subst hid
      obtain rfl := Option.some.inj (hfound.symm.trans hfind)
      exact ⟨hv, hafter⟩
    case isFalse hid =>
      rw [hothers id fun h => hid h.symm, hfind]
  · rw [if_neg fun hid => ?_, hfind]
    rw [hid, hfind] at habsent
    cases habsent

/-- A region sees the calls with its id only: it goes through the run that these are on it alone. -/
theorem run_own (calls : List Call) (id : UInt8) : ∀ {regions : List RegionInfo} {info : RegionInfo}
    {log : Log}, run calls regions = some (log, regions') → regionFind id regions = some info →
    NoBaseWraps calls regions →
    own id log = (runOn (calls.filter (·.id = id)) info.region).1 ∧
      regionFind id regions' =
        some { info with region := (runOn (calls.filter (·.id = id)) info.region).2 } ∧
      NoWrapOn (calls.filter (·.id = id)) info.region := by
  induction calls with
  | nil =>
    rintro regions info log hrun hfind -
    obtain ⟨rfl, rfl⟩ := Prod.mk.inj (Option.some.inj hrun)
    exact ⟨rfl, hfind, trivial⟩
  | cons c calls ih =>
    intro regions info log hrun hfind hwrap
    obtain ⟨⟨v, regions₁⟩, hexec, hrest⟩ := Option.bind_eq_some_iff.mp hrun
    obtain ⟨⟨log₁, regions₂⟩, hlater, heq⟩ := Option.bind_eq_some_iff.mp hrest
    obtain ⟨rfl, rfl⟩ := Prod.mk.inj (Option.some.inj heq)
    obtain ⟨hfit, hnext⟩ := hwrap
    have hstep := exec_find hexec id hfind
    split at hstep
    case isTrue hid =>
      obtain ⟨rfl, hafter⟩ := hstep
      obtain ⟨hlog, hlast, hon⟩ := ih hlater hafter (hnext _ hexec)
      rw [hid] at hfit
      simp only [own, List.filter_cons, hid, decide_true, if_true, runOn] at hlog ⊢
      exact ⟨congrArg _ hlog, hlast, hfit info hfind, hon⟩
    case isFalse hid =>
      obtain ⟨hlog, hlast, hon⟩ := ih hlater hstep (hnext _ hexec)
      simp only [own, List.filter_cons, hid, decide_false, Bool.false_eq_true, if_false] at hlog ⊢
      exact ⟨hlog, hlast, hon⟩

/-- A region begins with its base at its limit. -/
theorem initAll_limit (inits : List InitCall) :
    ∀ info ∈ initAll inits, info.region.limit = info.region.base := by
  have hall : ∀ regions : List RegionInfo,
    (∀ info ∈ regions, info.region.limit = info.region.base) →
      ∀ info ∈ inits.foldl (fun regions c => regionInit c.served c.id c.align c.base c.name regions)
      regions,
        info.region.limit = info.region.base := by
    induction inits with
    | nil => exact fun regions h => h
    | cons c inits ih =>
      intro regions h
      refine ih _ fun info hinfo => ?_
      simp only [regionInit] at hinfo
      split at hinfo
      · rcases List.mem_append.mp hinfo with hinfo | hinfo
        · exact h info hinfo
        · rw [List.mem_singleton.mp hinfo]
          rfl
      · exact h info hinfo
  exact hall [] (fun info hinfo => absurd hinfo List.not_mem_nil)

/-- What a run returns for one region are blocks apart from each other, below the limit and aligned
to their size, and all of it comes from the calls with the region's id. -/
theorem run_blocks (inits : List InitCall) (calls : List Call) (log : Log)
    (regions : List RegionInfo) (hrun : run calls (initAll inits) = some (log, regions))
    (hwrap : NoBaseWraps calls (initAll inits)) :
    (∀ id info, regionFind id (initAll inits) = some info →
      (blocks (own id log)).Pairwise Apart ∧
      (∀ b ∈ blocks (own id log), b.1 + b.2 ≤ info.region.limit.toNat ∧ b.2 ∣ b.1) ∧
      own id log = (runOn (calls.filter (·.id = id)) info.region).1 ∧
      regionFind id regions =
        some { info with region := (runOn (calls.filter (·.id = id)) info.region).2 }) ∧
    ∀ n : UInt32, 1 ≤ n.toNat → n.toNat ≤ 2 ^ 31 →
      IsLeast {p | (∃ k, p = 2 ^ k) ∧ n.toNat ≤ p} (roundup2 n).toNat := by
  refine ⟨fun id info hfind => ?_, fun n => roundup2_least⟩
  obtain ⟨hlog, hlast, hon⟩ := run_own calls id hrun hfind hwrap
  obtain ⟨hblocks, hapart⟩ := runOn_blocks _ info.region hon
  rw [initAll_limit inits info (List.mem_of_find?_eq_some hfind), hlog]
  exact ⟨hapart, hblocks, rfl, hlast⟩

/-- An I/O and a memory region. The I/O region is aligned between its two blocks. -/
theorem run_blocks_two :
    let inits : List InitCall := [⟨true, 1, 3, 0xf800, "io"⟩, ⟨true, 2, 0xff, 0xffffffff, "mem"⟩]
    let calls : List Call := [.allocate 1 5, .allocate 2 0x300, .align 1 0xfff, .allocate 1 1]
    ∃ log regions, run calls (initAll inits) = some (log, regions) ∧
      blocks (own 1 log) = [(0xf7f8, 8), (0xefff, 1)] ∧ (blocks (own 1 log)).Pairwise Apart := by
  intro inits calls
  refine ⟨_, _, rfl, by decide, ?_⟩
  have h := run_blocks inits calls _ _ rfl (by decide)
  exact (h.1 1 _ rfl).1

end Pci.RegionList
