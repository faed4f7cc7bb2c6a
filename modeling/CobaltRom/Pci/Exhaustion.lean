import CobaltRom.Pci.Assign

/-! What `region_allocate` gives when a region runs out, for any size. -/
namespace Pci.Resource
open Windows

/-- The size an area of `size` bytes takes up. -/
def roundUp (size : UInt32) : Nat := 2 ^ Nat.clog 2 size.toNat

variable {r : Region} {size n a s : UInt32} {k m : Nat}

theorem toNat_half (n : UInt32) : (n >>> 1).toNat = n.toNat / 2 := by
  simp [UInt32.toNat_shiftRight, Nat.shiftRight_eq_div_pow]

theorem low_bit (n : UInt32) : n &&& 1 ≠ 0 ↔ n.toNat % 2 = 1 := by
  rw [ne_eq, ← UInt32.toNat_inj, UInt32.toNat_and, UInt32.toNat_one, Nat.and_one_is_mod,
    UInt32.toNat_zero]
  omega

theorem log_half (h : 2 ≤ m) : Nat.log 2 m = Nat.log 2 (m / 2) + 1 := by
  rw [Nat.log_div_base]
  have : 1 ≤ Nat.log 2 m := Nat.log_pos (by decide) h
  omega

/-- The loop counts the bits, and in `aligned` the set ones below the top. -/
theorem roundup2Loop_spec (fuel : Nat) : ∀ (n a s : UInt32), n.toNat < 2 ^ fuel → n ≠ 0 →
    ∃ c : Nat, c < fuel ∧ (c = 0 ↔ n.toNat = 2 ^ Nat.log 2 n.toNat) ∧
      roundup2Loop fuel n a s =
        (a + UInt32.ofNat c, s + UInt32.ofNat (Nat.log 2 n.toNat + 1)) := by
  induction fuel with
  | zero =>
    intro n a s h hn
    exact absurd (UInt32.toNat_inj.1 (by simpa using h)) hn
  | succ fuel ih =>
    intro n a s h hn
    have hpos : 0 < n.toNat := Nat.pos_of_ne_zero fun h => hn (UInt32.toNat_inj.1 h)
    rw [roundup2Loop, if_neg hn]
    by_cases h1 : n.toNat = 1
    · obtain rfl : n = 1 := UInt32.toNat_inj.1 h1
      refine ⟨0, Nat.succ_pos _, by simp, ?_⟩
      rw [if_neg (by decide), show (1 : UInt32) >>> 1 = 0 by decide]
      cases fuel <;> simp [roundup2Loop]
    · have hhalf := toNat_half n
      have hne : n >>> 1 ≠ 0 := by
        intro h0
        rw [h0] at hhalf
        simp at hhalf
        omega
      have hlog := log_half (m := n.toNat) (by omega)
      obtain ⟨c, hc, hzero, hloop⟩ := ih (n >>> 1)
        (if n &&& 1 ≠ 0 ∧ 1 < n then a + 1 else a) (s + 1) (by rw [hhalf]; omega) hne
      rw [hhalf] at hzero hloop
      have hgt : 1 < n := UInt32.lt_iff_toNat_lt.2 (by simp; omega)
      rw [hloop, hlog, Nat.pow_succ]
      by_cases hbit : n.toNat % 2 = 1
      · refine ⟨c + 1, by omega, ⟨fun h => by omega, fun h => ?_⟩, ?_⟩
        · omega
        · rw [if_pos ⟨(low_bit n).2 hbit, hgt⟩]
          simp only [UInt32.ofNat_add, Prod.mk.injEq]
          constructor <;> ac_rfl
      · refine ⟨c, by omega, hzero.trans ⟨fun h => by omega, fun h => by omega⟩, ?_⟩
        rw [if_neg fun h => hbit ((low_bit n).1 h.1)]
        simp only [UInt32.ofNat_add, Prod.mk.injEq, true_and]
        ac_rfl

/-- `roundup2` rounds up to a power of two as long as there is one of 32 bits. -/
theorem roundup2_toNat (hn : n ≠ 0) (hle : n.toNat ≤ 2 ^ 31) :
    (roundup2 n).toNat = roundUp n := by
  have hpos : n.toNat ≠ 0 := fun h => hn (UInt32.toNat_inj.1 h)
  obtain ⟨c, hc, hzero, hloop⟩ := roundup2Loop_spec 32 n 0 0 n.toNat_lt hn
  have hlow : 2 ^ Nat.log 2 n.toNat ≤ n.toNat := Nat.pow_log_le_self 2 hpos
  have hhigh : n.toNat < 2 ^ (Nat.log 2 n.toNat + 1) := Nat.lt_pow_succ_log_self (by decide) _
  rw [roundup2, hloop, roundUp]
  simp only [UInt32.zero_add]
  by_cases h0 : c = 0
  · have hpow := hzero.1 h0
    rw [h0, if_neg (by simp)]
    rw [hpow, Nat.clog_pow 2 _ (by decide)]
  · have hne : UInt32.ofNat c ≠ 0 := by
      intro h
      have := congrArg UInt32.toNat h
      rw [UInt32.toNat_ofNat_of_lt' (by rw [UInt32.size]; omega)] at this
      exact h0 this
    have hlt : 2 ^ Nat.log 2 n.toNat < n.toNat :=
      lt_of_le_of_ne hlow fun h => h0 (hzero.2 h.symm)
    have hlog : Nat.log 2 n.toNat < 31 :=
      (Nat.pow_lt_pow_iff_right (by decide)).1 (hlt.trans_le hle)
    have hclog : Nat.clog 2 n.toNat = Nat.log 2 n.toNat + 1 := by
      refine le_antisymm (Nat.clog_le_of_le_pow hhigh.le) ?_
      exact (Nat.lt_clog_iff_pow_lt (by decide)).2 hlt
    rw [if_pos hne, hclog, UInt32.toNat_shiftLeft,
      UInt32.toNat_ofNat_of_lt' (by rw [UInt32.size]; omega),
      Nat.mod_eq_of_lt (by omega : Nat.log 2 n.toNat + 1 < 32), UInt32.toNat_one,
      Nat.one_shiftLeft]
    exact Nat.mod_eq_of_lt (Nat.pow_lt_pow_right (by decide) (by omega))

/-- Where the area of `size` bytes would end: the base rounded down by the alignment mask. -/
def top (size : UInt32) (r : Region) : UInt32 :=
  r.base &&& ~~~((roundup2 size - 1) ||| r.mask.toUInt32)

theorem top_le (size : UInt32) (r : Region) : (top size r).toNat ≤ r.base.toNat := by
  rw [top, UInt32.toNat_and]
  exact Nat.and_le_left

theorem regionAllocate_base (h : size ≠ 0) (r : Region) :
    (regionAllocate size r).1 = top size r - roundup2 size ∧
      (regionAllocate size r).2.base = top size r - roundup2 size ∧
      (regionAllocate size r).2.size = r.size + roundup2 size ∧
      (regionAllocate size r).2.mask = r.mask := by
  simp only [regionAllocate, if_neg h, top]
  exact ⟨trivial, trivial, trivial, trivial⟩

/-- The area is below the previous base, or 0 is returned and nothing has changed. -/
def Reported (size : UInt32) (r : Region) : Prop :=
  (0 < (regionAllocate size r).1.toNat ∧
    (regionAllocate size r).1.toNat + roundUp size ≤ r.base.toNat) ∨
  ((regionAllocate size r).1 = 0 ∧ (regionAllocate size r).2.base = r.base ∧
    (regionAllocate size r).2.size = r.size)

/-- The area fits under the aligned base, with something left. -/
def Fits (size : UInt32) (r : Region) : Prop :=
  size.toNat ≤ 2 ^ 31 ∧ roundUp size < (top size r).toNat

theorem roundUp_large (h : 2 ^ 31 < n.toNat) : roundUp n = 2 ^ 32 ∧ roundup2 n = 1 := by
  have hlt := n.toNat_lt
  have hn : n ≠ 0 := by
    rintro rfl
    simp at h
  have hlog : Nat.log 2 n.toNat = 31 := Nat.log_eq_of_pow_le_of_lt_pow h.le hlt
  obtain ⟨c, hc, hzero, hloop⟩ := roundup2Loop_spec 32 n 0 0 hlt hn
  rw [hlog] at hzero hloop
  constructor
  · have hclog : Nat.clog 2 n.toNat = 32 :=
      le_antisymm (Nat.clog_le_of_le_pow hlt.le) ((Nat.lt_clog_iff_pow_lt (by decide)).2 h)
    rw [roundUp, hclog]
  · have hne : UInt32.ofNat c ≠ 0 := by
      intro h0
      have := congrArg UInt32.toNat h0
      rw [UInt32.toNat_ofNat_of_lt' (by rw [UInt32.size]; omega)] at this
      have hc0 : c = 0 := this
      omega
    rw [roundup2, hloop]
    simp only [UInt32.zero_add]
    rw [if_pos hne]
    decide

/-- Exhaustion is reported exactly when there is none. -/
theorem reported_iff_fits (h : size ≠ 0) (r : Region) : Reported size r ↔ Fits size r := by
  obtain ⟨hbase, hnew, hsize, -⟩ := regionAllocate_base h r
  have htop := top_le size r
  have hr := r.base.toNat_lt
  have hkeep : (regionAllocate size r).2.size = r.size → roundup2 size = 0 := by
    rw [hsize]
    intro he
    exact UInt32.add_eq_left.1 he
  unfold Reported Fits
  rw [hbase]
  by_cases hle : size.toNat ≤ 2 ^ 31
  · have hround := roundup2_toNat h hle
    have hpos : 0 < roundUp size := Nat.two_pow_pos _
    have hsub := UInt32.toNat_sub (top size r) (roundup2 size)
    rw [hround] at hsub
    have hlt := (roundup2 size).toNat_lt
    rw [hround] at hlt
    constructor
    · rintro (⟨h0, hend⟩ | ⟨-, -, hs⟩)
      · exact ⟨hle, by omega⟩
      · have := hkeep hs
        rw [this] at hround
        simp at hround
        omega
    · rintro ⟨-, hfit⟩
      exact Or.inl ⟨by omega, by omega⟩
  · obtain ⟨hup, hone⟩ := roundUp_large (Nat.lt_of_not_le hle)
    constructor
    · rintro (⟨-, hend⟩ | ⟨-, -, hs⟩)
      · omega
      · have := hkeep hs
        rw [hone] at this
        cases this
    · rintro ⟨h', -⟩
      exact absurd h' hle

/-! ### The BARs of a machine -/

/-- What `pci_resource_allocate` asks of a region on its way through the buses. -/
inductive Request
  | bar (b : Bar)
  | align (mask : UInt32)

/-- The BARs in the order in which they are programmed. -/
def serve (t : BarType) : List Request → Region → List Bar × Region
  | [], r => ([], r)
  | .bar b :: qs, r =>
    let (b, r) := allocBar t b r
    let (bars, r) := serve t qs r
    (b :: bars, r)
  | .align mask :: qs, r => serve t qs (regionAlign mask r).2

/-- Every BAR of the type fits when its turn comes. -/
def AllFit (t : BarType) : List Request → Region → Prop
  | [], _ => True
  | .bar b :: qs, r =>
    (b.type = t → b.size ≠ 0 → Fits b.size r) ∧ AllFit t qs (allocBar t b r).2
  | .align mask :: qs, r => AllFit t qs (regionAlign mask r).2

/-- No address is in both blocks. -/
def NoOverlap (x y : Block) : Prop := x.2 = 0 ∨ y.2 = 0 ∨ Apart x y

variable {t : BarType} {b : Bar} {r' r'' : Region} {l l' : List Block} {qs : List Request}

/-- The blocks `l` lie between the two bases and do not overlap. -/
structure Dealt (r r' : Region) (l : List Block) : Prop where
  le : r'.base.toNat ≤ r.base.toNat
  within : ∀ x ∈ l, x.2 = 0 ∨ Between r'.base.toNat r.base.toNat x
  apart : l.Pairwise NoOverlap

theorem Dealt.refl (r : Region) : Dealt r r [] := ⟨Nat.le_refl _, by simp, .nil⟩

theorem Dealt.trans (h : Dealt r r' l) (h' : Dealt r' r'' l') : Dealt r r'' (l ++ l') := by
  refine ⟨h'.le.trans h.le, ?_, List.pairwise_append.2 ⟨h.apart, h'.apart, ?_⟩⟩
  · intro x hx
    rcases List.mem_append.1 hx with hx | hx
    · exact (h.within x hx).imp_right fun hb => ⟨h'.le.trans hb.1, hb.2⟩
    · exact (h'.within x hx).imp_right fun hb => ⟨hb.1, hb.2.trans h.le⟩
  · intro x hx y hy
    rcases h.within x hx with hx0 | hbx
    · exact Or.inl hx0
    · rcases h'.within y hy with hy0 | hby
      · exact Or.inr (Or.inl hy0)
      · exact Or.inr (Or.inr (Or.inr (hby.2.trans hbx.1)))

theorem regionAlign_dealt (mask : UInt32) (r : Region) : Dealt r (regionAlign mask r).2 [] := by
  refine ⟨?_, by simp, .nil⟩
  rw [regionAlign, UInt32.toNat_and]
  exact Nat.and_le_left

theorem le_roundUp (size : UInt32) : size.toNat ≤ roundUp size := Nat.le_pow_clog (by decide) _

theorem allocBar_dealt (h : b.type = t → b.size ≠ 0 → Fits b.size r) :
    Dealt r (allocBar t b r).2 (blocksOf t [(allocBar t b r).1]) := by
  by_cases ht : b.type = t
  · by_cases h0 : b.size = 0
    · have hrun : (allocBar t b r).2 = r ∧ (allocBar t b r).1.size = 0 := by
        simp only [allocBar, regionAllocate, ht, h0, ne_eq, not_true, if_false, if_true]
        split <;> simp
      rw [hrun.1]
      refine ⟨Nat.le_refl _, ?_, ?_⟩
      · intro x hx
        obtain ⟨b', hb', rfl⟩ := List.mem_map.1 hx
        rw [List.mem_singleton.1 (List.mem_filter.1 hb').1, Bar.block, hrun.2]
        exact Or.inl rfl
      · exact (List.pairwise_singleton _ _).sublist (List.filter_sublist.map _)
    · obtain ⟨hle, hfit⟩ := h ht h0
      obtain ⟨hbase, hnew, -, -⟩ := regionAllocate_base h0 r
      have hround := roundup2_toNat h0 hle
      have htop := top_le b.size r
      have hup := le_roundUp b.size
      have hsub : (top b.size r - roundup2 b.size).toNat =
          (top b.size r).toNat - roundUp b.size := by
        rw [UInt32.toNat_sub_of_le _ _ (by rw [UInt32.le_iff_toNat_le]; omega), hround]
      have hne : (regionAllocate b.size r).1 ≠ 0 := by
        intro he
        rw [hbase] at he
        rw [he] at hsub
        simp at hsub
        omega
      have hrun : (allocBar t b r).2 = (regionAllocate b.size r).2 ∧
          blocksOf t [(allocBar t b r).1] =
            [((regionAllocate b.size r).1.toNat, b.size.toNat)] := by
        simp only [allocBar, ht, ne_eq, not_true, if_false, if_neg hne]
        simp [blocksOf, Bar.block]
      rw [hrun.1, hrun.2, hbase]
      refine ⟨?_, ?_, List.pairwise_singleton _ _⟩
      · rw [hnew, hsub]
        omega
      · intro x hx
        rw [List.mem_singleton.1 hx, hnew]
        exact Or.inr ⟨Nat.le_refl _, by simp only [hsub]; omega⟩
  · have hrun : allocBar t b r = (b, r) := by rw [allocBar, if_pos ht]
    rw [hrun, blocksOf, List.filter_cons_of_neg (by simpa using ht)]
    exact Dealt.refl r

theorem serve_dealt (t : BarType) (qs : List Request) (r : Region) (h : AllFit t qs r) :
    Dealt r (serve t qs r).2 (blocksOf t (serve t qs r).1) := by
  induction qs generalizing r with
  | nil => exact Dealt.refl r
  | cons q qs ih =>
    cases q with
    | bar b =>
      have := (allocBar_dealt h.1).trans (ih _ h.2)
      rwa [← blocksOf_append] at this
    | align mask => exact (regionAlign_dealt mask r).trans (ih _ h)

theorem serve_append (t : BarType) (qs qs' : List Request) (r : Region) :
    serve t (qs ++ qs') r =
      ((serve t qs r).1 ++ (serve t qs' (serve t qs r).2).1, (serve t qs' (serve t qs r).2).2) := by
  induction qs generalizing r with
  | nil => rfl
  | cons q qs ih =>
    cases q with
    | bar b => simp only [List.cons_append, serve, ih]
    | align mask => simp only [List.cons_append, serve, ih]

theorem serve_bars (t : BarType) (bars : List Bar) (r : Region) :
    serve t (bars.map .bar) r = allocBars t bars r := by
  induction bars generalizing r with
  | nil => rfl
  | cons b bars ih => simp only [List.map_cons, serve, allocBars, ih]

theorem serve_devices (t : BarType) (devices : List (List Bar)) (r : Region) :
    serve t (devices.flatten.map .bar) r =
      ((allocDevices t devices r).1.flatten, (allocDevices t devices r).2) := by
  induction devices generalizing r with
  | nil => rfl
  | cons dev devices ih =>
    rw [List.flatten_cons, List.map_append, serve_append, serve_bars, ih]
    rfl

/-- The BARs in the order in which `pci_resource_allocate` comes to them. -/
def barsOf : Forest Bus → List Bar
  | .nil => []
  | .node bus kids peer => barsOf peer ++ (barsOf kids ++ bus.devices.flatten)

/-- A bridge aligns the region or leaves it alone. -/
theorem setResourceRange_serves (hostRange : Bus → BarType → UInt32) (t : BarType) (bus : Bus)
    (st : St) : (setResourceRange hostRange t bus st).2.1.devices = bus.devices ∧
      ∃ qs, serve t qs st.region = ([], (setResourceRange hostRange t bus st).2.2.region) := by
  unfold setResourceRange
  by_cases hh : bus.host = true
  · rw [if_pos hh]
    exact ⟨rfl, [], rfl⟩
  · rw [if_neg hh]
    refine ⟨pciResourceBridge_devices t bus st, ?_⟩
    unfold pciResourceBridge
    by_cases ht : t = .empty
    · rw [if_pos ht]
      exact ⟨[], rfl⟩
    · rw [if_neg ht]
      by_cases hle : (bus.resource t).limit ≤ (bus.resource t).base
      · refine ⟨[], ?_⟩
        simp only [if_pos hle, if_true]
        rfl
      · refine ⟨[.align (alignBridge t)], ?_⟩
        simp only [if_neg hle]
        repeat' split
        all_goals rfl

/-- Everything `pci_resource_allocate` does to the region is a run of requests. -/
theorem pciResourceAllocate_serves (hostRange : Bus → BarType → UInt32) (t : BarType)
    (f : Forest Bus) (st : St) : ∃ qs, serve t qs st.region =
      (barsOf (pciResourceAllocate hostRange t f st).1,
        (pciResourceAllocate hostRange t f st).2.region) := by
  induction f generalizing st with
  | nil => exact ⟨[], rfl⟩
  | node bus kids peer ihk ihp =>
    obtain ⟨qp, hp⟩ := ihp st
    simp only [pciResourceAllocate]
    generalize pciResourceAllocate hostRange t peer st = peerRun at hp
    obtain ⟨peer', st₁⟩ := peerRun
    obtain ⟨qk, hk⟩ := ihk { st₁ with region := (regionAlign (alignBus t) st₁.region).2 }
    generalize hkids : pciResourceAllocate hostRange t kids
      { st₁ with region := (regionAlign (alignBus t) st₁.region).2 } = kidsRun at hk
    obtain ⟨kids', st₂⟩ := kidsRun
    have hd := serve_devices t bus.devices st₂.region
    generalize allocDevices t bus.devices st₂.region = devRun at hd
    obtain ⟨devices, region⟩ := devRun
    simp only at hp hk hd ⊢
    obtain ⟨hdev, qb, hb⟩ := setResourceRange_serves hostRange t
      { bus with
        devices := devices
        resource := Function.update bus.resource t { bus.resource t with
          base := region.base, limit := (regionAlign (alignBus t) st₁.region).1 - 1 } }
      { region := region, bridge := st₂.bridge }
    refine ⟨qp ++ (.align (alignBus t) :: (qk ++ (bus.devices.flatten.map .bar ++ qb))), ?_⟩
    simp only [serve_append, serve, hp, hk, hd, hb, barsOf, hdev, List.append_nil]

/-- Exhaustion is reported exactly when the area fits, and BARs that fit when their turn comes do
not overlap. -/
theorem exhaustion_reported_iff (size : UInt32) (h : size ≠ 0) (r : Region) :
    (Reported size r ↔ Fits size r) ∧ ∀ (t : BarType) (qs : List Request), AllFit t qs r →
      (blocksOf t (serve t qs r).1).Pairwise NoOverlap :=
  ⟨reported_iff_fits h r, fun t qs hfit => (serve_dealt t qs r hfit).apart⟩

/-- A memory region as `pci_resource_init` starts it. -/
abbrev mmioRegion : Region := regionInit (alignDev .mmio) 0xfec00000

theorem exhaustion_reported_iff_mmio : (Reported 0x100000 mmioRegion ↔ Fits 0x100000 mmioRegion) ∧
    ∀ (t : BarType) (qs : List Request), AllFit t qs mmioRegion →
      (blocksOf t (serve t qs mmioRegion).1).Pairwise NoOverlap :=
  exhaustion_reported_iff 0x100000 (by decide) mmioRegion

/-- A memory BAR of 1, 2048 and 32 megabytes. -/
def bigBars : List Request :=
  [.bar ⟨.mmio, 0x100000, 0, 0⟩, .bar ⟨.mmio, 0x80000000, 0, 0⟩, .bar ⟨.mmio, 0x2000000, 0, 0⟩]

/-- The second BAR is refused, but the base has come down to 0; the third wraps round to the top and
is laid over the first. -/
theorem exhaustion_wraps : ¬ Reported 0x80000000 mmioRegion ∧
    blocksOf .mmio (serve .mmio bigBars mmioRegion).1 =
      [(0xfeb00000, 0x100000), (0, 0x80000000), (0xfe000000, 0x2000000)] ∧
    ¬ (blocksOf .mmio (serve .mmio bigBars mmioRegion).1).Pairwise NoOverlap := by
  have hzero : (regionAllocate 0x80000000 mmioRegion).1 = 0 := by decide +kernel
  have hbase : (regionAllocate 0x80000000 mmioRegion).2.base ≠ mmioRegion.base := by decide +kernel
  have hbars : blocksOf .mmio (serve .mmio bigBars mmioRegion).1 =
      [(0xfeb00000, 0x100000), (0, 0x80000000), (0xfe000000, 0x2000000)] := by decide +kernel
  refine ⟨?_, hbars, ?_⟩
  · rintro (⟨hpos, -⟩ | ⟨-, hsame, -⟩)
    · rw [hzero] at hpos
      exact absurd hpos (by decide)
    · exact hbase hsame
  · rw [hbars]
    intro h
    rcases List.rel_of_pairwise_cons h (List.mem_cons_of_mem _ List.mem_cons_self) with
      h0 | h0 | h0 | h0 <;> simp at h0

end Pci.Resource
