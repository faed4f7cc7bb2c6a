import CobaltRom.Pci.Placement

/-! `pci_resource_init`: the three types one after the other. -/
namespace Pci.Resource

open Windows

variable {hostRange : Bus → BarType → UInt32} {t u : BarType} {bus root : Bus}
  {f kids peer : Forest Bus} {st st' : St} {top mid : Nat}

/-- Types and sizes of all BARs stay as they are. -/
theorem pciResourceAllocate_kind (hostRange : Bus → BarType → UInt32) (t : BarType)
    (f : Forest Bus) (st : St) :
    (pciResourceAllocate hostRange t f st).1.map Bus.kind = f.map Bus.kind := by
  induction f generalizing st with
  | nil => rfl
  | node bus kids peer hk hp =>
    generalize hrun : pciResourceAllocate hostRange t (.node bus kids peer) st = res
    obtain ⟨f', st'⟩ := res
    obtain ⟨kids', peer', st₁, st₂, rfl, hpeer, hkids, -⟩ :=
      pciResourceAllocate_node hrun
    have h₁ := hp st
    have h₂ := hk { st₁ with region := (regionAlign (alignBus t) st₁.region).2 }
    rw [hpeer] at h₁
    rw [hkids] at h₂
    simp only [Forest.map, h₁, h₂]
    exact congrArg (Forest.node · _ _) (closing_kind hostRange t bus _ st₂)

/-- So do blocks and windows of another type. -/
theorem pciResourceAllocate_other (hu : u ≠ t) (hostRange : Bus → BarType → UInt32)
    (f : Forest Bus) (st : St) :
    (pciResourceAllocate hostRange t f st).1.map (part u) = f.map (part u) := by
  induction f generalizing st with
  | nil => rfl
  | node bus kids peer hk hp =>
    generalize hrun : pciResourceAllocate hostRange t (.node bus kids peer) st = res
    obtain ⟨f', st'⟩ := res
    obtain ⟨kids', peer', st₁, st₂, rfl, hpeer, hkids, -⟩ :=
      pciResourceAllocate_node hrun
    have h₁ := hp st
    have h₂ := hk { st₁ with region := (regionAlign (alignBus t) st₁.region).2 }
    rw [hpeer] at h₁
    rw [hkids] at h₂
    simp only [Forest.map, h₁, h₂]
    exact congrArg (Forest.node · _ _) (closing_other hu hostRange bus _ st₂)

/-- The flag `bridge` is set once there is a bridge bus. -/
theorem closing_flag (ht : t ≠ .empty) (hostRange : Bus → BarType → UInt32) (bus : Bus)
    (limit : UInt32) (st : St) :
    (closing hostRange t bus limit st).2.2.bridge = (st.bridge || !bus.host) := by
  simp only [closing, setResourceRange]
  split_ifs with hhost
  · simp [hhost]
  · rw [pciResourceBridge, if_neg ht]
    simp only [hhost, Bool.not_false, Bool.or_true]
    split_ifs <;> rfl

theorem pciResourceAllocate_flag (ht : t ≠ .empty) (hostRange : Bus → BarType → UInt32)
    (f : Forest Bus) (st : St) : (pciResourceAllocate hostRange t f st).2.bridge =
      (st.bridge || f.toList.any fun b => !b.host) := by
  induction f generalizing st with
  | nil => simp [pciResourceAllocate, Forest.toList]
  | node bus kids peer hk hp =>
    generalize hrun : pciResourceAllocate hostRange t (.node bus kids peer) st = res
    obtain ⟨f', st'⟩ := res
    obtain ⟨kids', peer', st₁, st₂, rfl, hpeer, hkids, rfl⟩ :=
      pciResourceAllocate_node hrun
    have h₁ := hp st
    have h₂ := hk { st₁ with region := (regionAlign (alignBus t) st₁.region).2 }
    rw [hpeer] at h₁
    rw [hkids] at h₂
    simp only at h₁ h₂
    rw [closing_flag ht, h₂, h₁]
    simp only [Forest.toList, List.any_cons, List.any_append]
    cases st.bridge <;> cases bus.host <;> cases (kids.toList.any fun b => !b.host) <;>
      cases (peer.toList.any fun b => !b.host) <;> rfl

/-- What one type leaves under the root: the blocks of the root end at `mid`, where the windows
begin. -/
structure Rooted (t : BarType) (top mid : Nat) (st st' : St) (p : Part) (f : Forest Part) :
    Prop where
  nested : Nested mid top f
  base : st'.region.base.toNat ≤ mid
  own : ∀ x, x ∈ p.blocks → x.1 + x.2 ≤ mid
  apart : (p.blocks ++ blocks f).Pairwise Apart
  aligned : ∀ x, x ∈ p.blocks ++ blocks f → x.2 ∣ x.1
  between : ∀ x, x ∈ p.blocks ++ blocks f →
    Between st'.region.base.toNat st.region.base.toNat x

theorem pciResourceAllocate_root (hostRange : Bus → BarType → UInt32) (ht : t ≠ .empty) (st : St)
    (hroot : root.host = true) (hhost : ∀ b, b ∈ kids.toList → b.host = false)
    (hsized : ∀ b, b ∈ root :: kids.toList → ∀ dev, dev ∈ b.devices → ∀ x, x ∈ dev → x.Sized)
    (hdvd : 2 ^ gran t ∣ top) (hspace : top ≤ space t) (hmask : st.region.mask = alignDev t)
    (hbase : st.region.base.toNat ≤ top)
    (hfit : (pciResourceAllocate hostRange t (.node root kids .nil) st).2.region.spent = false) :
    ∃ root' kids' mid, (pciResourceAllocate hostRange t (.node root kids .nil) st).1 =
        .node root' kids' .nil ∧
      (root'.resource t).base =
        (pciResourceAllocate hostRange t (.node root kids .nil) st).2.region.base ∧
      Rooted t top mid st (pciResourceAllocate hostRange t (.node root kids .nil) st).2
      (part t root')
        (kids'.map (part t)) := by
  generalize hrun : pciResourceAllocate hostRange t (.node root kids .nil) st = res at hfit ⊢
  obtain ⟨f', st'⟩ := res
  obtain ⟨kids', peer', st₁, st₂, rfl, hpeer, hkids, rfl⟩ :=
    pciResourceAllocate_node hrun
  obtain ⟨rfl, rfl⟩ := Prod.mk.inj hpeer
  simp only at hfit ⊢
  generalize hlim : (regionAlign (alignBus t) st.region).1 - 1 = limit at *
  -- the range of a host bus changes nothing
  have hclose : (closing hostRange t root limit st₂).2.2.region =
      (allocDevices t root.devices st₂.region).2 := by
    simp only [closing, setResourceRange, hroot, if_true]
  have hres : ((closing hostRange t root limit st₂).2.1.resource t).base =
      (allocDevices t root.devices st₂.region).2.base := by
    simp [closing, setResourceRange, hroot]
  have hfit₂ := closing_spent _ _ _ _ _ hfit
  have hfitA : (regionAlign (alignBus t) st.region).2.spent = false := by
    have := pciResourceAllocate_spent hostRange t kids
      { st with region := (regionAlign (alignBus t) st.region).2 }
    rw [hkids] at this
    exact this hfit₂
  obtain ⟨j, hj, hjmask⟩ := alignBus_toNat ht
  obtain ⟨-, hdownA, -, -⟩ := regionAlign_spec hj hjmask hfitA
  obtain ⟨mid, h₂⟩ := pciResourceAllocate_assigned hostRange ht kids
    { st with region := (regionAlign (alignBus t) st.region).2 } hhost
    (fun b hb => hsized b (List.mem_cons_of_mem _ hb)) hdvd hspace (hdownA.mask.trans hmask)
    (hdownA.base.trans hbase) (by rw [hkids]; exact hfit₂)
  rw [hkids] at h₂
  simp only at h₂
  have htaken : Taken st₂.region (closing hostRange t root limit st₂).2.2.region
      (part t (closing hostRange t root limit st₂).2.1).blocks := by
    rw [hclose] at hfit ⊢
    rw [part, closing_devices]
    exact allocDevices_taken ht _ (hsized root List.mem_cons_self)
      (h₂.down.mask.trans (hdownA.mask.trans hmask)) hfit
  have hd := htaken.down.base
  have hdA := hdownA.base
  have hd₂ := h₂.down.base
  simp only at hd₂
  refine ⟨_, kids', mid, rfl, by rw [noted_base, hres, hclose], h₂.nested, hd.trans h₂.base,
    fun x hx => (htaken.between x hx).2.trans h₂.base, ?_, fun x hx => ?_, fun x hx => ?_⟩
  · refine List.pairwise_append.mpr ⟨htaken.apart, h₂.nested.apart, fun x hx y hy => ?_⟩
    exact Or.inl ((htaken.between x hx).2.trans (h₂.between y hy).1)
  · rcases List.mem_append.mp hx with hx | hx
    · exact htaken.aligned x hx
    · exact h₂.aligned x hx
  · rcases List.mem_append.mp hx with hx | hx
    · exact (htaken.between x hx).mono le_rfl (by omega)
    · exact (h₂.between x hx).mono hd hdA

/-- A root and bridge buses behind it, with BARs of the sizes that there are. -/
structure Legal (root : Bus) (kids : Forest Bus) : Prop where
  isHost : root.host = true
  bridges : ∀ b, b ∈ kids.toList → b.host = false
  sized : ∀ b, b ∈ root :: kids.toList → ∀ dev, dev ∈ b.devices → ∀ x, x ∈ dev → x.Sized

theorem Legal.of_kind {root' : Bus} {kids' : Forest Bus} (h : Legal root kids)
    (hk : Forest.map Bus.kind (.node root' kids' .nil) =
      Forest.map Bus.kind (.node root kids .nil)) :
    Legal root' kids' := by
  simp only [Forest.map, Forest.node.injEq, and_true] at hk
  have hlist : (root' :: kids'.toList).map Bus.kind = (root :: kids.toList).map Bus.kind := by
    rw [List.map_cons, List.map_cons, hk.1, ← Forest.toList_map, hk.2, Forest.toList_map]
  refine ⟨(congrArg Prod.fst hk.1).trans h.isHost, fun b hb => ?_, fun b hb dev hdev x hx => ?_⟩
  · have hmem : b.kind ∈ kids.toList.map Bus.kind := by
      rw [← Forest.toList_map, ← hk.2, Forest.toList_map]
      exact List.mem_map_of_mem hb
    obtain ⟨b₀, hb₀, heq⟩ := List.mem_map.mp hmem
    exact (congrArg Prod.fst heq).symm.trans (h.bridges b₀ hb₀)
  · have hmem : b.kind ∈ (root :: kids.toList).map Bus.kind := by
      rw [← hlist]
      exact List.mem_map_of_mem hb
    obtain ⟨b₀, hb₀, heq⟩ := List.mem_map.mp hmem
    have hdevs : b₀.devices.map (List.map Bar.kind) = b.devices.map (List.map Bar.kind) :=
      congrArg Prod.snd heq
    have hdmem : dev.map Bar.kind ∈ b₀.devices.map (List.map Bar.kind) := by
      rw [hdevs]
      exact List.mem_map_of_mem hdev
    obtain ⟨dev₀, hdev₀, hdeq⟩ := List.mem_map.mp hdmem
    have hxmem : x.kind ∈ dev₀.map Bar.kind := by
      rw [hdeq]
      exact List.mem_map_of_mem hx
    obtain ⟨x₀, hx₀, hxeq⟩ := List.mem_map.mp hxmem
    exact (h.sized b₀ hb₀ dev₀ hdev₀ x₀ hx₀).of_kind hxeq.symm

/-- One of the three runs, from a legal tree. -/
theorem pciResourceAllocate_legal (hostRange : Bus → BarType → UInt32) (ht : t ≠ .empty)
    (h : Legal root kids) (st : St) (hdvd : 2 ^ gran t ∣ top) (hspace : top ≤ space t)
    (hmask : st.region.mask = alignDev t) (hbase : st.region.base.toNat ≤ top)
    (hfit : (pciResourceAllocate hostRange t (.node root kids .nil) st).2.region.spent = false) :
    ∃ root' kids' mid st', pciResourceAllocate hostRange t (.node root kids .nil) st =
        (.node root' kids' .nil, st') ∧ Legal root' kids' ∧
      (root'.resource t).base = st'.region.base ∧
      Rooted t top mid st st' (part t root') (kids'.map (part t)) ∧
      (∀ u, u ≠ t → part u root' = part u root ∧ kids'.map (part u) = kids.map (part u)) ∧
      Forest.map Bus.kind (.node root' kids' .nil) = Forest.map Bus.kind (.node root kids .nil) ∧
      st'.bridge = (st.bridge || !kids.isNil) := by
  obtain ⟨root', kids', mid, hres, hbase', hrooted⟩ :=
    pciResourceAllocate_root hostRange ht st h.isHost
    h.bridges h.sized hdvd hspace hmask hbase hfit
  have hkind := pciResourceAllocate_kind hostRange t (.node root kids .nil) st
  have hflag := pciResourceAllocate_flag ht hostRange (.node root kids .nil) st
  rw [hres] at hkind
  refine ⟨root', kids', mid, (pciResourceAllocate hostRange t (.node root kids .nil) st).2,
    Prod.ext hres rfl, h.of_kind hkind, hbase', hrooted, fun u hu => ?_, hkind, ?_⟩
  · have hother := pciResourceAllocate_other hu hostRange (.node root kids .nil) st
    rw [hres] at hother
    simp only [Forest.map, Forest.node.injEq, and_true] at hother
    exact hother
  · rw [hflag]
    congr 1
    cases hk : kids with
    | nil => simp [Forest.toList, Forest.isNil, h.isHost]
    | node b kids₁ peer =>
      have := h.bridges b (by simp [hk, Forest.toList])
      simp [Forest.toList, Forest.isNil, this]

theorem Rooted.exact {p : Part} {f : Forest Part} (h : Rooted t top mid st st' p f) :
    (p.blocks ++ blocks f).Pairwise Apart ∧ (∀ x, x ∈ p.blocks ++ blocks f → x.2 ∣ x.1) ∧
      Exact p.blocks f :=
  ⟨h.apart, h.aligned, h.nested.exact _ fun x hx => Or.inl (h.own x hx)⟩

theorem Legal.nil_of_kind {root' : Bus} {kids' : Forest Bus} (hnil : kids = .nil)
    (hk : Forest.map Bus.kind (.node root' kids' .nil) =
      Forest.map Bus.kind (.node root kids .nil)) :
    kids' = .nil := by
  simp only [Forest.map, Forest.node.injEq, and_true, hnil] at hk
  cases kids' with
  | nil => rfl
  | node b k p => cases hk.2

/-- With a bridge, the prefetchable region starts below the megabyte where the other one ends. -/
theorem pmmioStart (base : UInt32) (bridge : Bool) (hnil : bridge = false → kids = .nil)
    (haligned : ((if bridge = true then base &&& ~~~alignBridge .pmmio else base) == 0) = false) :
    ∃ cut, 2 ^ 20 ∣ cut ∧ cut ≤ 2 ^ 32 ∧
      (if bridge = true then (if bridge = true then base &&& ~~~alignBridge .pmmio else base) - 1
        else base).toNat ≤ cut ∧ (kids = .nil ∨ cut ≤ base.toNat) := by
  cases bridge with
  | false =>
    refine ⟨2 ^ 32, by decide, le_rfl, ?_, Or.inl (hnil rfl)⟩
    simp only [Bool.false_eq_true, if_false]
    exact base.toNat_lt.le
  | true =>
    have halign := AlignMask.toNat_and_not_mask (k := 20) base (by decide)
      (show (alignBridge .pmmio).toNat = _ from rfl)
    simp only [if_true, beq_eq_false_iff_ne] at haligned ⊢
    have hpos : 0 < (base &&& ~~~alignBridge .pmmio).toNat :=
      Nat.pos_of_ne_zero fun h => haligned (UInt32.toNat_inj.mp h)
    refine ⟨(base &&& ~~~alignBridge .pmmio).toNat, ?_, (UInt32.toNat_lt _).le, ?_, Or.inr ?_⟩
    · rw [halign]
      exact Nat.dvd_mul_left _ _
    · rw [UInt32.toNat_sub_of_le _ _ (by rw [UInt32.le_iff_toNat_le]; exact hpos)]
      omega
    · rw [halign]
      exact Nat.div_mul_le_self _ _

/-- The three types do not get in each other's way: blocks of one type are apart and aligned, each
window lets in the blocks behind its bridge and no others, and no prefetchable block is in a
window that is not, nor the other way round. -/
theorem pciResourceInit_windows (hostRange : Bus → BarType → UInt32) (mmioStart : UInt32)
    (root : Bus) (kids : Forest Bus) (hlegal : Legal root kids)
    (hstart : 2 ^ 20 ∣ mmioStart.toNat)
    (hfit : (pciResourceInit hostRange 0xffff mmioStart (.node root kids .nil)).2 = false) :
    ∃ root' kids', (pciResourceInit hostRange 0xffff mmioStart (.node root kids .nil)).1 =
        .node root' kids' .nil ∧
      Forest.map Bus.kind (.node root' kids' .nil) = Forest.map Bus.kind (.node root kids .nil) ∧
      (∀ t, t ≠ .empty →
        ((part t root').blocks ++ blocks (kids'.map (part t))).Pairwise Apart ∧
        (∀ x, x ∈ (part t root').blocks ++ blocks (kids'.map (part t)) → x.2 ∣ x.1) ∧
        Exact (part t root').blocks (kids'.map (part t))) ∧
      (∀ p, p ∈ (kids'.map (part .mmio)).toList →
        ∀ x, x ∈ (part .pmmio root').blocks ++ blocks (kids'.map (part .pmmio)) → p.keepsOut x) ∧
      (∀ p, p ∈ (kids'.map (part .pmmio)).toList →
        ∀ x, x ∈ (part .mmio root').blocks ++ blocks (kids'.map (part .mmio)) → p.keepsOut x) := by
  simp only [pciResourceInit, Bool.or_eq_false_iff] at hfit ⊢
  obtain ⟨⟨⟨hfit₁, hfit₂⟩, haligned⟩, hfit₃⟩ := hfit
  obtain ⟨root₁, kids₁, mid₁, st₁, hrun₁, hlegal₁, -, hio, hother₁, hkind₁, hflag₁⟩ :=
    pciResourceAllocate_legal hostRange (by decide) hlegal
      ⟨regionInit (alignDev .io) 0xffff, false⟩ (show 2 ^ gran .io ∣ 2 ^ 16 by decide)
      (by decide) rfl
      (by decide) hfit₁
  simp only [hrun₁] at hfit₂ haligned hfit₃ ⊢
  obtain ⟨root₂, kids₂, mid₂, st₂, hrun₂, hlegal₂, hbase₂, hmmio, hother₂, hkind₂, hflag₂⟩ :=
    pciResourceAllocate_legal hostRange (by decide) hlegal₁
      ⟨regionInit (alignDev .mmio) mmioStart, st₁.bridge⟩ hstart mmioStart.toNat_lt.le rfl le_rfl
      hfit₂
  simp only [hrun₂, rootBase, hbase₂] at haligned hfit₃ ⊢
  have hnil : st₂.bridge = false → kids₂ = .nil := by
    intro hb
    rw [hflag₂, Bool.or_eq_false_iff] at hb
    refine Legal.nil_of_kind ?_ hkind₂
    cases hk : kids₁ with
    | nil => rfl
    | node b k p => simp [hk, Forest.isNil] at hb
  obtain ⟨cut, hdvd, hcut, hle, hbelow⟩ := pmmioStart st₂.region.base st₂.bridge hnil haligned
  generalize (if st₂.bridge = true then (if st₂.bridge = true then
    st₂.region.base &&& ~~~alignBridge .pmmio else st₂.region.base) - 1 else st₂.region.base) =
    start
    at hle hfit₃ ⊢
  obtain ⟨root₃, kids₃, mid₃, st₃, hrun₃, -, -, hpmmio, hother₃, hkind₃, -⟩ :=
    pciResourceAllocate_legal hostRange (by decide) hlegal₂
    ⟨regionInit (alignDev .pmmio) start, st₂.bridge⟩
      hdvd hcut rfl hle hfit₃
  simp only [hrun₃]
  obtain ⟨hm, hm'⟩ := hother₃ .mmio (by decide)
  refine ⟨root₃, kids₃, rfl, hkind₃.trans (hkind₂.trans hkind₁), fun t ht => ?_,
    fun p hp x hx => ?_,
    fun p hp x hx => ?_⟩
  · cases t with
    | empty => contradiction
    | io =>
      obtain ⟨h₃, h₃'⟩ := hother₃ .io (by decide)
      obtain ⟨h₂, h₂'⟩ := hother₂ .io (by decide)
      rw [h₃, h₃', h₂, h₂']
      exact hio.exact
    | mmio =>
      rw [hm, hm']
      exact hmmio.exact
    | pmmio => exact hpmmio.exact
  · rw [hm'] at hp
    rcases hbelow with rfl | hbelow
    · simp [Forest.map, Forest.toList] at hp
    rcases hmmio.nested.windows p hp with hclosed | ⟨hlo, -⟩
    · exact Or.inl hclosed
    · have hx' := (hpmmio.between x hx).2
      have hb := hmmio.base
      exact Or.inr (Or.inl (hx'.trans (hle.trans (hbelow.trans (hb.trans hlo)))))
  · rcases hbelow with hnil₂ | hbelow
    · have : kids₃ = .nil := Legal.nil_of_kind hnil₂ hkind₃
      simp [this, Forest.map, Forest.toList] at hp
    rw [hm, hm'] at hx
    rcases hpmmio.nested.windows p hp with hclosed | ⟨-, hhi⟩
    · exact Or.inl hclosed
    · exact Or.inr (Or.inr (hhi.trans_le (hbelow.trans (hmmio.between x hx).1)))

/-- A bus before the resources are given out. -/
def blankBus (host : Bool) (devices : List (List Bar)) : Bus where
  host := host
  devices := devices
  resource := fun _ => ⟨0, 0, 0⟩
  regBase := fun _ => 0
  regLimit := fun _ => 0
  command := 0

/-- 16 ports and 64K of prefetchable memory on the root. -/
def twoBars : Bus := blankBus true [[⟨.io, 16, 0, 0⟩, ⟨.pmmio, 0x10000, 0, 0⟩]]

/-- 256 ports and 4K of memory behind a bridge. -/
def behindBridge : Forest Bus :=
  .node (blankBus false [[⟨.io, 256, 0, 0⟩], [⟨.mmio, 0x1000, 0, 0⟩]]) .nil .nil

theorem legal_behindBridge : Legal twoBars behindBridge := by
  refine ⟨rfl, by simp [behindBridge, Forest.toList, blankBus], ?_⟩
  intro b hb dev hdev x hx
  simp only [behindBridge, Forest.toList, List.append_nil, List.mem_cons, List.not_mem_nil,
    or_false] at hb
  rcases hb with rfl | rfl
  · simp only [twoBars, blankBus, List.mem_cons, List.not_mem_nil, or_false] at hdev
    subst hdev
    simp only [List.mem_cons, List.not_mem_nil, or_false] at hx
    rcases hx with rfl | rfl
    · exact ⟨4, by decide, by decide, rfl⟩
    · exact ⟨16, by decide, by decide, rfl⟩
  · simp only [blankBus, List.mem_cons, List.not_mem_nil, or_false] at hdev
    rcases hdev with rfl | rfl
    · obtain rfl := List.mem_singleton.mp hx
      exact ⟨8, by decide, by decide, rfl⟩
    · obtain rfl := List.mem_singleton.mp hx
      exact ⟨12, by decide, by decide, rfl⟩

theorem pciResourceInit_windows_small :
    ∃ root' kids', (pciResourceInit (fun _ _ => 0) 0xffff 0xfec00000
        (.node twoBars behindBridge .nil)).1 = .node root' kids' .nil ∧
      Exact (part .io root').blocks (kids'.map (part .io)) ∧
      Exact (part .mmio root').blocks (kids'.map (part .mmio)) := by
  obtain ⟨root', kids', hrun, -, hall, -⟩ := pciResourceInit_windows (fun _ _ => 0) 0xfec00000
    twoBars behindBridge legal_behindBridge (by decide) (by decide +kernel)
  exact ⟨root', kids', hrun, (hall .io (by decide)).2.2, (hall .mmio (by decide)).2.2⟩

end Pci.Resource
