import CobaltRom.Pci.Assign

/-! The whole tree: blocks and windows that `pci_resource_init` leaves. -/
namespace Pci.Resource

open Windows

variable {hostRange : Bus → BarType → UInt32} {t u : BarType} {bus : Bus} {f kids peer : Forest Bus}
  {st st' : St} {top mid : Nat}

/-- What a run over a forest of bridge buses leaves, when everything before it ended at `top`: the
forest ends at `mid`. -/
structure Assigned (t : BarType) (top mid : Nat) (st st' : St) (f : Forest Part) : Prop where
  down : Down st.region st'.region
  dvd : 2 ^ gran t ∣ mid
  le : mid ≤ top
  base : st'.region.base.toNat ≤ mid
  nested : Nested mid top f
  between : ∀ x, x ∈ blocks f → Between st'.region.base.toNat st.region.base.toNat x
  aligned : ∀ x, x ∈ blocks f → x.2 ∣ x.1
  room : blocks f ≠ [] → st'.region.base.toNat + 2 ≤ st.region.base.toNat

/-- What of a bus its devices decide. -/
def Bus.kind (b : Bus) : Bool × List (List (BarType × UInt32)) :=
  (b.host, b.devices.map (List.map Bar.kind))

/-- The devices of a bus and its range, after the kids; `limit` was taken before them. -/
def closing (hostRange : Bus → BarType → UInt32) (t : BarType) (bus : Bus) (limit : UInt32)
    (st : St) : UInt32 × Bus × St :=
  let (devices, region) := allocDevices t bus.devices st.region
  setResourceRange hostRange t
    { bus with
      devices := devices
      resource := Function.update bus.resource t
        { bus.resource t with base := region.base, limit := limit } } { st with region := region }

/-- The bus with the size of its range noted. -/
def noted (t : BarType) (c : UInt32 × Bus × St) : Bus :=
  { c.2.1 with resource := Function.update c.2.1.resource t { c.2.1.resource t with size := c.1 } }

theorem noted_base (t : BarType) (c : UInt32 × Bus × St) :
    ((noted t c).resource t).base = (c.2.1.resource t).base := by
  simp [noted]

@[simp] theorem part_noted (t u : BarType) (c : UInt32 × Bus × St) :
    part u (noted t c) = part u c.2.1 := rfl

/-- A node by its parts: peers, kids, then the bus itself. -/
theorem pciResourceAllocate_node {f' : Forest Bus}
    (h : pciResourceAllocate hostRange t (.node bus kids peer) st = (f', st')) :
    ∃ kids' peer' st₁ st₂,
      f' = .node (noted t (closing hostRange t bus
        ((regionAlign (alignBus t) st₁.region).1 - 1) st₂)) kids' peer' ∧
      pciResourceAllocate hostRange t peer st = (peer', st₁) ∧
      pciResourceAllocate hostRange t kids
        { st₁ with region := (regionAlign (alignBus t) st₁.region).2 } = (kids', st₂) ∧
      (closing hostRange t bus ((regionAlign (alignBus t) st₁.region).1 - 1) st₂).2.2 = st' := by
  obtain ⟨rfl, rfl⟩ := Prod.mk.inj h
  exact ⟨_, _, _, _, rfl, rfl, rfl, rfl⟩

theorem closing_devices (hostRange : Bus → BarType → UInt32) (t : BarType) (bus : Bus)
    (limit : UInt32) (st : St) : (closing hostRange t bus limit st).2.1.devices =
      (allocDevices t bus.devices st.region).1 := by
  rw [closing]
  dsimp only
  rw [setResourceRange]
  split_ifs
  · rfl
  · rw [pciResourceBridge_devices]

theorem closing_kind (hostRange : Bus → BarType → UInt32) (t : BarType) (bus : Bus)
    (limit : UInt32) (st : St) : (closing hostRange t bus limit st).2.1.kind = bus.kind := by
  have hhost : (closing hostRange t bus limit st).2.1.host = bus.host := by
    simp only [closing, setResourceRange]
    split_ifs
    · rfl
    · rw [pciResourceBridge]
      split_ifs
      · rfl
      · dsimp only
        split_ifs <;> rfl
  rw [Bus.kind, closing_devices, allocDevices_kind, hhost, Bus.kind]

/-- A type that is not at hand is left alone. -/
theorem closing_other (hu : u ≠ t) (hostRange : Bus → BarType → UInt32) (bus : Bus)
    (limit : UInt32) (st : St) : part u (closing hostRange t bus limit st).2.1 = part u bus := by
  rw [closing]
  dsimp only
  rw [setResourceRange]
  split_ifs
  · simp only [part, allocDevices_other hu]
  · rw [pciResourceBridge_other hu]
    simp only [part, allocDevices_other hu]

/-- A region that is spent stays so. -/
theorem allocBar_spent (t : BarType) (b : Bar) (r : Region)
    (h : (allocBar t b r).2.spent = false) : r.spent = false := by
  rw [allocBar] at h
  split_ifs at h
  · exact h
  · have h' : (regionAllocate b.size r).2.spent = false := by
      dsimp only at h
      split_ifs at h <;> exact h
    rw [regionAllocate] at h'
    split_ifs at h'
    · exact h'
    · exact (Bool.or_eq_false_iff.mp h').1

theorem allocBars_spent (t : BarType) (bars : List Bar) (r : Region)
    (h : (allocBars t bars r).2.spent = false) : r.spent = false := by
  induction bars generalizing r with
  | nil => exact h
  | cons b bars ih => exact allocBar_spent t b r (ih _ h)

theorem allocDevices_spent (t : BarType) (devices : List (List Bar)) (r : Region)
    (h : (allocDevices t devices r).2.spent = false) : r.spent = false := by
  induction devices generalizing r with
  | nil => exact h
  | cons dev devices ih => exact allocBars_spent t dev r (ih _ h)

theorem pciResourceBridge_spent (t : BarType) (bus : Bus) (st : St)
    (h : (pciResourceBridge t bus st).2.2.region.spent = false) : st.region.spent = false := by
  by_cases ht : t = .empty
  · rwa [pciResourceBridge, if_pos ht] at h
  by_cases hle : (bus.resource t).limit ≤ (bus.resource t).base
  · simpa [pciResourceBridge, if_neg ht, if_pos hle] using h
  · simp only [pciResourceBridge, if_neg ht, if_neg hle] at h
    have h' : (regionAlign (alignBridge t) st.region).2.spent = false := by
      split_ifs at h <;> exact h
    exact (Bool.or_eq_false_iff.mp h').1

theorem closing_spent (hostRange : Bus → BarType → UInt32) (t : BarType) (bus : Bus)
    (limit : UInt32) (st : St) (h : (closing hostRange t bus limit st).2.2.region.spent = false) :
    st.region.spent = false := by
  simp only [closing, setResourceRange] at h
  split_ifs at h
  · exact allocDevices_spent t bus.devices _ h
  · exact allocDevices_spent t bus.devices _ (pciResourceBridge_spent _ _ _ h)

theorem pciResourceAllocate_spent (hostRange : Bus → BarType → UInt32) (t : BarType)
    (f : Forest Bus) (st : St)
    (h : (pciResourceAllocate hostRange t f st).2.region.spent = false) :
    st.region.spent = false := by
  induction f generalizing st with
  | nil => exact h
  | node bus kids peer hk hp =>
    generalize hrun : pciResourceAllocate hostRange t (.node bus kids peer) st = res at h
    obtain ⟨f', st'⟩ := res
    obtain ⟨kids', peer', st₁, st₂, rfl, hpeer, hkids, rfl⟩ :=
      pciResourceAllocate_node hrun
    have h₂ := hk _ (by rw [hkids]; exact closing_spent _ _ _ _ _ h)
    exact hp _ (by rw [hpeer]; exact (Bool.or_eq_false_iff.mp h₂).1)

/-- Where the devices of a bridge bus and its window come to lie. -/
theorem closing_bridge {limit : UInt32} (ht : t ≠ .empty) (hhost : bus.host = false)
    (hsized : ∀ dev, dev ∈ bus.devices → ∀ b, b ∈ dev → b.Sized)
    (hmask : st.region.mask = alignDev t) (hspace : limit.toNat < space t)
    (hfit : (closing hostRange t bus limit st).2.2.region.spent = false) :
    ∃ r, Taken st.region r (part t (closing hostRange t bus limit st).2.1).blocks ∧
      ((limit.toNat ≤ r.base.toNat ∧ (closing hostRange t bus limit st).2.2.region = r ∧
          (part t (closing hostRange t bus limit st).2.1).hi <
            (part t (closing hostRange t bus limit st).2.1).lo) ∨
        (r.base.toNat < limit.toNat ∧ Down r (closing hostRange t bus limit st).2.2.region ∧
          (closing hostRange t bus limit st).2.2.region.base.toNat =
            r.base.toNat / 2 ^ gran t * 2 ^ gran t ∧
          (part t (closing hostRange t bus limit st).2.1).lo =
            (closing hostRange t bus limit st).2.2.region.base.toNat ∧
          (part t (closing hostRange t bus limit st).2.1).hi =
            limit.toNat / 2 ^ gran t * 2 ^ gran t + (2 ^ gran t - 1))) := by
  have hdev := closing_devices hostRange t bus limit st
  have hrun : closing hostRange t bus limit st = pciResourceBridge t
      { bus with
        devices := (allocDevices t bus.devices st.region).1
        resource := Function.update bus.resource t
          { bus.resource t with
            base := (allocDevices t bus.devices st.region).2.base
            limit := limit } }
      { st with region := (allocDevices t bus.devices st.region).2 } := by
    simp only [closing, setResourceRange, hhost, Bool.false_eq_true, if_false]
  have hblocks : (part t (closing hostRange t bus limit st).2.1).blocks =
      blocksOf t (allocDevices t bus.devices st.region).1.flatten := by
    simp only [part, hdev]
  rw [hrun] at hfit
  have hwin := pciResourceBridge_window ht _ _ (by simp) (by simpa using hspace) hfit
  simp only [Function.update_self, ← hrun] at hwin
  have hspent : (allocDevices t bus.devices st.region).2.spent = false := by
    rcases hwin with ⟨-, h, -⟩ | ⟨-, h, -⟩
    · rw [← hrun, h] at hfit
      exact hfit
    · exact h.spent
  refine ⟨(allocDevices t bus.devices st.region).2, ?_, hwin⟩
  rw [hblocks]
  exact allocDevices_taken ht _ hsized hmask hspent

/-- The end of the granule below a multiple of the granularity. -/
theorem granule_end {g a top : Nat} (ha : 0 < a) (hdvd : 2 ^ g ∣ top) (hle : a ≤ top) :
    a ≤ (a - 1) / 2 ^ g * 2 ^ g + (2 ^ g - 1) + 1 ∧
      (a - 1) / 2 ^ g * 2 ^ g + (2 ^ g - 1) < top := by
  obtain ⟨c, rfl⟩ := hdvd
  have hpos : 0 < 2 ^ g := Nat.two_pow_pos g
  have hdiv := Nat.div_add_mod (a - 1) (2 ^ g)
  have hmod := Nat.mod_lt (a - 1) hpos
  rw [Nat.mul_comm] at hdiv
  have hc : (a - 1) / 2 ^ g + 1 ≤ c := by
    rw [Nat.succ_le_iff, Nat.div_lt_iff_lt_mul hpos, Nat.mul_comm]
    omega
  have := Nat.mul_le_mul_left (2 ^ g) hc
  rw [Nat.mul_add, Nat.mul_comm (2 ^ g) ((a - 1) / 2 ^ g), Nat.mul_one] at this
  omega

theorem assigned_nil (hspent : st.region.spent = false) (hdvd : 2 ^ gran t ∣ top)
    (hbase : st.region.base.toNat ≤ top) : Assigned t top top st st .nil :=
  ⟨⟨le_rfl, rfl, hspent⟩, hdvd, le_rfl, hbase, nested_nil _ _, by simp [blocks], by simp [blocks],
    by simp [blocks]⟩

/-- A bus with its kids and peers, as its devices and window come to lie below them. -/
theorem Assigned.node {p : Part} {fk fp : Forest Part} {st₁ stA st₂ : St} {r : Region}
    {mid₁ mid₂ : Nat} (h₁ : Assigned t top mid₁ st st₁ fp)
    (hA : stA.region.base.toNat ≤ st₁.region.base.toNat) (h₂ : Assigned t mid₁ mid₂ stA st₂ fk)
    (htaken : Taken st₂.region r p.blocks) (hr : st'.region.base.toNat ≤ r.base.toNat)
    (hmask : st'.region.mask = st.region.mask) (hdvd : 2 ^ gran t ∣ mid) (hmid : mid ≤ mid₂)
    (hbase : st'.region.base.toNat ≤ mid) (hown : ∀ x, x ∈ p.blocks → mid ≤ x.1)
    (hwin : (p.hi < p.lo ∧ p.blocks = [] ∧ blocks fk = []) ∨
      (p.lo = mid ∧ p.hi < mid₁ ∧ ∀ x, x ∈ p.blocks ++ blocks fk → x.1 + x.2 ≤ p.hi + 1)) :
    Assigned t top mid st st' (.node p fk fp) := by
  have hd₁ := h₁.down.base
  have hd₂ := h₂.down.base
  have hd := htaken.down.base
  have hb₂ := h₂.base
  have hle₁ := h₁.le
  have hle₂ := h₂.le
  have hbelow : ∀ x, x ∈ p.blocks ++ blocks fk →
      Between st'.region.base.toNat st₁.region.base.toNat x := by
    intro x hx
    rcases List.mem_append.mp hx with hx | hx
    · exact (htaken.between x hx).mono hr (by omega)
    · exact (h₂.between x hx).mono (by omega) hA
  refine ⟨⟨by omega, hmask, h₁.down.spent⟩, hdvd, by omega, hbase, ?_, fun x hx => ?_,
    fun x hx => ?_, fun hne => ?_⟩
  · exact Nested.node h₁.nested h₂.nested
      (fun x hx => ⟨hown x hx, (htaken.between x hx).2.trans hb₂⟩) htaken.apart hmid hle₂ hle₁ hwin
  · rcases List.mem_append.mp hx with hx | hx
    · exact (hbelow x hx).mono le_rfl hd₁
    · exact (h₁.between x hx).mono (by omega) le_rfl
  · simp only [blocks, List.mem_append] at hx
    rcases hx with (hx | hx) | hx
    · exact htaken.aligned x hx
    · exact h₂.aligned x hx
    · exact h₁.aligned x hx
  · by_cases hp : p.blocks = []
    · by_cases hk : blocks fk = []
      · have := h₁.room fun h => hne (by simp [blocks, hp, hk, h])
        omega
      · have := h₂.room hk
        omega
    · have := htaken.room hp
      omega

/-- A forest of bridge buses is laid out below `top`. -/
theorem pciResourceAllocate_assigned (hostRange : Bus → BarType → UInt32) (ht : t ≠ .empty)
    (f : Forest Bus) (st : St) (hhost : ∀ b, b ∈ f.toList → b.host = false)
    (hsized : ∀ b, b ∈ f.toList → ∀ dev, dev ∈ b.devices → ∀ x, x ∈ dev → x.Sized)
    (hdvd : 2 ^ gran t ∣ top) (hspace : top ≤ space t) (hmask : st.region.mask = alignDev t)
    (hbase : st.region.base.toNat ≤ top)
    (hfit : (pciResourceAllocate hostRange t f st).2.region.spent = false) :
    ∃ mid, Assigned t top mid st (pciResourceAllocate hostRange t f st).2
      ((pciResourceAllocate hostRange t f st).1.map (part t)) := by
  induction f generalizing top st with
  | nil => exact ⟨top, assigned_nil hfit hdvd hbase⟩
  | node bus kids peer hk hp =>
    generalize hrun : pciResourceAllocate hostRange t (.node bus kids peer) st = res at hfit ⊢
    obtain ⟨f', st'⟩ := res
    obtain ⟨kids', peer', st₁, st₂, rfl, hpeer, hkids, rfl⟩ :=
      pciResourceAllocate_node hrun
    simp only [Forest.toList, List.mem_cons, List.mem_append] at hhost hsized
    simp only [Forest.map, part_noted] at hfit ⊢
    have hfit₂ := closing_spent _ _ _ _ _ hfit
    -- the peers, with what was laid out before them
    obtain ⟨j, hj, hjmask⟩ := alignBus_toNat ht
    have hfitA : (regionAlign (alignBus t) st₁.region).2.spent = false := by
      have := pciResourceAllocate_spent hostRange t kids
        { st₁ with region := (regionAlign (alignBus t) st₁.region).2 }
      rw [hkids] at this
      exact this hfit₂
    obtain ⟨hret, hdownA, hpos, halign⟩ := regionAlign_spec hj hjmask hfitA
    obtain ⟨mid₁, h₁⟩ := hp st (fun b hb => hhost b (Or.inr (Or.inr hb)))
      (fun b hb => hsized b (Or.inr (Or.inr hb))) hdvd hspace hmask hbase
      (by rw [hpeer]; exact hdownA.spent)
    rw [hpeer] at h₁
    simp only at h₁
    -- the kids, below the peers
    obtain ⟨mid₂, h₂⟩ := hk { st₁ with region := (regionAlign (alignBus t) st₁.region).2 }
      (fun b hb => hhost b (Or.inr (Or.inl hb))) (fun b hb => hsized b (Or.inr (Or.inl hb)))
      h₁.dvd (h₁.le.trans hspace) (hdownA.mask.trans (h₁.down.mask.trans hmask))
      (hdownA.base.trans h₁.base) (by rw [hkids]; exact hfit₂)
    rw [hkids] at h₂
    simp only at h₂
    -- the devices and the window of the bus, below its kids
    generalize htop : (regionAlign (alignBus t) st₁.region).1 = b₀ at *
    have hb₀ : b₀.toNat ≤ mid₁ := by
      rw [hret]
      exact hdownA.base.trans h₁.base
    have hlim : (b₀ - 1).toNat = b₀.toNat - 1 :=
      UInt32.toNat_sub_of_le _ _ (by rw [UInt32.le_iff_toNat_le]; exact hpos)
    have hle₁ := h₁.le
    obtain ⟨r, htaken, hwin⟩ := closing_bridge ht (hhost bus (Or.inl rfl)) (hsized bus (Or.inl rfl))
      (h₂.down.mask.trans (hdownA.mask.trans (h₁.down.mask.trans hmask))) (by omega) hfit
    rw [hlim] at hwin
    obtain ⟨hgran, hgran'⟩ := granule_end hpos h₁.dvd hb₀
    have hdown := htaken.down.base
    have hdown₂ := h₂.down.base
    have hmid₂ := h₂.base
    simp only [← hret] at hdown₂
    have htops : ∀ x, x ∈ (part t (closing hostRange t bus (b₀ - 1) st₂).2.1).blocks ++
        blocks (kids'.map (part t)) →
        x.1 + x.2 ≤ b₀.toNat := by
      intro x hx
      rcases List.mem_append.mp hx with hx | hx
      · exact (htaken.between x hx).2.trans hdown₂
      · have := (h₂.between x hx).2
        rwa [← hret] at this
    have hmask₂ : r.mask = st.region.mask :=
      htaken.down.mask.trans (h₂.down.mask.trans (hdownA.mask.trans h₁.down.mask))
    rcases hwin with ⟨hclosed, hreg, hlt⟩ | ⟨hopen, hdownR, hregbase, hlo, hhi⟩
    · refine ⟨mid₂, h₁.node hdownA.base h₂ htaken ?_ ?_ h₂.dvd le_rfl ?_ ?_ (Or.inl ⟨hlt, ?_, ?_⟩)⟩
      · rw [hreg]
      · rw [hreg, hmask₂]
      · rw [hreg]
        omega
      · intro x hx
        have := htaken.room (List.ne_nil_of_mem hx)
        omega
      · by_contra hne
        have := htaken.room hne
        omega
      · by_contra hne
        have := h₂.room hne
        simp only [← hret] at this
        omega
    · have hdownR' := hdownR.base
      refine ⟨_, h₁.node hdownA.base h₂ htaken hdownR' (hdownR.mask.trans hmask₂)
        (by rw [hregbase]; exact Nat.dvd_mul_left _ _) (by omega) le_rfl ?_ (Or.inr ⟨hlo, ?_, ?_⟩)⟩
      · intro x hx
        exact hdownR'.trans (htaken.between x hx).1
      · rw [hhi]
        exact hgran'
      · intro x hx
        rw [hhi]
        exact (htops x hx).trans hgran

end Pci.Resource
