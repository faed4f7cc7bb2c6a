import CobaltRom.Pci.Numbering

/-! Two host bridges: what a scan leaves in the registers of the first one, on any machine. -/
namespace Pci

/-- The buses of the other host bridges. -/
def St.peerBuses (st : St) : List Bus := st.peers.flatMap fun r => r.1 :: r.2.toList

variable {scan : Bus → St → Option (Bus × Forest Bus × St)} {bus bus' new : Bus} {fn : FnInfo}
  {kids : Forest Bus} {st st' st'' : St} {z y : Prop} {k l : List Bus} {n d : Nat}

theorem Phys.find_setRegs (d e : Nat) (f : Regs → Regs) (p : Phys) :
    (p.setRegs e f).find d = p.find d := by
  induction p with
  | nil => rfl
  | echo fn isBridge next ih => simp only [setRegs, find, ih]
  | dev fn next ih => simp only [setRegs, find, ih]
  | bridge fn regs behind next _ ih => simp only [setRegs, find, ih]

theorem Phys.find_route (d n : Nat) (g : Phys → Phys) (p : Phys) :
    (p.route n g).find d = p.find d := by
  induction p with
  | nil => rfl
  | echo fn isBridge next ih => simp only [route, find, ih]
  | dev fn next ih => simp only [route, find, ih]
  | bridge fn regs behind next _ ih => simp only [route, find, ih]

theorem Phys.find_devfn {p : Phys} {b : Bool} (h : p.find d = some (fn, b)) : fn.devfn = d := by
  induction p with
  | nil => cases h
  | echo fn₁ isBridge next ih =>
    by_cases hd : fn₁.devfn = d
    · simp only [find, hd, if_true, Option.some.injEq, Prod.mk.injEq] at h
      rw [← h.1, hd]
    · exact ih (by simpa only [find, hd, if_false] using h)
  | dev fn₁ next ih =>
    by_cases hd : fn₁.devfn = d
    · simp only [find, hd, if_true, Option.some.injEq, Prod.mk.injEq] at h
      rw [← h.1, hd]
    · exact ih (by simpa only [find, hd, if_false] using h)
  | bridge fn₁ regs behind next _ ih =>
    by_cases hd : fn₁.devfn = d
    · simp only [find, hd, if_true, Option.some.injEq, Prod.mk.injEq] at h
      rw [← h.1, hd]
    · exact ih (by simpa only [find, hd, if_false] using h)

/-- What every part of a scan keeps, whatever answers: the functions on bus 0, the peer list up to
new ones at its end, and SBUSNUM of the first host bridge unless `z`, or a bus got number 0. -/
structure Ran (z : Prop) (kids : List Bus) (st st' : St) : Prop where
  find : ∀ d, st'.hw.root.find d = st.hw.root.find d
  busnum0 : st'.hw.busnum0 = st.hw.busnum0
  peers : ∀ x, x ∈ st.peerBuses → x ∈ st'.peerBuses
  bytes : (∀ x, x ∈ st.peerBuses → x.busnum < 256) →
    ∀ x, x ∈ kids ∨ x ∈ st'.peerBuses → x.busnum < 256
  sbusnum0 : z ∨ (∃ x, (x ∈ kids ∨ x ∈ st'.peerBuses) ∧ x.busnum = 0) ∨
    st'.hw.sbusnum0 = st.hw.sbusnum0

theorem ran_of_same (hfind : ∀ d, st'.hw.root.find d = st.hw.root.find d)
    (hnum : st'.hw.busnum0 = st.hw.busnum0) (hpeers : st'.peers = st.peers)
    (hsub : z ∨ st'.hw.sbusnum0 = st.hw.sbusnum0) : Ran z [] st st' := by
  have hmem : st'.peerBuses = st.peerBuses := by rw [St.peerBuses, St.peerBuses, hpeers]
  exact ⟨hfind, hnum, fun x hx => by rwa [hmem], fun h x hx => h x (by simpa [hmem] using hx),
    hsub.imp_right Or.inr⟩

theorem Ran.refl (z : Prop) (st : St) : Ran z [] st st :=
  ran_of_same (fun _ => rfl) rfl rfl (Or.inr rfl)

theorem Ran.trans (h : Ran z k st st') (h' : Ran z l st' st'') : Ran z (k ++ l) st st'' := by
  refine ⟨fun d => (h'.find d).trans (h.find d), h'.busnum0.trans h.busnum0,
    fun x hx => h'.peers x (h.peers x hx), fun hb x hx => ?_, ?_⟩
  · have hk := h.bytes hb
    have hl := h'.bytes fun x hx => hk x (Or.inr hx)
    rcases hx with hx | hx
    · rcases List.mem_append.mp hx with hx | hx
      · exact hk x (Or.inl hx)
      · exact hl x (Or.inl hx)
    · exact hl x (Or.inr hx)
  · rcases h.sbusnum0 with hz | ⟨x, hx, h0⟩ | heq
    · exact Or.inl hz
    · refine Or.inr (Or.inl ⟨x, ?_, h0⟩)
      rcases hx with hx | hx
      · exact Or.inl (List.mem_append_left _ hx)
      · exact Or.inr (h'.peers x hx)
    · rcases h'.sbusnum0 with hz | ⟨x, hx, h0⟩ | heq'
      · exact Or.inl hz
      · refine Or.inr (Or.inl ⟨x, ?_, h0⟩)
        rcases hx with hx | hx
        · exact Or.inl (List.mem_append_right _ hx)
        · exact Or.inr hx
      · exact Or.inr (Or.inr (heq'.trans heq))

theorem Ran.mono (h : Ran z k st st') (hzy : z → y) : Ran y k st st' :=
  { h with sbusnum0 := h.sbusnum0.imp_left hzy }

/-- A bridge bus that was scanned becomes a kid. -/
theorem Ran.addKid (h : Ran (new.busnum = 0) k st st') (hnew : new.busnum < 256) :
    Ran z (new :: k) st st' := by
  refine ⟨h.find, h.busnum0, h.peers, fun hb x hx => ?_, Or.inr ?_⟩
  · rw [List.mem_cons, or_assoc] at hx
    rcases hx with rfl | hx
    · exact hnew
    · exact h.bytes hb x hx
  · rcases h.sbusnum0 with h0 | ⟨x, hx, h0⟩ | heq
    · exact Or.inl ⟨new, Or.inl List.mem_cons_self, h0⟩
    · exact Or.inl ⟨x, hx.imp_left (List.mem_cons_of_mem _), h0⟩
    · exact Or.inr heq

/-- A host bus that was scanned becomes a peer. -/
theorem Ran.addPeer (h : Ran (new.busnum = 0) kids.toList st st') (hnew : new.busnum < 256) :
    Ran z [] st { st' with peers := st'.peers ++ [(new, kids)] } := by
  have hmem : ∀ x, x ∈ St.peerBuses { st' with peers := st'.peers ++ [(new, kids)] } ↔
      x ∈ st'.peerBuses ∨ x ∈ new :: kids.toList := by
    intro x
    simp [St.peerBuses]
  have hkid := h.addKid (z := z) hnew
  refine ⟨h.find, h.busnum0, fun x hx => (hmem x).mpr (Or.inl (h.peers x hx)),
    fun hb x hx => ?_, ?_⟩
  · rw [hmem] at hx
    refine hkid.bytes hb x ?_
    rcases hx with hx | hx | hx
    · cases hx
    · exact Or.inr hx
    · exact Or.inl hx
  · rcases hkid.sbusnum0 with hz | ⟨x, hx, h0⟩ | heq
    · exact Or.inl hz
    · exact Or.inr (Or.inl ⟨x, Or.inr ((hmem x).mpr hx.symm), h0⟩)
    · exact Or.inr (Or.inr heq)

theorem ran_touch (n : Nat) (st : St) : Ran z [] st (touch n st) :=
  ran_of_same (fun _ => rfl) rfl rfl (Or.inr rfl)

theorem ran_writeRegs (n d : Nat) (f : Regs → Regs) (st : St) :
    Ran z [] st (writeRegs n d f st) := by
  have hhw : (writeRegs n d f st).hw = atBus n (Phys.setRegs d f) st.hw := rfl
  refine ran_of_same (fun e => ?_) ?_ rfl (Or.inr ?_)
  · rw [hhw, atBus]
    by_cases h0 : n = 0
    · rw [if_pos h0]
      exact Phys.find_setRegs _ _ _ _
    · rw [if_neg h0]
      by_cases hg : st.hw.gated = true ∧ st.hw.sbusnum0 < n
      · simp only [if_pos hg]
      · simp only [if_neg hg]
        exact Phys.find_route _ _ _ _
  · rw [hhw, atBus]
    split <;> rfl
  · rw [hhw, atBus]
    split <;> rfl

/-- A write to the host bridge that leaves bus 0 and the first one's bus number alone. -/
theorem ran_writeHost (n : Nat) (f : Hw → Hw) (st : St) (hroot : (f st.hw).root = st.hw.root)
    (hnum : (f st.hw).busnum0 = st.hw.busnum0)
    (hsub : n = 0 → z ∨ (f st.hw).sbusnum0 = st.hw.sbusnum0) : Ran z [] st (writeHost n f st) := by
  by_cases h0 : n = 0
  · rw [writeHost, if_pos h0]
    exact ran_of_same (fun d => by rw [← hroot]; rfl) hnum rfl (hsub h0)
  · rw [writeHost, if_neg h0]
    exact ran_touch n st

/-- The first host bridge, found on bus 0. -/
def IsPrimary (n : Nat) (fn : FnInfo) : Prop :=
  n = 0 ∧ isCnb30le fn = true ∧ fn.devfn % 8 = 0

theorem ran_pciFixupPre (bus : Bus) (fn : FnInfo) (st : St) :
    Ran (IsPrimary bus.busnum fn) [] st (pciFixupPre bus fn st) := by
  by_cases hc : isCnb30le fn = true
  · rw [pciFixupPre, if_pos hc]
    refine ran_writeHost _ _ _ ?_ ?_ ?_
    · split_ifs <;> rfl
    · split_ifs <;> rfl
    · intro h0
      by_cases h8 : fn.devfn % 8 = 0
      · exact Or.inl ⟨h0, hc, h8⟩
      · refine Or.inr ?_
        rw [if_neg h8]
        split_ifs <;> rfl
  · rw [pciFixupPre, if_neg hc]
    exact Ran.refl _ _

/-- What a scan keeps, and that it leaves the number of its bus alone. -/
def RanOk (scan : Bus → St → Option (Bus × Forest Bus × St)) : Prop :=
  ∀ bus st bus' kids st', scan bus st = some (bus', kids, st') →
    Ran (bus.busnum = 0) kids.toList st st' ∧ bus'.busnum = bus.busnum

theorem ran_pciFixupPost (hok : RanOk scan) (h : pciFixupPost scan bus fn st = some (bus', st')) :
    Ran (IsPrimary bus.busnum fn) [] st st' ∧ bus'.busnum = bus.busnum ∧ bus'.sub = bus.sub ∧
      (IsPrimary bus.busnum fn → st'.hw.sbusnum0 = bus.sub) := by
  by_cases hc : isCnb30le fn = true
  · simp only [pciFixupPost, if_pos hc] at h
    by_cases h8 : fn.devfn % 8 = 0
    · simp only [if_pos h8, Option.some.injEq, Prod.mk.injEq] at h
      obtain ⟨rfl, rfl⟩ := h
      refine ⟨(ran_touch _ _).trans (ran_writeHost _ _ _ rfl rfl fun h0 => Or.inl ⟨h0, hc, h8⟩),
        rfl, rfl, fun hp => ?_⟩
      simp only [writeHost, hp.1, if_true]
    · have hnot : ¬IsPrimary bus.busnum fn := fun hp => h8 hp.2.2
      simp only [if_neg h8] at h
      by_cases h1 : fn.devfn % 8 = 1
      · simp only [if_pos h1] at h
        obtain ⟨⟨new, kids, st₁⟩, hscan, heq⟩ := Option.map_eq_some_iff.mp h
        simp only [Prod.mk.injEq] at heq
        obtain ⟨rfl, rfl⟩ := heq
        obtain ⟨hran, hnum⟩ := hok _ _ _ _ _ hscan
        have hall := ((ran_touch _ _).trans
          (ran_writeHost _ _ _ rfl rfl fun _ => Or.inr rfl)).trans hran
        have hpeer := hall.trans (ran_writeHost bus.busnum
          (fun hw => { hw with sbusnum1 := new.lastKid }) st₁ rfl rfl fun _ => Or.inr rfl)
        simp only [List.nil_append, List.append_nil] at hpeer
        refine ⟨(hpeer.mono fun h0 => ?_).addPeer ?_, rfl, rfl, fun hp => absurd hp hnot⟩
        · exact hnum.trans h0
        · exact hnum.trans_lt (Nat.mod_lt _ (by omega))
      · simp only [if_neg h1, Option.some.injEq, Prod.mk.injEq] at h
        obtain ⟨rfl, rfl⟩ := h
        exact ⟨ran_touch _ _, rfl, rfl, fun hp => absurd hp hnot⟩
  · simp only [pciFixupPost, if_neg hc, Option.some.injEq, Prod.mk.injEq] at h
    obtain ⟨rfl, rfl⟩ := h
    exact ⟨Ran.refl _ _, rfl, rfl, fun hp => absurd hp.2.1 hc⟩

theorem ran_pciBridgeInit (z : Prop) (hok : RanOk scan)
    (h : pciBridgeInit scan bus fn st = some (bus', new, kids, st')) :
    Ran z (new :: kids.toList) st st' ∧ bus'.busnum = bus.busnum ∧ bus'.sub = bus.sub := by
  obtain ⟨⟨new₁, kids₁, st₁⟩, hscan, heq⟩ := Option.map_eq_some_iff.mp h
  simp only [Prod.mk.injEq] at heq
  obtain ⟨rfl, rfl, rfl, rfl⟩ := heq
  obtain ⟨hran, hnum⟩ := hok _ _ _ _ _ hscan
  have hall := ((((((ran_touch _ _).trans (ran_touch _ _)).trans (ran_writeRegs _ _ _ _)).trans
    (ran_writeRegs _ _ _ _)).trans (ran_writeRegs _ _ _ _)).trans hran).trans
    (ran_writeRegs bus.busnum fn.devfn (fun r => { r with sub := new₁.lastKid }) st₁)
  simp only [List.nil_append, List.append_nil] at hall
  refine ⟨(hall.mono fun h0 => ?_).addKid ?_, rfl, rfl⟩
  · exact hnum.trans h0
  · exact hnum.trans_lt (Nat.mod_lt _ (by omega))

/-- One turn of the loop over the functions of a bus. -/
theorem scanFns_step {rest : List Nat} {mf : Bool} (hok : RanOk scan)
    (h : scanFns scan (d :: rest) mf bus st = some (bus', kids, st')) :
    ∃ mf₁ bus₁ st₁ kids₁, scanFns scan rest mf₁ bus₁ st₁ = some (bus', kids₁, st') ∧
      bus₁.busnum = bus.busnum ∧ bus₁.sub = bus.sub ∧
      ∃ k, kids.toList = k ++ kids₁.toList ∧
        Ran (∃ r, readFn bus.busnum d st.hw = some r ∧ IsPrimary bus.busnum r.1) k st st₁ ∧
        (∀ r, readFn bus.busnum d st.hw = some r → d % 8 = 0 → IsPrimary bus.busnum r.1 →
          st₁.hw.sbusnum0 = bus.sub) := by
  rw [scanFns] at h
  by_cases hskip : (!mf && decide (d % 8 ≠ 0)) = true
  · rw [if_pos hskip] at h
    simp only [Bool.and_eq_true, decide_eq_true_eq] at hskip
    exact ⟨mf, bus, st, kids, h, rfl, rfl, [], rfl, Ran.refl _ _,
      fun _ _ h8 _ => absurd h8 hskip.2⟩
  rw [if_neg hskip] at h
  cases hread : readFn bus.busnum d st.hw with
  | none =>
    simp only [hread] at h
    exact ⟨mf, bus, touch bus.busnum st, kids, h, rfl, rfl, [], rfl, ran_touch _ _,
      fun _ hr => by cases hr⟩
  | some r =>
    obtain ⟨fn, isBridge⟩ := r
    simp only [hread] at h
    have hfound : ∀ z, Ran z [] st (st.found bus.busnum bus.path d) := fun z =>
      ran_of_same (fun _ => rfl) rfl rfl (Or.inr rfl)
    cases isBridge with
    | true =>
      simp only [if_true] at h
      obtain ⟨⟨bus₁, new, kids₁, st₁⟩, hinit, h⟩ := Option.bind_eq_some_iff.mp h
      obtain ⟨⟨bus₂, st₂⟩, hpost, h⟩ := Option.bind_eq_some_iff.mp h
      obtain ⟨⟨bus₃, kids₃, st₃⟩, hrest, heq⟩ := Option.map_eq_some_iff.mp h
      simp only [Prod.mk.injEq] at heq
      obtain ⟨rfl, rfl, rfl⟩ := heq
      obtain ⟨hran₁, hnum₁, hsub₁⟩ := ran_pciBridgeInit (IsPrimary bus.busnum fn) hok hinit
      obtain ⟨hran₂, hnum₂, hsub₂, hset⟩ := ran_pciFixupPost hok hpost
      have hbus : bus₁.busnum = bus.busnum := hnum₁
      refine ⟨_, bus₂, st₂, kids₃, hrest, hnum₂.trans hnum₁, hsub₂.trans hsub₁,
        new :: kids₁.toList, rfl, ?_, fun r hr _ hp => ?_⟩
      swap
      · obtain rfl := Option.some.inj hr
        exact (hset (by rwa [hbus])).trans hsub₁
      have hran := (((hfound _).trans (ran_pciFixupPre (bus.found fn) fn _)).trans hran₁).trans
        ((ran_touch bus₁.busnum st₁).trans (hran₂.mono fun hp => hbus ▸ hp))
      simp only [List.nil_append, List.append_nil] at hran
      exact hran.mono fun hp => ⟨_, rfl, hp⟩
    | false =>
      simp only [Bool.false_eq_true, if_false] at h
      obtain ⟨⟨bus₂, st₂⟩, hpost, hrest⟩ := Option.bind_eq_some_iff.mp h
      obtain ⟨hran₂, hnum₂, hsub₂, hset⟩ := ran_pciFixupPost hok hpost
      have hran := ((hfound _).trans (ran_pciFixupPre (bus.found fn) fn _)).trans
        ((ran_touch bus.busnum _).trans hran₂)
      refine ⟨_, bus₂, st₂, kids, hrest, hnum₂, hsub₂, [], rfl, hran.mono fun hp => ⟨_, rfl, hp⟩,
        fun r hr _ hp => ?_⟩
      obtain rfl := Option.some.inj hr
      exact hset hp

theorem ran_scanFns (hok : RanOk scan) (ds : List Nat) (mf : Bool)
    (h : scanFns scan ds mf bus st = some (bus', kids, st')) :
    Ran (bus.busnum = 0) kids.toList st st' ∧ bus'.busnum = bus.busnum := by
  induction ds generalizing mf bus kids st with
  | nil =>
    simp only [scanFns, Option.some.injEq, Prod.mk.injEq] at h
    obtain ⟨rfl, rfl, rfl⟩ := h
    exact ⟨Ran.refl _ _, rfl⟩
  | cons d ds ih =>
    obtain ⟨mf₁, bus₁, st₁, kids₁, hrest, hnum, -, k, hk, hran, -⟩ := scanFns_step hok h
    obtain ⟨hran₁, hnum₁⟩ := ih mf₁ hrest
    rw [hk]
    rw [hnum] at hran₁
    refine ⟨(hran.mono ?_).trans hran₁, hnum₁.trans hnum⟩
    rintro ⟨r, -, hp⟩
    exact hp.1

theorem touches_same (n : Nat) (l : List Nat) (st : St) :
    (l.foldl (fun st _ => touch n st) st).hw = st.hw ∧
      (l.foldl (fun st _ => touch n st) st).peers = st.peers := by
  induction l generalizing st with
  | nil => exact ⟨rfl, rfl⟩
  | cons x l ih => exact ih (touch n st)

theorem enableFbbe_same (bus : Bus) (st : St) :
    (enableFbbe bus st).hw = st.hw ∧ (enableFbbe bus st).peers = st.peers := by
  rw [enableFbbe]
  split_ifs
  · exact touches_same _ _ _
  · exact touches_same _ _ _
  · exact ⟨rfl, rfl⟩

theorem ran_enableFbbe (bus : Bus) (st : St) : Ran z [] st (enableFbbe bus st) := by
  obtain ⟨hhw, hpeers⟩ := enableFbbe_same bus st
  exact ran_of_same (fun _ => by rw [hhw]) (by rw [hhw]) hpeers (Or.inr (by rw [hhw]))

theorem ran_pciBusScan (fuel : Nat) : RanOk (pciBusScan fuel) := by
  induction fuel with
  | zero =>
    intro bus st bus' kids st' h
    cases h
  | succ fuel ih =>
    intro bus st bus' kids st' h
    obtain ⟨⟨bus₁, kids₁, st₁⟩, hscan, heq⟩ := Option.map_eq_some_iff.mp h
    simp only [Prod.mk.injEq] at heq
    obtain ⟨rfl, rfl, rfl⟩ := heq
    obtain ⟨hran, hnum⟩ := ran_scanFns ih _ _ hscan
    have := hran.trans (ran_enableFbbe bus₁ st₁)
    rw [List.append_nil] at this
    exact ⟨this, hnum⟩

theorem readFn_zero (d : Nat) (hw : Hw) :
    readFn 0 d hw = match hw.root.find d with
      | none => none
      | some r => if r.1.vendor = 0xffff ∨ r.1.vendor = 0 then none else some r := by
  rw [readFn, access, if_pos rfl]
  cases h : hw.root.find d <;> simp [h]

/-- The scan of bus 0 leaves SBUSNUM of the first host bridge at 0, unless it gives that number to
another bus. -/
theorem scanFns_primary {h : Nat} {b : Bool} (hok : RanOk scan) (hcnb : isCnb30le fn = true)
    (hven : ¬(fn.vendor = 0xffff ∨ fn.vendor = 0)) (h8 : h % 8 = 0) (ds : List Nat) (mf : Bool)
    (hrun : scanFns scan ds mf bus st = some (bus', kids, st')) (hnum : bus.busnum = 0)
    (hsub : bus.sub = 0) (hfind : st.hw.root.find h = some (fn, b))
    (hzero : st.hw.sbusnum0 = 0 ∨ h ∈ ds) :
    (∃ x, (x ∈ kids.toList ∨ x ∈ st'.peerBuses) ∧ x.busnum = 0) ∨ st'.hw.sbusnum0 = 0 := by
  induction ds generalizing mf bus kids st with
  | nil =>
    simp only [scanFns, Option.some.injEq, Prod.mk.injEq] at hrun
    obtain ⟨-, -, rfl⟩ := hrun
    exact Or.inr (hzero.resolve_right (List.not_mem_nil))
  | cons d ds ih =>
    obtain ⟨mf₁, bus₁, st₁, kids₁, hrest, hnum₁, hsub₁, k, hk, hran, hset⟩ := scanFns_step hok hrun
    obtain ⟨hran₁, -⟩ := ran_scanFns hok ds mf₁ hrest
    have hturn : (∃ x, (x ∈ k ∨ x ∈ st₁.peerBuses) ∧ x.busnum = 0) ∨
        (st₁.hw.sbusnum0 = 0 ∨ h ∈ ds) := by
      by_cases hprim : ∃ r, readFn bus.busnum d st.hw = some r ∧ IsPrimary bus.busnum r.1
      · obtain ⟨r, hread, hp⟩ := hprim
        have hd : d % 8 = 0 := by
          have hr := hread
          rw [hnum, readFn_zero] at hr
          cases hf : st.hw.root.find d with
          | none => simp [hf] at hr
          | some r' =>
            simp only [hf] at hr
            split_ifs at hr
            obtain rfl := Option.some.inj hr
            rw [← Phys.find_devfn hf]
            exact hp.2.2
        exact Or.inr (Or.inl ((hset r hread hd hp).trans hsub))
      · rcases hran.sbusnum0 with hp | hx | heq
        · exact absurd hp hprim
        · exact Or.inl hx
        · refine Or.inr ?_
          rw [heq]
          rcases hzero with h0 | hmem
          · exact Or.inl h0
          rcases List.mem_cons.mp hmem with rfl | hmem
          · refine absurd ⟨(fn, b), ?_, hnum, hcnb, ?_⟩ hprim
            · rw [hnum, readFn_zero, hfind]
              exact if_neg hven
            · rw [Phys.find_devfn hfind]
              exact h8
          · exact Or.inr hmem
    rw [hk]
    rcases hturn with ⟨x, hx, h0⟩ | hturn
    · refine Or.inl ⟨x, ?_, h0⟩
      rcases hx with hx | hx
      · exact Or.inl (List.mem_append_left _ hx)
      · exact Or.inr (hran₁.peers x hx)
    · rcases ih mf₁ hrest (hnum₁.trans hnum) (hsub₁.trans hsub)
        (by rw [hran.find, hfind]) hturn with
        ⟨x, hx, h0⟩ | h0
      · exact Or.inl ⟨x, hx.imp_left (List.mem_append_right _), h0⟩
      · exact Or.inr h0

end Pci
