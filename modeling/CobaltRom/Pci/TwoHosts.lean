import CobaltRom.Pci.Peer

/-! Machines with the two host bridges of a CNB30LE: when their bus ranges come out right. -/
namespace Pci

namespace Phys

/-- The functions on this bus that are no bridges. -/
def devFns : Phys → List FnInfo
  | nil => []
  | echo _ _ next => devFns next
  | dev fn next => fn :: devFns next
  | bridge _ _ _ next => devFns next

/-- `P` holds of every function on this bus and `Q` of every one behind it. -/
def Split (P Q : FnInfo → Prop) : Phys → Prop
  | nil => True
  | echo _ _ next => next.Split P Q
  | dev fn next => P fn ∧ next.Split P Q
  | bridge fn _ behind next => P fn ∧ behind.All Q ∧ next.Split P Q

theorem reach_flat {p : Phys} (h : p.count = 0) (n : Nat) : p.reach n = [] := by
  induction p with
  | nil => rfl
  | echo fn isBridge next ih => exact ih h
  | dev fn next ih => exact ih h
  | bridge fn regs behind next _ _ =>
    simp only [count] at h
    omega

theorem route_flat {p : Phys} (h : p.count = 0) (n : Nat) (g : Phys → Phys) : p.route n g = p := by
  induction p with
  | nil => rfl
  | echo fn isBridge next ih => rw [route, ih h]
  | dev fn next ih => rw [route, ih h]
  | bridge fn regs behind next _ _ =>
    simp only [count] at h
    omega

end Phys

/-- A machine whose bus 0 has a CNB30LE, as functions 0 and 1 of one slot at `h`. -/
structure TwoHosts (hw : Hw) (h : Nat) : Prop where
  slot : h % 8 = 0
  primary : ∃ fn, fn ∈ hw.root.devFns ∧ fn.devfn = h ∧ isCnb30le fn = true
  secondary : ∃ fn, fn ∈ hw.root.devFns ∧ fn.devfn = h + 1 ∧ isCnb30le fn = true
  only : hw.root.Split (fun fn => isCnb30le fn = true → fn.devfn = h ∨ fn.devfn = h + 1)
    (fun fn => isCnb30le fn = false)
  peerOnly : hw.peer.All fun fn => isCnb30le fn = false
  ordered : hw.root.Ordered 0 0 false
  peerOrdered : hw.peer.Ordered 0 0 false
  fresh : hw.root.Fresh
  peerFresh : hw.peer.Fresh
  peerPath : hw.peerPath = [h + 1]
  busnum0 : hw.busnum0 = 0

/-- Without bridges on bus 0, the second host bridge alone answers for other buses. -/
theorem access_flat {hw : Hw} {n : Nat} (hflat : hw.root.count = 0) (hn : 0 < n) :
    access n hw = if hw.busnum1 ≤ n ∧ n ≤ hw.sbusnum1 then
      if n = hw.busnum1 then [(hw.peerPath, hw.peer)]
      else (hw.peer.reach n).map fun r => (hw.peerPath ++ r.1, r.2)
    else [] := by
  rw [access, if_neg (by omega), Phys.reach_flat hflat, ite_self, List.nil_append]

theorem atBus_flat {hw : Hw} {n : Nat} (g : Phys → Phys) (hflat : hw.root.count = 0) (hn : 0 < n) :
    atBus n g hw = { hw with
      peer :=
        if hw.busnum1 ≤ n ∧ n ≤ hw.sbusnum1 then
          if n = hw.busnum1 then g hw.peer else hw.peer.route n g
        else hw.peer } := by
  rw [atBus, if_neg (by omega), Phys.route_flat hflat, ite_self]

/-- The bus of the second host bridge while it forwards everything from 1 on. -/
def peerFocus (hw : Hw) (hflat : hw.root.count = 0) : Focus where
  put q := { hw with peer := q, busnum1 := 1, sbusnum1 := 0xff }
  num := 1
  path := hw.peerPath
  here q := by
    rw [access_flat (by exact hflat) one_pos, if_pos ⟨le_rfl, by simp⟩, if_pos rfl]
  below n q hn hn' := by
    rw [access_flat (by exact hflat) (by omega), if_pos ⟨by simp only; omega, hn'⟩,
      if_neg (by simp only; omega)]
  hereUpd g q := by
    rw [atBus_flat g (by exact hflat) one_pos, if_pos ⟨le_rfl, by simp⟩, if_pos rfl]
  belowUpd n g q hn hn' := by
    rw [atBus_flat g (by exact hflat) (by omega), if_pos ⟨by simp only; omega, hn'⟩,
      if_neg (by simp only; omega)]

variable {scan : Bus → St → Option (Bus × Forest Bus × St)} {bus : Bus} {st : St} {hw : Hw}
  {h d slot : Nat} {mf : Bool} {done rest : Phys} {fn : FnInfo}

/-- The loop over the functions of bus 0 stands at `d`, with `done` behind it and `rest` to come,
and nothing on the bus is a bridge. -/
structure AtFn (d slot : Nat) (mf : Bool) (done rest : Phys) (bus : Bus) (st : St) : Prop where
  busnum : bus.busnum = 0
  path : bus.path = []
  sub : bus.sub = 0
  lastKid : bus.lastKid = 0
  root : st.hw.root = done.append rest
  done : ∀ e, d ≤ e → done.find e = none
  ordered : rest.Ordered d slot mf
  flat : rest.count = 0

/-- What stands at `d`, and that the loop may go on after it. -/
theorem AtFn.cases (h : AtFn d slot mf done rest bus st) :
    (AtFn (d + 1) slot mf done rest bus st ∧ readFn 0 d st.hw = none) ∨
      (∃ fn b next, rest = .echo fn b next ∧ (!mf && decide (d % 8 ≠ 0)) = true ∧
        AtFn (d + 1) slot mf (done.append (.echo fn b .nil)) next bus st) ∨
      ∃ fn next, rest = .dev fn next ∧ fn.devfn = d ∧ readFn 0 d st.hw = some (fn, false) ∧
        ¬(!mf && decide (d % 8 ≠ 0)) = true ∧
        AtFn (d + 1) (slotAfter slot fn) (multiAfter mf fn) (done.append (.dev fn .nil)) next
          (bus.found fn) (st.found 0 [] d) := by
  have hread := readFn_zero d st.hw
  rw [h.root, Phys.find_append (h.done d le_rfl)] at hread
  cases hfind : rest.find d with
  | none =>
    rw [hfind] at hread
    exact Or.inl
      ⟨{ h with done := fun e he => h.done e (by omega), ordered := h.ordered.skip hfind },
      hread⟩
  | some r =>
    obtain ⟨fn, b⟩ := r
    obtain ⟨hdev, ⟨next, rfl⟩ | ⟨next, rfl, rfl⟩ | ⟨regs, behind, next, rfl, -⟩⟩ :=
      h.ordered.head hfind
    · obtain ⟨-, ⟨hne, hmf⟩, hnext⟩ := h.ordered
      refine Or.inr (Or.inl ⟨fn, b, next, rfl, by simpa [hmf, hdev] using hne, ?_⟩)
      exact { h with
        root := by rw [Phys.append_assoc]; exact h.root
        done := find_snoc_echo h.done hdev
        ordered := hdev ▸ hnext }
    · obtain ⟨hfol, hmf, hnext⟩ := h.ordered
      refine Or.inr (Or.inr ⟨fn, next, rfl, hdev, ?_, ?_, ?_⟩)
      · rw [hread, hfind]
        exact if_neg hfol.vendor
      · intro hskip
        simp only [Bool.and_eq_true, Bool.not_eq_true', decide_eq_true_eq] at hskip
        rw [hmf (by rw [hdev]; exact hskip.2)] at hskip
        exact Bool.noConfusion hskip.1
      · exact {
          busnum := h.busnum
          path := h.path
          sub := h.sub
          lastKid := h.lastKid
          root := by rw [Phys.append_assoc]; exact h.root
          done := find_snoc_dev h.done hdev
          ordered := hdev ▸ hnext
          flat := h.flat }
    · have := h.flat
      simp only [Phys.count] at this
      omega

theorem AtFn.of_root {st' : St} (h : AtFn d slot mf done rest bus st)
    (hr : st'.hw.root = st.hw.root) : AtFn d slot mf done rest bus st' :=
  { h with root := hr.trans h.root }

theorem scanFns_none (l : List Nat) (mf : Bool) (hread : readFn bus.busnum d st.hw = none) :
    scanFns scan (d :: l) mf bus st = scanFns scan l mf bus st ∨
      scanFns scan (d :: l) mf bus st = scanFns scan l mf bus (touch bus.busnum st) := by
  rw [scanFns]
  by_cases hskip : (!mf && decide (d % 8 ≠ 0)) = true
  · exact Or.inl (if_pos hskip)
  · refine Or.inr ?_
    rw [if_neg hskip]
    simp only [hread]

/-- Where nothing is left but plain devices, the loop finds no bus. -/
theorem scanFns_idle {Q : FnInfo → Prop}
    (scan : Bus → St → Option (Bus × Forest Bus × St)) (m : Nat) (hd : d + m = 256)
    (hat : AtFn d slot mf done rest bus st) (hcnb : rest.Split (fun fn => isCnb30le fn = false) Q) :
    ∃ bus' st', scanFns scan (List.range' d m) mf bus st = some (bus', .nil, st') ∧
      bus'.busnum = 0 ∧ bus'.path = [] ∧ st'.hw = st.hw ∧ st'.peers = st.peers := by
  induction m generalizing d slot mf done rest bus st with
  | zero => exact ⟨bus, st, rfl, hat.busnum, hat.path, rfl, rfl⟩
  | succ m ih =>
    rw [List.range'_succ]
    rcases hat.cases with ⟨hnext, hread⟩ | ⟨fn, b, next, rfl, hskip, hnext⟩ |
      ⟨fn, next, rfl, hdev, hread, hskip, hnext⟩
    · rw [← hat.busnum] at hread
      rcases scanFns_none (List.range' (d + 1) m) mf hread with hrun | hrun
      · rw [hrun]
        exact ih (by omega) hnext hcnb
      · rw [hrun]
        exact ih (by omega) (hnext.of_root rfl) hcnb
    · rw [scanFns, if_pos hskip]
      exact ih (by omega) hnext hcnb
    · rw [scanFns_dev hat.busnum hat.path hdev hskip hcnb.1 hread]
      exact ih (by omega) (hnext.of_root rfl) hcnb.2

/-- What the scan of bus 0 leaves for the two host bridges at `h`. -/
structure Peered (h : Nat) (peer : Phys) (bus : Bus) (st : St) : Prop where
  busnum : bus.busnum = 0
  path : bus.path = []
  peers : ∃ new kids, st.peers = [(new, kids)] ∧ new.path = [h + 1] ∧ new.busnum = 1 ∧
    kids.toList.map Bus.key = peer.keys [h + 1] 1
  busnum0 : st.hw.busnum0 = 0
  sbusnum0 : st.hw.sbusnum0 = 0
  busnum1 : st.hw.busnum1 = 1
  sbusnum1 : st.hw.sbusnum1 = 1 + peer.count

namespace Phys

theorem Ordered.devFns_range {p : Phys} {lo : Nat} (h : p.Ordered lo slot mf)
    (hfn : fn ∈ p.devFns) : lo ≤ fn.devfn ∧ fn.devfn < 256 := by
  induction p generalizing lo slot mf with
  | nil => cases hfn
  | echo fn₁ isBridge next ih =>
    have h₁ := h.1.lower
    have h₂ := ih h.2.2 hfn
    omega
  | dev fn₁ next ih =>
    have h₁ := h.1.lower
    rcases List.mem_cons.mp hfn with rfl | hfn
    · exact ⟨h₁, h.1.upper⟩
    · have h₂ := ih h.2.2 hfn
      omega
  | bridge fn₁ regs behind next _ ih =>
    have h₁ := h.1.lower
    have h₂ := ih h.2.2.2 hfn
    omega

/-- Behind the pair at `h` there is no CNB30LE. -/
theorem Split.after {p : Phys} {Q : FnInfo → Prop} {lo : Nat} (hlo : h + 1 < lo)
    (hord : p.Ordered lo slot mf)
    (hs : p.Split (fun fn => isCnb30le fn = true → fn.devfn = h ∨ fn.devfn = h + 1) Q) :
    p.Split (fun fn => isCnb30le fn = false) Q := by
  have hnot : ∀ {fn : FnInfo} {lo slot : Nat}, h + 1 < lo → Follows lo slot fn →
      (isCnb30le fn = true → fn.devfn = h ∨ fn.devfn = h + 1) → isCnb30le fn = false := by
    intro fn lo slot hlo hf himp
    by_contra hc
    have hl := hf.lower
    have := himp (by simpa using hc)
    omega
  induction p generalizing lo slot mf with
  | nil => trivial
  | echo fn isBridge next ih =>
    have hl := hord.1.lower
    exact ih (by omega) hord.2.2 hs
  | dev fn next ih =>
    have hl := hord.1.lower
    exact ⟨hnot hlo hord.1 hs.1, ih (by omega) hord.2.2 hs.2⟩
  | bridge fn regs behind next _ ih =>
    have hl := hord.1.lower
    exact ⟨hnot hlo hord.1 hs.1, hs.2.1, ih (by omega) hord.2.2.2 hs.2.2⟩

end Phys

theorem writeHost_zero (f : Hw → Hw) (st : St) :
    (writeHost 0 f st).hw = f st.hw ∧ (writeHost 0 f st).peers = st.peers := by
  rw [writeHost, if_pos rfl]
  exact ⟨rfl, rfl⟩

section

variable {D m : Nat} (hscan : ScanOk scan D) (h8 : h % 8 = 0)
  (hord : hw.peer.Ordered 0 0 false) (hfresh : hw.peer.Fresh)
  (hall : hw.peer.All fun fn => isCnb30le fn = false) (hD : hw.peer.depth < D)
  (hsz : hw.peer.count ≤ 254) (hpath : hw.peerPath = [h + 1]) (hnum : hw.busnum0 = 0)

include hscan h8 hord hfresh hall hD hsz hpath hnum

/-- Behind function 1 of the host bridge, the other host bus is numbered and scanned. -/
theorem pciFixupPost_secondary (bus : Bus) (st : St) (hflat : hw.root.count = 0)
    (hbus : bus.busnum = 0)
    (hbpath : bus.path = []) (hkid : bus.lastKid = 0) (hdev : fn.devfn = h + 1)
    (hcnb : isCnb30le fn = true) (hst : st.hw = { hw with sbusnum0 := 0, sbusnum1 := 0xff })
    (hpeers : st.peers = []) :
    ∃ st', pciFixupPost scan bus fn st = some (bus, st') ∧ st'.hw.root = hw.root ∧
      Peered h hw.peer bus st' := by
  have h1 : (h + 1) % 8 = 1 := by omega
  have h0 : ¬(h + 1) % 8 = 0 := by omega
  let F := peerFocus { hw with sbusnum0 := 0 } hflat
  let st₁ := writeHost 0 (fun hw => { hw with busnum1 := 1 }) (touch 0 st)
  obtain ⟨hhw₁, hpeers₁⟩ := writeHost_zero (fun hw => { hw with busnum1 := 1 }) (touch 0 st)
  have hput : st₁.hw = F.put hw.peer := by
    rw [hhw₁]
    simp only [touch, hst]
    rfl
  obtain ⟨new, kids, st₂, hrun, hsc⟩ := hscan F [] hw.peer
    { busnum := 1, pri := 0, sub := 0, lastKid := 1, fbbe := true, bridged := false,
      path := [h + 1], devices := [] } st₁ hD hord hfresh hall rfl hpath.symm rfl
    (by simp only [F, peerFocus]; omega) hput (fun hb => by cases hb)
  obtain ⟨hhw₃, hpeers₃⟩ := writeHost_zero (fun hw => { hw with sbusnum1 := new.lastKid }) st₂
  have hlast : new.lastKid = 1 + hw.peer.count := hsc.lastKid
  refine ⟨{ writeHost 0 (fun hw => { hw with sbusnum1 := new.lastKid }) st₂ with
    peers := (writeHost 0 (fun hw => { hw with sbusnum1 := new.lastKid }) st₂).peers ++
      [({ new with sub := new.lastKid }, kids)] }, ?_, ?_, hbus, hbpath,
    ⟨{ new with sub := new.lastKid }, kids, ?_, hsc.path, hsc.busnum, ?_⟩, ?_, ?_, ?_, ?_⟩
  · simp only [pciFixupPost, hdev, if_pos hcnb, if_neg h0, if_pos h1, hbus, hkid, hbpath,
      List.nil_append]
    erw [hrun]
    rfl
  · simp only [hhw₃, hsc.hw]
    rfl
  · have hnone : (touch 0 st).peers = [] := hpeers
    simp only [hpeers₃, hsc.peers, st₁, hpeers₁, hnone, List.nil_append]
  · rw [hsc.kids]
    simp only [F, peerFocus, hpath]
  · simp only [hhw₃, hsc.hw]
    exact hnum
  · simp only [hhw₃, hsc.hw]
    rfl
  · simp only [hhw₃, hsc.hw]
    rfl
  · simp only [hhw₃]
    exact hlast

theorem scanFns_secondary (hflat : hw.root.count = 0) (hm : h + 1 + m = 256)
    (hat : AtFn (h + 1) slot mf done rest bus st) (hst : st.hw = { hw with sbusnum0 := 0 })
    (hpeers : st.peers = [])
    (hsec : ∃ fn, fn ∈ rest.devFns ∧ fn.devfn = h + 1 ∧ isCnb30le fn = true)
    (honly : rest.Split (fun fn => isCnb30le fn = true → fn.devfn = h ∨ fn.devfn = h + 1)
      (fun fn => isCnb30le fn = false)) :
    ∃ bus' st', scanFns scan (List.range' (h + 1) m) mf bus st = some (bus', .nil, st') ∧
      Peered h hw.peer bus' st' := by
  obtain ⟨fn₁, hmem, hdev₁, hcnb⟩ := hsec
  cases m with
  | zero =>
    exfalso
    omega
  | succ m =>
  rw [List.range'_succ]
  rcases hat.cases with ⟨hnext, -⟩ | ⟨fn, b, next, rfl, -, hnext⟩ |
    ⟨fn, next, rfl, hdev, hread, hskip, hnext⟩
  · have := hnext.ordered.devFns_range hmem
    omega
  · have := hnext.ordered.devFns_range hmem
    omega
  obtain rfl : fn₁ = fn := by
    rcases List.mem_cons.mp hmem with heq | hmem
    · exact heq
    · have := hnext.ordered.devFns_range hmem
      omega
  have hpre : pciFixupPre (bus.found fn₁) fn₁ (st.found 0 [] (h + 1)) =
      writeHost 0 (fun hw => { hw with sbusnum1 := 0xff }) (st.found 0 [] (h + 1)) := by
    have hb : (bus.found fn₁).busnum = 0 := hat.busnum
    have h1 : (h + 1) % 8 = 1 := by omega
    have h0 : ¬(h + 1) % 8 = 0 := by omega
    rw [pciFixupPre, if_pos hcnb, hb]
    simp only [hdev, if_neg h0, if_pos h1]
  obtain ⟨hhw, hsame⟩ := writeHost_zero (fun hw => { hw with sbusnum1 := 0xff })
    (st.found 0 [] (h + 1))
  rw [← hpre] at hhw hsame
  have hfound : (st.found 0 [] (h + 1)).hw = st.hw := rfl
  rw [hfound, hst] at hhw
  obtain ⟨st₁, hpost, hroot, hpeered⟩ := pciFixupPost_secondary hscan h8 hord hfresh hall hD hsz
    hpath hnum (bus.found fn₁)
    (touch 0 (pciFixupPre (bus.found fn₁) fn₁ (st.found 0 [] (h + 1)))) hflat hat.busnum
    hat.path hat.lastKid hdev hcnb hhw (hsame.trans hpeers)
  rw [scanFns_found hat.busnum hat.path hdev hskip hread, hpost, Option.bind_some]
  have hroot' : st₁.hw.root = (st.found 0 [] (h + 1)).hw.root := by rw [hroot, hfound, hst]
  obtain ⟨bus', st', hrun, hb, hp, hhw', hpe⟩ := scanFns_idle scan m (by omega)
    (hnext.of_root hroot') (honly.2.after (by omega) hnext.ordered)
  refine ⟨bus', st', hrun, hb, hp, ?_, ?_, ?_, ?_, ?_⟩
  · rw [hpe]
    exact hpeered.peers
  · rw [hhw']
    exact hpeered.busnum0
  · rw [hhw']
    exact hpeered.sbusnum0
  · rw [hhw']
    exact hpeered.busnum1
  · rw [hhw']
    exact hpeered.sbusnum1

/-- At function 0 of the host bridge, its subordinate number is set to that of a bus that is still
being scanned. -/
theorem scanFns_pair (hflat : hw.root.count = 0) (hm : h + m = 256)
    (hat : AtFn h slot mf done rest bus st) (hst : ∃ n, st.hw = { hw with sbusnum0 := n })
    (hpeers : st.peers = [])
    (hpri : ∃ fn, fn ∈ rest.devFns ∧ fn.devfn = h ∧ isCnb30le fn = true)
    (hsec : ∃ fn, fn ∈ rest.devFns ∧ fn.devfn = h + 1 ∧ isCnb30le fn = true)
    (honly : rest.Split (fun fn => isCnb30le fn = true → fn.devfn = h ∨ fn.devfn = h + 1)
      (fun fn => isCnb30le fn = false)) :
    ∃ bus' st', scanFns scan (List.range' h m) mf bus st = some (bus', .nil, st') ∧
      Peered h hw.peer bus' st' := by
  obtain ⟨fn₀, hmem, hdev₀, hcnb⟩ := hpri
  obtain ⟨n, hst⟩ := hst
  cases m with
  | zero =>
    have := hat.ordered.devFns_range hmem
    omega
  | succ m =>
  rw [List.range'_succ]
  rcases hat.cases with ⟨hnext, -⟩ | ⟨fn, b, next, rfl, -, hnext⟩ |
    ⟨fn, next, rfl, hdev, hread, hskip, hnext⟩
  · have := hnext.ordered.devFns_range hmem
    omega
  · have := hnext.ordered.devFns_range hmem
    omega
  obtain rfl : fn₀ = fn := by
    rcases List.mem_cons.mp hmem with heq | hmem
    · exact heq
    · have := hnext.ordered.devFns_range hmem
      omega
  have hsec' : ∃ fn, fn ∈ next.devFns ∧ fn.devfn = h + 1 ∧ isCnb30le fn = true := by
    obtain ⟨fn₁, hmem₁, hdev₁, hcnb₁⟩ := hsec
    rcases List.mem_cons.mp hmem₁ with rfl | hmem₁
    · omega
    · exact ⟨fn₁, hmem₁, hdev₁, hcnb₁⟩
  have hb : (bus.found fn₀).busnum = 0 := hat.busnum
  have hsub : (bus.found fn₀).sub = 0 := hat.sub
  let st₁ := touch 0 (touch 0 (writeHost 0 (fun hw => { hw with sbusnum0 := 0xff })
    (st.found 0 [] h)))
  obtain ⟨hhw₁, hpeers₁⟩ := writeHost_zero (fun hw => { hw with sbusnum0 := 0xff })
    (st.found 0 [] h)
  obtain ⟨hhw₂, hpeers₂⟩ := writeHost_zero (fun hw => { hw with sbusnum0 := 0 }) st₁
  have hfound : (st.found 0 [] h).hw = st.hw := rfl
  have hhw₃ : (writeHost 0 (fun hw => { hw with sbusnum0 := 0 }) st₁).hw =
      { hw with sbusnum0 := 0 } := by
    rw [hhw₂]
    simp only [st₁, touch, hhw₁, hfound, hst]
  have hpost : pciFixupPost scan (bus.found fn₀) fn₀
      (touch 0 (pciFixupPre (bus.found fn₀) fn₀ (st.found 0 [] h))) =
      some ({ bus.found fn₀ with fbbe := true },
        writeHost 0 (fun hw => { hw with sbusnum0 := 0 }) st₁) := by
    simp only [pciFixupPost, pciFixupPre, if_pos hcnb, hdev, if_pos h8, hb, hsub, st₁]
  have hat₁ : AtFn (h + 1) (slotAfter slot fn₀) (multiAfter mf fn₀)
    (done.append (.dev fn₀ .nil)) next
      { bus.found fn₀ with fbbe := true } (writeHost 0 (fun hw => { hw with sbusnum0 := 0 }) st₁) :=
    { hnext with root := by rw [hhw₃, ← hnext.root, hfound, hst] }
  rw [scanFns_found hat.busnum hat.path hdev hskip hread, hpost, Option.bind_some]
  exact scanFns_secondary hscan h8 hord hfresh hall hD hsz hpath hnum hflat (by omega) hat₁ hhw₃
    (hpeers₂.trans (hpeers₁.trans hpeers)) hsec' honly.2

/-- The scan of bus 0 up to the host bridge and on. -/
theorem scanFns_twoHosts (hflat : hw.root.count = 0) (hd : d ≤ h) (hm : d + m = 256)
    (hat : AtFn d slot mf done rest bus st) (hst : st.hw = hw) (hpeers : st.peers = [])
    (hpri : ∃ fn, fn ∈ rest.devFns ∧ fn.devfn = h ∧ isCnb30le fn = true)
    (hsec : ∃ fn, fn ∈ rest.devFns ∧ fn.devfn = h + 1 ∧ isCnb30le fn = true)
    (honly : rest.Split (fun fn => isCnb30le fn = true → fn.devfn = h ∨ fn.devfn = h + 1)
      (fun fn => isCnb30le fn = false)) :
    ∃ bus' st', scanFns scan (List.range' d m) mf bus st = some (bus', .nil, st') ∧
      Peered h hw.peer bus' st' := by
  induction m generalizing d slot mf done rest bus st with
  | zero =>
    obtain ⟨fn, hmem, hdev, -⟩ := hpri
    have := hat.ordered.devFns_range hmem
    omega
  | succ m ih =>
    rcases Nat.eq_or_lt_of_le hd with rfl | hlt
    · exact scanFns_pair hscan h8 hord hfresh hall hD hsz hpath hnum hflat hm hat
        ⟨hw.sbusnum0, by rw [hst]⟩ hpeers hpri hsec honly
    rw [List.range'_succ]
    rcases hat.cases with ⟨hnext, hread⟩ | ⟨fn, b, next, rfl, hskip, hnext⟩ |
      ⟨fn, next, rfl, hdev, hread, hskip, hnext⟩
    · rw [← hat.busnum] at hread
      rcases scanFns_none (List.range' (d + 1) m) mf hread with hrun | hrun
      · rw [hrun]
        exact ih hlt (by omega) hnext hst hpeers hpri hsec honly
      · rw [hrun]
        exact ih hlt (by omega) (hnext.of_root rfl) hst hpeers hpri hsec honly
    · rw [scanFns, if_pos hskip]
      exact ih hlt (by omega) hnext hst hpeers hpri hsec honly
    · have hcnb : isCnb30le fn = false := by
        by_contra hc
        have := honly.1 (by simpa using hc)
        omega
      have hlater : ∀ e, d < e → (∃ fn', fn' ∈ fn :: next.devFns ∧ fn'.devfn = e ∧
          isCnb30le fn' = true) →
          ∃ fn', fn' ∈ next.devFns ∧ fn'.devfn = e ∧ isCnb30le fn' = true := by
        rintro e he ⟨fn', hmem, hdev', hcnb'⟩
        rcases List.mem_cons.mp hmem with rfl | hmem
        · omega
        · exact ⟨fn', hmem, hdev', hcnb'⟩
      rw [scanFns_dev hat.busnum hat.path hdev hskip hcnb hread]
      exact ih hlt (by omega) (hnext.of_root rfl) hst hpeers (hlater h hlt hpri)
        (hlater (h + 1) (by omega) hsec) honly.2

end

/-- Both host bridges found their buses, no number was given twice, and the range of each one is
the numbers of its own buses. -/
structure HostRanges (hw : Hw) (bus : Bus) (kids : Forest Bus) (st : St) : Prop where
  found : (bus :: kids.toList).map Bus.path = [] :: hw.root.buses []
  peerFound : st.peerBuses.map Bus.path = hw.peerPath :: hw.peer.buses hw.peerPath
  distinct : ((bus :: kids.toList ++ st.peerBuses).map Bus.busnum).Nodup
  disjoint : ∀ n, ¬((st.hw.busnum0 ≤ n ∧ n ≤ st.hw.sbusnum0) ∧
    (st.hw.busnum1 ≤ n ∧ n ≤ st.hw.sbusnum1))
  covers : ∀ n, (st.hw.busnum0 ≤ n ∧ n ≤ st.hw.sbusnum0) ↔
    n ∈ (bus :: kids.toList).map Bus.busnum
  peerCovers : ∀ n, (st.hw.busnum1 ≤ n ∧ n ≤ st.hw.sbusnum1) ↔ n ∈ st.peerBuses.map Bus.busnum

theorem Phys.buses_length (path : Path) (p : Phys) : (p.buses path).length = p.count := by
  induction p generalizing path with
  | nil => rfl
  | echo fn isBridge next ih => exact ih path
  | dev fn next ih => exact ih path
  | bridge fn regs behind next hb hn =>
    simp only [buses, count, List.length_cons, List.length_append, hb, hn]
    omega

theorem Phys.Ordered.find_devFn {p : Phys} {lo : Nat} (h : p.Ordered lo slot mf)
    (hfn : fn ∈ p.devFns) :
    p.find fn.devfn = some (fn, false) ∧ ¬(fn.vendor = 0xffff ∨ fn.vendor = 0) := by
  induction p generalizing lo slot mf with
  | nil => cases hfn
  | echo fn₁ isBridge next ih =>
    have h₁ := h.2.2.devFns_range hfn
    rw [find, if_neg (by omega)]
    exact ih h.2.2 hfn
  | dev fn₁ next ih =>
    rcases List.mem_cons.mp hfn with rfl | hfn
    · exact ⟨if_pos rfl, h.1.vendor⟩
    · have h₁ := h.2.2.devFns_range hfn
      rw [find, if_neg (by omega)]
      exact ih h.2.2 hfn
  | bridge fn₁ regs behind next _ ih =>
    have h₁ := h.2.2.2.devFns_range hfn
    rw [find, if_neg (by omega)]
    exact ih h.2.2.2 hfn

variable {bus' : Bus} {kids : Forest Bus} {st' : St} {fuel : Nat}

/-- However the buses lie: SBUSNUM of the first host bridge ends at 0, or a bus has number 0. -/
theorem pciInit_primary (hm : TwoHosts hw h) (hrun : pciInit fuel hw = some (bus', kids, st')) :
    bus'.busnum = 0 ∧ st'.hw.busnum0 = 0 ∧
      (∀ x, x ∈ kids.toList ∨ x ∈ st'.peerBuses → x.busnum < 256) ∧
      ((∃ x, (x ∈ kids.toList ∨ x ∈ st'.peerBuses) ∧ x.busnum = 0) ∨ st'.hw.sbusnum0 = 0) := by
  obtain ⟨⟨bus₁, kids₁, st₁⟩, hscan, heq⟩ := Option.map_eq_some_iff.mp hrun
  simp only [Prod.mk.injEq] at heq
  obtain ⟨rfl, rfl, rfl⟩ := heq
  obtain ⟨hran, hnum⟩ := ran_pciBusScan fuel _ _ _ _ _ hscan
  refine ⟨hnum, hran.busnum0.trans hm.busnum0,
    hran.bytes (by simp [St.peerBuses]), ?_⟩
  cases fuel with
  | zero => cases hscan
  | succ fuel =>
    obtain ⟨⟨bus₂, kids₂, st₂⟩, hfns, heq⟩ := Option.map_eq_some_iff.mp hscan
    simp only [Prod.mk.injEq] at heq
    obtain ⟨rfl, rfl, rfl⟩ := heq
    obtain ⟨fn, hmem, hdev, hcnb⟩ := hm.primary
    obtain ⟨hfind, hven⟩ := hm.ordered.find_devFn hmem
    have hlt := hm.ordered.devFns_range hmem
    rw [hdev] at hfind hlt
    have hzero := scanFns_primary (ran_pciBusScan fuel) hcnb hven hm.slot _ _ hfns rfl rfl hfind
      (Or.inr (by simpa using hlt.2))
    obtain ⟨hhw, hpeers⟩ := enableFbbe_same bus₂ st₂
    simp only [St.peerBuses, hhw, hpeers]
    exact hzero

/-- So no bus may hang on bus 0, and there are at most 256 buses. -/
theorem hostRanges_flat (hm : TwoHosts hw h) (hrun : pciInit fuel hw = some (bus', kids, st'))
    (hr : HostRanges hw bus' kids st') : hw.root.count = 0 ∧ hw.peer.count ≤ 254 := by
  obtain ⟨hnum, hnum0, hbytes, hzero⟩ := pciInit_primary hm hrun
  have hdist := hr.distinct
  simp only [List.cons_append, List.map_cons, List.map_append, List.nodup_cons, hnum] at hdist
  have hnozero : ∀ x, x ∈ kids.toList ∨ x ∈ st'.peerBuses → x.busnum ≠ 0 := by
    intro x hx h0
    refine hdist.1 (List.mem_append.mpr ?_)
    rcases hx with hx | hx
    · exact Or.inl (h0 ▸ List.mem_map_of_mem hx)
    · exact Or.inr (h0 ▸ List.mem_map_of_mem hx)
  have hsub : st'.hw.sbusnum0 = 0 := by
    rcases hzero with ⟨x, hx, h0⟩ | h0
    · exact absurd h0 (hnozero x hx)
    · exact h0
  have hkids : kids.toList = [] := by
    cases hk : kids.toList with
    | nil => rfl
    | cons x l =>
      have hx : x ∈ kids.toList := by simp [hk]
      have := (hr.covers x.busnum).mpr (List.mem_map_of_mem (List.mem_cons_of_mem _ hx))
      exact absurd (by omega) (hnozero x (Or.inl hx))
  have hlen := congrArg List.length hr.found
  simp only [List.length_map, List.length_cons, hkids, List.length_nil, Phys.buses_length] at hlen
  refine ⟨by omega, ?_⟩
  have hplen := congrArg List.length hr.peerFound
  simp only [List.length_map, List.length_cons, Phys.buses_length] at hplen
  have hbound : ((bus' :: kids.toList ++ st'.peerBuses).map Bus.busnum).length ≤
      (List.range 256).length := by
    refine (List.subperm_of_subset hr.distinct ?_).length_le
    intro n hn
    obtain ⟨x, hx, rfl⟩ := List.mem_map.mp hn
    rw [List.mem_range]
    rcases List.mem_cons.mp hx with rfl | hx
    · omega
    · exact hbytes x (List.mem_append.mp hx)
  simp only [List.length_map, List.length_append, List.length_cons, List.length_range] at hbound
  omega

theorem Peered.hostRanges (hflat : hw.root.count = 0) (hpath : hw.peerPath = [h + 1])
    (hp : Peered h hw.peer bus st) : HostRanges hw bus .nil st := by
  obtain ⟨new, kids, hpeers, hnpath, hnum, hkeys⟩ := hp.peers
  have hbuses : st.peerBuses = new :: kids.toList := by simp [St.peerBuses, hpeers]
  have hroot : hw.root.buses [] = [] := by
    rw [← List.length_eq_zero_iff, Phys.buses_length, hflat]
  have hpaths : kids.toList.map Bus.path = hw.peer.buses [h + 1] := by
    rw [← Phys.keys_paths _ 1, ← hkeys, List.map_map]
    rfl
  have hnums : st.peerBuses.map Bus.busnum = List.range' 1 (hw.peer.count + 1) := by
    rw [hbuses, List.map_cons, hnum, List.range'_succ, ← Phys.keys_nums [h + 1] 1, ← hkeys,
      List.map_map]
    rfl
  have hmem : ∀ n, n ∈ st.peerBuses.map Bus.busnum ↔ 1 ≤ n ∧ n ≤ 1 + hw.peer.count := by
    intro n
    rw [hnums, List.mem_range'_1]
    omega
  refine ⟨?_, ?_, ?_, ?_, ?_, ?_⟩
  · simp [Forest.toList, hp.path, hroot]
  · rw [hbuses, List.map_cons, hnpath, hpaths, hpath]
  · simp only [Forest.toList, List.cons_append, List.nil_append, List.map_cons, hp.busnum,
      List.nodup_cons]
    rw [hmem, hnums]
    exact ⟨by omega, List.nodup_range'⟩
  · intro n
    rw [hp.busnum0, hp.sbusnum0, hp.busnum1, hp.sbusnum1]
    omega
  · intro n
    rw [hp.busnum0, hp.sbusnum0]
    simp only [Forest.toList, List.map_cons, List.map_nil, List.mem_singleton, hp.busnum]
    omega
  · intro n
    rw [hp.busnum1, hp.sbusnum1, hmem]

/-- The ranges of the two host bridges come out right exactly when no PCI-PCI bridge is on bus 0,
and the buses are no more than there are numbers. -/
theorem hostRanges_iff (hw : Hw) (h : Nat) (hm : TwoHosts hw h) :
    (∃ fuel bus kids st, pciInit fuel hw = some (bus, kids, st) ∧ HostRanges hw bus kids st) ↔
      hw.root.count = 0 ∧ hw.peer.count ≤ 254 := by
  constructor
  · rintro ⟨fuel, bus, kids, st, hrun, hr⟩
    exact hostRanges_flat hm hrun hr
  · rintro ⟨hflat, hsz⟩
    have hdepth := hw.peer.count_le
    obtain ⟨fn, hmem, hdev, -⟩ := hm.primary
    have hlt := hm.ordered.devFns_range hmem
    have hat : AtFn 0 0 false .nil hw.root pciRoot ⟨hw, [], [], []⟩ :=
      ⟨rfl, rfl, rfl, rfl, rfl, fun _ _ => rfl, hm.ordered, hflat⟩
    obtain ⟨bus, st, hrun, hp⟩ := scanFns_twoHosts (pciBusScan_spec 256) hm.slot hm.peerOrdered
      hm.peerFresh hm.peerOnly (by omega) hsz hm.peerPath hm.busnum0 hflat (Nat.zero_le _)
      (Nat.zero_add 256) hat rfl rfl hm.primary hm.secondary hm.only
    obtain ⟨hhw, hpeers⟩ := enableFbbe_same bus st
    refine ⟨256 + 1, { bus with sub := bus.lastKid }, .nil, enableFbbe bus st, ?_, ?_⟩
    · rw [pciInit, pciBusScan, hrun]
      rfl
    · refine Peered.hostRanges hflat hm.peerPath ⟨hp.busnum, hp.path, ?_, ?_, ?_, ?_, ?_⟩
      · rw [hpeers]
        exact hp.peers
      · rw [hhw]
        exact hp.busnum0
      · rw [hhw]
        exact hp.sbusnum0
      · rw [hhw]
        exact hp.busnum1
      · rw [hhw]
        exact hp.sbusnum1

/-- The host bridge in slot 0, `more` behind it on bus 0, and a bridge on the other host bus. -/
def cnbMachine (more : Phys) : Hw where
  root := .dev ⟨0, 0x1166, 9, true, false, false⟩ (.dev ⟨1, 0x1166, 9, true, false, false⟩ more)
  peer := .bridge ⟨8, 0x8086, 2, false, false, false⟩ ⟨0, 0, 0⟩ .nil .nil
  peerPath := [1]
  gated := false
  busnum0 := 0
  sbusnum0 := 0
  busnum1 := 0
  sbusnum1 := 0

theorem twoHosts_cnbMachine {more : Phys} (hord : more.Ordered 2 0 true) (hfresh : more.Fresh)
    (hmore : more.Split (fun fn => isCnb30le fn = true → fn.devfn = 0 ∨ fn.devfn = 0 + 1)
      (fun fn => isCnb30le fn = false)) : TwoHosts (cnbMachine more) 0 where
  slot := rfl
  primary := ⟨_, List.mem_cons_self, rfl, rfl⟩
  secondary := ⟨_, List.mem_cons_of_mem _ List.mem_cons_self, rfl, rfl⟩
  only := ⟨fun _ => Or.inl rfl, fun _ => Or.inr rfl, hmore⟩
  peerOnly := ⟨rfl, trivial, trivial⟩
  ordered := ⟨.of_decide (by decide), by decide, .of_decide (by decide), by decide, hord⟩
  peerOrdered := ⟨.of_decide (by decide), by decide, trivial, trivial⟩
  fresh := hfresh
  peerFresh := ⟨rfl, trivial, trivial⟩
  peerPath := rfl
  busnum0 := rfl

theorem hostRanges_iff_plain :
    ∃ fuel bus kids st, pciInit fuel (cnbMachine .nil) = some (bus, kids, st) ∧
      HostRanges (cnbMachine .nil) bus kids st :=
  (hostRanges_iff (cnbMachine .nil) 0 (twoHosts_cnbMachine trivial trivial trivial)).mpr
    ⟨rfl, by decide⟩

/-- A bridge in slot 1 of bus 0. -/
def lateBridge : Phys := .bridge ⟨8, 0x8086, 2, false, false, false⟩ ⟨0, 0, 0⟩ .nil .nil

example : (pciInit 3 (cnbMachine lateBridge)).map (fun r =>
    ((r.1 :: r.2.1.toList).map Bus.busnum, r.2.2.peerBuses.map Bus.busnum, r.2.2.hw.sbusnum0)) =
    some ([0, 1, 2], [1, 2], 0) := by decide +kernel

/-- With that bridge, the ranges are wrong. -/
theorem hostRanges_lateBridge :
    TwoHosts (cnbMachine lateBridge) 0 ∧
      ¬∃ fuel bus kids st, pciInit fuel (cnbMachine lateBridge) = some (bus, kids, st) ∧
        HostRanges (cnbMachine lateBridge) bus kids st := by
  have hm : TwoHosts (cnbMachine lateBridge) 0 :=
    twoHosts_cnbMachine ⟨.of_decide (by decide), by decide, trivial, trivial⟩
      ⟨rfl, trivial, trivial⟩ ⟨by decide, trivial, trivial⟩
  refine ⟨hm, ?_⟩
  rintro ⟨fuel, bus, kids, st, hrun, hr⟩
  exact absurd (hostRanges_flat hm hrun hr).1 (by decide)

end Pci
