import CobaltRom.Pci.Enumerate

/-! The numbers of the scan as the machine sees them: every bus and function is found once, and
the windows of the bridges are the numbers of the buses behind them. -/
namespace Pci

namespace Phys

/-- The buses behind this one, in depth-first order. -/
def buses (path : Path) : Phys → List Path
  | nil => []
  | echo _ _ next => buses path next
  | dev _ next => buses path next
  | bridge fn _ behind next =>
    (path ++ [fn.devfn]) :: (buses (path ++ [fn.devfn]) behind ++ buses path next)

/-- The functions on and behind this bus. -/
def fns (path : Path) : Phys → List (Path × Nat)
  | nil => []
  | echo _ _ next => fns path next
  | dev fn next => (path, fn.devfn) :: fns path next
  | bridge fn _ behind next =>
    (path, fn.devfn) :: (fns (path ++ [fn.devfn]) behind ++ fns path next)

/-- The bridges on and behind this bus by the bus behind them, with their registers. -/
def bridges (path : Path) : Phys → List (Path × Regs)
  | nil => []
  | echo _ _ next => bridges path next
  | dev _ next => bridges path next
  | bridge fn regs behind next =>
    (path ++ [fn.devfn], regs) :: (bridges (path ++ [fn.devfn]) behind ++ bridges path next)

variable {lo slot k : Nat} {multi : Bool} {p : Phys} {path q : Path}

theorem keys_paths (path : Path) (k : Nat) (p : Phys) :
    (p.keys path k).map Prod.fst = p.buses path := by
  induction p generalizing path k with
  | nil => rfl
  | echo fn isBridge next ih => exact ih path k
  | dev fn next ih => exact ih path k
  | bridge fn regs behind next hb hn =>
    simp only [keys, buses, List.map_cons, List.map_append, hb, hn]

theorem keys_nums (path : Path) (k : Nat) (p : Phys) :
    (p.keys path k).map (fun r => r.2.1) = List.range' (k + 1) p.count := by
  induction p generalizing path k with
  | nil => rfl
  | echo fn isBridge next ih => exact ih path k
  | dev fn next ih => exact ih path k
  | bridge fn regs behind next hb hn =>
    have h : behind.count + 1 + next.count = 1 + (behind.count + next.count) := by omega
    simp only [keys, count, List.map_cons, List.map_append, hb, hn]
    rw [h, ← List.range'_append_1, ← List.range'_append_1]
    simp [Nat.add_right_comm]

theorem devs_fns (path : Path) (b k : Nat) (p : Phys) :
    (p.devs path b k).map (fun d => (d.path, d.devfn)) = p.fns path := by
  induction p generalizing path b k with
  | nil => rfl
  | echo fn isBridge next ih => exact ih path b k
  | dev fn next ih => simp only [devs, fns, List.map_cons, ih]
  | bridge fn regs behind next hb hn =>
    simp only [devs, fns, List.map_cons, List.map_append, hb, hn]

/-- Every bus behind this one is behind one of its functions. -/
theorem Ordered.buses_below (h : p.Ordered lo slot multi) (hq : q ∈ p.buses path) :
    ∃ d, lo ≤ d ∧ path ++ [d] <+: q := by
  induction p generalizing lo slot multi path with
  | nil => cases hq
  | echo fn isBridge next ih =>
    obtain ⟨d, hd, hpre⟩ := ih h.2.2 hq
    exact ⟨d, by have := h.1.lower; omega, hpre⟩
  | dev fn next ih =>
    obtain ⟨d, hd, hpre⟩ := ih h.2.2 hq
    exact ⟨d, by have := h.1.lower; omega, hpre⟩
  | bridge fn regs behind next hb hn =>
    have hlow := h.1.lower
    rcases List.mem_cons.mp hq with rfl | hq
    · exact ⟨fn.devfn, hlow, List.prefix_rfl⟩
    rcases List.mem_append.mp hq with hq | hq
    · obtain ⟨d, -, hpre⟩ := hb h.2.2.1 hq
      exact ⟨fn.devfn, hlow, (List.prefix_append _ _).trans hpre⟩
    · obtain ⟨d, hd, hpre⟩ := hn h.2.2.2 hq
      exact ⟨d, by omega, hpre⟩

theorem not_prefix_of_ne {d e : Nat} {r : Path} (hde : d ≠ e) (hd : path ++ [d] <+: r)
    (he : path ++ [e] <+: r) : False := by
  rcases List.prefix_or_prefix_of_prefix hd he with h | h
  · exact hde (by simpa using h.eq_of_length (by simp))
  · exact hde (by simpa using (h.eq_of_length (by simp)).symm)

theorem Ordered.buses_nodup (h : p.Ordered lo slot multi) : (p.buses path).Nodup := by
  induction p generalizing lo slot multi path with
  | nil => exact List.nodup_nil
  | echo fn isBridge next ih => exact ih h.2.2
  | dev fn next ih => exact ih h.2.2
  | bridge fn regs behind next hb hn =>
    obtain ⟨-, -, hbo, hno⟩ := h
    refine List.nodup_cons.mpr ⟨?_, List.nodup_append'.mpr ⟨hb hbo, hn hno, ?_⟩⟩
    · intro hmem
      rcases List.mem_append.mp hmem with hmem | hmem
      · obtain ⟨d, -, hpre⟩ := hbo.buses_below hmem
        have := hpre.length_le
        simp at this
      · obtain ⟨d, hd, hpre⟩ := hno.buses_below hmem
        exact not_prefix_of_ne (d := fn.devfn) (e := d) (by omega) List.prefix_rfl hpre
    · intro r hr hr'
      obtain ⟨d, -, hpre⟩ := hbo.buses_below hr
      obtain ⟨e, he, hpre'⟩ := hno.buses_below hr'
      exact not_prefix_of_ne (d := fn.devfn) (e := e) (by omega)
        ((List.prefix_append _ _).trans hpre) hpre'

/-- A function stands on this bus or on one behind it. -/
theorem Ordered.fns_on {r : Path × Nat} (h : p.Ordered lo slot multi) (hr : r ∈ p.fns path) :
    (r.1 = path ∧ lo ≤ r.2) ∨ r.1 ∈ p.buses path := by
  induction p generalizing lo slot multi path with
  | nil => cases hr
  | echo fn isBridge next ih =>
    have hlow := h.1.lower
    rcases ih h.2.2 hr with ⟨h₁, h₂⟩ | h₁
    · exact Or.inl ⟨h₁, by omega⟩
    · exact Or.inr h₁
  | dev fn next ih =>
    have hlow := h.1.lower
    rcases List.mem_cons.mp hr with rfl | hr
    · exact Or.inl ⟨rfl, hlow⟩
    rcases ih h.2.2 hr with ⟨h₁, h₂⟩ | h₁
    · exact Or.inl ⟨h₁, by omega⟩
    · exact Or.inr h₁
  | bridge fn regs behind next hb hn =>
    have hlow := h.1.lower
    rcases List.mem_cons.mp hr with rfl | hr
    · exact Or.inl ⟨rfl, hlow⟩
    rcases List.mem_append.mp hr with hr | hr
    · refine Or.inr ?_
      rcases hb h.2.2.1 hr with ⟨h₁, -⟩ | h₁
      · rw [h₁]
        exact List.mem_cons_self
      · exact List.mem_cons_of_mem _ (List.mem_append_left _ h₁)
    · rcases hn h.2.2.2 hr with ⟨h₁, h₂⟩ | h₁
      · exact Or.inl ⟨h₁, by omega⟩
      · exact Or.inr (List.mem_cons_of_mem _ (List.mem_append_right _ h₁))

theorem not_snoc_le {d : Nat} : ¬path ++ [d] <+: path := by
  intro h
  have := h.length_le
  simp at this

theorem Ordered.fns_below {r : Path × Nat} (h : p.Ordered lo slot multi) (hr : r ∈ p.fns path) :
    (r.1 = path ∧ lo ≤ r.2) ∨ ∃ d, lo ≤ d ∧ path ++ [d] <+: r.1 := by
  rcases h.fns_on hr with h₁ | h₁
  · exact Or.inl h₁
  · exact Or.inr (h.buses_below h₁)

theorem Ordered.fns_nodup (h : p.Ordered lo slot multi) : (p.fns path).Nodup := by
  induction p generalizing lo slot multi path with
  | nil => exact List.nodup_nil
  | echo fn isBridge next ih => exact ih h.2.2
  | dev fn next ih =>
    refine List.nodup_cons.mpr ⟨fun hmem => ?_, ih h.2.2⟩
    rcases h.2.2.fns_below hmem with ⟨-, hlt⟩ | ⟨d, -, hpre⟩
    · exact absurd hlt (by simp)
    · exact not_snoc_le hpre
  | bridge fn regs behind next hb hn =>
    obtain ⟨-, -, hbo, hno⟩ := h
    have hbehind : ∀ r, r ∈ behind.fns (path ++ [fn.devfn]) → path ++ [fn.devfn] <+: r.1 := by
      intro r hr
      rcases hbo.fns_below hr with ⟨h₁, -⟩ | ⟨d, -, hpre⟩
      · rw [h₁]
      · exact (List.prefix_append _ _).trans hpre
    refine List.nodup_cons.mpr ⟨fun hmem => ?_, List.nodup_append'.mpr ⟨hb hbo, hn hno, ?_⟩⟩
    · rcases List.mem_append.mp hmem with hmem | hmem
      · exact not_snoc_le (hbehind _ hmem)
      · rcases hno.fns_below hmem with ⟨-, hlt⟩ | ⟨d, -, hpre⟩
        · exact absurd hlt (by simp)
        · exact not_snoc_le hpre
    · intro r hr hr'
      rcases hno.fns_below hr' with ⟨h₁, -⟩ | ⟨d, hd, hpre⟩
      · have := hbehind r hr
        rw [h₁] at this
        exact not_snoc_le this
      · exact not_prefix_of_ne (d := fn.devfn) (e := d) (by omega) (hbehind r hr) hpre

theorem bridges_buses (path : Path) (p : Phys) : (p.bridges path).map Prod.fst = p.buses path := by
  induction p generalizing path with
  | nil => rfl
  | echo fn isBridge next ih => exact ih path
  | dev fn next ih => exact ih path
  | bridge fn regs behind next hb hn =>
    simp only [bridges, buses, List.map_cons, List.map_append, hb, hn]

theorem finish_buses (path : Path) (b k : Nat) (p : Phys) :
    (p.finish b k).buses path = p.buses path := by
  induction p generalizing path b k with
  | nil => rfl
  | echo fn isBridge next ih => exact ih path b k
  | dev fn next ih => exact ih path b k
  | bridge fn regs behind next hb hn => simp only [finish, buses, hb, hn]

theorem mem_buses_of_finish {b : Nat} {regs : Regs} (hq : (q, regs) ∈ (p.finish b k).bridges path) :
    q ∈ p.buses path := by
  rw [← finish_buses path b k, ← bridges_buses]
  exact List.mem_map_of_mem hq

theorem mem_buses_of_keys {r : Path × Nat × Nat} (hr : r ∈ p.keys path k) : r.1 ∈ p.buses path := by
  rw [← keys_paths path k]
  exact List.mem_map_of_mem hr

theorem mem_keys_nums (path : Path) {n : Nat} :
    (∃ r, r ∈ p.keys path k ∧ r.2.1 = n) ↔ k < n ∧ n ≤ k + p.count := by
  have h := congrArg (n ∈ ·) (keys_nums path k p)
  simp only [List.mem_map, List.mem_range'_1, eq_iff_iff] at h
  rw [h]
  omega

/-- A bridge forwards the numbers of the buses behind it. -/
theorem Ordered.windows (h : p.Ordered lo slot multi) {b : Nat} {regs : Regs}
    (hq : (q, regs) ∈ (p.finish b k).bridges path) (n : Nat) :
    regs.forwards n ↔ ∃ r, r ∈ p.keys path k ∧ q <+: r.1 ∧ r.2.1 = n := by
  induction p generalizing lo slot multi path b k with
  | nil => cases hq
  | echo fn isBridge next ih => exact ih h.2.2 hq
  | dev fn next ih => exact ih h.2.2 hq
  | bridge fn regs₀ behind next hb hn =>
    obtain ⟨-, -, hbo, hno⟩ := h
    have hbelow : ∀ r, r ∈ behind.keys (path ++ [fn.devfn]) (k + 1) →
        ∃ d, path ++ [fn.devfn] ++ [d] <+: r.1 := by
      intro r hr
      obtain ⟨d, -, hpre⟩ := hbo.buses_below (mem_buses_of_keys hr)
      exact ⟨d, hpre⟩
    have hafter : ∀ r, r ∈ next.keys path (k + 1 + behind.count) →
        ∃ d, fn.devfn < d ∧ path ++ [d] <+: r.1 := by
      intro r hr
      obtain ⟨d, hd, hpre⟩ := hno.buses_below (mem_buses_of_keys hr)
      exact ⟨d, by omega, hpre⟩
    simp only [keys, List.mem_cons, List.mem_append]
    rcases List.mem_cons.mp hq with hq | hq
    · -- the window of the bridge itself
      simp only [Prod.mk.injEq] at hq
      obtain ⟨rfl, rfl⟩ := hq
      constructor
      · rintro ⟨h₁, h₂⟩
        simp only at h₁ h₂
        rcases Nat.eq_or_lt_of_le h₁ with rfl | h₁
        · exact ⟨_, Or.inl rfl, List.prefix_rfl, rfl⟩
        · obtain ⟨r, hr, hrn⟩ := (mem_keys_nums (path ++ [fn.devfn])).mpr ⟨h₁, h₂⟩
          obtain ⟨d, hpre⟩ := hbelow r hr
          exact ⟨r, Or.inr (Or.inl hr), (List.prefix_append _ _).trans hpre, hrn⟩
      · rintro ⟨r, rfl | hr | hr, hpre, rfl⟩
        · exact ⟨le_rfl, Nat.le_add_right _ _⟩
        · obtain ⟨h₁, h₂⟩ := (mem_keys_nums _).mp ⟨r, hr, rfl⟩
          exact ⟨le_of_lt h₁, h₂⟩
        · obtain ⟨d, hd, hpre'⟩ := hafter r hr
          exact (not_prefix_of_ne (by omega) hpre hpre').elim
    rcases List.mem_append.mp hq with hq | hq
    · rw [hb hbo hq]
      obtain ⟨d, -, hd⟩ := hbo.buses_below (mem_buses_of_finish hq)
      constructor
      · rintro ⟨r, hr, hpre, hrn⟩
        exact ⟨r, Or.inr (Or.inl hr), hpre, hrn⟩
      · rintro ⟨r, rfl | hr | hr, hpre, hrn⟩
        · exact (not_snoc_le (hd.trans hpre)).elim
        · exact ⟨r, hr, hpre, hrn⟩
        · obtain ⟨e, he, hpre'⟩ := hafter r hr
          exact (not_prefix_of_ne (by omega) (((List.prefix_append _ _).trans hd).trans hpre)
            hpre').elim
    · rw [hn hno hq]
      obtain ⟨d, hlt, hd⟩ := hno.buses_below (mem_buses_of_finish hq)
      constructor
      · rintro ⟨r, hr, hpre, hrn⟩
        exact ⟨r, Or.inr (Or.inr hr), hpre, hrn⟩
      · rintro ⟨r, rfl | hr | hr, hpre, hrn⟩
        · exact (not_prefix_of_ne (by omega) List.prefix_rfl (hd.trans hpre)).elim
        · obtain ⟨e, hpre'⟩ := hbelow r hr
          exact (not_prefix_of_ne (by omega) ((List.prefix_append _ _).trans hpre')
            (hd.trans hpre)).elim
        · exact ⟨r, hr, hpre, hrn⟩

end Phys

/-- A machine with one host bus. -/
def oneHost (root : Phys) : Hw where
  root := root
  peer := .nil
  peerPath := []
  gated := false
  busnum0 := 0
  sbusnum0 := 0
  busnum1 := 1
  sbusnum1 := 0

theorem access_oneHost (n : Nat) (root : Phys) (hn : 0 < n) :
    access n (oneHost root) = (root.reach n).map fun r => (r.1, r.2) := by
  rw [access, if_neg (by omega), if_neg (by simp [oneHost]), if_neg (by simp only [oneHost]; omega)]
  simp [oneHost]

theorem atBus_oneHost (n : Nat) (g : Phys → Phys) (root : Phys) (hn : 0 < n) :
    atBus n g (oneHost root) = oneHost (root.route n g) := by
  rw [atBus, if_neg (by omega), if_neg (by simp [oneHost]), if_neg (by simp only [oneHost]; omega)]
  rfl

/-- The host bus of such a machine. -/
def hostFocus : Focus where
  put := oneHost
  num := 0
  path := []
  here _ := rfl
  below n q hn _ := access_oneHost n q hn
  hereUpd _ _ := rfl
  belowUpd n g q hn _ := atBus_oneHost n g q hn

/-- The scan from the root finds every bus and function once, numbers the buses in depth-first
order from 0, reaches with every cycle the bus that has the number, and leaves in every bridge the
numbers of the buses behind it. -/
theorem pciBusScan_numbers (root : Phys) (fuel : Nat) (hord : root.Ordered 0 0 false)
    (hfresh : root.Fresh) (hfix : root.All fun fn => isCnb30le fn = false)
    (hsz : root.count + 1 < 256) (hfuel : root.depth < fuel) :
    ∃ bus kids st, pciBusScan fuel pciRoot ⟨oneHost root, [], [], []⟩ = some (bus, kids, st) ∧
      (bus :: kids.toList).map Bus.path = [] :: root.buses [] ∧ ([] :: root.buses []).Nodup ∧
      (bus :: kids.toList).map Bus.busnum = List.range (root.count + 1) ∧
      st.devices.map (fun d => (d.path, d.devfn)) = root.fns [] ∧ (root.fns []).Nodup ∧
      (∀ a, a ∈ st.log → ∃ b, b ∈ bus :: kids.toList ∧ b.busnum = a.1 ∧ a.2 = [b.path]) ∧
      (st.hw.root.bridges []).map Prod.fst = root.buses [] ∧
      ∀ q regs, (q, regs) ∈ st.hw.root.bridges [] → ∀ n, regs.forwards n ↔
        ∃ b, b ∈ bus :: kids.toList ∧ q <+: b.path ∧ b.busnum = n := by
  obtain ⟨bus, kids, st, hrun, hsc⟩ := pciBusScan_spec fuel hostFocus [] root pciRoot
    ⟨oneHost root, [], [], []⟩ hfuel hord hfresh hfix rfl rfl rfl (by simp only [hostFocus]; omega)
    rfl (fun h => by cases h)
  have hkids : kids.toList.map Bus.key = root.keys [] 0 := hsc.kids
  have hnum : bus.busnum = 0 := hsc.busnum
  have hpath : bus.path = [] := hsc.path
  have hkey : ∀ r, r ∈ root.keys [] 0 ↔ ∃ b, b ∈ kids.toList ∧ b.key = r := by
    intro r
    rw [← hkids, List.mem_map]
  have hpaths : kids.toList.map Bus.path = root.buses [] := by
    rw [← Phys.keys_paths [] 0, ← hkids, List.map_map]
    rfl
  have hnums : kids.toList.map Bus.busnum = List.range' 1 root.count := by
    rw [← Phys.keys_nums [] 0, ← hkids, List.map_map]
    rfl
  have hhw : st.hw.root = root.finish 0 0 := congrArg Hw.root hsc.hw
  refine ⟨bus, kids, st, hrun, ?_, ?_, ?_, ?_, hord.fns_nodup, ?_, ?_, ?_⟩
  · rw [List.map_cons, hpath, hpaths]
  · refine List.nodup_cons.mpr ⟨fun hmem => ?_, hord.buses_nodup⟩
    obtain ⟨d, -, hpre⟩ := hord.buses_below hmem
    exact Phys.not_snoc_le hpre
  · rw [List.map_cons, hnum, hnums, List.range_eq_range', List.range'_succ]
  · rw [hsc.devices, List.nil_append]
    exact Phys.devs_fns [] 0 0 root
  · obtain ⟨l, hl, hlog⟩ := hsc.log
    rw [hl, List.nil_append]
    intro a ha
    obtain ⟨path, hreach, hmem⟩ := hlog a ha
    rcases List.mem_cons.mp hmem with hmem | hmem
    · simp only [Prod.mk.injEq] at hmem
      exact ⟨bus, List.mem_cons_self, hnum.trans hmem.2.symm, by rw [hreach, hmem.1, hpath]; rfl⟩
    · obtain ⟨r, hr, hmem⟩ := List.mem_map.mp hmem
      obtain ⟨b, hb, rfl⟩ := (hkey r).mp hr
      simp only [Bus.key, Prod.mk.injEq] at hmem
      exact ⟨b, List.mem_cons_of_mem _ hb, hmem.2, by rw [hreach, hmem.1]⟩
  · rw [hhw, Phys.bridges_buses, Phys.finish_buses]
  · intro q regs hq n
    rw [hhw] at hq
    obtain ⟨d, -, hpre⟩ := hord.buses_below (Phys.mem_buses_of_finish hq)
    rw [hord.windows hq n]
    constructor
    · rintro ⟨r, hr, hqr, hrn⟩
      obtain ⟨b, hb, rfl⟩ := (hkey r).mp hr
      exact ⟨b, List.mem_cons_of_mem _ hb, hqr, hrn⟩
    · rintro ⟨b, hb, hqb, hbn⟩
      rcases List.mem_cons.mp hb with rfl | hb
      · rw [hpath] at hqb
        exact (Phys.not_snoc_le (hpre.trans hqb)).elim
      · exact ⟨b.key, (hkey _).mpr ⟨b, hb, rfl⟩, hqb, hbn⟩

/-- A function 0 with a bridge at function 1, and a device behind that bridge whose other function
numbers echo. -/
def smallTree : Phys :=
  .dev ⟨0, 0x8086, 1, true, false, false⟩ (.bridge ⟨1, 0x8086, 2, true, false, false⟩ ⟨0, 0, 0⟩
    (.dev ⟨8, 0x8086, 3, false, false, false⟩
      (.echo ⟨9, 0x8086, 3, false, false, false⟩ false .nil)) .nil)

theorem pciBusScan_numbers_small :
    ∃ bus kids st, pciBusScan 2 pciRoot ⟨oneHost smallTree, [], [], []⟩ = some (bus, kids, st) ∧
      (bus :: kids.toList).map Bus.path = [[], [1]] ∧
      (bus :: kids.toList).map Bus.busnum = [0, 1] ∧
      st.devices.map (fun d => (d.path, d.devfn)) = [([], 0), ([], 1), ([1], 8)] := by
  have hord : smallTree.Ordered 0 0 false :=
    ⟨.of_decide (by decide), by decide, .of_decide (by decide), by decide,
      ⟨.of_decide (by decide), by decide, .of_decide (by decide), by decide, trivial⟩, trivial⟩
  obtain ⟨bus, kids, st, hrun, hpaths, -, hnums, hdevs, -⟩ := pciBusScan_numbers smallTree 2 hord
    ⟨rfl, trivial, trivial⟩ ⟨rfl, rfl, ⟨rfl, trivial⟩, trivial⟩ (by decide) (by decide)
  exact ⟨bus, kids, st, hrun, hpaths, hnums, hdevs⟩

end Pci
