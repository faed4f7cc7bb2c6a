import CobaltRom.Mptable.Build

/-! What showing the MP tables does to the tables built afterwards. -/
namespace Mptable

open ByteArea ByteBuf

variable {io : Ioapic} {mach : Machine} {cs : List Call} {s t : Mp} {l : List IntEntry}

/-! ### The routine as a list of calls -/

def walkCalls : Forest MpBus → List Call
  | .nil => []
  | .node b kids peer => .bus b.busnum mptableBusPci :: (walkCalls kids ++ walkCalls peer)

def busIntCalls (j : Nat) (l : List IntEntry) : List Call :=
  (l.filter fun e => decide (e.srcBus.toNat = j)).map Call.int

def isaIrqCalls (io : Ioapic) (isa : UInt8) (js : List Nat) : List Call :=
  (js.filter fun j => irqmapIsa j).map fun j => .int (isaInt io isa mpINTTypeInt (UInt8.ofNat j))

/-- The entry as the extra ISA pass leaves it. -/
def isaEntry (isa : UInt8) (e : IntEntry) : IntEntry :=
  if e.srcBus = 0xff then { e with srcBus := isa } else e

def extraCalls (isa : UInt8) (l : List IntEntry) : List Call :=
  (l.filter fun e => decide (e.srcBus = 0xff)).map fun e => .int (isaEntry isa e)

def hierarchyCalls (parent : UInt8) : Forest MpBus → List Call
  | .nil => []
  | .node b kids peer =>
    .busTree b.busnum 0 parent :: .busCompat b.busnum 1 0 ::
      (if kids.isNil then hierarchyCalls parent peer else hierarchyCalls b.busnum kids)

def hostCalls : Forest MpBus → List Call
  | .nil => []
  | .node b kids peer =>
    [.sysAddrMap b.busnum 0 (b.base .io) (b.size .io),
      .sysAddrMap b.busnum 1 (b.base .mmio) (b.size .mmio),
      .sysAddrMap b.busnum 2 (b.base .pmmio) (b.size .pmmio),
      .busCompat b.busnum (if b.busnum = 0 then 0 else 1) 0] ++
      (hierarchyCalls b.busnum kids ++ hostCalls peer)

/-- The number of PCI buses, which is the number of the ISA bus. -/
def busCount (mach : Machine) : Nat := (pciLookupBus mach 0).size

/-- The calls before the extra ISA entries. -/
def frontCalls (mach : Machine) (l : List IntEntry) : List Call :=
  mach.cpus.map Call.cpu ++ walkCalls (pciLookupBus mach 0) ++
    [.bus (UInt8.ofNat (busCount mach)) mptableBusIsa, .ioapic 0, .ioapic 1] ++
    (List.range (busCount mach)).flatMap (fun j => busIntCalls j l) ++
    [.int (isaInt mach.io (UInt8.ofNat (busCount mach)) mpINTTypeExt 0),
      .int (isaInt mach.io (UInt8.ofNat (busCount mach)) mpINTTypeInt 0)] ++
    isaIrqCalls mach.io (UInt8.ofNat (busCount mach))
      (List.range (ioapicGetEntries mach.io 0).toNat)

/-- The calls after them. -/
def backCalls (mach : Machine) : List Call :=
  [.int (localInt mpINTTypeExt (UInt8.ofNat (busCount mach)) 0),
    .int (localInt mpINTTypeNmi 0 1)] ++ hostCalls (pciLookupBus mach 0) ++
    [.busTree (UInt8.ofNat (busCount mach)) 1 0]

def buildCalls (mach : Machine) (l : List IntEntry) : List Call :=
  frontCalls mach l ++ extraCalls (UInt8.ofNat (busCount mach)) l ++ backCalls mach

theorem runCalls_append (io : Ioapic) (a b : List Call) (s : Mp) :
    runCalls io (a ++ b) s = runCalls io b (runCalls io a s) := by
  simp [runCalls]

theorem runCalls_cons (io : Ioapic) (c : Call) (b : List Call) (s : Mp) :
    runCalls io (c :: b) s = runCalls io b (c.run io s) := rfl

theorem mptablePciWalk_eq (io : Ioapic) (f : Forest MpBus) (s : Mp) :
    mptablePciWalk f s = (f.size, runCalls io (walkCalls f) s) := by
  induction f generalizing s with
  | nil => rfl
  | node b kids peer hk hp =>
    simp only [mptablePciWalk, hk, hp, walkCalls, runCalls_cons, runCalls_append, Forest.size]
    rfl

theorem addBusInts_eq (io : Ioapic) (j : Nat) (l : List IntEntry) (s : Mp) :
    addBusInts j l s = runCalls io (busIntCalls j l) s := by
  induction l generalizing s with
  | nil => rfl
  | cons e l ih =>
    by_cases he : e.srcBus.toNat = j
    · simp only [addBusInts, List.foldl_cons, busIntCalls, he, not_true, if_false, decide_true,
        List.filter_cons_of_pos, List.map_cons, runCalls_cons, ne_eq] at ih ⊢
      exact ih _
    · simp only [addBusInts, List.foldl_cons, busIntCalls, he, not_false_iff, if_true,
        decide_false, ne_eq, Bool.false_eq_true, List.filter_cons_of_neg] at ih ⊢
      exact ih _

theorem addExtraIsa_eq (io : Ioapic) (isa : UInt8) (l : List IntEntry) (s : Mp) :
    addExtraIsa isa l s = (l.map (isaEntry isa), runCalls io (extraCalls isa l) s) := by
  induction l generalizing s with
  | nil => rfl
  | cons e l ih =>
    by_cases he : e.srcBus = 0xff
    · simp only [addExtraIsa, he, ne_eq, not_true, if_false, ih, extraCalls, decide_true,
        List.filter_cons_of_pos, List.map_cons, runCalls_cons, isaEntry, if_true]
      rfl
    · simp only [addExtraIsa, he, ne_eq, not_false_iff, if_true, ih, extraCalls, decide_false,
        Bool.false_eq_true, List.filter_cons_of_neg, List.map_cons, isaEntry, if_false]

theorem addHierarchy_eq (io : Ioapic) (parent : UInt8) (f : Forest MpBus) (s : Mp) :
    addHierarchy parent f s = runCalls io (hierarchyCalls parent f) s := by
  induction f generalizing parent s with
  | nil => rfl
  | node b kids peer hk hp =>
    by_cases hn : kids.isNil = true
    · simp only [addHierarchy, hierarchyCalls, hn, if_true, hp, runCalls_cons]
      rfl
    · simp only [addHierarchy, hierarchyCalls, hn, hk, runCalls_cons, Bool.false_eq_true, if_false]
      rfl

theorem addHostBuses_eq (io : Ioapic) (f : Forest MpBus) (s : Mp) :
    addHostBuses f s = runCalls io (hostCalls f) s := by
  induction f generalizing s with
  | nil => rfl
  | node b kids peer _ hp =>
    simp only [addHostBuses, hostCalls, hp, addHierarchy_eq io, runCalls_append, runCalls_cons]
    rfl

/-- Entry writers read neither the interrupt list nor the ISA bus number. -/
theorem run_setInts (io : Ioapic) (c : Call) (n : Nat) (l : List IntEntry) (s : Mp) :
    c.run io { s with isaBusid := n, mpINTList := l } =
      { c.run io s with isaBusid := n, mpINTList := l } := by
  rcases c.cases with ⟨info, rfl⟩ | hc | hc
  · simp only [Call.run, mptableAddCPU, bumpBase]
    split
    · split <;> rfl
    · rfl
  · rw [(run_overwrites _ hc _).1, (run_overwrites _ hc _).1]
    simp only [addEntry, bumpBase]
    split <;> rfl
  · rw [(run_ext _ hc _).1, (run_ext _ hc _).1]
    simp only [addExtEntry]
    split <;> rfl

theorem runCalls_setInts (io : Ioapic) (cs : List Call) (n : Nat) (l : List IntEntry) (s : Mp) :
    runCalls io cs { s with isaBusid := n, mpINTList := l } =
      { runCalls io cs s with isaBusid := n, mpINTList := l } := by
  induction cs generalizing s with
  | nil => rfl
  | cons c cs ih => rw [runCalls_cons, run_setInts, ih, runCalls_cons]

theorem runCalls_ints (io : Ioapic) (cs : List Call) (s : Mp) :
    (runCalls io cs s).mpINTList = s.mpINTList ∧ (runCalls io cs s).isaBusid = s.isaBusid := by
  have h := runCalls_setInts io cs s.isaBusid s.mpINTList s
  have hs : { s with isaBusid := s.isaBusid, mpINTList := s.mpINTList } = s := rfl
  rw [hs] at h
  rw [h]
  exact ⟨rfl, rfl⟩

theorem busInts_eq (io : Ioapic) (js : List Nat) (s : Mp) :
    js.foldl (fun s j => addBusInts j s.mpINTList s) s =
      runCalls io (js.flatMap fun j => busIntCalls j s.mpINTList) s := by
  induction js generalizing s with
  | nil => rfl
  | cons j js ih =>
    rw [List.foldl_cons, ih, addBusInts_eq io, (runCalls_ints io _ s).1, List.flatMap_cons,
      runCalls_append]

theorem isaIrqs_eq (io : Ioapic) (isa : UInt8) (js : List Nat) (s : Mp) :
    js.foldl (fun s j => if irqmapIsa j then
        mptableAddINT (isaInt io isa mpINTTypeInt (UInt8.ofNat j)) s else s) s =
      runCalls io (isaIrqCalls io isa js) s := by
  induction js generalizing s with
  | nil => rfl
  | cons j js ih =>
    rw [List.foldl_cons, ih]
    by_cases hj : irqmapIsa j = true
    · rw [if_pos hj, isaIrqCalls, isaIrqCalls, List.filter_cons_of_pos hj, List.map_cons,
        runCalls_cons]
      rfl
    · rw [if_neg hj, isaIrqCalls, isaIrqCalls, List.filter_cons_of_neg hj]

theorem cpus_eq (io : Ioapic) (l : List CpuInfo) (s : Mp) :
    l.foldl (fun s info => mptableAddCPU info s) s = runCalls io (l.map Call.cpu) s := by
  rw [runCalls, List.foldl_map]
  rfl

/-- The routine is its calls; beside them it sets the ISA bus number and edits the list. -/
theorem mptableBuild_eq (mach : Machine) (save : Bool) (s : Mp) (h3 : mach.is3k = false)
    (hn : busCount mach ≤ 255) :
    mptableBuild mach save s = some (mptableChecksum
      { runCalls mach.io (buildCalls mach s.mpINTList) { s with saveFlag := save } with
        isaBusid := busCount mach
        mpINTList := s.mpINTList.map (isaEntry (UInt8.ofNat (busCount mach))) }) := by
  have hwalk : ∀ t, mptablePciWalk (pciLookupBus mach 0) t =
      (busCount mach, runCalls mach.io (walkCalls (pciLookupBus mach 0)) t) :=
    fun t => mptablePciWalk_eq mach.io _ t
  simp only [mptableBuild, h3, Bool.false_eq_true, if_false, cpus_eq mach.io, hwalk,
    if_neg (Nat.not_lt.mpr hn), busInts_eq mach.io, isaIrqs_eq, addExtraIsa_eq mach.io,
    addHostBuses_eq mach.io]
  have hbus : ∀ id t, mptableAddBUS id mptableBusIsa t =
      runCalls mach.io [.bus id mptableBusIsa] t := fun _ _ => rfl
  have hint : ∀ e t, mptableAddINT e t = runCalls mach.io [.int e] t := fun _ _ => rfl
  have htree : ∀ b t, mpextableAddBusTree b 1 0 t = runCalls mach.io [.busTree b 1 0] t :=
    fun _ _ => rfl
  have hapic : ∀ t, (List.range 2).foldl (fun s j => mptableAddIOAPIC mach.io j s) t =
      runCalls mach.io [.ioapic 0, .ioapic 1] t := fun _ => rfl
  simp only [hbus, hint, htree, hapic, runCalls_setInts, ← runCalls_append,
    (runCalls_ints mach.io _ _).1]
  simp only [buildCalls, frontCalls, backCalls, List.append_assoc, List.cons_append,
    List.nil_append]

/-! ### Showing and building -/

theorem run_nosave (io : Ioapic) (c : Call) (h : s.saveFlag = false) : c.run io s = s := by
  rcases c.cases with ⟨info, rfl⟩ | hc | hc
  · simp [Call.run, mptableAddCPU, h]
  · rw [(run_overwrites _ hc s).1, addEntry, if_neg (by simp [h])]
  · rw [(run_ext _ hc s).1, addExtEntry, if_neg (by simp [h])]

theorem runCalls_nosave (io : Ioapic) (cs : List Call) (h : s.saveFlag = false) :
    runCalls io cs s = s := by
  induction cs with
  | nil => rfl
  | cons c cs ih => rw [runCalls_cons, run_nosave io c h, ih]

/-- All that showing the tables changes. -/
def shown (mach : Machine) (s : Mp) : Mp :=
  { s with
    saveFlag := false
    isaBusid := busCount mach
    mpINTList := s.mpINTList.map (isaEntry (UInt8.ofNat (busCount mach))) }

theorem mptableBuild_dump (h3 : mach.is3k = false) (hn : busCount mach ≤ 255) :
    mptableBuild mach false s = some (shown mach s) := by
  rw [mptableBuild_eq mach false s h3 hn, runCalls_nosave mach.io _ rfl]
  rfl

theorem isaEntry_isaEntry (isa : UInt8) (e : IntEntry) :
    isaEntry isa (isaEntry isa e) = isaEntry isa e := by
  by_cases he : e.srcBus = 0xff
  · by_cases hi : isa = 0xff
    · simp [isaEntry, he, hi]
    · simp [isaEntry, he, hi]
  · simp [isaEntry, he]

theorem shown_shown (mach : Machine) (s : Mp) : shown mach (shown mach s) = shown mach s := by
  have h : ∀ e, (isaEntry (UInt8.ofNat (busCount mach)) ∘
      isaEntry (UInt8.ofNat (busCount mach))) e = isaEntry (UInt8.ofNat (busCount mach)) e :=
    isaEntry_isaEntry _
  simp only [shown, List.map_map, funext h]

theorem mptableDumps_succ (h3 : mach.is3k = false) (hn : busCount mach ≤ 255) (k : Nat) :
    mptableDumps mach (k + 1) s = some (shown mach s) := by
  induction k generalizing s with
  | zero => rw [mptableDumps, mptableBuild_dump h3 hn]; rfl
  | succ k ih => rw [mptableDumps, mptableBuild_dump h3 hn, Option.bind_some, ih, shown_shown]

/-- The table bytes after some calls with saving enabled. -/
def built (mach : Machine) (s : Mp) (l : List IntEntry) : Mp :=
  runCalls mach.io (buildCalls mach l) { s with saveFlag := true }

theorem tableBytes_checksum_setInts (n : Nat) (l : List IntEntry) (s : Mp) :
    tableBytes (mptableChecksum { s with isaBusid := n, mpINTList := l }) =
      tableBytes (mptableChecksum s) := by
  simp only [mptableChecksum]
  split <;> rfl

theorem tableBytes_build (h3 : mach.is3k = false) (hn : busCount mach ≤ 255) :
    (mptableBuild mach true s).map tableBytes =
      some (tableBytes (mptableChecksum (built mach s s.mpINTList))) := by
  rw [mptableBuild_eq mach true s h3 hn, Option.map_some, tableBytes_checksum_setInts]
  rfl

theorem tableBytes_build_shown (h3 : mach.is3k = false) (hn : busCount mach ≤ 255) :
    (mptableBuild mach true (shown mach s)).map tableBytes =
      some (tableBytes (mptableChecksum (built mach s
        (s.mpINTList.map (isaEntry (UInt8.ofNat (busCount mach))))))) := by
  rw [tableBytes_build h3 hn, built]
  have h := runCalls_setInts mach.io (buildCalls mach (shown mach s).mpINTList) (busCount mach)
    (s.mpINTList.map (isaEntry (UInt8.ofNat (busCount mach)))) { s with saveFlag := true }
  have hs : { shown mach s with saveFlag := true } = { s with
      saveFlag := true
      isaBusid := busCount mach
      mpINTList := s.mpINTList.map (isaEntry (UInt8.ofNat (busCount mach))) } := rfl
  rw [hs, h, tableBytes_checksum_setInts]
  rfl

/-! ### The tables differ in size when an entry is lost -/

theorem runCalls_sizes (io : Ioapic) (cs : List Call) (h : s.saveFlag = true) :
    (runCalls io cs s).mpe = s.mpe + (baseEntries io cs).flatten.length ∧
      (runCalls io cs s).mptable.extLength =
        (extEntries io cs).foldl (fun n e => n + UInt16.ofNat e.length) s.mptable.extLength ∧
      (runCalls io cs s).saveFlag = true := by
  induction cs using List.reverseRecOn with
  | nil => exact ⟨rfl, rfl, h⟩
  | append_singleton cs c ih =>
    obtain ⟨h₁, h₂, h₃⟩ := ih
    rw [runCalls_snoc, baseEntries_snoc, extEntries_snoc]
    generalize runCalls io cs s = t at *
    rcases c.cases with ⟨info, rfl⟩ | hc | hc
    · have hrun : (Call.cpu info).run io t = _ := mptableAddCPU_eq info h₃
      rw [hrun]
      simp [bumpBase, h₁, h₂, h₃, Call.isExt, Call.bytes, cpuBytes_length, Nat.add_assoc]
    · obtain ⟨hrun, hext⟩ := run_overwrites io hc t
      rw [hrun, addEntry, if_pos h₃]
      simp [bumpBase, h₁, h₂, h₃, hext, Nat.add_assoc]
    · obtain ⟨hrun, -⟩ := run_ext io hc t
      rw [hrun, addExtEntry, if_pos h₃]
      simp [h₁, h₂, h₃, hc]

theorem tableBytes_length (s : Mp) :
    (tableBytes (mptableChecksum s)).length = 60 + (s.mpe + s.mptable.extLength.toNat) := by
  have h : ∀ t : Mp, (tableBytes t).length = 60 + (t.mpe + t.mptable.extLength.toNat) := by
    intro t
    simp [tableBytes, FlPointer.bytes, CfHeader.bytes, flpointerSig, cfheaderSig, mpOemId, leBytes]
    omega
  rw [h]
  simp only [mptableChecksum]
  split <;> rfl

theorem frontCalls_isaEntry (hn : busCount mach < 255) (l : List IntEntry) :
    frontCalls mach (l.map (isaEntry (UInt8.ofNat (busCount mach)))) = frontCalls mach l := by
  have h : ∀ j, j ∈ List.range (busCount mach) →
      busIntCalls j (l.map (isaEntry (UInt8.ofNat (busCount mach)))) = busIntCalls j l := by
    intro j hj
    have hj := List.mem_range.mp hj
    induction l with
    | nil => rfl
    | cons e l ih =>
      by_cases he : e.srcBus = 0xff
      · have h₁ : ¬(isaEntry (UInt8.ofNat (busCount mach)) e).srcBus.toNat = j := by
          simp only [isaEntry, he, if_true, UInt8.toNat_ofNat']
          omega
        have h₂ : ¬e.srcBus.toNat = j := by
          rw [he]
          simp
          omega
        simp only [busIntCalls, List.map_cons, List.filter_cons, h₁, h₂, decide_false,
          Bool.false_eq_true, if_false] at ih ⊢
        exact ih
      · have h₁ : isaEntry (UInt8.ofNat (busCount mach)) e = e := by simp [isaEntry, he]
        simp only [busIntCalls, List.map_cons, h₁, List.filter_cons] at ih ⊢
        split
        · simp only [List.map_cons, ih]
        · exact ih
  rw [frontCalls, frontCalls, List.flatMap_congr h]

theorem extraCalls_isaEntry {isa : UInt8} (h : isa ≠ 0xff) (l : List IntEntry) :
    extraCalls isa (l.map (isaEntry isa)) = [] := by
  simp only [extraCalls, List.map_eq_nil_iff, List.filter_eq_nil_iff, List.mem_map,
    forall_exists_index, and_imp, decide_eq_true_eq]
  rintro _ e - rfl he
  by_cases hb : e.srcBus = 0xff
  · simp [isaEntry, hb, h] at he
  · simp [isaEntry, hb] at he

theorem baseEntries_append (io : Ioapic) (a b : List Call) :
    baseEntries io (a ++ b) = baseEntries io a ++ baseEntries io b := by
  simp [baseEntries]

theorem extEntries_append (io : Ioapic) (a b : List Call) :
    extEntries io (a ++ b) = extEntries io a ++ extEntries io b := by
  simp [extEntries]

theorem extraCalls_entries (io : Ioapic) (isa : UInt8) (l : List IntEntry) :
    extEntries io (extraCalls isa l) = [] ∧
      ((∃ e, e ∈ l ∧ e.srcBus = 0xff) →
        0 < (baseEntries io (extraCalls isa l)).flatten.length) := by
  constructor
  · simp only [extEntries, extraCalls, List.map_eq_nil_iff, List.filter_eq_nil_iff, List.mem_map,
      forall_exists_index, and_imp]
    rintro _ e - rfl
    simp [Call.isExt]
  · rintro ⟨e, hmem, he⟩
    have hin : (isaEntry isa e).bytes ∈ baseEntries io (extraCalls isa l) := by
      simp only [baseEntries, extraCalls, List.mem_map, List.mem_filter]
      exact ⟨.int (isaEntry isa e), ⟨⟨e, ⟨hmem, by simpa using he⟩, rfl⟩, rfl⟩, rfl⟩
    have hbyte : e.entry.code ∈ (baseEntries io (extraCalls isa l)).flatten := by
      refine List.mem_flatten_of_mem hin ?_
      simp [IntEntry.bytes, isaEntry, he]
    exact List.length_pos_of_mem hbyte

theorem built_length_ne (hn : busCount mach < 255) {e : IntEntry} (hmem : e ∈ s.mpINTList)
    (he : e.srcBus = 0xff) :
    (tableBytes (mptableChecksum (built mach s
      (s.mpINTList.map (isaEntry (UInt8.ofNat (busCount mach))))))).length ≠
      (tableBytes (mptableChecksum (built mach s s.mpINTList))).length := by
  have hisa : UInt8.ofNat (busCount mach) ≠ 0xff := by
    intro h
    have := congrArg UInt8.toNat h
    simp only [UInt8.toNat_ofNat'] at this
    simp at this
    omega
  obtain ⟨hext, hpos⟩ := extraCalls_entries mach.io (UInt8.ofNat (busCount mach)) s.mpINTList
  have hpos := hpos ⟨e, hmem, he⟩
  obtain ⟨h₁, h₂, -⟩ := runCalls_sizes (s := { s with saveFlag := true }) mach.io
    (buildCalls mach s.mpINTList) rfl
  obtain ⟨h₃, h₄, -⟩ := runCalls_sizes (s := { s with saveFlag := true }) mach.io
    (buildCalls mach (s.mpINTList.map (isaEntry (UInt8.ofNat (busCount mach))))) rfl
  simp only [buildCalls, frontCalls_isaEntry hn, extraCalls_isaEntry hisa, List.append_nil,
    baseEntries_append, extEntries_append, hext, List.flatten_append, List.length_append]
    at h₁ h₂ h₃ h₄
  rw [tableBytes_length, tableBytes_length]
  simp only [built, buildCalls, frontCalls_isaEntry hn, extraCalls_isaEntry hisa, List.append_nil,
    h₁, h₂, h₃, h₄]
  omega

/-- The table is the same after dumps exactly when there were none, the system builds no table,
there are at least 255 PCI buses, or no listed interrupt waits for the ISA bus number. -/
theorem dumps_keep_table_iff (mach : Machine) (s : Mp) (k : Nat) :
    ((mptableDumps mach k s).bind (mptableBuild mach true)).map tableBytes =
        (mptableBuild mach true s).map tableBytes ↔
      k = 0 ∨ mach.is3k = true ∨ 255 ≤ busCount mach ∨
        ∀ e, e ∈ s.mpINTList → e.srcBus ≠ 0xff := by
  cases k with
  | zero => simp [mptableDumps]
  | succ k =>
    by_cases h3 : mach.is3k = true
    · have hb : ∀ save t, mptableBuild mach save t = some t := by
        intro save t
        rw [mptableBuild, if_pos h3]
      have hd : ∀ k, mptableDumps mach k s = some s := by
        intro k
        induction k with
        | zero => rfl
        | succ k ih => rw [mptableDumps, hb, Option.bind_some, ih]
      simp [hb, hd, h3]
    · have h3 : mach.is3k = false := by simpa using h3
      by_cases hbig : 255 < busCount mach
      · have hb : ∀ save t, mptableBuild mach save t = none := by
          intro save t
          have hwalk : ∀ u, (mptablePciWalk (pciLookupBus mach 0) u).1 = busCount mach :=
            fun u => congrArg Prod.fst (mptablePciWalk_eq mach.io _ u)
          simp only [mptableBuild, h3, Bool.false_eq_true, if_false, hwalk, if_pos hbig]
        have hle : 255 ≤ busCount mach := by omega
        simp [mptableDumps, hb, hle]
      · have hn : busCount mach ≤ 255 := by omega
        rw [mptableDumps_succ h3 hn, Option.bind_some, tableBytes_build_shown h3 hn,
          tableBytes_build h3 hn]
        constructor
        · intro heq
          by_contra hcon
          simp only [not_or, not_forall, not_not] at hcon
          obtain ⟨-, -, hlt, e, hmem, he⟩ := hcon
          exact built_length_ne (by omega) hmem he (congrArg List.length (Option.some.inj heq))
        · rintro (h | h | h | h)
          · omega
          · rw [h3] at h
            cases h
          · have hfull : busCount mach = 255 := by omega
            have hid : ∀ e, isaEntry (UInt8.ofNat (busCount mach)) e = e := by
              intro e
              by_cases he : e.srcBus = 0xff
              · obtain ⟨entry, type, flags, srcBus, srcIrq, destId, destInput⟩ := e
                obtain rfl : srcBus = 0xff := he
                simp [isaEntry, hfull]
              · simp [isaEntry, he]
            simp [funext hid]
          · have hid : s.mpINTList.map (isaEntry (UInt8.ofNat (busCount mach))) = s.mpINTList := by
              conv_rhs => rw [← List.map_id s.mpINTList]
              apply List.map_congr_left
              intro e he
              simp [isaEntry, h e he]
            rw [hid]

/-- A machine with one PCI bus. -/
def oneBus : Machine where
  is3k := false
  cpus := []
  pciRoot := .node { busnum := 0, base := fun _ => 0, size := fun _ => 0 } .nil .nil
  io := ⟨fun _ => 0, fun _ => 0⟩

/-- Its tables just set up, with the interrupt of an IDE channel waiting for the ISA bus number. -/
def oneInt : Mp :=
  mpINTAdd { entry := .ioInt, type := mpINTTypeInt, flags := 13, srcBus := 0xff, srcIrq := 14,
             destId := 0, destInput := 14 }
    (mptableInit (Vector.replicate 12 0) 0 blankMp)

/-- After one dump that interrupt is missing from the table. -/
theorem dump_loses_isa_entry :
    ((mptableDumps oneBus 1 oneInt).bind (mptableBuild oneBus true)).map tableBytes ≠
      (mptableBuild oneBus true oneInt).map tableBytes := by
  have hn : busCount oneBus ≤ 255 := by decide
  rw [mptableDumps_succ rfl hn, Option.bind_some, tableBytes_build_shown rfl hn,
    tableBytes_build rfl hn]
  intro heq
  exact built_length_ne (s := oneInt) (by decide) (List.mem_singleton.mpr rfl) rfl
    (congrArg List.length (Option.some.inj heq))

end Mptable
