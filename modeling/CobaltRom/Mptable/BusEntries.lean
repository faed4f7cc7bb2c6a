import CobaltRom.Mptable.Hierarchy

/-! The bus and interrupt entries of the MP tables. -/
namespace Mptable

variable {mach : Machine} {l : List IntEntry} {n : Nat}

/-- Number and type of the bus entries. -/
def buses (cs : List Call) : List (UInt8 × Vector UInt8 6) :=
  cs.filterMap fun
    | .bus id type => some (id, type)
    | _ => none

def ints (cs : List Call) : List IntEntry :=
  cs.filterMap fun
    | .int e => some e
    | _ => none

/-- The listed interrupts of the buses below `n`: bus after bus, those of one bus in list order. -/
def grouped (n : Nat) (l : List IntEntry) : List IntEntry :=
  (List.range n).flatMap fun j => l.filter fun e => e.srcBus.toNat = j

/-- The listed interrupts that wait for the number of the ISA bus. -/
def waiting (isa : UInt8) (l : List IntEntry) : List IntEntry :=
  (l.filter fun e => e.srcBus = 0xff).map fun e => { e with srcBus := isa }

/-- The interrupts of the first I/O APIC that no list holds. -/
def apicInts (io : Ioapic) (isa : UInt8) : List IntEntry :=
  [isaInt io isa mpINTTypeExt 0, isaInt io isa mpINTTypeInt 0] ++
    ((List.range (ioapicGetEntries io 0).toNat).filter fun j => irqmapIsa j).map fun j =>
      isaInt io isa mpINTTypeInt (UInt8.ofNat j)

/-- The buses of the forest have the numbers below `n`. -/
def Numbered (n : Nat) (t : Forest MpBus) : Prop :=
  (t.toList.map fun b => b.busnum.toNat).Perm (List.range n)

/-- The routine returns. It has added one entry for each PCI bus and one for the ISA bus, which
no PCI bus shares its number with, and one for every listed interrupt of a PCI bus and every one
that waited for the ISA bus, beside those of the timer, the ISA devices and the processors. -/
def BusIntComplete (mach : Machine) (l : List IntEntry) (n : Nat) : Prop :=
  ∃ cs, mptableCalls mach l = some cs ∧
    (buses cs).Perm (mach.pciRoot.toList.map (fun b => (b.busnum, mptableBusPci)) ++
      [(UInt8.ofNat n, mptableBusIsa)]) ∧
    (∀ b, b ∈ mach.pciRoot.toList → b.busnum ≠ UInt8.ofNat n) ∧
    ints cs = grouped n l ++ apicInts mach.io (UInt8.ofNat n) ++ waiting (UInt8.ofNat n) l ++
      [localInt mpINTTypeExt (UInt8.ofNat n) 0, localInt mpINTTypeNmi 0 1] ∧
    (grouped n l).Perm (l.filter fun e => e.srcBus.toNat < n)

/-! ### The entries among the calls -/

theorem buses_append (a b : List Call) : buses (a ++ b) = buses a ++ buses b :=
  List.filterMap_append

theorem ints_append (a b : List Call) : ints (a ++ b) = ints a ++ ints b := List.filterMap_append

theorem buses_map {α : Type} {f : α → Call} (hf : ∀ a, buses [f a] = []) (as : List α) :
    buses (as.map f) = [] := by
  induction as with
  | nil => rfl
  | cons a as ih => rw [List.map_cons, ← List.singleton_append, buses_append, hf, ih]; rfl

theorem ints_map {α : Type} {f : α → Call} {g : α → IntEntry} (hf : ∀ a, ints [f a] = [g a])
    (as : List α) : ints (as.map f) = as.map g := by
  induction as with
  | nil => rfl
  | cons a as ih => rw [List.map_cons, ← List.singleton_append, ints_append, hf, ih]; rfl

theorem ints_map_none {α : Type} {f : α → Call} (hf : ∀ a, ints [f a] = []) (as : List α) :
    ints (as.map f) = [] := by
  induction as with
  | nil => rfl
  | cons a as ih => rw [List.map_cons, ← List.singleton_append, ints_append, hf, ih]; rfl

theorem walkCalls_eq (t : Forest MpBus) :
    walkCalls t = t.toList.map fun b => .bus b.busnum mptableBusPci := by
  induction t with
  | nil => rfl
  | node b kids peer hk hp =>
    rw [walkCalls, Forest.toList, List.map_cons, List.map_append, hk, hp]

/-- Extended entries are neither. -/
theorem ext_no_bus {cs : List Call} (h : ∀ c, c ∈ cs → c.isExt = true) : buses cs = [] := by
  refine List.filterMap_eq_nil_iff.2 fun c hc => ?_
  cases c with
  | bus => exact absurd (h _ hc) Bool.false_ne_true
  | _ => rfl

theorem ext_no_int {cs : List Call} (h : ∀ c, c ∈ cs → c.isExt = true) : ints cs = [] := by
  refine List.filterMap_eq_nil_iff.2 fun c hc => ?_
  cases c with
  | int => exact absurd (h _ hc) Bool.false_ne_true
  | _ => rfl

theorem hostCalls_ext (t : Forest MpBus) : ∀ c, c ∈ hostCalls t → c.isExt = true := by
  rw [hostCalls_tops]
  intro c hc
  obtain ⟨r, -, hc⟩ := List.mem_flatMap.1 hc
  rw [hierarchyCalls_descent] at hc
  simp only [List.mem_append, List.mem_cons, List.not_mem_nil, or_false, List.mem_flatMap] at hc
  rcases hc with (rfl | rfl | rfl | rfl) | ⟨_, -, rfl | rfl⟩ <;> rfl

theorem buses_busInts (j : Nat) (l : List IntEntry) : buses (busIntCalls j l) = [] :=
  buses_map (fun _ => rfl) _

theorem ints_busInts (j : Nat) (l : List IntEntry) :
    ints (busIntCalls j l) = l.filter fun e => e.srcBus.toNat = j := by
  rw [busIntCalls, ints_map (g := id) fun _ => rfl, List.map_id]

theorem flatMap_busInts (js : List Nat) (l : List IntEntry) :
    buses (js.flatMap fun j => busIntCalls j l) = [] ∧
      ints (js.flatMap fun j => busIntCalls j l) =
        js.flatMap fun j => l.filter fun e => e.srcBus.toNat = j := by
  induction js with
  | nil => exact ⟨rfl, rfl⟩
  | cons j js ih =>
    rw [List.flatMap_cons, List.flatMap_cons, buses_append, ints_append, ih.1, ih.2,
      buses_busInts, ints_busInts]
    exact ⟨rfl, rfl⟩

theorem ints_extra (isa : UInt8) (l : List IntEntry) :
    ints (extraCalls isa l) = waiting isa l := by
  rw [extraCalls, ints_map (g := isaEntry isa) fun _ => rfl, waiting]
  refine List.map_congr_left fun e he => ?_
  have he : e.srcBus = 0xff := by simpa using (List.mem_filter.1 he).2
  rw [isaEntry, if_pos he]

/-- The bus entries of the whole routine. -/
theorem buses_buildCalls (mach : Machine) (l : List IntEntry) :
    buses (buildCalls mach l) =
      (pciLookupBus mach 0).toList.map (fun b => (b.busnum, mptableBusPci)) ++
        [(UInt8.ofNat (busCount mach), mptableBusIsa)] := by
  have hcpu : buses (mach.cpus.map Call.cpu) = [] := buses_map (fun _ => rfl) _
  have hirq : ∀ isa js, buses (isaIrqCalls mach.io isa js) = [] :=
    fun isa js => buses_map (fun _ => rfl) _
  have hextra : ∀ isa, buses (extraCalls isa l) = [] := fun isa => buses_map (fun _ => rfl) _
  have hwalk : buses (walkCalls (pciLookupBus mach 0)) =
      (pciLookupBus mach 0).toList.map fun b => (b.busnum, mptableBusPci) := by
    rw [walkCalls_eq]
    induction (pciLookupBus mach 0).toList with
    | nil => rfl
    | cons b bs ih => rw [List.map_cons, ← List.singleton_append, buses_append, ih]; rfl
  have hisa : ∀ isa, buses [.bus isa mptableBusIsa, .ioapic 0, .ioapic 1] =
      [(isa, mptableBusIsa)] := fun _ => rfl
  have hints : ∀ e f, buses [.int e, .int f] = [] := fun _ _ => rfl
  have htree : ∀ isa, buses [.busTree isa 1 0] = [] := fun _ => rfl
  simp only [buildCalls, frontCalls, backCalls, buses_append, hcpu, hirq, hextra, hwalk, hisa,
    hints, htree, (flatMap_busInts _ l).1, ext_no_bus (hostCalls_ext _), List.nil_append,
    List.append_nil]

/-- The interrupt entries of the whole routine. -/
theorem ints_buildCalls (mach : Machine) (l : List IntEntry) :
    ints (buildCalls mach l) = grouped (busCount mach) l ++
      apicInts mach.io (UInt8.ofNat (busCount mach)) ++ waiting (UInt8.ofNat (busCount mach)) l ++
      [localInt mpINTTypeExt (UInt8.ofNat (busCount mach)) 0, localInt mpINTTypeNmi 0 1] := by
  have hcpu : ints (mach.cpus.map Call.cpu) = [] := ints_map_none (fun _ => rfl) _
  have hirq : ∀ isa js, ints (isaIrqCalls mach.io isa js) =
      (js.filter fun j => irqmapIsa j).map fun j =>
        isaInt mach.io isa mpINTTypeInt (UInt8.ofNat j) :=
    fun isa js => ints_map (fun _ => rfl) _
  have hwalk : ints (walkCalls (pciLookupBus mach 0)) = [] := by
    rw [walkCalls_eq]
    exact ints_map_none (fun _ => rfl) _
  have hisa : ∀ isa, ints [.bus isa mptableBusIsa, .ioapic 0, .ioapic 1] = [] := fun _ => rfl
  have hints : ∀ e f, ints [.int e, .int f] = [e, f] := fun _ _ => rfl
  have htree : ∀ isa, ints [.busTree isa 1 0] = [] := fun _ => rfl
  simp only [buildCalls, frontCalls, backCalls, ints_append, hcpu, hirq, ints_extra, hwalk, hisa,
    hints, htree, (flatMap_busInts _ l).2, ext_no_int (hostCalls_ext _), List.nil_append,
    List.append_nil, grouped, apicInts, List.append_assoc]

/-- Each listed interrupt of a bus below `n` stands in one group. -/
theorem grouped_perm (n : Nat) (l : List IntEntry) :
    (grouped n l).Perm (l.filter fun e => e.srcBus.toNat < n) := by
  induction n with
  | zero => simp [grouped]
  | succ n ih =>
    rw [grouped, List.range_succ, List.flatMap_append, List.flatMap_singleton]
    refine (ih.append_right _).trans ?_
    have hsplit := List.filter_append_perm (fun e : IntEntry => decide (e.srcBus.toNat < n))
      (l.filter fun e => e.srcBus.toNat < n + 1)
    rw [List.filter_filter, List.filter_filter] at hsplit
    refine List.Perm.trans (List.Perm.of_eq ?_) hsplit
    refine congrArg₂ (· ++ ·) (List.filter_congr fun e _ => ?_) (List.filter_congr fun e _ => ?_)
    · by_cases h : e.srcBus.toNat < n
      · simp [h, Nat.lt_succ_of_lt h]
      · simp [h]
    · by_cases h : e.srcBus.toNat = n
      · simp [h]
      · simp only [h, decide_false]
        symm
        simp
        omega

theorem numbered_size {t : Forest MpBus} (h : Numbered n t) : t.size = n := by
  have hlen := h.length_eq
  rw [List.length_map, List.length_range] at hlen
  rw [Forest.size_eq_length, hlen]

/-- Where the system builds the tables and bus 0 heads the host buses, as `pci_init` numbers
them, the bus and interrupt entries are complete for every forest of `n` buses. -/
theorem bus_int_complete (h3 : mach.is3k = false) (hroot : pciLookupBus mach 0 = mach.pciRoot)
    (hn : n < 255) (hnum : Numbered n mach.pciRoot) (l : List IntEntry) :
    BusIntComplete mach l n := by
  have hcount : busCount mach = n := by rw [busCount, hroot, numbered_size hnum]
  have hbuses := buses_buildCalls mach l
  have hints := ints_buildCalls mach l
  rw [hroot, hcount] at hbuses
  rw [hcount] at hints
  refine ⟨buildCalls mach l, ?_, List.Perm.of_eq hbuses, ?_, hints, grouped_perm n l⟩
  · rw [mptableCalls, if_neg (Bool.eq_false_iff.1 h3), hcount, if_neg (by omega)]
  · intro b hb he
    have hlt :=
      List.mem_range.1 (hnum.subset (List.mem_map_of_mem (f := fun b => b.busnum.toNat) hb))
    have := congrArg UInt8.toNat he
    rw [UInt8.toNat_ofNat'] at this
    omega

theorem numbered_bridged : Numbered 6 bridged.pciRoot := List.Perm.refl _

/-- Six buses, an interrupt that waits for the ISA bus and one of a bus behind a bridge. -/
theorem bus_int_complete_bridged :
    BusIntComplete bridged [localInt mpINTTypeInt 0xff 14, localInt mpINTTypeInt 3 5] 6 :=
  bus_int_complete rfl rfl (by decide) numbered_bridged _

/-- A 3k with one bus. -/
def smallThreeK : Machine := { oneBus with is3k := true }

/-- Two host buses, the second of them bus 0. -/
def swapped : Machine :=
  { oneBus with pciRoot := .node (plainBus 1) .nil (.node (plainBus 0) .nil .nil) }

/-- A 3k gets no entries, and host buses in front of bus 0 get none. -/
theorem bus_int_incomplete :
    (Numbered 1 smallThreeK.pciRoot ∧ ¬ BusIntComplete smallThreeK [] 1) ∧
      Numbered 2 swapped.pciRoot ∧ ¬ BusIntComplete swapped [] 2 := by
  refine ⟨⟨List.Perm.refl _, ?_⟩, List.Perm.swap _ _ _, ?_⟩
  · rintro ⟨cs, hcs, hbuses, -⟩
    obtain rfl := Option.some.inj hcs
    have := hbuses.length_eq
    revert this
    decide
  · rintro ⟨cs, hcs, hbuses, -⟩
    obtain rfl := Option.some.inj hcs
    have := hbuses.length_eq
    revert this
    decide

/-! ### The entries in the finished table -/

/-- All base entries come before the extended ones. -/
theorem buildCalls_ordered (mach : Machine) (l : List IntEntry) : Ordered (buildCalls mach l) := by
  have hsplit : buildCalls mach l = (frontCalls mach l ++
      extraCalls (UInt8.ofNat (busCount mach)) l ++
      [.int (localInt mpINTTypeExt (UInt8.ofNat (busCount mach)) 0),
        .int (localInt mpINTTypeNmi 0 1)]) ++
      (hostCalls (pciLookupBus mach 0) ++ [.busTree (UInt8.ofNat (busCount mach)) 1 0]) := by
    simp only [buildCalls, backCalls, List.append_assoc]
  have hbase : ∀ c, c ∈ frontCalls mach l ++ extraCalls (UInt8.ofNat (busCount mach)) l ++
      [.int (localInt mpINTTypeExt (UInt8.ofNat (busCount mach)) 0),
        .int (localInt mpINTTypeNmi 0 1)] → c.isExt = false := by
    intro c hc
    rcases List.mem_append.1 hc with hc | hc
    · exact frontCalls_base mach l c hc
    · simp only [List.mem_cons, List.not_mem_nil, or_false] at hc
      rcases hc with rfl | rfl <;> rfl
  have hext : ∀ c, c ∈ hostCalls (pciLookupBus mach 0) ++
      [.busTree (UInt8.ofNat (busCount mach)) 1 0] → c.isExt = true := by
    intro c hc
    rcases List.mem_append.1 hc with hc | hc
    · exact hostCalls_ext _ c hc
    · obtain rfl := List.mem_singleton.1 hc
      rfl
  rw [hsplit, Ordered, List.pairwise_append]
  refine ⟨List.pairwise_of_forall_mem_list fun d hd c _ hx => ?_,
    List.pairwise_of_forall_mem_list fun d _ c hc _ => ?_, fun d hd c _ hx => ?_⟩
  · rw [hbase d hd] at hx
    cases hx
  · exact (run_ext ⟨fun _ => 0, fun _ => 0⟩ (hext c hc) blankMp).2
  · rw [hbase d hd] at hx
    cases hx

/-- The checksums leave the sections alone. -/
theorem Intact.checksum {cs : List Call} {s : Mp} (h : Intact mach.io cs s) (isa : Nat)
    (l : List IntEntry) :
    Intact mach.io cs (mptableChecksum { s with isaBusid := isa, mpINTList := l }) := by
  have hfields : ∀ t : Mp, (mptableChecksum t).area = t.area ∧
      (mptableChecksum t).mptable.count = t.mptable.count ∧
      (mptableChecksum t).mptable.length = t.mptable.length ∧
      (mptableChecksum t).mptable.extLength = t.mptable.extLength := by
    intro t
    rw [mptableChecksum]
    split <;> exact ⟨rfl, rfl, rfl, rfl⟩
  obtain ⟨harea, hcount, hlen, hext⟩ := hfields { s with isaBusid := isa, mpINTList := l }
  rw [Intact, harea, hcount, hlen, hext]
  exact h

/-- After `mptable_init` and any additions, walking the finished table finds the entries of the
calls. -/
theorem build_intact (h3 : mach.is3k = false) (hn : busCount mach ≤ 255)
    (hsz : totalSize mach.io (buildCalls mach l) < 65536) (prodId : Vector UInt8 12)
    (lapicBase : UInt32) (s : Mp) :
    ∃ t, mptableBuild mach true { mptableInit prodId lapicBase s with mpINTList := l } = some t ∧
      Intact mach.io (buildCalls mach l) t := by
  refine ⟨_, mptableBuild_eq mach true _ h3 hn, ?_⟩
  have hrun := (sections_intact_iff mach.io prodId lapicBase _ hsz).2
    (buildCalls_ordered mach l) s
  have hset := runCalls_setInts mach.io (buildCalls mach l)
    (mptableInit prodId lapicBase s).isaBusid l
    (startTable prodId lapicBase s)
  have hs : { { mptableInit prodId lapicBase s with mpINTList := l } with saveFlag := true } =
      { startTable prodId lapicBase s with
        isaBusid := (mptableInit prodId lapicBase s).isaBusid, mpINTList := l } := rfl
  rw [hs, hset]
  exact hrun.checksum _ _

end Mptable
