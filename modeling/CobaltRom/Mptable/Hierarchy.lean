import CobaltRom.Mptable.Dump

/-! The bus hierarchy in the MP tables: which buses the walk over the bridges meets. -/
namespace Mptable

variable {mach : Machine} {l : List IntEntry}

/-- The calls that `__mptable_build (1)` makes; `none` when it does not return. -/
def mptableCalls (mach : Machine) (l : List IntEntry) : Option (List Call) :=
  if mach.is3k then some []
  else if 255 < busCount mach then none
  else some (buildCalls mach l)

/-- What the routine leaves after its calls. -/
def afterCalls (mach : Machine) (s : Mp) (cs : List Call) : Mp :=
  if mach.is3k then s
  else mptableChecksum
    { runCalls mach.io cs { s with saveFlag := true } with
      isaBusid := busCount mach
      mpINTList := s.mpINTList.map (isaEntry (UInt8.ofNat (busCount mach))) }

theorem mptableBuild_calls (mach : Machine) (s : Mp) :
    mptableBuild mach true s = (mptableCalls mach s.mpINTList).map (afterCalls mach s) := by
  by_cases h3 : mach.is3k = true
  · rw [mptableBuild, mptableCalls, if_pos h3, if_pos h3, Option.map_some, afterCalls, if_pos h3]
  · rw [mptableCalls, if_neg h3]
    have hf : mach.is3k = false := Bool.eq_false_iff.2 h3
    by_cases hn : 255 < busCount mach
    · rw [if_pos hn, Option.map_none]
      have hwalk : ∀ u, (mptablePciWalk (pciLookupBus mach 0) u).1 = busCount mach :=
        fun u => congrArg Prod.fst (mptablePciWalk_eq mach.io _ u)
      simp only [mptableBuild, hf, Bool.false_eq_true, if_false, hwalk, if_pos hn]
    · rw [if_neg hn, mptableBuild_eq mach true s hf (Nat.le_of_not_lt hn), Option.map_some,
        afterCalls, if_neg h3]

/-- Bus, decoding and parent of the bus hierarchy entries. -/
def trees (cs : List Call) : List (UInt8 × UInt8 × UInt8) :=
  cs.filterMap fun
    | .busTree bus decode parent => some (bus, decode, parent)
    | _ => none

/-- Bus, modifier and range of the bus compatibility entries. -/
def compats (cs : List Call) : List (UInt8 × UInt8 × UInt32) :=
  cs.filterMap fun
    | .busCompat bus mod range => some (bus, mod, range)
    | _ => none

/-- Every bus behind bridges with the number of the bus above it. -/
def bridgedBuses (t : Forest MpBus) : List (MpBus × UInt8) :=
  t.tops.flatMap fun r => (r.2.withParent MpBus.busnum r.1.busnum).toList

/-- The compatibility entry of a host bus. -/
def hostCompat (b : MpBus) : UInt8 × UInt8 × UInt32 :=
  (b.busnum, if b.busnum = 0 then 0 else 1, 0)

/-- The routine returns. It has added one bus hierarchy entry for each bus behind bridges and
one for the ISA bus, and one compatibility entry for each PCI bus. -/
def HierarchyComplete (mach : Machine) (l : List IntEntry) : Prop :=
  ∃ cs, mptableCalls mach l = some cs ∧
    (trees cs).Perm ((bridgedBuses mach.pciRoot).map (fun r => (r.1.busnum, 0, r.2)) ++
      [(UInt8.ofNat mach.pciRoot.size, 1, 0)]) ∧
    (compats cs).Perm (mach.pciRoot.tops.map (fun r => hostCompat r.1) ++
      (bridgedBuses mach.pciRoot).map fun r => (r.1.busnum, 1, 0))

/-! ### The calls as walks -/

theorem hierarchyCalls_descent (parent : UInt8) (t : Forest MpBus) :
    hierarchyCalls parent t = (t.withParent MpBus.busnum parent).descent.flatMap fun r =>
      [.busTree r.1.busnum 0 r.2, .busCompat r.1.busnum 1 0] := by
  induction t generalizing parent with
  | nil => rfl
  | node b kids peer hk hp =>
    rw [hierarchyCalls, Forest.withParent, Forest.descent, Forest.withParent_isNil,
      List.flatMap_cons]
    by_cases h : kids.isNil = true
    · rw [if_pos h, if_pos h, hp]
      rfl
    · rw [if_neg h, if_neg h, hk]
      rfl

theorem hostCalls_tops (t : Forest MpBus) :
    hostCalls t = t.tops.flatMap fun r =>
      [.sysAddrMap r.1.busnum 0 (r.1.base .io) (r.1.size .io),
        .sysAddrMap r.1.busnum 1 (r.1.base .mmio) (r.1.size .mmio),
        .sysAddrMap r.1.busnum 2 (r.1.base .pmmio) (r.1.size .pmmio),
        .busCompat r.1.busnum (if r.1.busnum = 0 then 0 else 1) 0] ++
      hierarchyCalls r.1.busnum r.2 := by
  induction t with
  | nil => rfl
  | node b kids peer _ hp =>
    rw [hostCalls, Forest.tops, List.flatMap_cons, hp, List.append_assoc]

/-- The buses the walk over the bridges meets. -/
def metBuses (t : Forest MpBus) : List (MpBus × UInt8) :=
  t.tops.flatMap fun r => (r.2.withParent MpBus.busnum r.1.busnum).descent

theorem trees_append (a b : List Call) : trees (a ++ b) = trees a ++ trees b :=
  List.filterMap_append

theorem compats_append (a b : List Call) : compats (a ++ b) = compats a ++ compats b :=
  List.filterMap_append

theorem trees_hierarchy (rs : List (MpBus × UInt8)) :
    trees (rs.flatMap fun r => [.busTree r.1.busnum 0 r.2, .busCompat r.1.busnum 1 0]) =
      rs.map fun r => (r.1.busnum, 0, r.2) := by
  induction rs with
  | nil => rfl
  | cons r rs ih => rw [List.flatMap_cons, trees_append, ih, List.map_cons]; rfl

theorem compats_hierarchy (rs : List (MpBus × UInt8)) :
    compats (rs.flatMap fun r => [.busTree r.1.busnum 0 r.2, .busCompat r.1.busnum 1 0]) =
      rs.map fun r => (r.1.busnum, 1, 0) := by
  induction rs with
  | nil => rfl
  | cons r rs ih => rw [List.flatMap_cons, compats_append, ih, List.map_cons]; rfl

theorem trees_hostCalls (t : Forest MpBus) :
    trees (hostCalls t) = (metBuses t).map fun r => (r.1.busnum, 0, r.2) := by
  rw [hostCalls_tops, metBuses]
  induction t.tops with
  | nil => rfl
  | cons r rs ih =>
    rw [List.flatMap_cons, List.flatMap_cons, trees_append, ih, List.map_append, trees_append,
      hierarchyCalls_descent, trees_hierarchy]
    rfl

theorem compats_hostCalls (t : Forest MpBus) :
    (compats (hostCalls t)).Perm (t.tops.map (fun r => hostCompat r.1) ++
      (metBuses t).map fun r => (r.1.busnum, 1, 0)) := by
  have h : compats (hostCalls t) = t.tops.flatMap fun r => hostCompat r.1 ::
      (r.2.withParent MpBus.busnum r.1.busnum).descent.map fun r => (r.1.busnum, 1, 0) := by
    rw [hostCalls_tops]
    induction t.tops with
    | nil => rfl
    | cons r rs ih =>
      rw [List.flatMap_cons, List.flatMap_cons, compats_append, ih, compats_append,
        hierarchyCalls_descent, compats_hierarchy]
      rfl
  rw [h, metBuses, List.map_flatMap]
  exact (List.map_append_flatMap_perm _ _ _).symm

/-- The base entries are no part of the hierarchy. -/
theorem trees_base {cs : List Call} (h : ∀ c, c ∈ cs → c.isExt = false) : trees cs = [] := by
  refine List.filterMap_eq_nil_iff.2 fun c hc => ?_
  cases c with
  | busTree => exact absurd (h _ hc) Bool.true_eq_false.mp
  | _ => rfl

theorem compats_base {cs : List Call} (h : ∀ c, c ∈ cs → c.isExt = false) : compats cs = [] := by
  refine List.filterMap_eq_nil_iff.2 fun c hc => ?_
  cases c with
  | busCompat => exact absurd (h _ hc) Bool.true_eq_false.mp
  | _ => rfl

theorem walkCalls_base (t : Forest MpBus) : ∀ c, c ∈ walkCalls t → c.isExt = false := by
  induction t with
  | nil => exact fun c hc => absurd hc List.not_mem_nil
  | node b kids peer hk hp =>
    intro c hc
    rcases List.mem_cons.1 hc with rfl | hc
    · rfl
    · exact (List.mem_append.1 hc).elim (hk c) (hp c)

theorem frontCalls_base (mach : Machine) (l : List IntEntry) :
    ∀ c, c ∈ frontCalls mach l ++ extraCalls (UInt8.ofNat (busCount mach)) l →
      c.isExt = false := by
  intro c hc
  simp only [frontCalls, extraCalls, busIntCalls, isaIrqCalls, List.mem_append, List.mem_map,
    List.mem_cons, List.not_mem_nil, or_false, List.mem_flatMap] at hc
  rcases hc with (((((⟨_, -, rfl⟩ | hc) | rfl | rfl | rfl) | ⟨_, -, _, -, rfl⟩) | rfl | rfl) |
    ⟨_, -, rfl⟩) | ⟨_, -, rfl⟩
  case inl.inl.inl.inl.inl.inr => exact walkCalls_base _ c hc
  all_goals rfl

/-- The hierarchy entries of the whole routine. -/
theorem hierarchy_buildCalls (mach : Machine) (l : List IntEntry) :
    trees (buildCalls mach l) =
      (metBuses (pciLookupBus mach 0)).map (fun r => (r.1.busnum, 0, r.2)) ++
        [(UInt8.ofNat (busCount mach), 1, 0)] ∧
      compats (buildCalls mach l) = compats (hostCalls (pciLookupBus mach 0)) := by
  have hbase := frontCalls_base mach l
  constructor
  · rw [buildCalls, trees_append, trees_base hbase, List.nil_append, backCalls, trees_append,
      trees_append, trees_hostCalls]
    rfl
  · rw [buildCalls, compats_append, compats_base hbase, List.nil_append, backCalls, compats_append,
      compats_append]
    exact List.append_nil _

/-- The walk meets as many buses as there are just where it meets all. -/
theorem metBuses_iff (t : Forest MpBus) :
    (metBuses t).length = (bridgedBuses t).length ↔ ∀ r, r ∈ t.tops → r.2.KidsLast := by
  rw [metBuses, bridgedBuses]
  induction t.tops with
  | nil => exact iff_of_true rfl fun r hr => absurd hr List.not_mem_nil
  | cons r rs ih =>
    have hle := (Forest.descent_sublist (r.2.withParent MpBus.busnum r.1.busnum)).length_le
    have hles : (rs.flatMap fun r => (r.2.withParent MpBus.busnum r.1.busnum).descent).length ≤
        (rs.flatMap fun r => (r.2.withParent MpBus.busnum r.1.busnum).toList).length := by
      rw [List.length_flatMap, List.length_flatMap]
      exact List.sum_le_sum fun r _ => (Forest.descent_sublist _).length_le
    rw [List.flatMap_cons, List.flatMap_cons, List.length_append, List.length_append,
      List.forall_mem_cons, ← ih, ← Forest.withParent_kidsLast MpBus.busnum r.1.busnum,
      ← Forest.descent_eq_iff]
    constructor
    · intro h
      exact ⟨(Forest.descent_sublist _).eq_of_length (by omega), by omega⟩
    · rintro ⟨h, hs⟩
      rw [h, hs]

theorem metBuses_eq {t : Forest MpBus} (h : ∀ r, r ∈ t.tops → r.2.KidsLast) :
    metBuses t = bridgedBuses t := by
  rw [metBuses, bridgedBuses]
  refine List.flatMap_congr fun r hr => ?_
  rw [Forest.descent_eq_iff, Forest.withParent_kidsLast]
  exact h r hr

/-- Where bus 0 heads the host buses, as `pci_init` numbers them: the hierarchy is complete on a
system that builds the tables, with at most 255 buses, just where no bus behind a bridge has
both kids and a later peer. -/
theorem hierarchy_complete_iff (hroot : pciLookupBus mach 0 = mach.pciRoot) :
    HierarchyComplete mach l ↔ mach.is3k = false ∧ mach.pciRoot.size ≤ 255 ∧
      ∀ r, r ∈ mach.pciRoot.tops → r.2.KidsLast := by
  have hcount : busCount mach = mach.pciRoot.size := by rw [busCount, hroot]
  obtain ⟨htrees, hcompats⟩ := hierarchy_buildCalls mach l
  rw [hroot, hcount] at htrees
  rw [hroot] at hcompats
  constructor
  · rintro ⟨cs, hcs, ht, -⟩
    by_cases h3 : mach.is3k = true
    · rw [mptableCalls, if_pos h3] at hcs
      obtain rfl := Option.some.inj hcs
      have hlen := ht.length_eq
      rw [List.length_append, List.length_singleton] at hlen
      exact absurd hlen (Nat.succ_ne_zero _).symm
    · rw [mptableCalls, if_neg h3] at hcs
      by_cases hn : 255 < busCount mach
      · rw [if_pos hn] at hcs
        cases hcs
      · rw [if_neg hn] at hcs
        obtain rfl := Option.some.inj hcs
        rw [htrees] at ht
        have hlen := ht.length_eq
        simp only [List.length_append, List.length_map, List.length_singleton] at hlen
        rw [hcount] at hn
        exact ⟨Bool.eq_false_iff.2 h3, Nat.le_of_not_lt hn,
          (metBuses_iff _).1 (Nat.add_right_cancel hlen)⟩
  · rintro ⟨h3, hn, hlast⟩
    refine ⟨buildCalls mach l, ?_, ?_, ?_⟩
    · rw [mptableCalls, if_neg (Bool.eq_false_iff.1 h3), hcount, if_neg (Nat.not_lt.2 hn)]
    · rw [htrees, metBuses_eq hlast]
    · rw [hcompats, ← metBuses_eq hlast]
      exact compats_hostCalls _

def plainBus (n : UInt8) : MpBus where
  busnum := n
  base := fun _ => 0
  size := fun _ => 0

/-- A host bus with two bridges, behind the first of which there is one more. -/
def forked : Machine where
  is3k := false
  cpus := []
  pciRoot := .node (plainBus 0)
    (.node (plainBus 1) (.node (plainBus 2) .nil .nil) (.node (plainBus 3) .nil .nil)) .nil
  io := ⟨fun _ => 0, fun _ => 0⟩

/-- Two host buses: behind the first two bridges, the second of them with one more behind it, and
one bridge behind the other. -/
def bridged : Machine := { forked with
  pciRoot := .node (plainBus 0)
    (.node (plainBus 1) .nil (.node (plainBus 2) (.node (plainBus 3) .nil .nil) .nil))
    (.node (plainBus 4) (.node (plainBus 5) .nil .nil) .nil) }

theorem hierarchy_complete_bridged : HierarchyComplete bridged [] := by
  refine (hierarchy_complete_iff rfl).2 ⟨rfl, by decide, fun r hr => ?_⟩
  rcases List.mem_cons.mp hr with rfl | hr
  · exact ⟨Or.inl rfl, trivial, ⟨Or.inr rfl, ⟨Or.inl rfl, trivial, trivial⟩, trivial⟩⟩
  · obtain rfl := List.mem_singleton.mp hr
    exact ⟨Or.inl rfl, trivial, trivial⟩

/-- Bus 3 has no entry: the walk has gone down to bus 2. -/
theorem forked_incomplete :
    pciLookupBus forked 0 = forked.pciRoot ∧ ¬ HierarchyComplete forked [] := by
  refine ⟨rfl, ?_⟩
  rintro ⟨cs, hcs, ht, -⟩
  obtain rfl := Option.some.inj hcs
  have := ht.length_eq
  revert this
  decide

end Mptable
