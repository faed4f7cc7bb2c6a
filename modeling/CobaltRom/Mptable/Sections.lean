import CobaltRom.Mptable.Table

/-! The two sections of the MP configuration table under any sequence of entry writers. -/
namespace Mptable

open ByteArea ByteBuf

/-- A call of one of the entry writers. -/
inductive Call
  | cpu (info : CpuInfo)
  | bus (id : UInt8) (type : Vector UInt8 6)
  | ioapic (num : Nat)
  | int (e : IntEntry)
  | sysAddrMap (bus type : UInt8) (base len : UInt32)
  | busTree (bus decode parent : UInt8)
  | busCompat (bus mod : UInt8) (range : UInt32)

def Call.run (io : Ioapic) : Call → Mp → Mp
  | .cpu info => mptableAddCPU info
  | .bus id type => mptableAddBUS id type
  | .ioapic num => mptableAddIOAPIC io num
  | .int e => mptableAddINT e
  | .sysAddrMap b type base len => mpextableAddSysAddrMap b type base len
  | .busTree b decode parent => mpextableAddBusTree b decode parent
  | .busCompat b mod range => mpextableAddBusCompat b mod range

def runCalls (io : Ioapic) (cs : List Call) (s : Mp) : Mp := cs.foldl (fun s c => c.run io s) s

/-- The bytes of the entry a call adds. -/
def Call.bytes (io : Ioapic) : Call → List UInt8
  | .cpu info => cpuBytes info
  | .bus id type => busBytes id type
  | .ioapic num => ioapicBytes io num
  | .int e => e.bytes
  | .sysAddrMap b type base len => sysAddrMapBytes b type base len
  | .busTree b decode parent => busTreeBytes b decode parent
  | .busCompat b mod range => busCompatBytes b mod range

def Call.isExt : Call → Bool
  | .cpu _ | .bus _ _ | .ioapic _ | .int _ => false
  | .sysAddrMap _ _ _ _ | .busTree _ _ _ | .busCompat _ _ _ => true

/-- The base entries that are written without moving the extended ones. -/
def Call.overwrites : Call → Bool
  | .bus _ _ | .ioapic _ | .int _ => true
  | .cpu _ | .sysAddrMap _ _ _ _ | .busTree _ _ _ | .busCompat _ _ _ => false

def baseEntries (io : Ioapic) (cs : List Call) : List (List UInt8) :=
  (cs.filter fun c => !c.isExt).map (Call.bytes io)

def extEntries (io : Ioapic) (cs : List Call) : List (List UInt8) :=
  (cs.filter Call.isExt).map (Call.bytes io)

/-- Header and entries. -/
def totalSize (io : Ioapic) (cs : List Call) : Nat :=
  cfheaderSize + (baseEntries io cs).flatten.length + (extEntries io cs).flatten.length

/-- Walk `count` base entries from `o`: 20 bytes for a processor, else 8. -/
def walkBase (m : Area) : Nat → Nat → List (List UInt8) × Nat
  | 0, o => ([], o)
  | count + 1, o =>
    let size := if m o = 0 then 20 else 8
    let r := walkBase m count (o + size)
    (read m o size :: r.1, r.2)

/-- Walk `rest` bytes of extended entries from `o` by their length fields. -/
def walkExt (m : Area) : Nat → Nat → Nat → Option (List (List UInt8))
  | 0, _, rest => if rest = 0 then some [] else none
  | fuel + 1, o, rest =>
    if rest = 0 then some []
    else
      let n := (m (o + 1)).toNat
      if n = 0 ∨ rest < n then none
      else (walkExt m fuel (o + n) (rest - n)).map (read m o n :: ·)

/-- Both walks give exactly the entries added, and the first ends at the table's length. -/
def Intact (io : Ioapic) (cs : List Call) (s : Mp) : Prop :=
  let w := walkBase s.area s.mptable.count.toNat 0
  w.1 = baseEntries io cs ∧ cfheaderSize + w.2 = s.mptable.length.toNat ∧
    walkExt s.area s.mptable.extLength.toNat w.2 s.mptable.extLength.toNat =
      some (extEntries io cs)

/-- No bus, I/O APIC or interrupt entry is added after an extended one. -/
def Ordered (cs : List Call) : Prop :=
  cs.Pairwise fun d c => d.isExt = true → c.overwrites = false

/-- A table just set up, with saving enabled. -/
def startTable (prodId : Vector UInt8 12) (lapicBase : UInt32) (s : Mp) : Mp :=
  { mptableInit prodId lapicBase s with saveFlag := true }

variable {io : Ioapic} {cs : List Call} {c : Call} {s : Mp} {m : Area} {o n : Nat}

theorem runCalls_snoc (cs : List Call) (c : Call) (s : Mp) :
    runCalls io (cs ++ [c]) s = c.run io (runCalls io cs s) := by
  simp [runCalls]

theorem baseEntries_snoc (cs : List Call) (c : Call) :
    baseEntries io (cs ++ [c]) = baseEntries io cs ++ if c.isExt then [] else [c.bytes io] := by
  cases h : c.isExt <;> simp [baseEntries, h]

theorem extEntries_snoc (cs : List Call) (c : Call) :
    extEntries io (cs ++ [c]) = extEntries io cs ++ if c.isExt then [c.bytes io] else [] := by
  cases h : c.isExt <;> simp [extEntries, h]

theorem leBytes_length (k v : Nat) : (leBytes k v).length = k := by
  induction k generalizing v with
  | zero => rfl
  | succ k ih => simp [leBytes, ih]

/-- A base entry's first byte tells its size. -/
theorem bytes_base (io : Ioapic) (h : c.isExt = false) :
    ∃ x xs, c.bytes io = x :: xs ∧ (c.bytes io).length = if x = 0 then 20 else 8 := by
  cases c with
  | cpu info => exact ⟨_, _, rfl, by simp [Call.bytes, cpuBytes, leBytes]⟩
  | bus id type => exact ⟨_, _, rfl, by simp [Call.bytes, busBytes]⟩
  | ioapic num => exact ⟨_, _, rfl, by simp [Call.bytes, ioapicBytes, leBytes]⟩
  | int e =>
    refine ⟨_, _, rfl, ?_⟩
    cases h : e.entry <;> simp [Call.bytes, IntEntry.bytes, leBytes, IntKind.code]
  | _ => cases h

/-- An extended entry starts with a byte that is not 0 and then its length. -/
theorem bytes_ext (io : Ioapic) (h : c.isExt = true) :
    ∃ x y xs, c.bytes io = x :: y :: xs ∧ x ≠ 0 ∧ (c.bytes io).length = y.toNat ∧
      8 ≤ y.toNat := by
  cases c with
  | sysAddrMap bus type base len =>
    exact ⟨_, _, _, rfl, by decide, by simp [Call.bytes, sysAddrMapBytes, leBytes], by decide⟩
  | busTree bus decode parent =>
    exact ⟨_, _, _, rfl, by decide, by simp [Call.bytes, busTreeBytes], by decide⟩
  | busCompat bus mod range =>
    exact ⟨_, _, _, rfl, by decide, by simp [Call.bytes, busCompatBytes, leBytes], by decide⟩
  | _ => cases h

theorem overwrites_length (io : Ioapic) (h : c.overwrites = true) : (c.bytes io).length = 8 := by
  cases c with
  | bus id type => simp [Call.bytes, busBytes]
  | ioapic num => simp [Call.bytes, ioapicBytes, leBytes]
  | int e => simp [Call.bytes, IntEntry.bytes, leBytes]
  | _ => cases h

theorem walkBase_flatten (es : List (List UInt8))
    (hes : ∀ e, e ∈ es → ∃ x xs, e = x :: xs ∧ e.length = if x = 0 then 20 else 8)
    (h : read m o es.flatten.length = es.flatten) :
    walkBase m es.length o = (es, o + es.flatten.length) := by
  induction es generalizing o with
  | nil => rfl
  | cons e es ih =>
    obtain ⟨x, xs, he, hlen⟩ := hes e (by simp)
    rw [List.flatten_cons, List.length_append, read_add] at h
    obtain ⟨h₁, h₂⟩ := List.append_inj h (by simp)
    have hx : m o = x := by
      rw [he, List.length_cons, read_succ] at h₁
      exact (List.cons.inj h₁).1
    have ih := ih (fun e he => hes e (by simp [he])) h₂
    rw [List.length_cons, walkBase]
    simp only [hx, ← hlen, ih, h₁, List.flatten_cons, List.length_append, Nat.add_assoc]

theorem walkExt_flatten (es : List (List UInt8)) (fuel : Nat)
    (hes : ∀ e, e ∈ es → ∃ x y xs, e = x :: y :: xs ∧ e.length = y.toNat ∧ 8 ≤ y.toNat)
    (hfuel : es.flatten.length ≤ fuel)
    (h : read m o es.flatten.length = es.flatten) :
    walkExt m fuel o es.flatten.length = some es := by
  induction es generalizing o fuel with
  | nil => cases fuel <;> simp [walkExt]
  | cons e es ih =>
    obtain ⟨x, y, xs, he, hlen, hy⟩ := hes e (by simp)
    rw [List.flatten_cons, List.length_append] at hfuel h ⊢
    rw [read_add] at h
    obtain ⟨h₁, h₂⟩ := List.append_inj h (by simp)
    obtain ⟨k, rfl⟩ : ∃ k, fuel = k + 1 := ⟨fuel - 1, by omega⟩
    have hm : m (o + 1) = y := by
      rw [he, List.length_cons, List.length_cons, read_succ, read_succ] at h₁
      exact (List.cons.inj (List.cons.inj h₁).2).1
    have ih := ih k (fun e he => hes e (by simp [he])) (by omega) h₂
    rw [walkExt, if_neg (by omega)]
    simp only [hm, ← hlen]
    rw [if_neg (by omega), Nat.add_sub_cancel_left, ih, h₁, Option.map_some]

/-- Whatever a walk of the extended section finds, it is all of its bytes. -/
theorem walkExt_bytes (fuel : Nat) {es : List (List UInt8)} (h : walkExt m fuel o n = some es) :
    es.flatten = read m o n := by
  induction fuel generalizing o n es with
  | zero =>
    by_cases hn : n = 0
    · simp [walkExt, hn] at h
      simp [h, hn]
    · simp [walkExt, hn] at h
  | succ fuel ih =>
    rw [walkExt] at h
    by_cases hn : n = 0
    · simp [hn] at h
      simp [h, hn]
    · rw [if_neg hn] at h
      by_cases hk : (m (o + 1)).toNat = 0 ∨ n < (m (o + 1)).toNat
      · simp only [if_pos hk] at h
        cases h
      · simp only [if_neg hk, Option.map_eq_some_iff] at h
        obtain ⟨es', hes', rfl⟩ := h
        have hsplit : n = (m (o + 1)).toNat + (n - (m (o + 1)).toNat) := by omega
        rw [List.flatten_cons, ih hes']
        conv_rhs => rw [hsplit, read_add]

/-- The three ways an entry is added. -/
theorem Call.cases (c : Call) :
    (∃ info, c = .cpu info) ∨ c.overwrites = true ∨ c.isExt = true := by
  cases c <;> simp [Call.overwrites, Call.isExt]

theorem run_overwrites (io : Ioapic) (h : c.overwrites = true) (s : Mp) :
    c.run io s = addEntry (c.bytes io) s ∧ c.isExt = false := by
  cases c with
  | bus _ _ => exact ⟨rfl, rfl⟩
  | ioapic _ => exact ⟨rfl, rfl⟩
  | int _ => exact ⟨rfl, rfl⟩
  | _ => cases h

theorem run_ext (io : Ioapic) (h : c.isExt = true) (s : Mp) :
    c.run io s = addExtEntry (c.bytes io) s ∧ c.overwrites = false := by
  cases c with
  | sysAddrMap _ _ _ _ => exact ⟨rfl, rfl⟩
  | busTree _ _ _ => exact ⟨rfl, rfl⟩
  | busCompat _ _ _ => exact ⟨rfl, rfl⟩
  | _ => cases h

theorem toNat_add_ofNat {a : UInt16} {n : Nat} (h : a.toNat + n < 65536) :
    (a + UInt16.ofNat n).toNat = a.toNat + n := by
  rw [UInt16.toNat_add, UInt16.toNat_ofNat']
  omega

/-- The base section holds the base entries added, and the header counts both sections. -/
structure BaseSection (io : Ioapic) (cs : List Call) (s : Mp) : Prop where
  save : s.saveFlag = true
  mpe : s.mpe = (baseEntries io cs).flatten.length
  bytes : read s.area 0 s.mpe = (baseEntries io cs).flatten
  length : s.mptable.length.toNat = cfheaderSize + s.mpe
  count : s.mptable.count.toNat = (baseEntries io cs).length
  extLength : s.mptable.extLength.toNat = (extEntries io cs).flatten.length

/-- The bytes that stand in the extended section. -/
def extContent (s : Mp) : List UInt8 := read s.area s.mpe s.mptable.extLength.toNat

theorem baseSection_start (io : Ioapic) (prodId : Vector UInt8 12) (lapicBase : UInt32) (s : Mp) :
    BaseSection io [] (startTable prodId lapicBase s) :=
  ⟨rfl, rfl, rfl, rfl, rfl, rfl⟩

/-- Base entries have at least 8 bytes, so the entry count does not overflow. -/
theorem baseEntries_length_le (io : Ioapic) (cs : List Call) :
    8 * (baseEntries io cs).length ≤ (baseEntries io cs).flatten.length := by
  have h : ∀ e, e ∈ baseEntries io cs → 8 ≤ e.length := by
    intro e he
    simp only [baseEntries, List.mem_map, List.mem_filter] at he
    obtain ⟨c, ⟨-, hc⟩, rfl⟩ := he
    obtain ⟨x, xs, -, hlen⟩ := bytes_base io (by simpa using hc)
    rw [hlen]
    split <;> omega
  generalize baseEntries io cs = es at h
  induction es with
  | nil => simp
  | cons e es ih =>
    have h₁ := h e (by simp)
    have h₂ := ih fun e he => h e (by simp [he])
    simp only [List.length_cons, List.flatten_cons, List.length_append]
    omega

/-- Adding a base entry over or before the extended ones: what both ways have in common. -/
theorem BaseSection.base_step (h : BaseSection io cs s) (hc : c.isExt = false) {m : Area}
    (hm : ∀ i, i < s.mpe → m i = s.area i)
    (hsz : totalSize io (cs ++ [c]) < 65536) :
    BaseSection io (cs ++ [c])
      (bumpBase (c.bytes io).length { s with area := write m s.mpe (c.bytes io) }) := by
  have hbase : baseEntries io (cs ++ [c]) = baseEntries io cs ++ [c.bytes io] := by
    rw [baseEntries_snoc, hc]
    rfl
  have hext : extEntries io (cs ++ [c]) = extEntries io cs := by
    rw [extEntries_snoc, hc]
    simp
  have hcount := baseEntries_length_le io (cs ++ [c])
  simp only [totalSize, hbase, hext, List.flatten_append, List.length_append, List.flatten_cons,
    List.flatten_nil, List.append_nil, List.length_cons, List.length_nil, cfheaderSize,
    ← h.mpe] at hsz hcount
  refine ⟨h.save, ?_, ?_, ?_, ?_, ?_⟩
  · simp [bumpBase, hbase, h.mpe]
  · have hold : read (write m s.mpe (c.bytes io)) 0 s.mpe = (baseEntries io cs).flatten := by
      rw [read_write_disjoint (Or.inl (by omega)), ← h.bytes]
      apply read_congr
      intro i hi
      rw [Nat.zero_add]
      exact hm i hi
    simp only [bumpBase]
    rw [read_add, hold, Nat.zero_add, read_write_self, hbase]
    simp
  · simp only [bumpBase]
    rw [toNat_add_ofNat (by rw [h.length]; simp only [cfheaderSize]; omega), h.length]
    omega
  · simp only [bumpBase, hbase, List.length_append, List.length_cons, List.length_nil]
    rw [show (1 : UInt16) = UInt16.ofNat 1 from rfl, toNat_add_ofNat (by rw [h.count]; omega),
      h.count]
  · simp only [bumpBase, hext, h.extLength]

theorem mptableAddCPU_eq (info : CpuInfo) (h : s.saveFlag = true) :
    mptableAddCPU info s = bumpBase 20
      { s with
        area := write (write s.area (s.mpe + 20) (extContent s)) s.mpe (cpuBytes info) } := by
  rw [mptableAddCPU, if_pos h]
  by_cases hn : 0 < s.mptable.extLength.toNat
  · simp only [if_pos hn, extContent]
  · have h0 : s.mptable.extLength.toNat = 0 := by omega
    simp only [extContent, h0, read_nil, write_nil, Nat.lt_irrefl, if_false]

theorem cpuBytes_length (info : CpuInfo) : (cpuBytes info).length = 20 := by
  simp [cpuBytes, leBytes]

theorem totalSize_snoc_le (io : Ioapic) (cs : List Call) (c : Call) :
    totalSize io cs ≤ totalSize io (cs ++ [c]) := by
  simp only [totalSize, baseEntries_snoc, extEntries_snoc, List.flatten_append, List.length_append]
  omega

/-- One call: the base section grows by its entry, and what becomes of the extended section. -/
theorem BaseSection.step (h : BaseSection io cs s) (hsz : totalSize io (cs ++ [c]) < 65536) :
    BaseSection io (cs ++ [c]) (c.run io s) ∧
      extContent (c.run io s) =
        (if c.overwrites then read s.area (s.mpe + 8) s.mptable.extLength.toNat
         else extContent s ++ if c.isExt then c.bytes io else []) ∧
      ∀ i, (c.run io s).mpe + (c.run io s).mptable.extLength.toNat ≤ i →
        (c.run io s).area i = s.area i := by
  rcases c.cases with ⟨info, rfl⟩ | hc | hc
  · have hstep := h.base_step (c := .cpu info) rfl
      (m := write s.area (s.mpe + 20) (extContent s)) (fun i hi => write_of_lt (by omega)) hsz
    have hrun : (Call.cpu info).run io s = _ := mptableAddCPU_eq info h.save
    have hlen : ((Call.cpu info).bytes io).length = 20 := cpuBytes_length info
    have hxlen : (extContent s).length = s.mptable.extLength.toNat := read_length ..
    rw [hlen] at hstep
    rw [hrun]
    refine ⟨hstep, ?_, ?_⟩
    · simp only [extContent, bumpBase, Call.overwrites, Call.isExt, Bool.false_eq_true, if_false,
        List.append_nil]
      rw [read_write_disjoint (Or.inr (by rw [cpuBytes_length]))]
      have hself := read_write_self s.area (s.mpe + 20) (extContent s)
      rw [hxlen] at hself
      exact hself
    · intro i hi
      simp only [bumpBase] at hi ⊢
      rw [write_of_ge (by rw [cpuBytes_length]; omega), write_of_ge (by rw [hxlen]; omega)]
  · obtain ⟨hrun, hext⟩ := run_overwrites io hc s
    have hstep := h.base_step hext (m := s.area) (fun _ _ => rfl) hsz
    have hlen := overwrites_length io hc
    have hadd : addEntry (c.bytes io) s =
        bumpBase (c.bytes io).length { s with area := write s.area s.mpe (c.bytes io) } := by
      rw [addEntry, if_pos h.save]
    rw [hrun, hadd]
    refine ⟨hstep, ?_, ?_⟩
    · simp only [extContent, bumpBase, hc, if_true, hlen]
      rw [read_write_disjoint (Or.inr (by omega))]
    · intro i hi
      simp only [bumpBase] at hi ⊢
      exact write_of_ge (by omega)
  · obtain ⟨hrun, hover⟩ := run_ext io hc s
    have hbase : baseEntries io (cs ++ [c]) = baseEntries io cs := by
      rw [baseEntries_snoc, hc]
      simp
    have hext : extEntries io (cs ++ [c]) = extEntries io cs ++ [c.bytes io] := by
      rw [extEntries_snoc, hc]
      rfl
    simp only [totalSize, hbase, hext, List.flatten_append, List.length_append, List.flatten_cons,
      List.flatten_nil, List.append_nil, cfheaderSize, ← h.extLength] at hsz
    have hlen : (s.mptable.extLength + UInt16.ofNat (c.bytes io).length).toNat =
        s.mptable.extLength.toNat + (c.bytes io).length := toNat_add_ofNat (by omega)
    have hadd : addExtEntry (c.bytes io) s =
        { s with
          area := write s.area (s.mpe + s.mptable.extLength.toNat) (c.bytes io)
          mptable := { s.mptable with
            extLength := s.mptable.extLength + UInt16.ofNat (c.bytes io).length } } := by
      rw [addExtEntry, if_pos h.save]
    rw [hrun, hadd]
    refine ⟨⟨h.save, by rw [hbase]; exact h.mpe, ?_, h.length, by rw [hbase]; exact h.count, ?_⟩,
      ?_, ?_⟩
    · rw [hbase, ← h.bytes]
      exact read_write_disjoint (Or.inl (by simp))
    · simp only [hlen, hext, h.extLength, List.flatten_append, List.length_append,
        List.flatten_cons, List.flatten_nil, List.append_nil]
    · simp only [extContent, hlen, hover, hc, Bool.false_eq_true, if_false, if_true]
      rw [read_add, read_write_self, read_write_disjoint (Or.inl (by omega))]
    · intro i hi
      simp only [hlen] at hi ⊢
      exact write_of_ge (by omega)

/-- The base section is intact after every sequence of calls. -/
theorem baseSection_run (cs : List Call) (h : BaseSection io [] s)
    (hsz : totalSize io cs < 65536) : BaseSection io cs (runCalls io cs s) := by
  induction cs using List.reverseRecOn with
  | nil => exact h
  | append_singleton cs c ih =>
    have hle := totalSize_snoc_le io cs c
    rw [runCalls_snoc]
    exact ((ih (by omega)).step hsz).1

theorem ordered_snoc (io : Ioapic) (cs : List Call) (c : Call) :
    Ordered (cs ++ [c]) ↔
      Ordered cs ∧ (c.overwrites = true → extEntries io cs = []) := by
  simp only [Ordered, List.pairwise_append, List.pairwise_cons, List.not_mem_nil, false_imp_iff,
    implies_true, List.Pairwise.nil, and_true, List.mem_singleton, forall_eq, true_and, extEntries,
    List.map_eq_nil_iff, List.filter_eq_nil_iff]
  constructor
  · rintro ⟨h₁, h₂⟩
    refine ⟨h₁, fun hc d hd hx => ?_⟩
    have := h₂ d hd hx
    rw [hc] at this
    cases this
  · rintro ⟨h₁, h₂⟩
    refine ⟨h₁, fun d hd hx => ?_⟩
    by_contra hc
    exact h₂ (by simpa using hc) d hd hx

/-- In an ordered run the extended section holds the extended entries. -/
theorem extContent_ordered (cs : List Call) (h : BaseSection io [] s)
    (hsz : totalSize io cs < 65536) (hord : Ordered cs) :
    extContent (runCalls io cs s) = (extEntries io cs).flatten := by
  induction cs using List.reverseRecOn with
  | nil =>
    have h0 : s.mptable.extLength.toNat = 0 := h.extLength
    simp [extContent, runCalls, h0, extEntries]
  | append_singleton cs c ih =>
    have hle := totalSize_snoc_le io cs c
    obtain ⟨hord', hempty⟩ := (ordered_snoc io cs c).mp hord
    have hbase := baseSection_run cs h (by omega)
    have hcont := (hbase.step hsz).2.1
    rw [runCalls_snoc, hcont]
    by_cases hc : c.overwrites = true
    · have h0 : (runCalls io cs s).mptable.extLength.toNat = 0 := by
        rw [hbase.extLength, hempty hc]
        rfl
      rw [if_pos hc, h0, extEntries_snoc, hempty hc, (run_overwrites io hc s).2]
      rfl
    · rw [if_neg hc, ih (by omega) hord', extEntries_snoc]
      cases c.isExt <;> simp

/-- The bytes other than 0, which an overwritten extended section loses for good. -/
def nonzero (l : List UInt8) : Nat := l.countP fun b => b != 0

theorem nonzero_append (a b : List UInt8) : nonzero (a ++ b) = nonzero a + nonzero b :=
  List.countP_append

theorem nonzero_cons_pos {x : UInt8} {l : List UInt8} (h : x ≠ 0) : 0 < nonzero (x :: l) := by
  rw [nonzero, List.countP_cons_of_pos (by simpa using h)]
  omega

theorem baseSection_end (h : BaseSection io cs s) :
    cfheaderSize + (s.mpe + s.mptable.extLength.toNat) = totalSize io cs := by
  rw [totalSize, h.mpe, h.extLength, Nat.add_assoc]

theorem extEntries_head (h : extEntries io cs ≠ []) :
    ∃ x l, x ≠ 0 ∧ (extEntries io cs).flatten = x :: l := by
  obtain ⟨e, es, he⟩ := List.exists_cons_of_ne_nil h
  have hmem : e ∈ extEntries io cs := by simp [he]
  simp only [extEntries, List.mem_map, List.mem_filter] at hmem
  obtain ⟨c, ⟨-, hc⟩, rfl⟩ := hmem
  obtain ⟨x, y, xs, hb, hx, -⟩ := bytes_ext io hc
  exact ⟨x, y :: xs ++ es.flatten, hx, by rw [he, List.flatten_cons, hb]; rfl⟩

/-- Over memory full of zeros, an entry that overwrites the extended section leaves fewer bytes
other than 0 in it than its entries have, and no later call makes up for that. -/
theorem nonzero_run (cs : List Call) (h : BaseSection io [] s) (hz : ∀ i, s.area i = 0)
    (hsz : totalSize io cs < 65536) :
    (∀ i, (runCalls io cs s).mpe + (runCalls io cs s).mptable.extLength.toNat ≤ i →
      (runCalls io cs s).area i = 0) ∧
    nonzero (extContent (runCalls io cs s)) ≤ nonzero (extEntries io cs).flatten ∧
    (¬Ordered cs →
      nonzero (extContent (runCalls io cs s)) < nonzero (extEntries io cs).flatten) := by
  induction cs using List.reverseRecOn with
  | nil =>
    have h0 : s.mptable.extLength.toNat = 0 := h.extLength
    refine ⟨fun i _ => hz i, by simp [extContent, runCalls, h0, extEntries], fun hn => ?_⟩
    exact absurd List.Pairwise.nil hn
  | append_singleton cs c ih =>
    have hle := totalSize_snoc_le io cs c
    obtain ⟨htail, hnz, hlt⟩ := ih (by omega)
    have hbase := baseSection_run cs h (by omega)
    obtain ⟨hbase', hcont, hfar⟩ := hbase.step hsz
    have hend := baseSection_end hbase
    have hend' := baseSection_end hbase'
    rw [runCalls_snoc]
    refine ⟨fun i hi => ?_, ?_⟩
    · rw [hfar i hi]
      exact htail i (by omega)
    · have hord := ordered_snoc io cs c
      have hsame := extContent_ordered (s := s) cs h (by omega)
      generalize runCalls io cs s = t at *
      by_cases hc : c.overwrites = true
      · have hext : extEntries io (cs ++ [c]) = extEntries io cs := by
          rw [extEntries_snoc, (run_overwrites io hc t).2]
          simp
        -- the section slides down by 8 bytes and zeros come in at its end
        have hslide : nonzero (extContent t) =
            nonzero (read t.area t.mpe 8) + nonzero (extContent (c.run io t)) := by
          have h₁ := read_add t.area t.mpe t.mptable.extLength.toNat 8
          have h₂ := read_add t.area t.mpe 8 t.mptable.extLength.toNat
          rw [Nat.add_comm, h₂, read_zero htail] at h₁
          have h₃ := congrArg nonzero h₁
          rw [nonzero_append, nonzero_append] at h₃
          rw [hcont, if_pos hc]
          simpa [nonzero, extContent] using h₃.symm
        rw [hext]
        refine ⟨by omega, fun hn => ?_⟩
        by_cases hcs : Ordered cs
        · have hne : extEntries io cs ≠ [] := fun he => hn (hord.mpr ⟨hcs, fun _ => he⟩)
          have hpos : 0 < nonzero (read t.area t.mpe 8) := by
            obtain ⟨x, l, hx, hfl⟩ := extEntries_head hne
            have hc := hsame hcs
            rw [hfl, extContent] at hc
            have hlen : t.mptable.extLength.toNat = l.length + 1 := by
              rw [hbase.extLength, hfl, List.length_cons]
            rw [hlen, read_succ] at hc
            rw [read_succ, (List.cons.inj hc).1]
            exact nonzero_cons_pos hx
          have := congrArg nonzero (hsame hcs)
          omega
        · have := hlt hcs
          omega
      · rw [hcont, if_neg hc, extEntries_snoc, nonzero_append]
        have hflat : nonzero (extEntries io cs ++ if c.isExt then [c.bytes io] else []).flatten =
            nonzero (extEntries io cs).flatten + nonzero (if c.isExt then c.bytes io else []) := by
          rw [List.flatten_append, nonzero_append]
          cases c.isExt <;> simp
        rw [hflat]
        refine ⟨by omega, fun hn => ?_⟩
        have := hlt fun ho => hn (hord.mpr ⟨ho, fun h => absurd h hc⟩)
        omega

/-- Where the extended section holds its entries, both walks succeed. -/
theorem BaseSection.intact (h : BaseSection io cs s)
    (hext : extContent s = (extEntries io cs).flatten) : Intact io cs s := by
  have hwalk : walkBase s.area s.mptable.count.toNat 0 = (baseEntries io cs, s.mpe) := by
    rw [h.count, walkBase_flatten (baseEntries io cs) ?_ (by rw [← h.mpe]; exact h.bytes),
      Nat.zero_add, ← h.mpe]
    intro e he
    simp only [baseEntries, List.mem_map, List.mem_filter] at he
    obtain ⟨c, ⟨-, hc⟩, rfl⟩ := he
    exact bytes_base _ (by simpa using hc)
  rw [Intact, hwalk]
  refine ⟨rfl, h.length.symm, ?_⟩
  rw [h.extLength]
  apply walkExt_flatten _ _ ?_ le_rfl
  · rw [extContent, h.extLength] at hext
    exact hext
  · intro e he
    simp only [extEntries, List.mem_map, List.mem_filter] at he
    obtain ⟨c, ⟨-, hc⟩, rfl⟩ := he
    obtain ⟨x, y, xs, hb, -, hlen⟩ := bytes_ext io hc
    exact ⟨x, y, xs, hb, hlen⟩

theorem Intact.content (h : BaseSection io cs s) (hi : Intact io cs s) :
    extContent s = (extEntries io cs).flatten := by
  obtain ⟨-, hlen, hw⟩ := hi
  have hend : (walkBase s.area s.mptable.count.toNat 0).2 = s.mpe := by
    have := h.length
    omega
  rw [hend] at hw
  exact (walkExt_bytes _ hw).symm

/-- The globals at start-up, over memory full of zeros. -/
def blankMp : Mp where
  mpptr := { address := 0, length := 0, version := 0, checksum := 0 }
  mptable := { length := 0, version := 0, checksum := 0, product := Vector.replicate 12 0,
               count := 0, apic := 0, extLength := 0, extChecksum := 0 }
  area := fun _ => 0
  mpe := 0
  mpINTList := []
  detached := false
  isaBusid := 0
  saveFlag := false

/-- Whatever the memory holds before, a sequence of calls keeps both sections exactly when no bus,
I/O APIC or interrupt entry is added after an extended one. -/
theorem sections_intact_iff (io : Ioapic) (prodId : Vector UInt8 12) (lapicBase : UInt32)
    (cs : List Call) (hsz : totalSize io cs < 65536) :
    (∀ s, Intact io cs (runCalls io cs (startTable prodId lapicBase s))) ↔ Ordered cs := by
  constructor
  · intro h
    by_contra hn
    have hstart := baseSection_start io prodId lapicBase blankMp
    have hlt := (nonzero_run cs hstart (fun _ => rfl) hsz).2.2 hn
    have heq := (h blankMp).content (baseSection_run cs hstart hsz)
    rw [heq] at hlt
    omega
  · intro hord s
    have hstart := baseSection_start io prodId lapicBase s
    exact (baseSection_run cs hstart hsz).intact (extContent_ordered cs hstart hsz hord)

/-- A bus entry and then an extended one. -/
theorem sections_intact_iff_small :
    totalSize ⟨fun _ => 0, fun _ => 0⟩ [.bus 0 mptableBusPci, .busTree 1 1 0] < 65536 ∧
      ∀ s, Intact ⟨fun _ => 0, fun _ => 0⟩ [.bus 0 mptableBusPci, .busTree 1 1 0]
        (runCalls ⟨fun _ => 0, fun _ => 0⟩ [.bus 0 mptableBusPci, .busTree 1 1 0]
          (startTable (Vector.replicate 12 0) 0 s)) := by
  have hsz : totalSize ⟨fun _ => 0, fun _ => 0⟩ [.bus 0 mptableBusPci, .busTree 1 1 0] < 65536 := by
    decide
  refine ⟨hsz, (sections_intact_iff _ _ _ _ hsz).mpr ?_⟩
  simp [Ordered, Call.isExt, Call.overwrites]

/-- A bus entry added after a bus hierarchy entry takes its place, and the walk of the extended
section finds memory nobody has written. -/
theorem bus_after_busTree_lost :
    totalSize ⟨fun _ => 0, fun _ => 0⟩ [.busTree 1 1 0, .bus 0 mptableBusPci] < 65536 ∧
      ¬Intact ⟨fun _ => 0, fun _ => 0⟩ [.busTree 1 1 0, .bus 0 mptableBusPci]
        (runCalls ⟨fun _ => 0, fun _ => 0⟩ [.busTree 1 1 0, .bus 0 mptableBusPci]
          (startTable (Vector.replicate 12 0) 0 blankMp)) := by
  refine ⟨by decide, fun h => ?_⟩
  obtain ⟨-, -, hw⟩ := h
  revert hw
  decide

end Mptable
