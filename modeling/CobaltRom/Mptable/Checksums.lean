import CobaltRom.Lib.ByteSum
import CobaltRom.Mptable.Dump

/-! The three checksums when `mptable_checksum` is called again and again. -/
namespace Mptable
open ByteArea ByteBuf ByteSum

/-- The `length` bytes of a base table with header `h`. -/
def baseBytes (h : CfHeader) (m : Area) : List UInt8 :=
  (h.bytes ++ read m 0 (h.length.toNat - cfheaderSize)).take h.length.toNat

/-- All three areas sum to 0. -/
structure ChecksumsRight (s : Mp) : Prop where
  flpointer : SumsToZero s.mpptr.bytes
  base : SumsToZero (baseBytes s.mptable s.area)
  ext : SumsToZero (s.mptable.extChecksum :: read s.area s.mpe s.mptable.extLength.toNat)

/-- The bytes of the header before its checksum, and those behind it. -/
def headerFront (h : CfHeader) : List UInt8 :=
  cfheaderSig ++ leBytes 2 h.length.toNat ++ [h.version]
def headerTail (h : CfHeader) : List UInt8 :=
  mpOemId ++ h.product.toList ++ leBytes 4 0 ++ leBytes 2 0 ++ leBytes 2 h.count.toNat ++
    leBytes 4 h.apic.toNat ++ leBytes 2 h.extLength.toNat ++ [h.extChecksum, 0]

/-- The base table reaches past its checksum, or what it has of its header sums to 0. -/
def Covers (h : CfHeader) : Prop :=
  8 ≤ h.length.toNat ∨ SumsToZero ((headerFront h).take h.length.toNat)

/-- The length of the base table after some calls. -/
def lengthAfter (io : Ioapic) (cs : List Call) (length : UInt16) : UInt16 :=
  (baseEntries io cs).foldl (fun n e => n + UInt16.ofNat e.length) length

/-- Calls that add entries, followed by `mptable_checksum`, a number of times. -/
def checksumRounds (io : Ioapic) : List (List Call) → Mp → Mp
  | [], s => s
  | cs :: rounds, s => checksumRounds io rounds (mptableChecksum (runCalls io cs s))

variable {io : Ioapic} {s : Mp} {c : Call} {cs : List Call}

theorem negSum_eq (l : List UInt8) : negSum l = subAll 0 l := rfl

/-! ### One call -/

theorem flpointer_total (p : FlPointer) (c : UInt8) :
    total { p with checksum := c }.bytes = total { p with checksum := 0 }.bytes + c.toNat := by
  simp only [FlPointer.bytes, total_append, total_cons, total_nil, UInt8.toNat_zero]
  omega

/-- The checksum makes up for all bytes, the old checksum among them. -/
theorem flpointer_zero_iff (p : FlPointer) :
    SumsToZero { p with checksum := negSum p.bytes }.bytes ↔ p.checksum = 0 := by
  have hsum := total_subAll p.bytes 0
  have hnew := flpointer_total p (negSum p.bytes)
  have hold := flpointer_total p p.checksum
  have hlt := p.checksum.toNat_lt
  have hneg := (subAll 0 p.bytes).toNat_lt
  rw [UInt8.toNat_zero] at hsum
  rw [negSum_eq] at hnew ⊢
  change total p.bytes = _ at hold
  rw [SumsToZero, hnew, ← UInt8.toNat_inj, UInt8.toNat_zero]
  omega

theorem headerBytes_split (h : CfHeader) :
    h.bytes = headerFront h ++ h.checksum :: headerTail h := by
  simp only [CfHeader.bytes, headerFront, headerTail, List.append_assoc, List.cons_append,
    List.nil_append]

theorem headerFront_length (h : CfHeader) : (headerFront h).length = 7 := by
  simp [headerFront, cfheaderSig, leBytes]

/-- The checksum of the base table is one of its bytes if it has eight of them. -/
theorem baseBytes_split (h : CfHeader) (m : Area) : baseBytes h m =
    if 8 ≤ h.length.toNat then
      headerFront h ++ h.checksum :: (headerTail h ++
        read m 0 (h.length.toNat - cfheaderSize)).take (h.length.toNat - 8)
    else (headerFront h).take h.length.toNat := by
  rw [baseBytes, headerBytes_split, List.append_assoc, List.take_append, headerFront_length]
  by_cases hlen : 8 ≤ h.length.toNat
  · rw [if_pos hlen, List.take_of_length_le (by rw [headerFront_length]; omega),
      show h.length.toNat - 7 = h.length.toNat - 8 + 1 by omega, List.cons_append,
      List.take_succ_cons]
  · rw [if_neg hlen, show h.length.toNat - 7 = 0 by omega, List.take_zero, List.append_nil]

theorem baseBytes_total (h : CfHeader) (m : Area) (c : UInt8) (hlen : 8 ≤ h.length.toNat) :
    total (baseBytes { h with checksum := c } m) =
      total (baseBytes { h with checksum := 0 } m) + c.toNat := by
  rw [baseBytes_split, baseBytes_split, if_pos hlen, if_pos hlen]
  simp only [total_append, total_cons, UInt8.toNat_zero, headerFront, headerTail]
  omega

/-- The base table with a checksum taken while it was cleared. -/
theorem baseBytes_zero_iff (h : CfHeader) (m : Area) : SumsToZero (baseBytes { h with
      checksum := negSum (baseBytes { h with checksum := 0 } m) } m) ↔ Covers h := by
  by_cases hlen : 8 ≤ h.length.toNat
  · exact iff_of_true (sumsToZero_of_cleared (baseBytes_total h m _ hlen)) (Or.inl hlen)
  · rw [baseBytes_split, if_neg hlen]
    exact ⟨Or.inr, fun hc => hc.resolve_left hlen⟩

/-- What `mptable_checksum` leaves alone and what it sets. -/
theorem mptableChecksum_fields (h : s.saveFlag = true) :
    (mptableChecksum s).mpptr = { s.mpptr with checksum := negSum s.mpptr.bytes } ∧
      (mptableChecksum s).area = s.area ∧ (mptableChecksum s).mpe = s.mpe ∧
      (mptableChecksum s).saveFlag = true ∧
      (mptableChecksum s).mptable = { s.mptable with
        extChecksum := negSum (read s.area s.mpe s.mptable.extLength.toNat)
        checksum := negSum (baseBytes { s.mptable with
          extChecksum := negSum (read s.area s.mpe s.mptable.extLength.toNat)
          checksum := 0 } s.area) } := by
  rw [mptableChecksum, if_pos h]
  exact ⟨rfl, rfl, rfl, h, rfl⟩

/-- One call with saving enabled: the extended area always comes out right, the base table if it
is long enough, the floating pointer if its checksum was 0. -/
theorem mptableChecksum_right_iff (h : s.saveFlag = true) :
    ChecksumsRight (mptableChecksum s) ↔ s.mpptr.checksum = 0 ∧ Covers s.mptable := by
  obtain ⟨hptr, harea, hmpe, -, htab⟩ := mptableChecksum_fields h
  have hext : SumsToZero ((mptableChecksum s).mptable.extChecksum :: read (mptableChecksum s).area
      (mptableChecksum s).mpe (mptableChecksum s).mptable.extLength.toNat) := by
    rw [harea, hmpe, htab]
    refine sumsToZero_of_cleared (l := read s.area s.mpe s.mptable.extLength.toNat) ?_
    rw [total_cons, Nat.add_comm]
    rfl
  have hbase : SumsToZero (baseBytes (mptableChecksum s).mptable (mptableChecksum s).area) ↔
      Covers s.mptable := by
    rw [harea, htab]
    exact baseBytes_zero_iff { s.mptable with
      extChecksum := negSum (read s.area s.mpe s.mptable.extLength.toNat) } s.area
  have hfl : SumsToZero (mptableChecksum s).mpptr.bytes ↔ s.mpptr.checksum = 0 := by
    rw [hptr]
    exact flpointer_zero_iff s.mpptr
  constructor
  · rintro ⟨hf, hb, -⟩
    exact ⟨hfl.1 hf, hbase.1 hb⟩
  · rintro ⟨hf, hb⟩
    exact ⟨hfl.2 hf, hbase.2 hb, hext⟩

/-! ### Any number of calls -/

/-- Adding an entry leaves the floating pointer and the version alone and counts a base entry. -/
theorem run_header (io : Ioapic) (c : Call) (h : s.saveFlag = true) :
    (c.run io s).mpptr = s.mpptr ∧ (c.run io s).saveFlag = true ∧
      (c.run io s).mptable.version = s.mptable.version ∧
      (c.run io s).mptable.length = lengthAfter io [c] s.mptable.length := by
  rcases c.cases with ⟨info, rfl⟩ | hc | hc
  · have hrun : (Call.cpu info).run io s = _ := mptableAddCPU_eq info h
    rw [hrun]
    exact ⟨rfl, h, rfl, by simp [bumpBase, lengthAfter, baseEntries, Call.isExt, Call.bytes,
      cpuBytes_length]⟩
  · obtain ⟨hrun, hext⟩ := run_overwrites io hc s
    rw [hrun, addEntry, if_pos h]
    exact ⟨rfl, h, rfl, by simp [bumpBase, lengthAfter, baseEntries, hext]⟩
  · obtain ⟨hrun, -⟩ := run_ext io hc s
    rw [hrun, addExtEntry, if_pos h]
    exact ⟨rfl, h, rfl, by simp [lengthAfter, baseEntries, hc]⟩

theorem lengthAfter_append (io : Ioapic) (cs cs' : List Call) (n : UInt16) :
    lengthAfter io (cs ++ cs') n = lengthAfter io cs' (lengthAfter io cs n) := by
  rw [lengthAfter, baseEntries_append, List.foldl_append]
  rfl

theorem runCalls_header (io : Ioapic) (cs : List Call) (h : s.saveFlag = true) :
    (runCalls io cs s).mpptr = s.mpptr ∧ (runCalls io cs s).saveFlag = true ∧
      (runCalls io cs s).mptable.version = s.mptable.version ∧
      (runCalls io cs s).mptable.length = lengthAfter io cs s.mptable.length := by
  induction cs generalizing s with
  | nil => exact ⟨rfl, h, rfl, rfl⟩
  | cons c cs ih =>
    obtain ⟨hptr, hsave, hver, hlen⟩ := run_header io c h
    obtain ⟨hptr', hsave', hver', hlen'⟩ := ih hsave
    rw [runCalls_cons]
    refine ⟨hptr'.trans hptr, hsave', hver'.trans hver, ?_⟩
    rw [hlen', hlen, ← lengthAfter_append]
    rfl

/-- A second call puts the checksum back that was there before the first. -/
theorem flpointer_twice (p : FlPointer) :
    negSum { p with checksum := negSum p.bytes }.bytes = p.checksum := by
  obtain ⟨q, hq⟩ : ∃ q, negSum p.bytes = q := ⟨_, rfl⟩
  have h₁ := total_subAll p.bytes 0
  have h₂ := total_subAll { p with checksum := q }.bytes 0
  have hnew := flpointer_total p q
  have hold : total p.bytes = _ := flpointer_total p p.checksum
  have hlt := p.checksum.toNat_lt
  have hlt' := (subAll 0 { p with checksum := q }.bytes).toNat_lt
  rw [negSum_eq] at hq
  rw [UInt8.toNat_zero] at h₁ h₂
  rw [hq] at h₁
  rw [negSum_eq, negSum_eq p.bytes, hq, ← UInt8.toNat_inj]
  omega

theorem negSum_zero_iff (l : List UInt8) : negSum l = 0 ↔ SumsToZero l := by
  have h := total_subAll l 0
  have hlt := (subAll 0 l).toNat_lt
  rw [UInt8.toNat_zero] at h
  rw [negSum_eq, SumsToZero, ← UInt8.toNat_inj, UInt8.toNat_zero]
  omega

/-- What a number of rounds leaves of the two headers. -/
theorem checksumRounds_header (io : Ioapic) (rounds : List (List Call)) (h : s.saveFlag = true) :
    (checksumRounds io rounds s).saveFlag = true ∧
      (checksumRounds io rounds s).mptable.version = s.mptable.version ∧
      (checksumRounds io rounds s).mptable.length =
        lengthAfter io rounds.flatten s.mptable.length ∧
      (checksumRounds io rounds s).mpptr.checksum =
        if rounds.length % 2 = 0 then s.mpptr.checksum else negSum s.mpptr.bytes := by
  induction rounds generalizing s with
  | nil => exact ⟨h, rfl, rfl, rfl⟩
  | cons cs rounds ih =>
    obtain ⟨hptr, hsave, hver, hlen⟩ := runCalls_header io cs h
    obtain ⟨hptr', -, -, hsave', htab'⟩ := mptableChecksum_fields hsave
    obtain ⟨hsave'', hver'', hlen'', hck⟩ := ih hsave'
    rw [checksumRounds]
    refine ⟨hsave'', ?_, ?_, ?_⟩
    · rw [hver'', htab', hver]
    · rw [hlen'', htab', hlen, List.flatten_cons, lengthAfter_append]
    · rw [hck, hptr', hptr, List.length_cons]
      by_cases hpar : rounds.length % 2 = 0
      · rw [if_pos hpar, if_neg (by omega)]
      · rw [if_neg hpar, if_pos (by omega)]
        exact flpointer_twice s.mpptr

theorem checksumRounds_nosave (io : Ioapic) (rounds : List (List Call)) (h : s.saveFlag = false) :
    checksumRounds io rounds s = s := by
  induction rounds with
  | nil => rfl
  | cons cs rounds ih =>
    have hck : mptableChecksum s = s := by
      rw [mptableChecksum, if_neg (by rw [h]; exact Bool.false_ne_true)]
    rw [checksumRounds, runCalls_nosave io cs h, hck, ih]

theorem checksumRounds_snoc (io : Ioapic) (rounds : List (List Call)) (cs : List Call) (s : Mp) :
    checksumRounds io (rounds ++ [cs]) s =
      mptableChecksum (runCalls io cs (checksumRounds io rounds s)) := by
  induction rounds generalizing s with
  | nil => rfl
  | cons d rounds ih => exact ih _

theorem covers_congr {h h' : CfHeader} (hlen : h.length = h'.length)
    (hver : h.version = h'.version) : Covers h ↔ Covers h' := by
  rw [Covers, Covers, headerFront, headerFront, hlen, hver]

/-- The checksums after at least one round. With saving enabled the base table must cover its
checksum, and the floating pointer must have begun with a checksum of 0, or, if the number of
rounds is even, with a right one. -/
theorem checksums_right_iff (io : Ioapic) (rounds : List (List Call)) (hk : rounds ≠ []) (s : Mp) :
    ChecksumsRight (checksumRounds io rounds s) ↔
      if s.saveFlag = true then
        (if rounds.length % 2 = 1 then s.mpptr.checksum = 0 else SumsToZero s.mpptr.bytes) ∧
          Covers { s.mptable with length := lengthAfter io rounds.flatten s.mptable.length }
      else ChecksumsRight s := by
  by_cases h : s.saveFlag = true
  · rw [if_pos h]
    obtain ⟨init, cs, rfl⟩ := (List.eq_nil_or_concat' rounds).resolve_left hk
    obtain ⟨hsave, hver, hlen, hck⟩ := checksumRounds_header io init h
    obtain ⟨hptr', hsave', hver', hlen'⟩ := runCalls_header io cs hsave
    rw [checksumRounds_snoc, mptableChecksum_right_iff hsave', hptr', hck]
    refine and_congr ?_ (covers_congr ?_ (hver'.trans hver))
    · rw [List.length_append, List.length_singleton]
      by_cases hpar : init.length % 2 = 0
      · rw [if_pos hpar, if_pos (by omega)]
      · rw [if_neg hpar, if_neg (by omega), negSum_zero_iff]
    · rw [hlen', hlen, ← lengthAfter_append]
      simp
  · rw [if_neg h, checksumRounds_nosave io rounds (Bool.of_not_eq_true h)]

/-- Entries for a table just set up. -/
def someCalls : List Call := [.bus 0 mptableBusPci, .bus 1 mptableBusIsa, .ioapic 0, .busTree 1 1 0]

/-- After a round with entries the checksums are right, after a second one, with one entry more,
that of the floating pointer is not, and after a third it is again. -/
theorem checksums_right_iff_rounds :
    ChecksumsRight (checksumRounds oneBus.io [someCalls]
      (startTable (Vector.replicate 12 0) 0 blankMp)) ∧
    ¬ ChecksumsRight (checksumRounds oneBus.io [someCalls, [.busCompat 0 0 0]]
      (startTable (Vector.replicate 12 0) 0 blankMp)) ∧
    ChecksumsRight (checksumRounds oneBus.io [someCalls, [.busCompat 0 0 0], [.ioapic 1]]
      (startTable (Vector.replicate 12 0) 0 blankMp)) := by
  have hsave : (startTable (Vector.replicate 12 0) 0 blankMp).saveFlag = true := rfl
  refine ⟨(checksums_right_iff _ _ (by simp) _).2 ?_,
    fun h => absurd ((checksums_right_iff _ _ (by simp) _).1 h) ?_,
    (checksums_right_iff _ _ (by simp) _).2 ?_⟩
  · rw [if_pos hsave]
    exact ⟨rfl, Or.inl (by decide)⟩
  · rw [if_pos hsave]
    rintro ⟨hsum, -⟩
    revert hsum
    decide
  · rw [if_pos hsave]
    exact ⟨rfl, Or.inl (by decide)⟩

/-- A second call makes the checksum of the floating pointer 0 again, and the sum is 1. -/
theorem second_checksum_wrong :
    ¬ ChecksumsRight (checksumRounds oneBus.io [[], []]
      (startTable (Vector.replicate 12 0) 0 blankMp)) := by
  intro h
  have := h.flpointer
  revert this
  decide +kernel

end Mptable
