import CobaltRom.Lib.ByteSum

/-! `common/acpi.c`: the checksums of the root system descriptor pointer. -/
namespace Acpi
open ByteSum

abbrev acpiRsdpSize : Nat := 36

/-- The bytes of `rsdp_table_t`. -/
abbrev Rsdp := Vector UInt8 acpiRsdpSize

/-- The offsets of `checksum` and `extended_csum`. -/
abbrev checksumOff : Nat := 8
abbrev extendedCsumOff : Nat := 32

/-- The two loops of `table_init` over the RSDP; the second goes on with the sum of the first. -/
def rsdpChecksums (rsdp : Rsdp) : Rsdp :=
  let sum := subAll 0 (rsdp.toList.take 20)
  let rsdp := rsdp.set checksumOff sum
  let sum := subAll sum (rsdp.toList.drop 20)
  rsdp.set extendedCsumOff sum

/-- What a reader of the table checks: the first 20 bytes, and the whole. -/
structure ChecksumsRight (rsdp : Rsdp) : Prop where
  first : SumsToZero (rsdp.toList.take 20)
  whole : SumsToZero rsdp.toList

variable {rsdp : Rsdp}

theorem first_length (rsdp : Rsdp) : (rsdp.toList.take 20).length = 20 := by
  rw [List.length_take, Vector.length_toList]
  rfl

theorem rest_length (rsdp : Rsdp) : (rsdp.toList.drop 20).length = 16 := by
  rw [List.length_drop, Vector.length_toList]
  rfl

/-- The first 20 bytes and the other 16, after both loops. -/
theorem rsdpChecksums_bytes (rsdp : Rsdp) :
    (rsdpChecksums rsdp).toList =
      (rsdp.toList.take 20).set 8 (subAll 0 (rsdp.toList.take 20)) ++
        (rsdp.toList.drop 20).set 12
          (subAll (subAll 0 (rsdp.toList.take 20)) (rsdp.toList.drop 20)) := by
  have hlen := first_length rsdp
  conv_lhs => rw [rsdpChecksums]
  simp only [Vector.toList_set]
  rw [List.drop_set_of_lt (by decide)]
  conv_lhs => rw [← List.take_append_drop 20 rsdp.toList]
  rw [List.set_append_left _ _ (by rw [hlen]; decide),
    List.set_append_right _ _ (by rw [List.length_set, hlen]; decide), List.length_set, hlen,
    List.take_append_of_le_length hlen.ge, List.take_of_length_le hlen.le,
    List.drop_append_of_le_length hlen.ge, List.drop_of_length_le hlen.le, List.nil_append]
  rfl

/-- The first loop completes the sum of the first 20 bytes. -/
theorem rsdp_first (h : rsdp[checksumOff] = 0) :
    SumsToZero ((rsdp.toList.take 20).set 8 (subAll 0 (rsdp.toList.take 20))) := by
  have hlt : 8 < (rsdp.toList.take 20).length := by
    rw [first_length]
    decide
  have hset := total_set (rsdp.toList.take 20) 8 hlt (subAll 0 (rsdp.toList.take 20))
  have hzero : (rsdp.toList.take 20)[8] = 0 := by
    rw [List.getElem_take, Vector.getElem_toList]
    exact h
  rw [hzero] at hset
  exact sumsToZero_of_cleared hset

/-- The second loop leaves the last 16 bytes with the sum that the first loop ended with. -/
theorem rsdp_rest (h : rsdp[extendedCsumOff] = 0) (s : UInt8) :
    total ((rsdp.toList.drop 20).set 12 (subAll s (rsdp.toList.drop 20))) % 256 = s.toNat := by
  have hlt : 12 < (rsdp.toList.drop 20).length := by
    rw [rest_length]
    decide
  have hset := total_set (rsdp.toList.drop 20) 12 hlt (subAll s (rsdp.toList.drop 20))
  have hzero : (rsdp.toList.drop 20)[12] = 0 := by
    rw [List.getElem_drop, Vector.getElem_toList]
    exact h
  rw [hzero, UInt8.toNat_zero, Nat.add_zero] at hset
  rw [hset]
  exact total_subAll _ _

/-- The sum of the first loop is 0 just where the first 20 bytes needed no checksum. -/
theorem subAll_zero_iff (l : List UInt8) : (subAll 0 l).toNat = 0 ↔ SumsToZero l := by
  have h := total_subAll l 0
  have hlt := (subAll 0 l).toNat_lt
  rw [UInt8.toNat_zero] at h
  rw [SumsToZero]
  omega

/-- Both checksums come out right just where the first 20 bytes summed to 0 before. -/
theorem rsdp_checksums_right_iff (hsum : rsdp[checksumOff] = 0)
    (hext : rsdp[extendedCsumOff] = 0) :
    ChecksumsRight (rsdpChecksums rsdp) ↔ SumsToZero (rsdp.toList.take 20) := by
  have hlen : ((rsdp.toList.take 20).set 8 (subAll 0 (rsdp.toList.take 20))).length = 20 := by
    rw [List.length_set, first_length]
  have hfirst := rsdp_first hsum
  have hrest := rsdp_rest hext (subAll 0 (rsdp.toList.take 20))
  have hwhole : SumsToZero (rsdpChecksums rsdp).toList ↔ SumsToZero (rsdp.toList.take 20) := by
    rw [← subAll_zero_iff (rsdp.toList.take 20), ← hrest, rsdpChecksums_bytes, SumsToZero,
      total_append]
    rw [SumsToZero] at hfirst
    omega
  constructor
  · intro h
    exact hwhole.1 h.whole
  · intro h
    refine ⟨?_, hwhole.2 h⟩
    rw [rsdpChecksums_bytes, List.take_left' hlen]
    exact hfirst

/-- The table of the ROM: "RSD PTR ", no checksum, "COBT", revision 2, the address of the RSDT,
36 bytes, the address of the XSDT, no extended checksum. -/
def serverworksRsdpTable : Rsdp :=
  #v[0x52, 0x53, 0x44, 0x20, 0x50, 0x54, 0x52, 0x20, 0, 0x43, 0x4f, 0x42, 0x54, 0, 0, 2,
    0x24, 0xfe, 0x0f, 0, 36, 0, 0, 0, 0x4c, 0xfe, 0x0f, 0, 0, 0, 0, 0, 0, 0, 0, 0]

/-- On the table of the ROM neither side holds. -/
theorem rsdp_checksums_right_iff_rom :
    ChecksumsRight (rsdpChecksums serverworksRsdpTable) ↔
      SumsToZero (serverworksRsdpTable.toList.take 20) :=
  rsdp_checksums_right_iff rfl rfl

/-- On the table of the ROM the 36 bytes do not sum to 0. -/
theorem rom_rsdp_wrong :
    serverworksRsdpTable[checksumOff] = 0 ∧ serverworksRsdpTable[extendedCsumOff] = 0 ∧
      ¬ ChecksumsRight (rsdpChecksums serverworksRsdpTable) := by
  refine ⟨rfl, rfl, fun h => ?_⟩
  have := h.whole
  revert this
  decide

end Acpi
