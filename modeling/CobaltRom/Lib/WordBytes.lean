import Mathlib.Tactic

/-! The bytes of a word: replacing one of them, and putting a word together from bytes. -/
namespace WordBytes

variable {b b' : UInt8} {v w : UInt16}

/-! ### Two bytes -/

@[simp] theorem lo_setLo (w : UInt16) (b : UInt8) :
    ((w &&& 0xff00) ||| b.toUInt16).toUInt8 = b := by
  apply UInt8.toBitVec_inj.mp
  ext i hi
  simp

@[simp] theorem hi_setLo (w : UInt16) (b : UInt8) :
    (((w &&& 0xff00) ||| b.toUInt16) >>> 8).toUInt8 = (w >>> 8).toUInt8 := by
  apply UInt8.toBitVec_inj.mp
  ext i hi
  simp
  interval_cases i <;> simp

@[simp] theorem lo_setHi (w : UInt16) (b : UInt8) :
    ((w &&& (0xff : UInt16)) ||| b.toUInt16 <<< (8 : UInt16)).toUInt8 = w.toUInt8 := by
  apply UInt8.toBitVec_inj.mp
  ext i hi
  simp
  interval_cases i <;> simp

@[simp] theorem hi_setHi (w : UInt16) (b : UInt8) :
    (((w &&& (0xff : UInt16)) ||| b.toUInt16 <<< (8 : UInt16)) >>> 8).toUInt8 = b := by
  apply UInt8.toBitVec_inj.mp
  ext i hi
  simp
  interval_cases i <;> simp

/-- A word is its two bytes. -/
theorem eta16 (w : UInt16) : (w >>> 8).toUInt8.toUInt16 <<< 8 ||| w.toUInt8.toUInt16 = w := by
  apply UInt16.toBitVec_inj.mp
  ext i hi
  simp [-UInt16.toUInt16_toUInt8]
  interval_cases i <;> simp

/-! ### Four bytes, the most significant first -/

def be32 (b3 b2 b1 b0 : UInt8) : UInt32 :=
  b3.toUInt32 <<< 24 ||| b2.toUInt32 <<< 16 ||| b1.toUInt32 <<< 8 ||| b0.toUInt32

theorem be32_eta (v : UInt32) :
    be32 (v >>> 24).toUInt8 (v >>> 16).toUInt8 (v >>> 8).toUInt8 v.toUInt8 = v := by
  apply UInt32.toBitVec_inj.mp
  ext i hi
  simp [be32, -UInt32.toUInt32_toUInt8]
  interval_cases i <;> simp

theorem be32_bytes (b3 b2 b1 b0 : UInt8) :
    (be32 b3 b2 b1 b0 >>> 24).toUInt8 = b3 ∧ (be32 b3 b2 b1 b0 >>> 16).toUInt8 = b2 ∧
      (be32 b3 b2 b1 b0 >>> 8).toUInt8 = b1 ∧ (be32 b3 b2 b1 b0).toUInt8 = b0 := by
  refine ⟨?_, ?_, ?_, ?_⟩ <;> apply UInt8.toBitVec_inj.mp <;> ext i hi <;> simp [be32]
  all_goals interval_cases i <;> simp

/-- A number is put together from its own four bytes and no others. -/
theorem be32_eq_iff (b3 b2 b1 b0 : UInt8) (v : UInt32) : be32 b3 b2 b1 b0 = v ↔
    b3 = (v >>> 24).toUInt8 ∧ b2 = (v >>> 16).toUInt8 ∧ b1 = (v >>> 8).toUInt8 ∧
    b0 = v.toUInt8 := by
  constructor
  · rintro rfl
    obtain ⟨h3, h2, h1, h0⟩ := be32_bytes b3 b2 b1 b0
    exact ⟨h3.symm, h2.symm, h1.symm, h0.symm⟩
  · rintro ⟨rfl, rfl, rfl, rfl⟩
    exact be32_eta v

end WordBytes
