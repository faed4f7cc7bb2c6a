import Mathlib.Tactic

/-! Fixed-size byte buffers: copying a byte list in at an offset, reading a range
back, and little-endian fields. -/
namespace ByteBuf

/-- A buffer of `n` bytes. -/
structure Buf (n : Nat) where
  data : Fin n → UInt8

variable {n o p len : Nat} {b : Buf n} {l : List UInt8}

/-- The byte at an offset; 0 past the end. -/
def byte (b : Buf n) (o : Nat) : UInt8 := if h : o < n then b.data ⟨o, h⟩ else 0

/-- `memcpy (b + o, l, l.length)`, cut off at the end of the buffer. -/
def put (b : Buf n) (o : Nat) (l : List UInt8) : Buf n where
  data i := if o ≤ i.val ∧ i.val < o + l.length then l.getD (i.val - o) 0 else b.data i

/-- The `len` bytes at an offset. -/
def slice (b : Buf n) (o len : Nat) : List UInt8 := (List.range len).map fun i => byte b (o + i)

/-- The number a little-endian byte list stands for. -/
def leNat : List UInt8 → Nat
  | [] => 0
  | x :: xs => x.toNat + 256 * leNat xs

/-- The `k` low bytes of a number, least significant first. -/
def leBytes : Nat → Nat → List UInt8
  | 0, _ => []
  | k + 1, v => UInt8.ofNat v :: leBytes k (v / 256)

def u16 (l : List UInt8) : UInt16 := UInt16.ofNat (leNat l)
def u32 (l : List UInt8) : UInt32 := UInt32.ofNat (leNat l)

/-- The bytes of a NUL-terminated string. -/
def cstr (l : List UInt8) : List UInt8 := l.takeWhile (· != 0)

theorem ext_byte {b c : Buf n} (h : ∀ i, i < n → byte b i = byte c i) : b = c := by
  obtain ⟨b⟩ := b
  obtain ⟨c⟩ := c
  congr 1
  funext i
  have := h i.val i.isLt
  simpa [byte] using this

theorem byte_put (b : Buf n) (o : Nat) (l : List UInt8) (p : Nat) :
    byte (put b o l) p =
      if o ≤ p ∧ p < o + l.length ∧ p < n then l.getD (p - o) 0 else byte b p := by
  unfold byte put
  by_cases hp : p < n
  · simp [hp]
  · simp [hp]

theorem byte_put_of_lt (h : p < o) : byte (put b o l) p = byte b p := by
  rw [byte_put, if_neg (by omega)]

theorem byte_put_of_ge (h : o + l.length ≤ p) : byte (put b o l) p = byte b p := by
  rw [byte_put, if_neg (by omega)]

theorem byte_put_mid (h : o + l.length ≤ n) (hp : p < l.length) :
    byte (put b o l) (o + p) = l.getD p 0 := by
  rw [byte_put, if_pos (by omega), Nat.add_sub_cancel_left]

@[simp] theorem slice_length (b : Buf n) (o len : Nat) : (slice b o len).length = len := by
  simp [slice]

theorem slice_getElem? (b : Buf n) (o len i : Nat) :
    (slice b o len)[i]? = if i < len then some (byte b (o + i)) else none := by
  unfold slice
  by_cases h : i < len
  · simp [h]
  · simp [h]

theorem slice_congr {b c : Buf n} (h : ∀ i, i < len → byte b (o + i) = byte c (o + i)) :
    slice b o len = slice c o len := by
  apply List.ext_getElem?
  intro i
  rw [slice_getElem?, slice_getElem?]
  by_cases hi : i < len
  · rw [if_pos hi, if_pos hi, h i hi]
  · rw [if_neg hi, if_neg hi]

theorem slice_put_disjoint (h : o + len ≤ p ∨ p + l.length ≤ o) :
    slice (put b p l) o len = slice b o len := by
  apply slice_congr
  intro i hi
  rcases h with h | h
  · exact byte_put_of_lt (by omega)
  · exact byte_put_of_ge (by omega)

theorem slice_add (b : Buf n) (o k m : Nat) :
    slice b o (k + m) = slice b o k ++ slice b (o + k) m := by
  apply List.ext_getElem?
  intro i
  rw [List.getElem?_append, slice_getElem?, slice_getElem?, slice_getElem?, slice_length]
  by_cases hk : i < k
  · rw [if_pos (by omega), if_pos hk, if_pos hk]
  · rw [if_neg hk]
    by_cases hm : i < k + m
    · rw [if_pos hm, if_pos (by omega), show o + k + (i - k) = o + i by omega]
    · rw [if_neg hm, if_neg (by omega)]

theorem slice_take {k : Nat} (h : k ≤ len) : (slice b o len).take k = slice b o k := by
  obtain ⟨m, rfl⟩ := Nat.exists_eq_add_of_le h
  rw [slice_add, List.take_left' (by simp)]

theorem slice_drop {k : Nat} (h : k ≤ len) :
    (slice b o len).drop k = slice b (o + k) (len - k) := by
  obtain ⟨m, rfl⟩ := Nat.exists_eq_add_of_le h
  rw [slice_add, List.drop_left' (by simp), Nat.add_sub_cancel_left]

theorem slice_put_self (h : o + l.length ≤ n) : slice (put b o l) o l.length = l := by
  apply List.ext_getElem?
  intro i
  rw [slice_getElem?]
  by_cases hi : i < l.length
  · rw [if_pos hi, byte_put_mid h hi, List.getD_eq_getElem?_getD, List.getElem?_eq_getElem hi]
    rfl
  · rw [if_neg hi, List.getElem?_eq_none (by omega)]

/-- A range that starts inside the copied bytes and runs past them. -/
theorem slice_put_append (h : o + l.length ≤ n) (k : Nat) :
    slice (put b o l) o (l.length + k) = l ++ slice b (o + l.length) k := by
  rw [slice_add, slice_put_self h, slice_put_disjoint (Or.inr (Nat.le_refl _))]

@[simp] theorem put_nil (b : Buf n) (o : Nat) : put b o [] = b := by
  apply ext_byte
  intro i _
  rw [byte_put]
  exact if_neg (by simp; omega)

@[simp] theorem leBytes_length (k v : Nat) : (leBytes k v).length = k := by
  induction k generalizing v with
  | zero => rfl
  | succ k ih => simp [leBytes, ih]

theorem leNat_leBytes (k v : Nat) : leNat (leBytes k v) = v % 256 ^ k := by
  induction k generalizing v with
  | zero => simp [leBytes, leNat, Nat.mod_one]
  | succ k ih =>
    have hbyte : (UInt8.ofNat v).toNat = v % 256 := UInt8.toNat_ofNat'
    rw [leBytes, leNat, ih, hbyte, Nat.pow_succ, Nat.mul_comm (256 ^ k) 256, Nat.mod_mul]

@[simp] theorem u16_leBytes (v : UInt16) : u16 (leBytes 2 v.toNat) = v := by
  have hv : v.toNat < 256 ^ 2 := v.toNat_lt
  rw [u16, leNat_leBytes, Nat.mod_eq_of_lt hv, UInt16.ofNat_toNat]

@[simp] theorem u32_leBytes (v : UInt32) : u32 (leBytes 4 v.toNat) = v := by
  have hv : v.toNat < 256 ^ 4 := v.toNat_lt
  rw [u32, leNat_leBytes, Nat.mod_eq_of_lt hv, UInt32.ofNat_toNat]

theorem cstr_append_zero {m : List UInt8} (h : (0 : UInt8) ∉ l) : cstr (l ++ 0 :: m) = l := by
  have hl : ∀ x ∈ l, (x != 0) = true := by
    intro x hx
    simp only [bne_iff_ne, ne_eq]
    rintro rfl
    exact h hx
  rw [cstr, List.takeWhile_append_of_pos hl]
  simp

/-- A string inside a longer buffer is followed by its NUL. -/
theorem take_cstr {m : List UInt8} (h : cstr m = l) (hl : l.length < m.length) :
    m.take (l.length + 1) = l ++ [0] := by
  induction m generalizing l with
  | nil => simp at hl
  | cons x m ih =>
    by_cases hx : x = 0
    · subst hx
      have hn : l = [] := by rw [← h]; rfl
      subst hn
      simp
    · have hc : cstr (x :: m) = x :: cstr m := by simp [cstr, hx]
      rw [hc] at h
      subst h
      simp only [List.length_cons, List.take_succ_cons, List.cons_append]
      rw [ih rfl (by simpa using hl)]

end ByteBuf
