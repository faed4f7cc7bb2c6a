import CobaltRom.Lib.Bitmap

/-! The free maps: a bitmap of numbers in use, a second one of numbers released
since the last flush, and a search cursor. -/
namespace Crfs
open Bitmap

structure Freemap where
  fmCur : Nat
  fmMapsize : Nat
  fmMap : List UInt8
  fmFreed : List UInt8
  /-- Set where the source reports "freemap is full - try flushing cache". -/
  fmFull : Bool
  /-- Set where the source stores behind the end of a map: what lies there is foreign
  memory, so the store itself is left out. -/
  fmStray : Bool

/-- What `freemap_init` leaves when it gets its memory. -/
def freemapInit (mapsize : Nat) : Freemap :=
  ⟨0, mapsize, List.replicate mapsize 0, List.replicate mapsize 0, false, false⟩

/-- `freemap_init`, false for -1. The flags are the answers to its two calls of `malloc`;
the map that got no memory is NULL. -/
def freemapTryInit (mapMem freedMem : Bool) (m : Freemap) (mapsize : Nat) : Bool × Freemap :=
  if mapMem = false then (false, { m with fmMap := [] })
  else if freedMem = false then
    (false, { m with fmMap := List.replicate mapsize 0, fmFreed := [] })
  else (true, freemapInit mapsize)

def freemapFlush (m : Freemap) : Freemap :=
  { m with fmCur := 0, fmFreed := List.replicate m.fmMapsize 0 }

/-- The outer loop of `freemap_next` with `fuel` bytes left to look at. -/
def freemapScan (m : Freemap) : Nat → Nat → Int × Freemap
  | 0, _ => (-1, { m with fmFull := true })
  | fuel + 1, i =>
    let val := m.fmMap.getD i 0 ||| m.fmFreed.getD i 0
    if val ≠ 0xff then
      match (List.range 8).find? fun j => val &&& mask j == 0 with
      | some j => (i * 8 + j, { m with fmMap := m.fmMap.modify i (· ||| mask j), fmCur := i })
      | none => freemapScan m fuel (i + 1)
    else freemapScan { m with fmCur := m.fmCur + 1 } fuel (i + 1)

def freemapNext (m : Freemap) : Int × Freemap :=
  freemapScan m (m.fmMapsize - m.fmCur) m.fmCur

/-- A number that is behind the end of the map. -/
def Freemap.behind (m : Freemap) (bit : Nat) : Bool := decide (m.fmMapsize ≤ bit / 8)

def freemapMark (m : Freemap) (bit : Nat) : Freemap :=
  { m with fmMap := set m.fmMap bit, fmStray := m.fmStray || m.behind bit }

def freemapUnmark (m : Freemap) (bit : Nat) : Freemap :=
  let by_ := bit / 8
  let bi := mask (bit % 8)
  { m with
    fmFreed := m.fmFreed.modify by_ (· ||| (m.fmMap.getD by_ 0 &&& bi))
    fmMap := clear m.fmMap bit
    fmStray := m.fmStray || m.behind bit }

namespace Freemap

variable {m m' : Freemap} {k n : Nat}

def isset (m : Freemap) (k : Nat) : Bool := mem m.fmMap k

/-- The number will not be handed out before the next flush. -/
def blocked (m : Freemap) (k : Nat) : Bool := mem m.fmMap k || mem m.fmFreed k

/-- The number of items the map covers. -/
def limit (m : Freemap) : Nat := 8 * m.fmMapsize

structure Ok (m : Freemap) : Prop where
  lenMap : m.fmMap.length = m.fmMapsize
  lenFreed : m.fmFreed.length = m.fmMapsize
  cur : m.fmCur ≤ m.fmMapsize
  scanned : ∀ k, k < 8 * m.fmCur → m.blocked k = true

/-- `m'` is `m` after handing out `n`. -/
structure Took (m : Freemap) (n : Nat) (m' : Freemap) : Prop where
  lt : n < m.limit
  free : m.blocked n = false
  least : ∀ k, k < n → m.blocked k = true
  isset : ∀ k, m'.isset k = (m.isset k || decide (k = n))
  freed : m'.fmFreed = m.fmFreed
  size : m'.fmMapsize = m.fmMapsize
  full : m'.fmFull = m.fmFull
  ok : m'.Ok

theorem blocked_of_isset (h : m.isset k = true) : m.blocked k = true := by
  simp only [isset] at h
  simp [blocked, h]

theorem Took.blocked (h : Took m n m') (k : Nat) :
    m'.blocked k = (m.blocked k || decide (k = n)) := by
  have hi := h.isset k
  simp only [Freemap.isset] at hi
  simp only [Freemap.blocked, hi, h.freed]
  cases mem m.fmMap k <;> cases mem m.fmFreed k <;> simp

theorem Took.limit_eq (h : Took m n m') : m'.limit = m.limit := by rw [limit, h.size, limit]

theorem Took.isset_self (h : Took m n m') : m'.isset n = true := by rw [h.isset]; simp

theorem ok_init (n : Nat) : (freemapInit n).Ok :=
  ⟨by simp [freemapInit], by simp [freemapInit], Nat.zero_le _, by simp [freemapInit]⟩

theorem Ok.isset_lt (h : m.Ok) (hk : m.isset k = true) : k < m.limit := by
  have := mem_lt hk
  rwa [h.lenMap] at this

theorem ok_flush (h : m.Ok) : (freemapFlush m).Ok :=
  ⟨h.lenMap, by simp [freemapFlush], Nat.zero_le _, by simp [freemapFlush]⟩

@[simp] theorem isset_init (n k : Nat) : (freemapInit n).isset k = false := by
  simp [isset, freemapInit]

@[simp] theorem limit_init (n : Nat) : (freemapInit n).limit = 8 * n := rfl

@[simp] theorem isset_flush (m : Freemap) (k : Nat) : (freemapFlush m).isset k = m.isset k := rfl

@[simp] theorem limit_flush (m : Freemap) : (freemapFlush m).limit = m.limit := rfl

@[simp] theorem blocked_flush (m : Freemap) (k : Nat) :
    (freemapFlush m).blocked k = m.isset k := by
  simp [blocked, isset, freemapFlush]

@[simp] theorem limit_mark (m : Freemap) (n : Nat) : (freemapMark m n).limit = m.limit := rfl

theorem stray_mark (m : Freemap) (n : Nat) :
    (freemapMark m n).fmStray = true ↔ m.fmStray = true ∨ m.limit ≤ n := by
  have hiff : m.fmMapsize ≤ n / 8 ↔ m.limit ≤ n := by
    unfold limit
    omega
  rw [freemapMark, Bool.or_eq_true, behind, decide_eq_true_eq, hiff]

theorem isset_mark (h : m.Ok) (n k : Nat) :
    (freemapMark m n).isset k = (m.isset k || decide (k = n ∧ n < m.limit)) := by
  rw [isset, freemapMark, mem_set, h.lenMap]
  rfl

theorem blocked_mark (h : m.Ok) (n k : Nat) :
    (freemapMark m n).blocked k = (m.blocked k || decide (k = n ∧ n < m.limit)) := by
  have hi := isset_mark h n k
  simp only [isset] at hi
  simp only [blocked, hi]
  cases mem m.fmMap k <;> cases hf : mem m.fmFreed k <;> simp [freemapMark, hf]

theorem ok_mark (h : m.Ok) (n : Nat) : (freemapMark m n).Ok := by
  refine ⟨by simpa [freemapMark] using h.lenMap, h.lenFreed, h.cur, ?_⟩
  intro k hk
  rw [blocked_mark h, h.scanned k hk, Bool.true_or]

@[simp] theorem limit_unmark (m : Freemap) (n : Nat) : (freemapUnmark m n).limit = m.limit := rfl

@[simp] theorem full_unmark (m : Freemap) (n : Nat) : (freemapUnmark m n).fmFull = m.fmFull := rfl

theorem isset_unmark (m : Freemap) (n k : Nat) :
    (freemapUnmark m n).isset k = (m.isset k && decide (k ≠ n)) := by
  rw [isset, freemapUnmark, mem_clear, isset]

theorem mem_freed_unmark (h : m.Ok) (n k : Nat) :
    mem (freemapUnmark m n).fmFreed k = (mem m.fmFreed k || (m.isset k && decide (k = n))) := by
  have hn8 : n % 8 < 8 := Nat.mod_lt _ (by decide)
  unfold freemapUnmark isset mem
  simp only
  rw [getD_modify]
  by_cases hb : k / 8 = n / 8 ∧ k / 8 < m.fmFreed.length
  · have he : k % 8 = n % 8 ↔ k = n := by omega
    rw [if_pos hb, bit_or, bit_and, bit_mask hn8, hb.1]
    congr 2
    simp [he]
  · rw [if_neg hb]
    by_cases he : k = n
    · subst he
      have hlen : m.fmMap.length ≤ k / 8 := by
        rw [h.lenMap, ← h.lenFreed]
        omega
      rw [List.getD_eq_default m.fmMap _ hlen]
      simp
    · simp [he]

/-- Releasing a number does not make it available. -/
theorem blocked_unmark (h : m.Ok) (n k : Nat) :
    (freemapUnmark m n).blocked k = m.blocked k := by
  have hi := isset_unmark m n k
  simp only [isset] at hi
  simp only [blocked, hi, mem_freed_unmark h, isset]
  by_cases he : k = n
  · subst he
    cases mem m.fmMap k <;> cases mem m.fmFreed k <;> simp
  · simp [he]

theorem ok_unmark (h : m.Ok) (n : Nat) : (freemapUnmark m n).Ok := by
  refine ⟨by simpa [freemapUnmark] using h.lenMap, by simpa [freemapUnmark] using h.lenFreed,
    h.cur, ?_⟩
  intro k hk
  rw [blocked_unmark h]
  exact h.scanned k hk

theorem blocked_byte (m : Freemap) (i j : Nat) (hj : j < 8) :
    m.blocked (i * 8 + j) = bit (m.fmMap.getD i 0 ||| m.fmFreed.getD i 0) j := by
  rw [blocked, mem, mem, show (i * 8 + j) / 8 = i by omega, show (i * 8 + j) % 8 = j by omega,
    bit_or]

/-- Byte `i` has a clear bit at `j` and none before it: the loop takes that bit. -/
theorem took_byte {i j : Nat} (h : m.Ok) (hc : m.fmCur = i) (hi : i < m.fmMapsize) (hj : j < 8)
    (hfree : m.blocked (i * 8 + j) = false)
    (hbefore : ∀ a, a < j → m.blocked (i * 8 + a) = true) :
    Took m (i * 8 + j)
      { m with fmMap := m.fmMap.modify i (· ||| mask j), fmCur := i } := by
  have hset : m.fmMap.modify i (· ||| mask j) = set m.fmMap (i * 8 + j) := by
    rw [Bitmap.set, show (i * 8 + j) / 8 = i by omega, show (i * 8 + j) % 8 = j by omega]
  have hlt : i * 8 + j < m.limit := by unfold limit; omega
  have hmark : ({ m with fmMap := m.fmMap.modify i (· ||| mask j), fmCur := i } : Freemap) =
      freemapMark m (i * 8 + j) := by
    have hin : m.behind (i * 8 + j) = false := decide_eq_false (by omega)
    rw [freemapMark, hset, hin, Bool.or_false, ← hc]
  rw [hmark]
  refine ⟨hlt, hfree, ?_, ?_, rfl, rfl, rfl, ok_mark h _⟩
  · intro k hk
    by_cases hki : k < 8 * i
    · exact h.scanned k (by omega)
    · have := hbefore (k - i * 8) (by omega)
      rwa [show i * 8 + (k - i * 8) = k by omega] at this
  · intro k
    rw [isset_mark h]
    simp [hlt]

theorem find_first {f : Nat → Bool} {j : Nat} (h : (List.range 8).find? f = some j) :
    j < 8 ∧ f j = true ∧ ∀ a, a < j → f a = false := by
  rw [List.find?_range_eq_some] at h
  refine ⟨List.mem_range.mp h.2.1, h.1, ?_⟩
  intro a ha
  simpa using h.2.2 a ha

/-- The two outcomes of the scan: the least free number, or none is left. -/
theorem freemapScan_spec (fuel : Nat) : ∀ (m : Freemap) (i : Nat), m.Ok → m.fmCur = i →
    i + fuel = m.fmMapsize →
    (∃ n : Nat, (freemapScan m fuel i).1 = n ∧ Took m n (freemapScan m fuel i).2) ∨
    ((freemapScan m fuel i).1 = -1 ∧ (∀ k, k < m.limit → m.blocked k = true) ∧
      (freemapScan m fuel i).2 = { m with fmCur := m.fmMapsize, fmFull := true }) := by
  induction fuel with
  | zero =>
    intro m i h hc hsum
    right
    refine ⟨rfl, ?_, ?_⟩
    · intro k hk
      unfold limit at hk
      exact h.scanned k (by omega)
    · rw [freemapScan, ← hsum, ← hc]
      rfl
  | succ fuel ih =>
    intro m i h hc hsum
    simp only [freemapScan]
    by_cases hv : m.fmMap.getD i 0 ||| m.fmFreed.getD i 0 = 0xff
    · rw [if_neg (by simpa using hv)]
      have hfull : ∀ j, j < 8 → m.blocked (i * 8 + j) = true := by
        intro j hj
        rw [blocked_byte m i j hj]
        exact full_iff.mp hv j hj
      have hok : ({ m with fmCur := m.fmCur + 1 } : Freemap).Ok := by
        refine ⟨h.lenMap, h.lenFreed, by simp only; omega, ?_⟩
        intro k hk
        simp only at hk
        change m.blocked k = true
        by_cases hki : k < 8 * m.fmCur
        · exact h.scanned k hki
        · have := hfull (k - i * 8) (by omega)
          rwa [show i * 8 + (k - i * 8) = k by omega] at this
      rcases ih { m with fmCur := m.fmCur + 1 } (i + 1) hok (by simp only; omega)
          (by simp only; omega) with ⟨n, hn, ht⟩ | ⟨hn, hb, he⟩
      · exact Or.inl ⟨n, hn, ht.lt, ht.free, ht.least, ht.isset, ht.freed, ht.size, ht.full, ht.ok⟩
      · exact Or.inr ⟨hn, hb, he⟩
    · rw [if_pos (by simpa using hv)]
      cases hf : (List.range 8).find? fun j =>
          (m.fmMap.getD i 0 ||| m.fmFreed.getD i 0) &&& mask j == 0 with
      | none =>
        exfalso
        apply hv
        rw [full_iff]
        intro j hj
        have := (List.find?_eq_none.mp hf) j (List.mem_range.mpr hj)
        rw [beq_iff_eq, and_mask_eq_zero hj] at this
        exact Bool.of_not_eq_false this
      | some j =>
        obtain ⟨hj, hz, hlt⟩ := find_first hf
        left
        refine ⟨i * 8 + j, by simp, took_byte h hc (by omega) hj ?_ ?_⟩
        · rw [blocked_byte m i j hj]
          exact (and_mask_eq_zero hj).mp (by simpa using hz)
        · intro a ha
          have hn := hlt a ha
          rw [beq_eq_false_iff_ne, ne_eq, and_mask_eq_zero (by omega)] at hn
          rw [blocked_byte m i a (by omega)]
          exact Bool.of_not_eq_false hn

theorem freemapNext_spec (h : m.Ok) :
    (∃ n : Nat, (freemapNext m).1 = n ∧ Took m n (freemapNext m).2) ∨
    ((freemapNext m).1 = -1 ∧ (∀ k, k < m.limit → m.blocked k = true) ∧
      (freemapNext m).2 = { m with fmCur := m.fmMapsize, fmFull := true }) :=
  freemapScan_spec _ m m.fmCur h rfl (by have := h.cur; omega)

end Freemap
end Crfs
