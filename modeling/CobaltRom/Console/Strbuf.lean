import CobaltRom.Lib.HeapBlock

/-! `common/strbuf.c`: string buffers that grow, are of fixed size or have a maximum. -/
namespace Console

open HeapBlock

/-- A byte of the heap; `none` until it is first written. -/
abbrev Cell := Option UInt8
abbrev Block := List Cell

/-- Whether the heap serves a request for `n` bytes. -/
abbrev Heap := Nat → Bool

abbrev strbufGrow : Int := -2
abbrev strbufFixed : Int := -1

structure Strbuf where
  len : Int
  max : Int
  buf : Option Block

def hasMax (b : Strbuf) : Bool := decide (0 ≤ b.max)

/-- `malloc (n)`: NULL or a block of unwritten bytes. -/
def malloc (heap : Heap) (n : Int) : Option Block :=
  if 0 < n ∧ heap n.toNat = true then some (List.replicate n.toNat none) else none

/-- `realloc (p, n)`: NULL or the block at its new size. -/
def realloc (heap : Heap) (p : Option Block) (n : Int) : Option Block :=
  if 0 < n ∧ heap n.toNat = true then some (resize none (p.getD []) n.toNat) else none

/-- `p[i] = c`. -/
def store (p : Option Block) (i : Int) (c : UInt8) : Option Block :=
  p.bind fun b => copyIn b i [some c]

/-- `memmove (p + dest, p + src, len)`; nothing is touched when `len` is 0. -/
def memmove (p : Option Block) (dest src len : Int) : Option (Option Block) :=
  if len = 0 then some p else p.bind fun b => (move b dest src len).map some

/-- `memmove (p + dest, str, strlen (str))`. -/
def memmoveStr (p : Option Block) (dest : Int) (str : List UInt8) : Option (Option Block) :=
  if str = [] then some p else p.bind fun b => (copyIn b dest (str.map some)).map some

def strbufInit (heap : Heap) (str : Option Block) (max : Int) : Option (Int × Strbuf) :=
  let b : Strbuf := { len := 0, max := max, buf := str }
  if str.isNone && hasMax b then
    match malloc heap (max + 1) with
    | none => some (-1, b)
    | some p => (store (some p) 0 0).map fun p => (0, { b with buf := some p })
  else if str.isSome then
    (store str 0 0).map fun p => (0, { b with buf := some p })
  else
    some (0, b)

/-- The copy loop of `strbuf_append`: `p` is `buf + len` throughout, `n` counts the copies. -/
def appendLoop (max : Int) (p : Option Block) (len n : Int) : List UInt8 →
    Option (Option Block × Int × Int)
  | [] => (store p len 0).map fun p => (some p, len, n)
  | c :: q =>
    if max < 0 ∨ len < max then
      match store p len c with
      | none => none
      | some p => appendLoop max (some p) (len + 1) (n + 1) q
    else
      (store p len 0).map fun p => (some p, len, n)

/-- Strings are given by the characters before their NUL. -/
def strbufAppend (heap : Heap) (b : Strbuf) (str : List UInt8) : Option (Int × Strbuf) :=
  let go (p : Option Block) :=
    (appendLoop b.max p b.len 0 str).map fun r =>
      (r.2.2, { b with buf := r.1, len := r.2.1 })
  if b.max = strbufGrow then
    match realloc heap b.buf (b.len + str.length + 1) with
    | none => some (-1, b)
    | some new => go (some new)
  else
    go b.buf

/-- `char ar[2] = {c, '\0'}`. -/
def charStr (c : UInt8) : List UInt8 := if c = 0 then [] else [c]

def strbufAppendc (heap : Heap) (b : Strbuf) (c : UInt8) : Option (Int × Strbuf) :=
  strbufAppend heap b (charStr c)

/-- The shifts of `strbuf_insert`, once the buffer has been grown. -/
def insertShift (b : Strbuf) (idx : Int) (str : List UInt8) : Option (Int × Strbuf) :=
  let cut := hasMax b && decide (b.len + str.length > b.max)
  let len := if cut then max ((b.len - idx) - str.length) 0 else (b.len - idx) + 1
  let len' := if cut then b.len else b.len + str.length
  match memmove b.buf (idx + str.length) idx len with
  | none => none
  | some p =>
    match memmoveStr p idx str with
    | none => none
    | some p => some (str.length, { b with buf := p, len := len' })

def strbufInsert (heap : Heap) (b : Strbuf) (idx : Int) (str : List UInt8) :
    Option (Int × Strbuf) :=
  if idx > b.len ∨ idx < 0 then
    some (0, b)
  else if b.max = strbufGrow then
    match realloc heap b.buf (b.len + 1 + str.length) with
    | none => some (-1, b)
    | some new =>
      if b.buf.isNone then
        match store (some new) 0 0 with
        | none => none
        | some new => insertShift { b with buf := some new } idx str
      else
        insertShift { b with buf := some new } idx str
  else
    insertShift b idx str

def strbufInsertc (heap : Heap) (b : Strbuf) (idx : Int) (c : UInt8) : Option (Int × Strbuf) :=
  strbufInsert heap b idx (charStr c)

def strbufDelete (heap : Heap) (b : Strbuf) (idx nchars : Int) : Option (Int × Strbuf) :=
  if idx ≥ b.len ∨ idx < 0 then
    some (0, b)
  else
    match memmove b.buf idx (idx + nchars) (((b.len - idx) - nchars) + 1) with
    | none => none
    | some p =>
      let b := { b with buf := p }
      if b.max = strbufGrow then
        match realloc heap b.buf ((b.len + 1) - nchars) with
        | none => some (-1, b)
        | some new => some (nchars, { b with buf := some new, len := b.len - nchars })
      else
        some (nchars, { b with len := b.len - nchars })

def strbufDeletec (heap : Heap) (b : Strbuf) (idx : Int) : Option (Int × Strbuf) :=
  strbufDelete heap b idx 1

/-- The cells of a NUL-terminated text. -/
def cells (text : List UInt8) : Block := text.map some ++ [some 0]

/-- A growing buffer with the given text: NULL and empty, or exactly the text and its NUL. -/
structure Holds (b : Strbuf) (text : List UInt8) : Prop where
  grow : b.max = strbufGrow
  len : b.len = text.length
  buf : b.buf = some (cells text) ∨ b.buf = none ∧ text = []

variable {heap : Heap} {b : Strbuf} {text a m c str : List UInt8} {idx : Int}

theorem cells_append (a c : List UInt8) : cells (a ++ c) = a.map some ++ cells c := by
  simp [cells]

@[simp] theorem cells_length (text : List UInt8) : (cells text).length = text.length + 1 := by
  simp [cells]

theorem realloc_some {p : Option Block} {n : Nat} (hn : 0 < n) (h : heap n = true) :
    realloc heap p n = some (resize none (p.getD []) n) := by
  rw [realloc, if_pos ⟨by omega, by simpa using h⟩, Int.toNat_natCast]

theorem insertShift_grow (hb : b.max = strbufGrow) (hlen : b.len = (a ++ c).length)
    (hbuf : b.buf = some (cells (a ++ c) ++ List.replicate str.length none)) :
    ∃ b', insertShift b a.length str = some ((str.length : Int), b') ∧
      Holds b' (a ++ str ++ c) ∧ b'.buf.isSome = true := by
  obtain ⟨g, hg, hmove⟩ := move_up (a.map some) (cells c) (List.replicate str.length (none : Cell))
  have hcut : (hasMax b && decide (b.len + str.length > b.max)) = false := by
    simp [hasMax, hb]
  have hm : memmove b.buf (a.length + str.length) a.length (b.len - a.length + 1) =
      some (some (a.map some ++ g ++ cells c)) := by
    rw [memmove, if_neg (by simp [hlen]; omega), hbuf, Option.bind_some, cells_append]
    have hl : b.len - a.length + 1 = ((cells c).length : Int) := by simp [hlen]
    simp only [List.length_map, List.length_replicate, Nat.cast_add] at hmove
    rw [hl, hmove, Option.map_some]
  have hc : memmoveStr (some (a.map some ++ g ++ cells c)) a.length str =
      some (some (a.map some ++ str.map some ++ cells c)) := by
    by_cases hs : str = []
    · subst hs
      simp only [List.length_nil, List.replicate_zero, List.length_eq_zero_iff] at hg
      simp [memmoveStr, hg]
    · have h := copyIn_mid (a.map some) g (str.map some) (cells c) (by simpa using hg)
      rw [List.length_map] at h
      rw [memmoveStr, if_neg hs, Option.bind_some, h, Option.map_some]
  refine ⟨{ b with buf := some (a.map some ++ str.map some ++ cells c),
                   len := b.len + str.length }, ?_, ⟨hb, ?_, ?_⟩, rfl⟩
  · simp only [insertShift, hcut, Bool.false_eq_true, if_false, hm, hc]
  · simp [hlen]
    ring
  · left
    simp [cells]

/-- Insertion at the end of `a`. -/
theorem strbufInsert_grow (heap : Heap) (a str c : List UInt8) (h : Holds b (a ++ c))
    (hheap : heap ((a ++ c).length + 1 + str.length) = true) :
    ∃ b', strbufInsert heap b a.length str = some ((str.length : Int), b') ∧
      Holds b' (a ++ str ++ c) ∧ b'.buf.isSome = true := by
  have hidx : ¬((a.length : Int) > b.len ∨ (a.length : Int) < 0) := by
    rw [h.len]
    simp
  have hre := realloc_some (p := b.buf) (by omega) hheap
  have hsz : b.len + 1 + str.length = (((a ++ c).length + 1 + str.length : Nat) : Int) := by
    rw [h.len]
    push_cast
    ring
  rcases h.buf with hbuf | ⟨hbuf, htext⟩
  · have hres : resize none (b.buf.getD []) ((a ++ c).length + 1 + str.length) =
        cells (a ++ c) ++ List.replicate str.length none := by
      have := resize_grow none (cells (a ++ c)) str.length
      rw [cells_length] at this
      rw [hbuf, Option.getD_some, this]
    obtain ⟨b', hrun, hres'⟩ := insertShift_grow (b := { b with buf := some _ }) h.grow h.len
      (congrArg some hres)
    refine ⟨b', ?_, hres'⟩
    rw [strbufInsert, if_neg hidx, if_pos h.grow, hsz, hre]
    simpa [hbuf] using hrun
  · obtain ⟨rfl, rfl⟩ := List.append_eq_nil_iff.mp htext
    have hst : store (some (resize none (b.buf.getD []) (1 + str.length))) 0 0 =
        some (cells [] ++ List.replicate str.length none) := by
      have hl : 0 < (List.replicate (1 + str.length) (none : Cell)).length := by simp
      rw [hbuf, Option.getD_none, resize, List.take_nil, List.nil_append, List.length_nil,
        Nat.sub_zero, store, Option.bind_some, copyIn, if_pos (by simp)]
      simp [cells, List.drop_replicate]
    obtain ⟨b', hrun, hres'⟩ := insertShift_grow (a := []) (c := [])
      (b := { b with buf := some (cells [] ++ List.replicate str.length none) }) h.grow h.len rfl
    refine ⟨b', ?_, hres'⟩
    rw [strbufInsert, if_neg hidx, if_pos h.grow, hsz, hre]
    simp only [List.append_nil, List.length_nil, Nat.zero_add, hbuf, Option.isNone_none,
      if_true] at hrun ⊢
    rw [← hbuf, hst]
    exact hrun

/-- Deletion of `m`, which starts at the end of `a`. -/
theorem strbufDelete_grow (heap : Heap) (a m c : List UInt8)
    (h : Holds b (a ++ m ++ c)) (hm : m ≠ [])
    (hheap : heap ((a ++ c).length + 1) = true) :
    ∃ b', strbufDelete heap b a.length m.length = some ((m.length : Int), b') ∧
      Holds b' (a ++ c) := by
  have hpos : 0 < m.length := List.length_pos_iff.mpr hm
  have hidx : ¬((a.length : Int) ≥ b.len ∨ (a.length : Int) < 0) := by
    rw [h.len]
    simp
    omega
  have hbuf : b.buf = some (a.map some ++ m.map some ++ cells c) := by
    rcases h.buf with hbuf | ⟨-, htext⟩
    · rw [hbuf, cells_append, List.map_append]
    · exact absurd htext (by simp [hm])
  obtain ⟨g, -, hmove⟩ := move_down (a.map some) (m.map some) (cells c)
  have hmm : memmove b.buf a.length (a.length + m.length) (b.len - a.length - m.length + 1) =
      some (some (cells (a ++ c) ++ g)) := by
    have hl : b.len - a.length - m.length + 1 = ((cells c).length : Int) := by
      rw [h.len]
      simp
    simp only [List.length_map, Nat.cast_add] at hmove
    rw [memmove, if_neg (by rw [hl]; simp; omega), hbuf, Option.bind_some, hl, hmove,
      Option.map_some, cells_append]
  have hsz : b.len + 1 - m.length = (((a ++ c).length + 1 : Nat) : Int) := by
    rw [h.len]
    simp
    ring
  have hre := realloc_some (p := some (cells (a ++ c) ++ g)) (by omega) hheap
  have hres : resize none (cells (a ++ c) ++ g) ((a ++ c).length + 1) = cells (a ++ c) := by
    have := resize_shrink none (cells (a ++ c)) g
    rwa [cells_length] at this
  refine ⟨{ b with buf := some (cells (a ++ c)), len := b.len - m.length }, ?_, h.grow, ?_,
    Or.inl rfl⟩
  · rw [Option.getD_some, hres] at hre
    simp only [strbufDelete, if_neg hidx, hmm, if_pos h.grow, hsz, hre]
  · rw [h.len]
    simp
    ring

theorem strbufDelete_outside (heap : Heap) (idx nchars : Int) (h : b.len ≤ idx) :
    strbufDelete heap b idx nchars = some (0, b) := by
  rw [strbufDelete, if_pos (Or.inl h)]

theorem holds_init (heap : Heap) :
    ∃ b, strbufInit heap none strbufGrow = some (0, b) ∧ Holds b [] ∧ b.buf = none :=
  ⟨{ len := 0, max := strbufGrow, buf := none }, by simp [strbufInit, hasMax],
    ⟨rfl, rfl, Or.inr ⟨rfl, rfl⟩⟩, rfl⟩

end Console
