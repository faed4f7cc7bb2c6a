import CobaltRom.Console.StrbufOps

/-! String buffers with a maximum: what does not fit is to fall off the end. -/
namespace Console

open HeapBlock

/-- A text of at most `max` characters with its NUL, in a block whose bytes behind
`buf[max]` are `tail`. -/
structure Bounded (b : Strbuf) (max : Nat) (tail : Block) (text : List UInt8) : Prop where
  max_eq : b.max = max
  len : b.len = text.length
  buf : ∃ rest : Block, b.buf = some (text.map some ++ some 0 :: (rest ++ tail)) ∧
    text.length + rest.length = max
  nul : (0 : UInt8) ∉ text

/-- The call on a list of characters, cut off after `max` of them. -/
def editMax (max : Nat) (text : List UInt8) (op : StrbufOp) : List UInt8 := (op.edit text).take max

def editMaxAll (max : Nat) (ops : List StrbufOp) (text : List UInt8) : List UInt8 :=
  ops.foldl (editMax max) text

/-- `n` characters can be put in at `idx`: all fit, or the buffer is full and they end
before its end. -/
def InsertFits (max : Nat) (text : List UInt8) (idx : Int) (n : Nat) : Prop :=
  0 ≤ idx → idx ≤ text.length → text.length + n ≤ max ∨ text.length = max ∧ idx + n ≤ max

namespace StrbufOp

def Fits (max : Nat) (text : List UInt8) : StrbufOp → Prop
  | insert idx str => InsertFits max text idx str.text.length
  | insertc idx c => InsertFits max text idx (charStr c).length
  | _ => True

end StrbufOp

/-- Every call of the sequence meets `P` on the text it finds. -/
def Along (max : Nat) (P : List UInt8 → StrbufOp → Prop) : List StrbufOp → List UInt8 → Prop
  | [], _ => True
  | op :: ops, text => P text op ∧ Along max P ops (editMax max text op)

variable {heap : Heap} {b : Strbuf} {text str : List UInt8} {tail : Block} {max : Nat} {idx : Int}
  {op : StrbufOp} {ops : List StrbufOp}

theorem Bounded.le (h : Bounded b max tail text) : text.length ≤ max := by
  obtain ⟨rest, -, hr⟩ := h.buf
  omega

theorem Bounded.not_grow (h : Bounded b max tail text) : b.max ≠ strbufGrow := by
  rw [h.max_eq]
  simp only [strbufGrow]
  omega

/-! ### Appending and deleting -/

theorem Bounded.append (h : Bounded b max tail text) (heap : Heap) (hs : (0 : UInt8) ∉ str) :
    ∃ r b', strbufAppend heap b str = some (r, b') ∧
      Bounded b' max tail ((text ++ str).take max) := by
  obtain ⟨rest, hbuf, hrest⟩ := h.buf
  have hle := h.le
  obtain ⟨m, hm⟩ : ∃ m, m = min str.length (max - text.length) := ⟨_, rfl⟩
  have hloop := appendLoop_run (max : Int) str (text.map some) (some 0 :: (rest ++ tail)) 0 m
    (by omega) (by simp; omega) (fun j hj => Or.inr (by rw [List.length_map]; omega)) (by
      rw [List.length_map]
      omega)
  rw [List.length_map] at hloop
  have htake : (text ++ str).take max = text ++ str.take m := by
    rw [List.take_append, List.take_of_length_le hle]
    rcases Nat.le_total str.length (max - text.length) with hc | hc
    · rw [List.take_of_length_le hc, List.take_of_length_le (by omega)]
    · rw [show m = max - text.length by omega]
  refine ⟨0 + (m : Int), { b with buf := some (text.map some ++ (str.take m).map some ++
    some 0 :: (some 0 :: (rest ++ tail)).drop (m + 1)), len := text.length + (m : Int) }, ?_, ?_⟩
  · rw [strbufAppend, if_neg h.not_grow]
    simp only
    rw [h.max_eq, h.len, hbuf, hloop]
    rfl
  · have hlen : (str.take m).length = m := by
      rw [List.length_take]
      omega
    refine ⟨h.max_eq, ?_, ⟨rest.drop m, ?_, ?_⟩, ?_⟩
    · rw [htake, List.length_append, hlen]
      push_cast
      rfl
    · rw [htake, List.drop_succ_cons, List.drop_append_of_le_length (by omega), List.map_append]
    · rw [htake, List.length_append, hlen, List.length_drop]
      omega
    · rw [htake]
      exact fun hm' => (List.mem_append.mp hm').elim h.nul fun hm'' =>
        hs (List.mem_of_mem_take hm'')

theorem Bounded.delete (h : Bounded b max tail text) (heap : Heap) (n : Nat)
    (hin : 0 ≤ idx → idx < text.length → n ≤ text.length - idx) :
    ∃ r b', strbufDelete heap b idx n = some (r, b') ∧
      Bounded b' max tail ((deleteAt idx n text).take max) := by
  have hle := h.le
  by_cases hidx : idx ≥ text.length ∨ idx < 0
  · rw [deleteAt, if_pos hidx, List.take_of_length_le hle]
    refine ⟨0, b, ?_, h⟩
    rw [strbufDelete, h.len, if_pos hidx]
  · have hn := hin (by omega) (by omega)
    obtain ⟨k, rfl⟩ : ∃ k : Nat, idx = k := ⟨idx.toNat, (Int.toNat_of_nonneg (by omega)).symm⟩
    obtain ⟨rest, hbuf, hrest⟩ := h.buf
    have hsplit : text.take k ++ (text.drop k).take n ++ text.drop (k + n) = text := by
      rw [List.append_assoc, ← List.drop_drop, List.take_append_drop, List.take_append_drop]
    obtain ⟨a, ha⟩ : ∃ a, a = text.take k := ⟨_, rfl⟩
    obtain ⟨m, hm⟩ : ∃ m, m = (text.drop k).take n := ⟨_, rfl⟩
    obtain ⟨c, hc⟩ : ∃ c, c = text.drop (k + n) := ⟨_, rfl⟩
    rw [← ha, ← hm, ← hc] at hsplit
    have hak : a.length = k := by
      rw [ha, List.length_take]
      omega
    have hmn : m.length = n := by
      rw [hm, List.length_take, List.length_drop]
      omega
    have hedit : deleteAt k n text = a ++ c := by
      rw [deleteAt, if_neg hidx, Int.toNat_natCast, ← ha, ← hc]
    have htext : text.length = k + n + c.length := by
      rw [← hsplit, List.length_append, List.length_append, hak, hmn]
    obtain ⟨g, hg, hmove⟩ := move_down (a.map some) (m.map some) (cells c)
    have hblock : text.map some ++ some 0 :: (rest ++ tail) =
        a.map some ++ m.map some ++ cells c ++ (rest ++ tail) := by
      rw [← hsplit]
      simp [cells]
    have hmm : memmove b.buf k (k + (n : Int)) (b.len - k - n + 1) =
        some (some (a.map some ++ cells c ++ g ++ (rest ++ tail))) := by
      have hl : b.len - k - n + 1 = ((cells c).length : Int) := by
        rw [h.len, htext, cells_length]
        push_cast
        ring
      simp only [List.length_map, hak, hmn, Nat.cast_add] at hmove
      rw [memmove, if_neg (by rw [hl, cells_length]; omega), hbuf, Option.bind_some, hblock, hl,
        move_append _ hmove, Option.map_some]
    refine ⟨n, { b with buf := some (a.map some ++ cells c ++ g ++ (rest ++ tail)),
                        len := b.len - n }, ?_, ?_⟩
    · rw [strbufDelete, if_neg (by rw [h.len]; exact hidx), hmm]
      simp only [if_neg h.not_grow]
    · rw [hedit, List.take_of_length_le (by rw [List.length_append]; omega)]
      refine ⟨h.max_eq, ?_, ⟨g ++ rest, by simp [cells], ?_⟩, ?_⟩
      · simp only [h.len, htext, List.length_append, hak]
        push_cast
        ring
      · rw [List.length_map, hmn] at hg
        rw [List.length_append, List.length_append, hg, hak]
        omega
      · rw [← hsplit] at hle
        intro h0
        refine h.nul ?_
        rw [← hsplit]
        simp only [List.mem_append] at h0 ⊢
        exact h0.imp_left Or.inl

/-! ### Inserting -/

/-- The two copies of an insertion: `c` moves up over `fresh`, and the string fills the gap. -/
theorem shift_copy (str : List UInt8) (a c fresh w : Block) (hf : fresh.length = str.length) :
    ∃ p, memmove (some (a ++ c ++ fresh ++ w)) (a.length + (str.length : Int)) a.length c.length =
        some p ∧
      memmoveStr p a.length str = some (some (a ++ str.map some ++ (c ++ w))) := by
  have hcopy : ∀ g : Block, g.length = str.length →
      memmoveStr (some (a ++ g ++ (c ++ w))) a.length str =
        some (some (a ++ str.map some ++ (c ++ w))) := by
    intro g hg
    by_cases he : str = []
    · subst he
      rw [memmoveStr, if_pos rfl, List.eq_nil_of_length_eq_zero hg, List.map_nil]
    · rw [memmoveStr, if_neg he, Option.bind_some,
        copyIn_mid a g (str.map some) (c ++ w) (by rw [hg, List.length_map]), Option.map_some]
  by_cases hc : c = []
  · subst hc
    refine ⟨_, if_pos rfl, ?_⟩
    rw [List.append_nil, List.append_assoc, ← List.nil_append w, ← List.append_assoc]
    exact hcopy fresh hf
  · obtain ⟨g, hg, hmove⟩ := move_up a c fresh
    rw [hf, Nat.cast_add] at hmove
    refine ⟨_, ?_, hcopy g (hg.trans hf)⟩
    have hpos := List.length_pos_iff.mpr hc
    rw [memmove, if_neg (by omega), Option.bind_some, move_append w hmove, Option.map_some,
      List.append_assoc _ c]

/-- An insertion that fits shifts the text and its NUL up. -/
theorem Bounded.insert_room (h : Bounded b max tail text) (heap : Heap) {k : Nat}
    (hk : k ≤ text.length)
    (hs : (0 : UInt8) ∉ str) (hfit : text.length + str.length ≤ max) :
    ∃ r b', strbufInsert heap b k str = some (r, b') ∧
      Bounded b' max tail (text.take k ++ str ++ text.drop k) := by
  obtain ⟨rest, hbuf, hrest⟩ := h.buf
  obtain ⟨a, ha⟩ : ∃ a, a = text.take k := ⟨_, rfl⟩
  obtain ⟨c, hc⟩ : ∃ c, c = text.drop k := ⟨_, rfl⟩
  have htext : text = a ++ c := by rw [ha, hc, List.take_append_drop]
  have hak : a.length = k := by
    rw [ha, List.length_take]
    omega
  rw [← ha, ← hc]
  have hblock : text.map some ++ some 0 :: (rest ++ tail) =
      a.map some ++ cells c ++ rest.take str.length ++ (rest.drop str.length ++ tail) := by
    rw [List.append_assoc _ (rest.take _), ← List.append_assoc (rest.take _), List.take_append_drop,
      htext]
    simp [cells]
  have hl : b.len - k + 1 = ((cells c).length : Int) := by
    rw [h.len, htext, List.length_append, hak, cells_length]
    push_cast
    ring
  have hcut : (hasMax b && decide (b.len + str.length > b.max)) = false := by
    rw [h.len, h.max_eq, decide_eq_false (by omega), Bool.and_false]
  obtain ⟨p, hm, hcopy⟩ := shift_copy str (a.map some) (cells c) (rest.take str.length)
    (rest.drop str.length ++ tail) (by
      rw [List.length_take]
      omega)
  rw [← hblock, ← hbuf, List.length_map, hak, ← hl] at hm
  rw [List.length_map, hak] at hcopy
  refine ⟨str.length, { b with buf := some (a.map some ++ str.map some ++
    (cells c ++ (rest.drop str.length ++ tail))), len := b.len + str.length }, ?_, h.max_eq, ?_,
    ⟨rest.drop str.length, by simp [cells], ?_⟩, ?_⟩
  · rw [strbufInsert, if_neg (by rw [h.len]; omega), if_neg h.not_grow]
    simp only [insertShift, hcut, Bool.false_eq_true, if_false, hm, hcopy]
  · simp only [h.len, htext, List.length_append]
    push_cast
    ring
  · simp only [htext, List.length_append, List.length_drop] at hrest hfit ⊢
    omega
  · have hnul := h.nul
    rw [htext] at hnul
    simp only [List.mem_append] at hnul ⊢
    tauto

/-- In a full buffer the last characters fall off the end. -/
theorem Bounded.insert_full (h : Bounded b max tail text) (heap : Heap) {k : Nat}
    (hs : (0 : UInt8) ∉ str) (hfull : text.length = max) (hne : str ≠ [])
    (hfit : k + str.length ≤ max) :
    ∃ r b', strbufInsert heap b k str = some (r, b') ∧
      Bounded b' max tail (text.take k ++ str ++ (text.drop k).take (max - k - str.length)) := by
  obtain ⟨rest, hbuf, hrest⟩ := h.buf
  obtain rfl : rest = [] := List.eq_nil_of_length_eq_zero (by omega)
  rw [List.nil_append] at hbuf
  have hpos : 0 < str.length := List.length_pos_iff.mpr hne
  obtain ⟨a, ha⟩ : ∃ a, a = text.take k := ⟨_, rfl⟩
  obtain ⟨c, hc⟩ : ∃ c, c = (text.drop k).take (max - k - str.length) := ⟨_, rfl⟩
  obtain ⟨d, hd⟩ : ∃ d, d = (text.drop k).drop (max - k - str.length) := ⟨_, rfl⟩
  have htext : text = a ++ c ++ d := by
    rw [ha, hc, hd, List.append_assoc, List.take_append_drop, List.take_append_drop]
  have hak : a.length = k := by
    rw [ha, List.length_take]
    omega
  have hcl : c.length = max - k - str.length := by
    rw [hc, List.length_take, List.length_drop]
    omega
  have hdl : d.length = str.length := by
    rw [hd, List.length_drop, List.length_drop]
    omega
  rw [← ha, ← hc]
  have hblock : text.map some ++ some 0 :: tail =
      a.map some ++ c.map some ++ d.map some ++ some 0 :: tail := by
    rw [htext, List.map_append, List.map_append]
  have hcut : (hasMax b && decide (b.len + str.length > b.max)) = true := by
    rw [hasMax, h.len, h.max_eq, decide_eq_true (by omega), decide_eq_true (by omega)]
    rfl
  have hl : Max.max (b.len - k - str.length) 0 = ((c.map some).length : Int) := by
    rw [h.len, List.length_map, hcl, hfull]
    omega
  obtain ⟨p, hm, hcopy⟩ := shift_copy str (a.map some) (c.map some) (d.map some)
    (some 0 :: tail) (by rw [List.length_map, hdl])
  rw [← hblock, ← hbuf, List.length_map, hak, ← hl] at hm
  rw [List.length_map, hak] at hcopy
  refine ⟨str.length, { b with buf := some (a.map some ++ str.map some ++
    (c.map some ++ some 0 :: tail)) }, ?_, h.max_eq, ?_, ⟨[], by simp, ?_⟩, ?_⟩
  · rw [strbufInsert, if_neg (by rw [h.len]; omega), if_neg h.not_grow]
    simp only [insertShift, hcut, if_true, hm, hcopy]
  · simp only [h.len, List.length_append, hak, hcl, hfull]
    omega
  · simp only [List.length_append, hak, hcl, List.length_nil]
    omega
  · have hnul := h.nul
    rw [htext] at hnul
    simp only [List.mem_append] at hnul ⊢
    tauto

/-- Otherwise the text stays shorter than it should be, or the string covers the NUL. -/
theorem Bounded.insert_spoils (h : Bounded b max tail text) (heap : Heap) {k : Nat}
    (hk : k ≤ text.length) (hs : (0 : UInt8) ∉ str) (hover : max < text.length + str.length)
    (hno : ¬ (text.length = max ∧ k + str.length ≤ max)) {r : Int} {b' : Strbuf}
    (hrun : strbufInsert heap b k str = some (r, b')) {text' : List UInt8}
    (htext' : text'.length = max) : ¬ Bounded b' max tail text' := by
  intro h'
  have hle := h.le
  have hcut : (hasMax b && decide (b.len + str.length > b.max)) = true := by
    rw [hasMax, h.len, h.max_eq, decide_eq_true (by omega), decide_eq_true (by omega)]
    rfl
  rw [strbufInsert, if_neg (by rw [h.len]; omega), if_neg h.not_grow] at hrun
  simp only [insertShift, hcut, if_true] at hrun
  split at hrun
  · cases hrun
  · rename_i p hm
    split at hrun
    · cases hrun
    · rename_i q hcopy
      simp only [Option.some.injEq, Prod.mk.injEq] at hrun
      obtain ⟨-, rfl⟩ := hrun
      have hlen := h'.len
      simp only [h.len] at hlen
      have hkm : max < k + str.length := by omega
      have hne : str ≠ [] := by
        intro he
        rw [he, List.length_nil] at hkm
        omega
      rw [memmoveStr, if_neg hne] at hcopy
      cases p with
      | none => cases hcopy
      | some p =>
        simp only [Option.bind_some, Option.map_eq_some_iff] at hcopy
        obtain ⟨q, hq, rfl⟩ := hcopy
        obtain ⟨rest, hbuf, hrest⟩ := h'.buf
        simp only [Option.some.injEq] at hbuf
        rw [copyIn] at hq
        split at hq
        · rename_i hin
          -- the cell of the NUL, as the copy left it
          have hcell := congrArg (fun l => l[max]?) (Option.some.inj hq)
          simp only [hbuf] at hcell
          rw [List.length_map] at hin
          rw [List.length_map, Int.toNat_natCast] at hcell
          have hold : (text'.map some ++ some 0 :: (rest ++ tail))[max]? = some (some 0) := by
            rw [List.getElem?_append_right (by rw [List.length_map]; omega), List.length_map,
              htext', Nat.sub_self, List.getElem?_cons_zero]
          have hnew : (p.take k ++ str.map some ++ p.drop ((k : Int) + str.length).toNat)[max]? =
              (str.map some)[max - k]? := by
            rw [List.getElem?_append_left (by
              rw [List.length_append, List.length_take, List.length_map]
              omega), List.getElem?_append_right (by rw [List.length_take]; omega),
              List.length_take, Nat.min_eq_left (by omega)]
          rw [hold, hnew, List.getElem?_map] at hcell
          simp only [Option.map_eq_some_iff, Option.some.injEq, exists_eq_right] at hcell
          exact hs (List.mem_of_getElem? hcell)
        · cases hq

/-! ### One call, a sequence, and the start -/

theorem editMax_insert_room {k : Nat} (hk : k ≤ text.length)
    (hfit : text.length + str.length ≤ max) :
    (insertAt k str text).take max = text.take k ++ str ++ text.drop k := by
  rw [insertAt, if_neg (by omega), Int.toNat_natCast, List.take_of_length_le]
  simp only [List.length_append, List.length_take, List.length_drop]
  omega

theorem editMax_insert_full {k : Nat} (hk : k ≤ text.length) (hfit : k + str.length ≤ max) :
    (insertAt k str text).take max =
      text.take k ++ str ++ (text.drop k).take (max - k - str.length) := by
  have hl : (text.take k ++ str).length = k + str.length := by
    rw [List.length_append, List.length_take]
    omega
  rw [insertAt, if_neg (by omega), Int.toNat_natCast, List.take_append, hl,
    List.take_of_length_le (by omega), Nat.sub_sub]

theorem Bounded.insert_iff (h : Bounded b max tail text) (heap : Heap) (idx : Int)
    (hs : (0 : UInt8) ∉ str) :
    (∃ r b', strbufInsert heap b idx str = some (r, b') ∧
      Bounded b' max tail ((insertAt idx str text).take max)) ↔
      InsertFits max text idx str.length := by
  have hle := h.le
  by_cases hidx : idx > text.length ∨ idx < 0
  · refine ⟨fun _ _ _ => by omega, fun _ => ⟨0, b, ?_, ?_⟩⟩
    · rw [strbufInsert, h.len, if_pos hidx]
    · rwa [insertAt, if_pos hidx, List.take_of_length_le hle]
  · obtain ⟨k, rfl⟩ : ∃ k : Nat, idx = k := ⟨idx.toNat, (Int.toNat_of_nonneg (by omega)).symm⟩
    have hk : k ≤ text.length := by omega
    by_cases hroom : text.length + str.length ≤ max
    · rw [editMax_insert_room hk hroom]
      exact ⟨fun _ _ _ => Or.inl hroom, fun _ => h.insert_room heap hk hs hroom⟩
    · by_cases hfull : text.length = max ∧ k + str.length ≤ max
      · rw [editMax_insert_full hk hfull.2]
        refine ⟨fun _ _ _ => Or.inr ⟨hfull.1, by exact_mod_cast hfull.2⟩, fun _ =>
          h.insert_full heap hs hfull.1 ?_ hfull.2⟩
        rintro rfl
        rw [List.length_nil] at hroom
        omega
      · constructor
        · rintro ⟨r, b', hrun, hb'⟩
          refine absurd hb' (h.insert_spoils heap hk hs (by omega) hfull hrun ?_)
          rw [List.length_take, insertAt, if_neg hidx, List.length_append, List.length_append,
            List.length_take, List.length_drop]
          omega
        · intro hfits
          have := hfits (by omega) (by omega)
          omega

/-- A call does what it should exactly when what it inserts fits. -/
theorem StrbufOp.exec_bounded_iff (op : StrbufOp) (h : Bounded b max tail text) (heap : Heap)
    (hin : op.InRange text) :
    (∃ r b', op.exec heap b = some (r, b') ∧ Bounded b' max tail (editMax max text op)) ↔
      op.Fits max text := by
  cases op with
  | append str => exact iff_of_true (h.append heap str.nul) trivial
  | appendc c => exact iff_of_true (h.append heap (zero_not_mem_charStr c)) trivial
  | insert idx str => exact h.insert_iff heap idx str.nul
  | insertc idx c => exact h.insert_iff heap idx (zero_not_mem_charStr c)
  | delete idx n => exact iff_of_true (h.delete heap n hin) trivial
  | deletec idx => exact iff_of_true (h.delete heap 1 fun _ _ => by omega) trivial

/-- Through a whole sequence. -/
theorem Bounded.run_iff (ops : List StrbufOp) (h : Bounded b max tail text) (heap : Heap)
    (hin : Along max (fun text op => op.InRange text) ops text) :
    (∀ k, ∃ b', runOps heap (ops.take k) b = some b' ∧
      Bounded b' max tail (editMaxAll max (ops.take k) text)) ↔
      Along max (fun text op => op.Fits max text) ops text := by
  induction ops generalizing b text with
  | nil => exact iff_of_true (fun k => ⟨b, by rw [List.take_nil, runOps], by
      rwa [List.take_nil, editMaxAll, List.foldl_nil]⟩) trivial
  | cons op ops ih =>
    constructor
    · intro hall
      have hone : ∃ r b₁, op.exec heap b = some (r, b₁) ∧
          Bounded b₁ max tail (editMax max text op) := by
        obtain ⟨b₁, hrun, hb₁⟩ := hall 1
        rw [List.take_succ_cons, List.take_zero, runOps, Option.bind_eq_some_iff] at hrun
        obtain ⟨⟨r, b₂⟩, hex, hrun⟩ := hrun
        cases hrun
        exact ⟨r, b₂, hex, hb₁⟩
      refine ⟨(op.exec_bounded_iff h heap hin.1).mp hone, ?_⟩
      obtain ⟨r, b₁, hex, hb₁⟩ := hone
      refine (ih hb₁ hin.2).mp fun k => ?_
      obtain ⟨b', hrun, hb'⟩ := hall (k + 1)
      rw [List.take_succ_cons, runOps, hex, Option.bind_some] at hrun
      exact ⟨b', hrun, hb'⟩
    · rintro ⟨hfit, hrest⟩ k
      cases k with
      | zero => exact ⟨b, rfl, h⟩
      | succ k =>
        obtain ⟨r, b₁, hex, hb₁⟩ := (op.exec_bounded_iff h heap hin.1).mpr hfit
        obtain ⟨b', hrun, hb'⟩ := (ih hb₁ hin.2).mpr hrest k
        refine ⟨b', ?_, hb'⟩
        rw [List.take_succ_cons, runOps, hex, Option.bind_some]
        exact hrun

/-- The start: a new block of `max + 1` bytes, or a given one that has room for them. -/
theorem bounded_init (heap : Heap) (max : Nat) (str : Option Block)
    (hheap : str = none → heap (max + 1) = true) (hroom : ∀ p, str = some p → max < p.length) :
    ∃ b, strbufInit heap str max = some (0, b) ∧
      Bounded b max ((str.getD []).drop (max + 1)) [] := by
  have hmax : ∀ s, hasMax { len := 0, max := (max : Int), buf := s } = true := fun s =>
    decide_eq_true (Int.natCast_nonneg max)
  cases str with
  | none =>
    refine ⟨{ len := 0, max := max, buf := some (some 0 :: List.replicate max none) }, ?_, rfl, rfl,
      ⟨List.replicate max none, by simp, by simp⟩, List.not_mem_nil⟩
    have hm : malloc heap (max + 1) = some (List.replicate (max + 1) none) := by
      rw [malloc, if_pos ⟨by omega, hheap rfl⟩]
      rfl
    rw [strbufInit, Option.isNone_none, hmax, hm]
    simp [store, copyIn, List.replicate_succ]
  | some p =>
    have hp := hroom p rfl
    cases p with
    | nil => exact absurd hp (Nat.not_lt_zero max)
    | cons x p =>
      rw [List.length_cons] at hp
      refine ⟨{ len := 0, max := max, buf := some (some 0 :: p) }, ?_, rfl, rfl,
        ⟨p.take max, ?_, ?_⟩, List.not_mem_nil⟩
      · have := store_mid [] p x 0
        simpa [strbufInit] using this
      · rw [Option.getD_some, List.drop_succ_cons, List.take_append_drop]
        rfl
      · rw [List.length_nil, List.length_take]
        omega

/-- A string buffer with a maximum is the list cut off at it, with its NUL and nothing
written behind `buf[max]`, as long as the insertions fit and no longer. -/
theorem strbuf_max_truncates_iff (heap : Heap) (max : Nat) (str : Option Block)
    (hheap : str = none → heap (max + 1) = true) (hroom : ∀ p, str = some p → max < p.length)
    (ops : List StrbufOp) (hin : Along max (fun text op => op.InRange text) ops []) :
    (∃ b₀, strbufInit heap str max = some (0, b₀) ∧
      ∀ k, ∃ b, runOps heap (ops.take k) b₀ = some b ∧
        Bounded b max ((str.getD []).drop (max + 1)) (editMaxAll max (ops.take k) [])) ↔
      Along max (fun text op => op.Fits max text) ops [] := by
  obtain ⟨b₀, hinit, hb₀⟩ := bounded_init heap max str hheap hroom
  rw [← hb₀.run_iff ops heap hin]
  constructor
  · rintro ⟨b, hb, hall⟩
    rw [hinit, Option.some.injEq, Prod.mk.injEq] at hb
    rwa [hb.2]
  · exact fun hall => ⟨b₀, hinit, hall⟩

/-- `x` put before the last of the two characters that a buffer of two holds. -/
theorem strbuf_max_truncates_two : ∃ b₀, strbufInit (fun _ => true) none (2 : Nat) = some (0, b₀) ∧
    ∀ k, ∃ b,
      runOps (fun _ => true) ([.appendc 97, .appendc 98, .insertc 1 120].take k) b₀ = some b ∧
      Bounded b 2 [] (editMaxAll 2 ([.appendc 97, .appendc 98, .insertc 1 120].take k) []) :=
  (strbuf_max_truncates_iff (fun _ => true) 2 none (fun _ => rfl) (fun _ h => by cases h)
    [.appendc 97, .appendc 98, .insertc 1 120] ⟨trivial, trivial, trivial, trivial⟩).mpr
    ⟨trivial, trivial, fun _ _ => Or.inr ⟨rfl, by decide⟩, trivial⟩

def sixteen : CStr :=
  ⟨[48, 49, 50, 51, 52, 53, 54, 55, 56, 57, 97, 98, 99, 100, 101, 102], by decide⟩

/-- Sixteen characters put into an empty buffer of fifteen: all are stored, the length stays
0 and no NUL is left in the block. -/
theorem strbuf_max_overrun : ∃ b₀ b, strbufInit (fun _ => true) none (15 : Nat) = some (0, b₀) ∧
    runOps (fun _ => true) [.insert 0 sixteen] b₀ = some b ∧ b.len = 0 ∧
    b.buf = some (sixteen.text.map some) ∧
    ¬ Bounded b 15 [] (editMaxAll 15 [.insert 0 sixteen] []) := by
  refine ⟨_, _, rfl, rfl, rfl, rfl, fun h => ?_⟩
  have := h.len
  exact absurd this (by decide)

end Console
