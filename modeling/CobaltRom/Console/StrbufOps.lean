import CobaltRom.Console.Strbuf

/-! Sequences of calls on a string buffer, and the growing buffer as a list. -/
namespace Console

open HeapBlock

/-- A string argument: the characters before its NUL. -/
structure CStr where
  text : List UInt8
  nul : (0 : UInt8) ∉ text

inductive StrbufOp
  | append (str : CStr)
  | appendc (c : UInt8)
  | insert (idx : Int) (str : CStr)
  | insertc (idx : Int) (c : UInt8)
  | delete (idx : Int) (nchars : Nat)
  | deletec (idx : Int)

/-- The text with `str` put in at `idx`; an index outside the text changes nothing. -/
def insertAt (idx : Int) (str text : List UInt8) : List UInt8 :=
  if idx > text.length ∨ idx < 0 then text
  else text.take idx.toNat ++ str ++ text.drop idx.toNat

/-- The text without the `nchars` characters at `idx`. -/
def deleteAt (idx : Int) (nchars : Nat) (text : List UInt8) : List UInt8 :=
  if idx ≥ text.length ∨ idx < 0 then text
  else text.take idx.toNat ++ text.drop (idx.toNat + nchars)

namespace StrbufOp

def exec (heap : Heap) (b : Strbuf) : StrbufOp → Option (Int × Strbuf)
  | append str => strbufAppend heap b str.text
  | appendc c => strbufAppendc heap b c
  | insert idx str => strbufInsert heap b idx str.text
  | insertc idx c => strbufInsertc heap b idx c
  | delete idx n => strbufDelete heap b idx n
  | deletec idx => strbufDeletec heap b idx

/-- The same on a list of characters. -/
def edit (text : List UInt8) : StrbufOp → List UInt8
  | append str => text ++ str.text
  | appendc c => text ++ charStr c
  | insert idx str => insertAt idx str.text text
  | insertc idx c => insertAt idx (charStr c) text
  | delete idx n => deleteAt idx n text
  | deletec idx => deleteAt idx 1 text

/-- A deletion does not reach beyond the end of the text. -/
def InRange (text : List UInt8) : StrbufOp → Prop
  | delete idx n => 0 ≤ idx → idx < text.length → n ≤ text.length - idx
  | _ => True

/-- The call gets as far as its `realloc`. -/
def Reallocs (text : List UInt8) : StrbufOp → Prop
  | append _ | appendc _ => True
  | insert idx _ | insertc idx _ => 0 ≤ idx ∧ idx ≤ text.length
  | delete idx _ | deletec idx => 0 ≤ idx ∧ idx < text.length

/-- The heap serves the `realloc` of the call, if it makes one. -/
def Served (heap : Heap) (text : List UInt8) (op : StrbufOp) : Prop :=
  op.Reallocs text → heap ((op.edit text).length + 1) = true

end StrbufOp

/-- The calls one after the other. -/
def runOps (heap : Heap) : List StrbufOp → Strbuf → Option Strbuf
  | [], b => some b
  | op :: ops, b => (op.exec heap b).bind fun r => runOps heap ops r.2

def editAll (ops : List StrbufOp) (text : List UInt8) : List UInt8 := ops.foldl StrbufOp.edit text

/-- Every call of the sequence stays in the text and gets its memory. -/
def Granted (heap : Heap) : List StrbufOp → List UInt8 → Prop
  | [], _ => True
  | op :: ops, text => op.InRange text ∧ op.Served heap text ∧ Granted heap ops (op.edit text)

variable {heap : Heap} {b : Strbuf} {text str a w : List UInt8} {idx : Int} {op : StrbufOp}
  {ops : List StrbufOp}

/-! ### Appending -/

theorem store_mid (l r : Block) (x : Cell) (c : UInt8) :
    store (some (l ++ x :: r)) l.length c = some (l ++ some c :: r) := by
  have h := copyIn_mid l [x] [some c] r rfl
  simpa [store] using h

/-- The loop copies `m` characters and then stops, at the end of the string or at the
maximum. -/
theorem appendLoop_run (max : Int) (str : List UInt8) : ∀ (l r : Block) (n : Int) (m : Nat),
    m ≤ str.length → m < r.length → (∀ j < m, max < 0 ∨ (l.length : Int) + j < max) →
    (m = str.length ∨ ¬ (max < 0 ∨ (l.length : Int) + m < max)) →
    appendLoop max (some (l ++ r)) l.length n str =
      some (some (l ++ (str.take m).map some ++ some 0 :: r.drop (m + 1)), (l.length : Int) + m,
        n + m) := by
  induction str with
  | nil =>
    intro l r n m hm hr _ _
    obtain rfl : m = 0 := Nat.le_zero.mp hm
    cases r with
    | nil => exact absurd hr (Nat.not_lt_zero 0)
    | cons x r => simp [appendLoop, store_mid]
  | cons c q ih =>
    intro l r n m hm hr hgo hstop
    cases r with
    | nil => exact absurd hr (Nat.not_lt_zero m)
    | cons x r =>
      unfold appendLoop
      cases m with
      | zero =>
        have hno : ¬ (max < 0 ∨ (l.length : Int) < max) := by
          rcases hstop with h | h
          · cases h
          · simpa using h
        rw [if_neg hno, store_mid]
        simp
      | succ m =>
        have hyes : max < 0 ∨ (l.length : Int) < max := by
          have := hgo 0 (Nat.succ_pos m)
          simpa using this
        rw [if_pos hyes, store_mid]
        have hlen : ((l ++ [some c]).length : Int) = l.length + 1 := by simp
        have hrun := ih (l ++ [some c]) r (n + 1) m (by simpa using hm) (by simpa using hr)
          (fun j hj => by
            have := hgo (j + 1) (by omega)
            rw [hlen]
            push_cast at this
            omega)
          (by
            rw [hlen]
            push_cast at hstop
            simp only [List.length_cons] at hstop
            omega)
        rw [hlen] at hrun
        simp only [List.append_assoc, List.singleton_append] at hrun
        simp only [hrun, Option.some.injEq, Prod.mk.injEq, List.take_succ_cons, List.map_cons,
          List.append_assoc, List.cons_append, List.drop_succ_cons, true_and]
        push_cast
        exact ⟨by omega, by omega⟩

theorem strbufAppend_grow (heap : Heap) (str : List UInt8) (h : Holds b text)
    (hheap : heap ((text ++ str).length + 1) = true) :
    ∃ b', strbufAppend heap b str = some ((str.length : Int), b') ∧ Holds b' (text ++ str) := by
  have hre := realloc_some (p := b.buf) (by omega) hheap
  have hsz : b.len + str.length + 1 = (((text ++ str).length + 1 : Nat) : Int) := by
    rw [h.len]
    simp
  obtain ⟨r, hr, hres⟩ : ∃ r : Block, r.length = str.length + 1 ∧
      resize none (b.buf.getD []) ((text ++ str).length + 1) = text.map some ++ r := by
    rcases h.buf with hb | ⟨hb, rfl⟩
    · refine ⟨some 0 :: List.replicate str.length none, by simp, ?_⟩
      have := resize_grow none (cells text) str.length
      rw [cells_length, show text.length + 1 + str.length = (text ++ str).length + 1 by
        simp; omega] at this
      rw [hb, Option.getD_some, this]
      simp [cells]
    · refine ⟨List.replicate (str.length + 1) none, by simp, ?_⟩
      rw [hb, Option.getD_none, resize]
      simp
  have hgo : strbufGrow < 0 := by decide
  have hloop := appendLoop_run strbufGrow str (text.map some) r 0 str.length (Nat.le_refl _)
    (by omega) (fun _ _ => Or.inl hgo) (Or.inl rfl)
  rw [List.length_map, List.take_length, List.drop_of_length_le (by omega)] at hloop
  refine ⟨{ b with buf := some (text.map some ++ str.map some ++ [some 0]),
                   len := text.length + str.length }, ?_, h.grow, by simp, Or.inl ?_⟩
  · rw [strbufAppend, if_pos h.grow, hsz, hre, hres]
    simp only
    rw [h.grow, h.len, hloop]
    simp
  · simp [cells]

/-! ### One call and a sequence -/

theorem zero_not_mem_charStr (c : UInt8) : (0 : UInt8) ∉ charStr c := by
  rw [charStr]
  split
  · exact List.not_mem_nil
  · rename_i h
    simpa using fun h' => h h'.symm

theorem insert_holds (heap : Heap) (idx : Int) (str : List UInt8) (h : Holds b text)
    (hheap : 0 ≤ idx ∧ idx ≤ text.length → heap ((insertAt idx str text).length + 1) = true) :
    ∃ r b', strbufInsert heap b idx str = some (r, b') ∧ Holds b' (insertAt idx str text) := by
  by_cases hidx : idx > text.length ∨ idx < 0
  · rw [insertAt, if_pos hidx]
    refine ⟨0, b, ?_, h⟩
    rw [strbufInsert, h.len, if_pos hidx]
  · replace hheap := hheap ⟨by omega, by omega⟩
    rw [insertAt, if_neg hidx] at hheap ⊢
    have hlen : (text.take idx.toNat).length = idx.toNat := by
      rw [List.length_take]
      omega
    have hsplit : Holds b (text.take idx.toNat ++ text.drop idx.toNat) := by
      rwa [List.take_append_drop]
    obtain ⟨b', hrun, hb', -⟩ := strbufInsert_grow heap _ str _ hsplit (by
      rw [← hheap]
      congr 1
      simp only [List.length_append]
      omega)
    rw [hlen, Int.toNat_of_nonneg (by omega)] at hrun
    exact ⟨_, b', hrun, hb'⟩

theorem delete_holds (heap : Heap) (idx : Int) (n : Nat) (h : Holds b text)
    (hin : 0 ≤ idx → idx < text.length → n ≤ text.length - idx)
    (hheap : 0 ≤ idx ∧ idx < text.length → heap ((deleteAt idx n text).length + 1) = true) :
    ∃ r b', strbufDelete heap b idx n = some (r, b') ∧ Holds b' (deleteAt idx n text) := by
  by_cases hidx : idx ≥ text.length ∨ idx < 0
  · rw [deleteAt, if_pos hidx]
    refine ⟨0, b, ?_, h⟩
    rw [strbufDelete, h.len, if_pos hidx]
  · replace hheap := hheap ⟨by omega, by omega⟩
    rw [deleteAt, if_neg hidx] at hheap ⊢
    have hn := hin (by omega) (by omega)
    obtain ⟨k, rfl⟩ : ∃ k : Nat, idx = k := ⟨idx.toNat, (Int.toNat_of_nonneg (by omega)).symm⟩
    rw [Int.toNat_natCast] at hheap ⊢
    have ha : (text.take k).length = k := by
      rw [List.length_take]
      omega
    have hm : ((text.drop k).take n).length = n := by
      rw [List.length_take, List.length_drop]
      omega
    have hsplit : text.take k ++ (text.drop k).take n ++ text.drop (k + n) = text := by
      rw [List.append_assoc, ← List.drop_drop, List.take_append_drop, List.take_append_drop]
    by_cases h0 : n = 0
    · -- nothing is cut out, but the block moves onto itself
      subst h0
      have hbuf : b.buf = some (cells text) := by
        rcases h.buf with hb | ⟨-, rfl⟩
        · exact hb
        · simp at hidx
      have hmove : memmove b.buf k (k + (0 : Nat)) (b.len - k - (0 : Nat) + 1) =
          some (some (cells text)) := by
        have hk : k ≤ (cells text).length := by
          rw [cells_length]
          omega
        rw [memmove, if_neg (by rw [h.len]; omega), hbuf, Option.bind_some, move, if_pos (by
          rw [h.len, cells_length]
          omega), Option.map_some, h.len]
        have ht : ((text.length : Int) - k - (0 : Nat) + 1).toNat = (cells text).length - k := by
          rw [cells_length]
          omega
        have hd : ((k : Int) + ((text.length : Int) - k - (0 : Nat) + 1)).toNat =
            (cells text).length := by
          rw [cells_length]
          omega
        rw [ht, hd, List.drop_length, List.append_nil, Nat.cast_zero, add_zero, Int.toNat_natCast,
          ← List.length_drop, List.take_length, List.take_append_drop]
      have hsz : b.len + 1 - (0 : Nat) = ((text.length + 1 : Nat) : Int) := by
        rw [h.len]
        simp
      simp only [Nat.add_zero, List.take_append_drop] at hheap ⊢
      have hre := realloc_some (p := some (cells text)) (by omega) hheap
      have hres : resize none (cells text) (text.length + 1) = cells text := by
        have := resize_grow none (cells text) 0
        rw [cells_length] at this
        simpa using this
      rw [Option.getD_some, hres] at hre
      refine ⟨((0 : Nat) : Int),
        { b with buf := some (cells text), len := b.len - (0 : Nat) }, ?_, h.grow,
        by rw [h.len]; simp, Or.inl rfl⟩
      rw [strbufDelete, if_neg (by rw [h.len]; exact hidx), hmove]
      simp only [if_pos h.grow, hsz, hre]
    · have hne : (text.drop k).take n ≠ [] := by
        intro he
        rw [he] at hm
        exact h0 hm.symm
      obtain ⟨b', hrun, hb'⟩ := strbufDelete_grow heap _ _ _ (by rwa [hsplit]) hne hheap
      rw [ha, hm] at hrun
      exact ⟨_, b', hrun, hb'⟩

theorem StrbufOp.exec_holds (op : StrbufOp) (h : Holds b text) (hin : op.InRange text)
    (hheap : op.Served heap text) :
    ∃ r b', op.exec heap b = some (r, b') ∧ Holds b' (op.edit text) := by
  cases op with
  | append str =>
    obtain ⟨b', hrun, hb'⟩ := strbufAppend_grow heap str.text h (hheap trivial)
    exact ⟨_, b', hrun, hb'⟩
  | appendc c =>
    obtain ⟨b', hrun, hb'⟩ := strbufAppend_grow heap (charStr c) h (hheap trivial)
    exact ⟨_, b', hrun, hb'⟩
  | insert idx str => exact insert_holds heap idx str.text h hheap
  | insertc idx c => exact insert_holds heap idx (charStr c) h hheap
  | delete idx n => exact delete_holds heap idx n h hin hheap
  | deletec idx => exact delete_holds heap idx 1 h (fun h0 hlt => by omega) hheap

theorem mem_insertAt {x : UInt8} (h : x ∈ insertAt idx str text) : x ∈ str ∨ x ∈ text := by
  rw [insertAt] at h
  split at h
  · exact Or.inr h
  · simp only [List.mem_append] at h
    rcases h with (h | h) | h
    · exact Or.inr (List.mem_of_mem_take h)
    · exact Or.inl h
    · exact Or.inr (List.mem_of_mem_drop h)

theorem mem_deleteAt {x : UInt8} {n : Nat} (h : x ∈ deleteAt idx n text) : x ∈ text := by
  rw [deleteAt] at h
  split at h
  · exact h
  · rcases List.mem_append.mp h with h | h
    · exact List.mem_of_mem_take h
    · exact List.mem_of_mem_drop h

/-- No call puts a NUL into the text. -/
theorem StrbufOp.edit_nul (op : StrbufOp) (h : (0 : UInt8) ∉ text) :
    (0 : UInt8) ∉ op.edit text := by
  cases op with
  | append str => exact fun hm => (List.mem_append.mp hm).elim h str.nul
  | appendc c => exact fun hm => (List.mem_append.mp hm).elim h (zero_not_mem_charStr c)
  | insert idx str => exact fun hm => (mem_insertAt hm).elim str.nul h
  | insertc idx c => exact fun hm => (mem_insertAt hm).elim (zero_not_mem_charStr c) h
  | delete idx n => exact fun hm => h (mem_deleteAt hm)
  | deletec idx => exact fun hm => h (mem_deleteAt hm)

theorem editAll_nul (ops : List StrbufOp) : ∀ text : List UInt8, (0 : UInt8) ∉ text →
    (0 : UInt8) ∉ editAll ops text := by
  induction ops with
  | nil => exact fun _ h => h
  | cons op ops ih => exact fun text h => ih _ (op.edit_nul h)

theorem runOps_holds (ops : List StrbufOp) : ∀ (b : Strbuf) (text : List UInt8), Holds b text →
    Granted heap ops text →
    ∃ b', runOps heap ops b = some b' ∧ Holds b' (editAll ops text) := by
  induction ops with
  | nil => exact fun b text h _ => ⟨b, rfl, h⟩
  | cons op ops ih =>
    rintro b text h ⟨hin, hheap, hrest⟩
    obtain ⟨r, b₁, he, h₁⟩ := op.exec_holds h hin hheap
    obtain ⟨b', hrun, hb'⟩ := ih b₁ _ h₁ hrest
    refine ⟨b', ?_, hb'⟩
    rw [runOps, he]
    exact hrun

theorem Granted.take (h : Granted heap ops text) (k : Nat) : Granted heap (ops.take k) text := by
  induction ops generalizing text k with
  | nil =>
    rw [List.take_nil]
    trivial
  | cons op ops ih =>
    cases k with
    | zero => trivial
    | succ k => exact ⟨h.1, h.2.1, ih h.2.2 k⟩

/-- A growing buffer that starts from NULL is the list of its characters after every call;
no call leaves the block of the last `realloc`. -/
theorem strbuf_grow_list (heap : Heap) (ops : List StrbufOp) (h : Granted heap ops []) (k : Nat) :
    ∃ b₀ b, strbufInit heap none strbufGrow = some (0, b₀) ∧
      runOps heap (ops.take k) b₀ = some b ∧ Holds b (editAll (ops.take k) []) ∧
      (0 : UInt8) ∉ editAll (ops.take k) [] := by
  obtain ⟨b₀, hinit, h₀, -⟩ := holds_init heap
  obtain ⟨b, hrun, hb⟩ := runOps_holds (ops.take k) b₀ [] h₀ (h.take k)
  exact ⟨b₀, b, hinit, hrun, hb, editAll_nul _ _ List.not_mem_nil⟩

/-- `b` appended to NULL, `a` put before it, then the `b` taken out. -/
theorem strbuf_grow_list_two : ∃ b₀ b, strbufInit (fun _ => true) none strbufGrow = some (0, b₀) ∧
    runOps (fun _ => true) [.appendc 98, .insertc 0 97, .deletec 1] b₀ = some b ∧ Holds b [97] := by
  obtain ⟨b₀, b, hinit, hrun, hb, -⟩ := strbuf_grow_list (fun _ => true)
    [.appendc 98, .insertc 0 97, .deletec 1] ⟨trivial, fun _ => rfl, trivial, fun _ => rfl,
      trivial, fun _ => rfl, trivial⟩ 3
  exact ⟨b₀, b, hinit, hrun, hb⟩

end Console
