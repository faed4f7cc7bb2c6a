import Mathlib.Tactic
import Mathlib.Logic.Function.Basic

/-! A write-back cache in front of a block device, and programs over it.

The cache is a list of clean and dirty copies. A program only reads, writes and
asks whether a copy is dirty, so it cannot tell the cache from a plain array
with a set of dirty keys: that is `Prog.exec_flat`, proved once for all programs. -/
namespace WriteBack

variable {K V S α β : Type}

structure Entry (K V : Type) where
  key : K
  dirty : Bool
  val : V

structure Store (K V : Type) where
  disk : K → V
  cache : List (Entry K V)

/-- The plain array a store stands for: every value as a read would return it. -/
structure Flat (K V S : Type) where
  val : K → V
  dirty : K → Bool
  glob : S

/-- A store together with the client's own state. -/
structure Cached (K V S : Type) where
  store : Store K V
  glob : S

/-- Writes applied to a device, first one first. -/
def apply [DecidableEq K] (d : K → V) (ws : List (K × V)) : K → V :=
  ws.foldl (fun d w => Function.update d w.1 w.2) d

section Device
variable [DecidableEq K] {d : K → V} {ws us : List (K × V)} {k : K} {v : V}

@[simp] theorem apply_nil (d : K → V) : apply d [] = d := rfl

@[simp] theorem apply_cons (d : K → V) (w : K × V) (ws : List (K × V)) :
    apply d (w :: ws) = apply (Function.update d w.1 w.2) ws := rfl

theorem apply_append (d : K → V) (ws us : List (K × V)) :
    apply d (ws ++ us) = apply (apply d ws) us := List.foldl_append

theorem apply_of_notMem (h : k ∉ ws.map Prod.fst) : apply d ws k = d k := by
  induction ws generalizing d with
  | nil => rfl
  | cons w ws ih =>
    simp only [List.map_cons, List.mem_cons, not_or] at h
    rw [apply_cons, ih h.2, Function.update_of_ne h.1]

theorem apply_of_mem (hn : (ws.map Prod.fst).Nodup) (h : (k, v) ∈ ws) : apply d ws k = v := by
  induction ws generalizing d with
  | nil => cases h
  | cons w ws ih =>
    rw [List.map_cons, List.nodup_cons] at hn
    rcases List.mem_cons.mp h with rfl | h
    · rw [apply_cons, apply_of_notMem hn.1, Function.update_self]
    · exact ih hn.2 h

end Device

namespace Store
variable [DecidableEq K] {s : Store K V} {k j : K} {v : V}

def find (c : List (Entry K V)) (k : K) : Option (Entry K V) := c.find? fun e => e.key = k

/-- The value a read of `k` returns. -/
def rd (s : Store K V) (k : K) : V :=
  match find s.cache k with
  | some e => e.val
  | none => s.disk k

def isDirty (s : Store K V) (k : K) : Bool :=
  match find s.cache k with
  | some e => e.dirty
  | none => false

def add (s : Store K V) (e : Entry K V) : Store K V := { s with cache := e :: s.cache }

/-- A read serves the cached copy, or fetches one and keeps it clean. -/
def read (s : Store K V) (k : K) : V × Store K V :=
  match find s.cache k with
  | some e => (e.val, s)
  | none => (s.disk k, s.add ⟨k, false, s.disk k⟩)

/-- Overwrite the first copy of `k` and mark it dirty. -/
def replace (k : K) (v : V) : List (Entry K V) → List (Entry K V)
  | [] => []
  | e :: c => if e.key = k then ⟨k, true, v⟩ :: c else e :: replace k v c

def write (s : Store K V) (k : K) (v : V) : Store K V :=
  match find s.cache k with
  | some _ => { s with cache := replace k v s.cache }
  | none => s.add ⟨k, true, v⟩

/-- The device writes a flush makes, in list order. -/
def pending (s : Store K V) : List (K × V) :=
  (s.cache.filter Entry.dirty).map fun e => (e.key, e.val)

/-- Every dirty copy goes to the device and the cache is emptied. -/
def flush (s : Store K V) : Store K V := ⟨apply s.disk s.pending, []⟩

/-- One copy for each key, and a clean copy is what the device holds. -/
structure Coherent (s : Store K V) : Prop where
  nodup : (s.cache.map Entry.key).Nodup
  clean : ∀ e ∈ s.cache, e.dirty = false → e.val = s.disk e.key

theorem find_key {c : List (Entry K V)} {e : Entry K V} (h : find c k = some e) : e.key = k := by
  simpa using List.find?_some h

theorem find_mem {c : List (Entry K V)} {e : Entry K V} (h : find c k = some e) : e ∈ c :=
  List.mem_of_find?_eq_some h

theorem find_eq_none {c : List (Entry K V)} : find c k = none ↔ k ∉ c.map Entry.key := by
  simp [find, List.find?_eq_none]

theorem find_cons (e : Entry K V) (c : List (Entry K V)) (k : K) :
    find (e :: c) k = if e.key = k then some e else find c k := by
  by_cases h : e.key = k <;> simp [find, h]

theorem find_replace (c : List (Entry K V)) (k j : K) (v : V) (h : find c k ≠ none) :
    find (replace k v c) j = if j = k then some ⟨k, true, v⟩ else find c j := by
  induction c with
  | nil => exact absurd rfl h
  | cons e c ih =>
    by_cases he : e.key = k
    · rw [replace, if_pos he, find_cons, find_cons]
      by_cases hj : j = k
      · simp [hj]
      · simp [hj, he, Ne.symm hj]
    · rw [find_cons, if_neg he] at h
      rw [replace, if_neg he, find_cons, find_cons, ih h]
      by_cases hj : j = k
      · subst hj; simp [he]
      · simp [hj]

theorem keys_replace (c : List (Entry K V)) (k : K) (v : V) :
    (replace k v c).map Entry.key = c.map Entry.key := by
  induction c with
  | nil => rfl
  | cons e c ih =>
    by_cases he : e.key = k
    · simp [replace, he]
    · simp [replace, he, ih]

theorem mem_replace {c : List (Entry K V)} {e : Entry K V} (h : e ∈ replace k v c) :
    e ∈ c ∨ e = ⟨k, true, v⟩ := by
  induction c with
  | nil => cases h
  | cons a c ih =>
    by_cases ha : a.key = k
    · rw [replace, if_pos ha] at h
      rcases List.mem_cons.mp h with rfl | h
      · exact Or.inr rfl
      · exact Or.inl (List.mem_cons_of_mem _ h)
    · rw [replace, if_neg ha] at h
      rcases List.mem_cons.mp h with rfl | h
      · exact Or.inl List.mem_cons_self
      · exact (ih h).imp_left (List.mem_cons_of_mem _)

@[simp] theorem read_fst (s : Store K V) (k : K) : (s.read k).1 = s.rd k := by
  unfold read rd
  cases find s.cache k <;> rfl

@[simp] theorem read_rd (s : Store K V) (k : K) : (s.read k).2.rd = s.rd := by
  funext j
  unfold read
  cases h : find s.cache k with
  | some e => rfl
  | none =>
    by_cases hj : k = j
    · subst hj; simp [rd, add, find_cons, h]
    · simp [rd, add, find_cons, hj]

@[simp] theorem read_isDirty (s : Store K V) (k : K) : (s.read k).2.isDirty = s.isDirty := by
  funext j
  unfold read
  cases h : find s.cache k with
  | some e => rfl
  | none =>
    by_cases hj : k = j
    · subst hj; simp [isDirty, add, find_cons, h]
    · simp [isDirty, add, find_cons, hj]

@[simp] theorem read_disk (s : Store K V) (k : K) : (s.read k).2.disk = s.disk := by
  unfold read
  cases find s.cache k <;> rfl

theorem read_cache_ne_nil (s : Store K V) (k : K) : (s.read k).2.cache ≠ [] := by
  unfold read
  cases h : find s.cache k with
  | some e => exact List.ne_nil_of_mem (find_mem h)
  | none => simp [add]

/-- After a read there is a copy of what was read, and no other was added. -/
theorem read_keys (s : Store K V) (k j : K) :
    j ∈ (s.read k).2.cache.map Entry.key ↔ j = k ∨ j ∈ s.cache.map Entry.key := by
  unfold read
  cases h : find s.cache k with
  | some e =>
    have hk := List.mem_map_of_mem (f := Entry.key) (find_mem h)
    rw [find_key h] at hk
    exact ⟨Or.inr, fun hj => hj.elim (fun hj => hj ▸ hk) id⟩
  | none => simp [add]

@[simp] theorem write_rd (s : Store K V) (k : K) (v : V) :
    (s.write k v).rd = Function.update s.rd k v := by
  funext j
  unfold write
  cases h : find s.cache k with
  | some e =>
    have hr := find_replace s.cache k j v (by rw [h]; simp)
    simp only [rd, hr, Function.update_apply]
    by_cases hj : j = k <;> simp [hj]
  | none =>
    simp only [rd, add, find_cons, Function.update_apply]
    by_cases hj : j = k
    · simp [hj]
    · simp [hj, Ne.symm hj]

@[simp] theorem write_isDirty (s : Store K V) (k : K) (v : V) :
    (s.write k v).isDirty = Function.update s.isDirty k true := by
  funext j
  unfold write
  cases h : find s.cache k with
  | some e =>
    have hr := find_replace s.cache k j v (by rw [h]; simp)
    simp only [isDirty, hr, Function.update_apply]
    by_cases hj : j = k <;> simp [hj]
  | none =>
    simp only [isDirty, add, find_cons, Function.update_apply]
    by_cases hj : j = k
    · simp [hj]
    · simp [hj, Ne.symm hj]

@[simp] theorem write_disk (s : Store K V) (k : K) (v : V) : (s.write k v).disk = s.disk := by
  unfold write
  cases find s.cache k <;> rfl

theorem write_cache_ne_nil (s : Store K V) (k : K) (v : V) : (s.write k v).cache ≠ [] := by
  unfold write
  cases h : find s.cache k with
  | some e =>
    intro hn
    have hk := congrArg (List.map Entry.key) hn
    rw [keys_replace] at hk
    have hc : s.cache = [] := by simpa using hk
    simp [hc, find] at h
  | none => simp [add]

theorem write_keys (s : Store K V) (k j : K) (v : V) :
    j ∈ (s.write k v).cache.map Entry.key ↔ j = k ∨ j ∈ s.cache.map Entry.key := by
  unfold write
  cases h : find s.cache k with
  | some e =>
    have hk := List.mem_map_of_mem (f := Entry.key) (find_mem h)
    rw [find_key h] at hk
    simp only [keys_replace]
    exact ⟨Or.inr, fun hj => hj.elim (fun hj => hj ▸ hk) id⟩
  | none => simp [add]

omit [DecidableEq K] in
theorem coherent_empty (d : K → V) : Coherent ⟨d, []⟩ := ⟨by simp, by simp⟩

theorem Coherent.read (h : Coherent s) (k : K) : Coherent (s.read k).2 := by
  unfold Store.read
  cases hf : find s.cache k with
  | some e => exact h
  | none =>
    refine ⟨?_, ?_⟩
    · simpa [add] using ⟨by simpa using find_eq_none.mp hf, h.nodup⟩
    · intro e he hd
      rcases List.mem_cons.mp he with rfl | he
      · rfl
      · exact h.clean e he hd

theorem Coherent.write (h : Coherent s) (k : K) (v : V) : Coherent (s.write k v) := by
  unfold Store.write
  cases hf : find s.cache k with
  | some e =>
    refine ⟨by simpa only [keys_replace] using h.nodup, ?_⟩
    intro e he hd
    rcases mem_replace he with he | rfl
    · exact h.clean e he hd
    · cases hd
  | none =>
    refine ⟨?_, ?_⟩
    · simpa [add] using ⟨by simpa using find_eq_none.mp hf, h.nodup⟩
    · intro e he hd
      rcases List.mem_cons.mp he with rfl | he
      · cases hd
      · exact h.clean e he hd

theorem Coherent.find_of_mem (h : Coherent s) {e : Entry K V} (he : e ∈ s.cache) :
    find s.cache e.key = some e := by
  have hn := h.nodup
  generalize s.cache = c at he hn
  induction c with
  | nil => cases he
  | cons a c ih =>
    rw [List.map_cons, List.nodup_cons] at hn
    rw [find_cons]
    rcases List.mem_cons.mp he with rfl | he
    · rw [if_pos rfl]
    · have hne : a.key ≠ e.key := fun hk => hn.1 (hk ▸ List.mem_map_of_mem he)
      rw [if_neg hne, ih he hn.2]

omit [DecidableEq K] in
theorem pending_keys_nodup (h : Coherent s) : (s.pending.map Prod.fst).Nodup := by
  have hs : (s.pending.map Prod.fst).Sublist (s.cache.map Entry.key) := by
    simpa [pending, Function.comp_def] using
      (List.filter_sublist (p := Entry.dirty) (l := s.cache)).map Entry.key
  exact hs.nodup h.nodup

/-- The pending writes are exactly the dirty keys with their current values. -/
theorem mem_pending (h : Coherent s) : (k, v) ∈ s.pending ↔ s.isDirty k = true ∧ s.rd k = v := by
  simp only [pending, List.mem_map, List.mem_filter]
  constructor
  · rintro ⟨e, ⟨he, hd⟩, heq⟩
    cases heq
    have hf := h.find_of_mem he
    simp [isDirty, rd, hf, hd]
  · rintro ⟨hd, hv⟩
    cases hf : find s.cache k with
    | none => simp [isDirty, hf] at hd
    | some e =>
      simp only [isDirty, rd, hf] at hd hv
      exact ⟨e, ⟨find_mem hf, hd⟩, by rw [find_key hf, hv]⟩

theorem mem_pending_keys (h : Coherent s) : k ∈ s.pending.map Prod.fst ↔ s.isDirty k = true := by
  simp only [List.mem_map, Prod.exists, exists_and_right, exists_eq_right]
  constructor
  · rintro ⟨v, hv⟩
    exact ((mem_pending h).mp hv).1
  · intro hd
    exact ⟨s.rd k, (mem_pending h).mpr ⟨hd, rfl⟩⟩

theorem rd_of_clean (h : Coherent s) (hd : s.isDirty k = false) : s.rd k = s.disk k := by
  unfold rd isDirty at *
  cases hf : find s.cache k with
  | none => rfl
  | some e =>
    rw [hf] at hd
    rw [← find_key hf]
    exact h.clean e (find_mem hf) hd

/-- A device on which some of the pending writes were made. -/
theorem apply_take_pending (h : Coherent s) (m : Nat) (k : K) :
    apply s.disk (s.pending.take m) k =
      if k ∈ (s.pending.take m).map Prod.fst then s.rd k else s.disk k := by
  by_cases hk : k ∈ (s.pending.take m).map Prod.fst
  · rw [if_pos hk]
    obtain ⟨⟨k, v⟩, hv, rfl⟩ := List.mem_map.mp hk
    have hn : ((s.pending.take m).map Prod.fst).Nodup := by
      rw [List.map_take]
      exact (List.take_sublist _ _).nodup (pending_keys_nodup h)
    rw [apply_of_mem hn hv]
    exact ((mem_pending h).mp (List.mem_of_mem_take hv)).2.symm
  · rw [if_neg hk, apply_of_notMem hk]

/-- After a flush the device holds what a read returned before it. -/
theorem flush_disk (h : Coherent s) : s.flush.disk = s.rd := by
  funext k
  have ht := apply_take_pending h s.pending.length k
  rw [List.take_length] at ht
  change apply s.disk s.pending k = _
  rw [ht]
  by_cases hk : s.isDirty k = true
  · rw [if_pos ((mem_pending_keys h).mpr hk)]
  · rw [if_neg (fun hm => hk ((mem_pending_keys h).mp hm)), rd_of_clean h (by simpa using hk)]

end Store

/-- The plain array behind a cached store. -/
def Cached.flat [DecidableEq K] (c : Cached K V S) : Flat K V S :=
  ⟨c.store.rd, c.store.isDirty, c.glob⟩

/-- A program that reaches the store only by reading, writing and testing for
dirty copies, and has state of its own. -/
inductive Prog (K V S : Type) (α : Type) where
  | ret (a : α)
  | read (k : K) (next : V → Prog K V S α)
  | write (k : K) (v : V) (next : Prog K V S α)
  | dirty (k : K) (next : Bool → Prog K V S α)
  | get (next : S → Prog K V S α)
  | set (g : S) (next : Prog K V S α)

namespace Prog

def bind : Prog K V S α → (α → Prog K V S β) → Prog K V S β
  | .ret a, f => f a
  | .read k next, f => .read k fun v => (next v).bind f
  | .write k v next, f => .write k v (next.bind f)
  | .dirty k next, f => .dirty k fun b => (next b).bind f
  | .get next, f => .get fun g => (next g).bind f
  | .set g next, f => .set g (next.bind f)

instance : Monad (Prog K V S) where
  pure := .ret
  bind := bind

def readAt (k : K) : Prog K V S V := .read k .ret
def writeAt (k : K) (v : V) : Prog K V S Unit := .write k v (.ret ())
def dirtyAt (k : K) : Prog K V S Bool := .dirty k .ret
def getGlob : Prog K V S S := .get .ret
def setGlob (g : S) : Prog K V S Unit := .set g (.ret ())

variable [DecidableEq K]

/-- Running on the plain array: a read changes nothing. -/
def eval : Prog K V S α → Flat K V S → α × Flat K V S
  | .ret a, s => (a, s)
  | .read k next, s => (next (s.val k)).eval s
  | .write k v next, s =>
    next.eval { s with val := Function.update s.val k v, dirty := Function.update s.dirty k true }
  | .dirty k next, s => (next (s.dirty k)).eval s
  | .get next, s => (next s.glob).eval s
  | .set g next, s => next.eval { s with glob := g }

/-- Running on the cache. -/
def exec : Prog K V S α → Cached K V S → α × Cached K V S
  | .ret a, c => (a, c)
  | .read k next, c => (next (c.store.read k).1).exec { c with store := (c.store.read k).2 }
  | .write k v next, c => next.exec { c with store := c.store.write k v }
  | .dirty k next, c => (next (c.store.isDirty k)).exec c
  | .get next, c => (next c.glob).exec c
  | .set g next, c => next.exec { c with glob := g }

variable (s : Flat K V S) (c : Cached K V S)

@[simp] theorem eval_pure (a : α) : (pure a : Prog K V S α).eval s = (a, s) := rfl
@[simp] theorem eval_readAt (k : K) : (readAt k).eval s = (s.val k, s) := rfl
@[simp] theorem eval_dirtyAt (k : K) : (dirtyAt k : Prog K V S Bool).eval s = (s.dirty k, s) := rfl
@[simp] theorem eval_getGlob : (getGlob : Prog K V S S).eval s = (s.glob, s) := rfl
@[simp] theorem eval_setGlob (g : S) : (setGlob g).eval s = ((), { s with glob := g }) := rfl

@[simp] theorem eval_writeAt (k : K) (v : V) : (writeAt k v).eval s =
    ((), { s with val := Function.update s.val k v,
                  dirty := Function.update s.dirty k true }) := rfl

@[simp] theorem eval_bind (p : Prog K V S α) (f : α → Prog K V S β) :
    (p >>= f).eval s = (f (p.eval s).1).eval (p.eval s).2 := by
  change (p.bind f).eval s = _
  induction p generalizing s with
  | ret a => rfl
  | read k next ih => exact ih _ s
  | write k v next ih => exact ih _
  | dirty k next ih => exact ih _ s
  | get next ih => exact ih _ s
  | set g next ih => exact ih _

@[simp] theorem eval_ite (b : Prop) [Decidable b] (p q : Prog K V S α) :
    (if b then p else q).eval s = if b then p.eval s else q.eval s := by
  split <;> rfl

/-- The cache refines the plain array: same answers, same array afterwards. -/
theorem exec_flat (p : Prog K V S α) :
    (p.exec c).1 = (p.eval c.flat).1 ∧ (p.exec c).2.flat = (p.eval c.flat).2 := by
  induction p generalizing c with
  | ret a => exact ⟨rfl, rfl⟩
  | read k next ih =>
    have hf : ({ c with store := (c.store.read k).2 } : Cached K V S).flat = c.flat := by
      simp [Cached.flat]
    have h := ih (c.store.read k).1 { c with store := (c.store.read k).2 }
    rw [hf] at h
    simpa [exec, eval, Cached.flat] using h
  | write k v next ih =>
    have h := ih { c with store := c.store.write k v }
    simpa [exec, eval, Cached.flat] using h
  | dirty k next ih => exact ih _ c
  | get next ih => exact ih _ c
  | set g next ih => exact ih { c with glob := g }

/-- Only a flush touches the device. -/
@[simp] theorem exec_disk (p : Prog K V S α) : (p.exec c).2.store.disk = c.store.disk := by
  induction p generalizing c with
  | ret a => rfl
  | read k next ih => exact (ih _ _).trans (Store.read_disk _ _)
  | write k v next ih => exact (ih _).trans (Store.write_disk _ _ _)
  | dirty k next ih => exact ih _ c
  | get next ih => exact ih _ c
  | set g next ih => exact ih _

/-- The keys a run reads or writes. -/
def Touches : Prog K V S α → Flat K V S → K → Prop
  | .ret _, _, _ => False
  | .read k next, s, j => j = k ∨ (next (s.val k)).Touches s j
  | .write k v next, s, j =>
    j = k ∨ next.Touches
      { s with val := Function.update s.val k v, dirty := Function.update s.dirty k true } j
  | .dirty k next, s, j => (next (s.dirty k)).Touches s j
  | .get next, s, j => (next s.glob).Touches s j
  | .set g next, s, j => next.Touches { s with glob := g } j

@[simp] theorem touches_pure (a : α) (j : K) :
    (pure a : Prog K V S α).Touches s j ↔ False := Iff.rfl
@[simp] theorem touches_getGlob (j : K) :
    (getGlob : Prog K V S S).Touches s j ↔ False := Iff.rfl
@[simp] theorem touches_setGlob (g : S) (j : K) : (setGlob g).Touches s j ↔ False := Iff.rfl
@[simp] theorem touches_readAt (k j : K) :
    (readAt k : Prog K V S V).Touches s j ↔ j = k := iff_of_eq (or_false _)

@[simp] theorem touches_bind (p : Prog K V S α) (f : α → Prog K V S β) (j : K) :
    (p >>= f).Touches s j ↔ p.Touches s j ∨ (f (p.eval s).1).Touches (p.eval s).2 j := by
  change (p.bind f).Touches s j ↔ _
  induction p generalizing s with
  | ret a => exact (iff_of_eq (false_or _)).symm
  | read k next ih => exact (or_congr_right (ih _ s)).trans or_assoc.symm
  | write k v next ih => exact (or_congr_right (ih _)).trans or_assoc.symm
  | dirty k next ih => exact ih _ s
  | get next ih => exact ih _ s
  | set g next ih => exact ih _

@[simp] theorem touches_ite (b : Prop) [Decidable b] (p q : Prog K V S α) (j : K) :
    (if b then p else q).Touches s j ↔ if b then p.Touches s j else q.Touches s j := by
  split <;> rfl

/-- A run adds copies of just the keys it reads or writes. -/
theorem exec_keys (p : Prog K V S α) (j : K) :
    j ∈ (p.exec c).2.store.cache.map Entry.key ↔
      j ∈ c.store.cache.map Entry.key ∨ p.Touches c.flat j := by
  induction p generalizing c with
  | ret a => exact (iff_of_eq (or_false _)).symm
  | read k next ih =>
    have hf : ({ c with store := (c.store.read k).2 } : Cached K V S).flat = c.flat := by
      simp [Cached.flat]
    have h := ih (c.store.read k).1 { c with store := (c.store.read k).2 }
    rw [hf, Store.read_keys, Store.read_fst] at h
    rw [exec, Store.read_fst, h, Touches, or_comm (a := j = k), or_assoc]
    rfl
  | write k v next ih =>
    have h := ih { c with store := c.store.write k v }
    rw [Store.write_keys] at h
    rw [exec, h, Touches, or_comm (a := j = k), or_assoc]
    simp [Cached.flat]
  | dirty k next ih => exact ih _ c
  | get next ih => exact ih _ c
  | set g next ih => exact ih { c with glob := g }

variable {c}

theorem exec_coherent (p : Prog K V S α) (h : c.store.Coherent) : (p.exec c).2.store.Coherent := by
  induction p generalizing c with
  | ret a => exact h
  | read k next ih => exact ih _ (h.read k)
  | write k v next ih => exact ih (h.write k v)
  | dirty k next ih => exact ih _ h
  | get next ih => exact ih _ h
  | set g next ih => exact ih h

theorem exec_cache_ne_nil (p : Prog K V S α) (h : c.store.cache ≠ []) :
    (p.exec c).2.store.cache ≠ [] := by
  induction p generalizing c with
  | ret a => exact h
  | read k next ih => exact ih _ (Store.read_cache_ne_nil _ _)
  | write k v next ih => exact ih (Store.write_cache_ne_nil _ _ _)
  | dirty k next ih => exact ih _ h
  | get next ih => exact ih _ h
  | set g next ih => exact ih h

/-- Whatever the program does, `P` stays true of its own state. -/
def Keeps (P : S → Prop) (p : Prog K V S α) : Prop :=
  ∀ s : Flat K V S, P s.glob → P (p.eval s).2.glob

namespace Keeps

variable {P : S → Prop}

theorem pure (a : α) : Keeps P (Pure.pure a : Prog K V S α) := fun _ h => h
theorem readAt (k : K) : Keeps P (readAt k : Prog K V S V) := fun _ h => h
theorem writeAt (k : K) (v : V) : Keeps P (writeAt k v : Prog K V S Unit) := fun _ h => h
theorem dirtyAt (k : K) : Keeps P (dirtyAt k : Prog K V S Bool) := fun _ h => h
theorem getGlob : Keeps P (getGlob : Prog K V S S) := fun _ h => h

theorem bind {p : Prog K V S α} {f : α → Prog K V S β} (hp : Keeps P p)
    (hf : ∀ a, Keeps P (f a)) : Keeps P (p >>= f) := by
  intro s h
  rw [eval_bind]
  exact hf _ _ (hp s h)

theorem modify {f : S → S} (hf : ∀ g, P g → P (f g)) :
    Keeps P (Prog.getGlob >>= fun g => Prog.setGlob (f g) : Prog K V S Unit) :=
  fun s h => hf s.glob h

theorem ite {c : Prop} [Decidable c] {p q : Prog K V S α} (hp : Keeps P p) (hq : Keeps P q) :
    Keeps P (if c then p else q) := by
  split
  · exact hp
  · exact hq

end Keeps

/-- The program leaves the array and its own state as they are. -/
def ReadOnly (p : Prog K V S α) : Prop := ∀ s : Flat K V S, (p.eval s).2 = s

namespace ReadOnly

theorem pure (a : α) : ReadOnly (Pure.pure a : Prog K V S α) := fun _ => rfl
theorem readAt (k : K) : ReadOnly (readAt k : Prog K V S V) := fun _ => rfl
theorem getGlob : ReadOnly (getGlob : Prog K V S S) := fun _ => rfl

theorem bind {p : Prog K V S α} {f : α → Prog K V S β} (hp : ReadOnly p)
    (hf : ∀ a, ReadOnly (f a)) : ReadOnly (p >>= f) := by
  intro s
  rw [eval_bind, hf, hp]

theorem ite {c : Prop} [Decidable c] {p q : Prog K V S α} (hp : ReadOnly p) (hq : ReadOnly q) :
    ReadOnly (if c then p else q) := by
  split
  · exact hp
  · exact hq

end ReadOnly
end Prog

end WriteBack
