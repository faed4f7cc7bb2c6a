import CobaltRom.Crfs.Cache

/-! The block cache of `crfs_func.c` behaves as a plain array of blocks. -/
namespace Crfs
open WriteBack

variable {c : Machine} {disk : BlockId → Block} {g : Globals} {i : BlockId}

inductive CacheCall where
  | read (idx : BlockId)
  | write (idx : BlockId) (data : Block)
  | flush

def CacheCall.step (c : Machine) : CacheCall → Machine
  | .read idx => ((crfsReadBlock idx).exec c).2
  | .write idx data => ((crfsWriteBlock idx data).exec c).2
  | .flush => cacheFlush c

def runCalls (c : Machine) (calls : List CacheCall) : Machine := calls.foldl CacheCall.step c

/-- The super block a flush stores, if it stores one. -/
def flushSuper (c : Machine) : List (BlockId × Block) :=
  if c.store.cache = [] then []
  else [(sbBlocknum (nextWhich c.glob.crfsWhichSuper), nextSuper c.glob.superBlock)]

/-- What a call writes: the caller's block, or the super block of a flush. -/
def CacheCall.stores (c : Machine) : CacheCall → List (BlockId × Block)
  | .read _ => []
  | .write idx data => [(idx, data)]
  | .flush => flushSuper c

/-- All writes of a run in order. -/
def storesOf (c : Machine) : List CacheCall → List (BlockId × Block)
  | [] => []
  | a :: calls => a.stores c ++ storesOf (a.step c) calls

/-- The last value written to a block, or the one the disk had. -/
def lastStored (disk : BlockId → Block) (ws : List (BlockId × Block)) (i : BlockId) : Block :=
  match ws.reverse.find? fun w => w.1 = i with
  | some w => w.2
  | none => disk i

theorem lastStored_eq_apply (disk : BlockId → Block) (ws : List (BlockId × Block)) (i : BlockId) :
    lastStored disk ws i = apply disk ws i := by
  induction ws generalizing disk with
  | nil => rfl
  | cons w ws ih =>
    rw [apply_cons, ← ih]
    unfold lastStored
    rw [List.reverse_cons, List.find?_append]
    cases ws.reverse.find? fun w => w.1 = i with
    | some v => rfl
    | none =>
      by_cases hw : w.1 = i
      · subst hw; simp
      · simp [hw, Function.update_of_ne (Ne.symm hw)]

theorem flushWrites_eq (c : Machine) : flushWrites c = c.store.pending ++ flushSuper c := rfl

/-- A flush leaves on the device what the cache showed, and then its super block. -/
theorem cacheFlush_disk (h : c.store.Coherent) :
    (cacheFlush c).store.disk = apply c.store.rd (flushSuper c) := by
  change apply c.store.disk (flushWrites c) = _
  rw [flushWrites_eq, apply_append, ← Store.flush_disk h]
  rfl

theorem cacheFlush_rd (h : c.store.Coherent) :
    (cacheFlush c).store.rd = apply c.store.rd (flushSuper c) := by
  rw [← cacheFlush_disk h]
  rfl

theorem cacheFlush_coherent (c : Machine) : (cacheFlush c).store.Coherent :=
  Store.coherent_empty _

/-- One call keeps the cache coherent and writes exactly what it stores. -/
theorem step_rd (h : c.store.Coherent) (a : CacheCall) :
    (a.step c).store.Coherent ∧ (a.step c).store.rd = apply c.store.rd (a.stores c) := by
  cases a with
  | read idx => exact ⟨h.read idx, Store.read_rd _ _⟩
  | write idx data => exact ⟨h.write idx data, Store.write_rd _ _ _⟩
  | flush => exact ⟨cacheFlush_coherent c, cacheFlush_rd h⟩

theorem runCalls_rd (calls : List CacheCall) : ∀ c : Machine, c.store.Coherent →
    (runCalls c calls).store.Coherent ∧
      (runCalls c calls).store.rd = apply c.store.rd (storesOf c calls) := by
  induction calls with
  | nil => intro c h; exact ⟨h, rfl⟩
  | cons a calls ih =>
    intro c h
    obtain ⟨hc, hr⟩ := step_rd h a
    obtain ⟨hc', hr'⟩ := ih (a.step c) hc
    refine ⟨hc', ?_⟩
    rw [storesOf, apply_append, ← hr]
    exact hr'

theorem storesOf_append (c : Machine) (xs ys : List CacheCall) :
    storesOf c (xs ++ ys) = storesOf c xs ++ storesOf (runCalls c xs) ys := by
  induction xs generalizing c with
  | nil => rfl
  | cons a xs ih =>
    change a.stores c ++ storesOf (a.step c) (xs ++ ys) = _
    rw [ih, ← List.append_assoc]
    rfl

/-- The write-back cache refines a plain block array: after any calls on an empty
cache no block is cached twice, a read returns the last value stored, and a flush
brings exactly the stored values to the disk. -/
theorem cache_refines_blockArray (disk : BlockId → Block) (g : Globals)
    (calls : List CacheCall) :
    ((runCalls ⟨⟨disk, []⟩, g⟩ calls).store.cache.map Entry.key).Nodup ∧
    (∀ i, ((crfsReadBlock i).exec (runCalls ⟨⟨disk, []⟩, g⟩ calls)).1 =
      lastStored disk (storesOf ⟨⟨disk, []⟩, g⟩ calls) i) ∧
    ∀ i, (runCalls ⟨⟨disk, []⟩, g⟩ (calls ++ [.flush])).store.disk i =
      lastStored disk (storesOf ⟨⟨disk, []⟩, g⟩ (calls ++ [.flush])) i := by
  obtain ⟨hc, hr⟩ := runCalls_rd calls ⟨⟨disk, []⟩, g⟩ (Store.coherent_empty disk)
  refine ⟨hc.nodup, ?_, ?_⟩
  · intro i
    rw [lastStored_eq_apply]
    change ((runCalls ⟨⟨disk, []⟩, g⟩ calls).store.read i).1 = _
    rw [Store.read_fst, hr]
    rfl
  · intro i
    rw [lastStored_eq_apply, storesOf_append, apply_append, runCalls, List.foldl_append]
    change (cacheFlush (runCalls ⟨⟨disk, []⟩, g⟩ calls)).store.disk i = _
    rw [cacheFlush_disk hc, hr]
    change _ = apply (apply disk (storesOf ⟨⟨disk, []⟩, g⟩ calls))
      (flushSuper (runCalls ⟨⟨disk, []⟩, g⟩ calls) ++ []) i
    rw [List.append_nil]
    rfl

end Crfs
